import SpatialDb.Storage.Snapshot

/-!
# Compaction of the log

Model of `cpp/storage/compactor.cpp` running next to a thread that appends to
the log: `Compactor::compact` dumps the index, writes a snapshot, commits it
and truncates the log file.  Appends precede their index update, so the index
may lag behind the acknowledged entries (`applied` and `acked`).

The dump callback is a parameter.  `InDump es e` says that the entries `es`
account for the logged operation `e`; the callback is assumed to return a
dump that accounts for everything applied to the index.
-/

namespace SpatialDb.Storage.Compactor

open Lib List
open Storage.Wal
open Storage.Snapshot

/-- Where `compact` stands. -/
inductive Phase where
  /-- Not running. -/
  | idle
  /-- `dump_fn` has returned. -/
  | dumped (entries : List IndexEntry)
  /-- Inside the loop over the entries that are left. -/
  | writing (writer : SnapshotWriter) (todo : List IndexEntry)
  /-- Committed, log not yet truncated. -/
  | committed
  deriving DecidableEq

/-- The appender's log object (its `disk` is the shared file), the snapshot
file, and the two threads' progress. -/
structure State where
  wal : WAL
  acked : List WalEntry
  applied : List WalEntry
  snapshot : Option Bytes
  phase : Phase
  deriving DecidableEq

def State.init (syncEvery : Nat) : State := ⟨WAL.new [] syncEvery, [], [], none, .idle⟩

/-- One step of either thread, with the outcome of its system calls. -/
inductive Step where
  | append (io : Io) (e : WalEntry)
  /-- The index catches up with the acknowledged entries. -/
  | apply
  | dump
  | beginSnapshot (now : UInt64) (ok : Bool)
  /-- `cut` is as in `SnapshotWriter.writeEntry`. -/
  | writeEntry (cut : Option Nat)
  | commit (ok : Bool)
  /-- The compactor opens a log object of its own and truncates the file. -/
  | truncate (openOk : Bool)
  deriving DecidableEq

section

variable (dumpFn : List WalEntry → List IndexEntry)

/-- A step that does not fit the phase changes nothing. -/
def step (s : State) : Step → State
  | .append io e =>
    let (ok, wal) := s.wal.append io e
    { s with wal, acked := if ok then s.acked ++ [e] else s.acked }
  | .apply => { s with applied := s.acked }
  | .dump =>
    match s.phase with
    | .idle => { s with phase := .dumped (dumpFn s.applied) }
    | _ => s
  | .beginSnapshot now ok =>
    match s.phase with
    | .dumped entries =>
      { s with phase := if ok then .writing (.begin now) entries else .idle }
    | _ => s
  | .writeEntry cut =>
    match s.phase with
    | .writing writer (e :: todo) =>
      -- the result of `writeEntry` is ignored
      { s with phase := .writing (writer.writeEntry cut e).2 todo }
    | _ => s
  | .commit ok =>
    match s.phase with
    | .writing writer [] =>
      if ok then { s with snapshot := some writer.commit, phase := .committed }
      else { s with phase := .idle }
    | _ => s
  | .truncate openOk =>
    match s.phase with
    | .committed =>
      let wal := ((WAL.new s.wal.disk 100).truncate {} openOk).2
      { s with wal := { s.wal with disk := wal.disk }, phase := .idle }
    | _ => s

def run (syncEvery : Nat) (steps : List Step) : State :=
  steps.foldl (step dumpFn) (State.init syncEvery)

variable (InDump : List IndexEntry → WalEntry → Prop)

/-- What a restart after a crash finds: the log file or the committed snapshot. -/
def Recoverable (s : State) (e : WalEntry) : Prop :=
  e ∈ replay s.wal.disk ∨ ∃ es, s.snapshot.bind load = some es ∧ InDump es e

/-- The strings of a log entry fit the limit of the readers. -/
def ShortEntry (e : WalEntry) : Prop :=
  e.collection.length ≤ 1024 ∧ e.id.length ≤ 1024

/-- The steps that lose nothing: appends only while no compaction is under
way, dumps of an index that has caught up, no failing snapshot write, and no
string over the limit of the readers. -/
def SafeStep (s : State) : Step → Prop
  | .append io e => s.phase = .idle ∧ io.flushOk = true ∧ ShortEntry e
  | .dump => s.applied = s.acked ∧ (dumpFn s.applied).length < 2 ^ 64 ∧
      ∀ x ∈ dumpFn s.applied, Short x
  | .writeEntry cut => cut = none
  | _ => True

/-- Every step of the run is safe in the state it is taken in. -/
def SafeRun (s : State) : List Step → Prop
  | [] => True
  | st :: steps => SafeStep dumpFn s st ∧ SafeRun (step dumpFn s st) steps

/-! ## The invariant -/

variable {s : State} {e : WalEntry}

variable {dumpFn InDump}

/-- The log file holds whole records that replay returns unchanged. -/
structure LogOk (w : WAL) (es : List WalEntry) : Prop where
  buf : w.buf = []
  syncEvery : w.syncEvery ≤ 1
  disk : w.disk = es.flatMap WalEntry.encode
  short : ∀ e ∈ es, ShortEntry e

theorem LogOk.replay {w : WAL} {es : List WalEntry} (h : LogOk w es) : replay w.disk = es := by
  rw [h.disk]
  exact (replay_flatMap_encode_eq_self_iff es).mpr h.short

/-- What the compactor has in hand accounts for every acknowledged entry. -/
def PhaseOk (InDump : List IndexEntry → WalEntry → Prop) (s : State) : Prop :=
  match s.phase with
  | .idle => True
  | .dumped es => es.length < 2 ^ 64 ∧ (∀ x ∈ es, Short x) ∧ ∀ e ∈ s.acked, InDump es e
  | .writing w todo => ∃ done, Wrote w done ∧ (done ++ todo).length < 2 ^ 64 ∧
      (∀ x ∈ done ++ todo, Short x) ∧ ∀ e ∈ s.acked, InDump (done ++ todo) e
  | .committed => ∃ es, s.snapshot.bind load = some es ∧ ∀ e ∈ s.acked, InDump es e

structure Inv (InDump : List IndexEntry → WalEntry → Prop) (s : State) : Prop where
  log : ∃ es, LogOk s.wal es
  recoverable : ∀ e ∈ s.acked, Recoverable InDump s e
  phase : PhaseOk InDump s

theorem init_inv {syncEvery : Nat} (h : syncEvery ≤ 1) : Inv InDump (State.init syncEvery) where
  log := ⟨[], rfl, h, rfl, by simp⟩
  recoverable := by simp [State.init]
  phase := trivial

/-- With a sync after every append, a record is in the file before it is
acknowledged. -/
theorem LogOk.append {w : WAL} {es : List WalEntry} (h : LogOk w es) {io : Io}
    (hio : io.flushOk = true) (he : ShortEntry e) :
    ∃ es', LogOk (w.append io e).2 es' ∧ (∀ x ∈ es, x ∈ es') ∧
      ((w.append io e).1 = true → e ∈ es') := by
  unfold WAL.append WAL.writeEntry
  cases hgood : w.good with
  | false => exact ⟨es, by simpa [hgood] using h, fun _ hx => hx, by simp⟩
  | true =>
    cases hwrite : io.writeOk with
    | false =>
      exact ⟨es, ⟨h.buf, h.syncEvery, h.disk, h.short⟩, fun _ hx => hx, by simp⟩
    | true =>
      have hdue : w.pending + 1 ≥ w.syncEvery := le_trans h.syncEvery (Nat.le_add_left 1 _)
      refine ⟨es ++ [e], ?_, fun x hx => mem_append_left _ hx, by simp⟩
      simp only [Bool.not_true, Bool.false_eq_true, if_false, if_true, hdue,
        WAL.syncToDisk, flushStream_isOpen]
      -- the outcome of the sync decides the answer, not the contents
      have hok : ∀ w' : WAL, w'.buf = [] → w'.syncEvery = w.syncEvery →
          w'.disk = w.disk ++ (w.buf ++ e.encode) → LogOk w' (es ++ [e]) := by
        intro w' hbuf hsync hdisk
        refine ⟨hbuf, hsync ▸ h.syncEvery, ?_, ?_⟩
        · rw [hdisk, h.disk, h.buf]
          simp
        · intro x hx
          rcases mem_append.mp hx with hx | hx
          · exact h.short x hx
          · exact mem_singleton.mp hx ▸ he
      split <;> split <;> apply hok <;> simp [WAL.flushStream, hio]

theorem Recoverable.of_log {s s' : State} {es es' : List WalEntry} (h : LogOk s.wal es)
    (h' : LogOk s'.wal es') (hsub : ∀ x ∈ es, x ∈ es') (hsnap : s'.snapshot = s.snapshot)
    (he : Recoverable InDump s e) : Recoverable InDump s' e := by
  unfold Recoverable at he ⊢
  rw [hsnap, h'.replay]
  rw [h.replay] at he
  exact he.imp_left (hsub e)

/-- The steps that touch neither the log nor the snapshot file. -/
theorem Inv.of_same_files {s s' : State} (h : Inv InDump s) (hwal : s'.wal = s.wal)
    (hsnap : s'.snapshot = s.snapshot) (hacked : s'.acked = s.acked)
    (hphase : PhaseOk InDump s') : Inv InDump s' where
  log := hwal ▸ h.log
  recoverable := by
    intro e he
    have hrec := h.recoverable e (hacked ▸ he)
    rwa [Recoverable, ← hwal, ← hsnap] at hrec
  phase := hphase

theorem Inv.append (h : Inv InDump s) {io : Io}
    (hsafe : SafeStep dumpFn s (.append io e)) : Inv InDump (step dumpFn s (.append io e)) := by
  obtain ⟨hidle, hio, hshort⟩ := hsafe
  obtain ⟨es, hlog⟩ := h.log
  obtain ⟨es', hlog', hsub, hnew⟩ := hlog.append hio hshort
  have hstep : LogOk (step dumpFn s (.append io e)).wal es' := hlog'
  have hold : ∀ x ∈ s.acked, Recoverable InDump (step dumpFn s (.append io e)) x :=
    fun x hx => (h.recoverable x hx).of_log hlog hstep hsub rfl
  refine ⟨⟨es', hlog'⟩, ?_, ?_⟩
  · intro x hx
    simp only [step] at hx
    split_ifs at hx with hok
    · rcases mem_append.mp hx with hx | hx
      · exact hold x hx
      left
      show x ∈ replay (s.wal.append io e).2.disk
      rw [hlog'.replay, mem_singleton.mp hx]
      exact hnew hok
    · exact hold x hx
  · simp [PhaseOk, step, hidle]

/-- A committed snapshot takes over from the log. -/
theorem Inv.commit (h : Inv InDump s) {w : SnapshotWriter} (hs : s.phase = .writing w []) :
    Inv InDump { s with snapshot := some w.commit, phase := .committed } := by
  have hphase := h.phase
  simp only [PhaseOk, hs, append_nil] at hphase
  obtain ⟨done, hw, hlen, hshort, hin⟩ := hphase
  have hload : (some w.commit).bind load = some done := by
    rw [Option.bind_some]
    exact load_commit_of_short hw hlen hshort
  refine ⟨h.log, ?_, ⟨done, hload, hin⟩⟩
  intro e he
  exact Or.inr ⟨done, hload, hin e he⟩

theorem Inv.truncate (h : Inv InDump s) (hs : s.phase = .committed)
    (openOk : Bool) : Inv InDump (step dumpFn s (.truncate openOk)) := by
  have hphase := h.phase
  simp only [PhaseOk, hs] at hphase
  obtain ⟨es, hload, hin⟩ := hphase
  obtain ⟨log, hlog⟩ := h.log
  have hdisk : (step dumpFn s (.truncate openOk)).wal =
      { s.wal with disk := if openOk then [] else s.wal.disk } := by
    cases openOk <;> simp [step, hs, WAL.truncate, WAL.flushStream, WAL.new]
  have hsnap : (step dumpFn s (.truncate openOk)).snapshot = s.snapshot := by
    simp [step, hs]
  refine ⟨?_, ?_, ?_⟩
  · cases openOk with
    | true => exact ⟨[], hdisk ▸ ⟨hlog.buf, hlog.syncEvery, rfl, by simp⟩⟩
    | false => exact ⟨log, hdisk ▸ ⟨hlog.buf, hlog.syncEvery, hlog.disk, hlog.short⟩⟩
  · intro e he
    have he' : e ∈ s.acked := by simpa [step, hs] using he
    exact Or.inr ⟨es, hsnap ▸ hload, hin e he'⟩
  · simp [PhaseOk, step, hs]

section

variable (hdump : ∀ applied, ∀ e ∈ applied, InDump (dumpFn applied) e)
include hdump

/-- **A safe step keeps every acknowledged entry recoverable.** -/
theorem Inv.step (h : Inv InDump s) (st : Step) (hsafe : SafeStep dumpFn s st) :
    Inv InDump (step dumpFn s st) := by
  have hphase := h.phase
  cases st with
  | append io e => exact h.append hsafe
  | apply => exact h.of_same_files rfl rfl rfl hphase
  | dump =>
    obtain ⟨happlied, hlen, hshort⟩ := hsafe
    cases hs : s.phase with
    | idle =>
      simp only [Compactor.step, hs]
      refine h.of_same_files rfl rfl rfl ⟨hlen, hshort, fun e he => ?_⟩
      exact hdump _ e (happlied ▸ he)
    | _ => simpa [Compactor.step, hs] using h
  | beginSnapshot now ok =>
    cases hs : s.phase with
    | dumped es =>
      simp only [PhaseOk, hs] at hphase
      simp only [Compactor.step, hs]
      cases ok with
      | true => exact h.of_same_files rfl rfl rfl ⟨[], Wrote.begin now, by simpa using hphase⟩
      | false => exact h.of_same_files rfl rfl rfl trivial
    | _ => simpa [Compactor.step, hs] using h
  | writeEntry cut =>
    cases hs : s.phase with
    | writing w todo =>
      cases todo with
      | nil => simpa [Compactor.step, hs] using h
      | cons e todo =>
        simp only [PhaseOk, hs] at hphase
        obtain ⟨done, hw, hrest⟩ := hphase
        have hcut : cut = none := hsafe
        simp only [Compactor.step, hs, hcut]
        exact h.of_same_files rfl rfl rfl ⟨done ++ [e], hw.writeEntry e, by simpa using hrest⟩
    | _ => simpa [Compactor.step, hs] using h
  | commit ok =>
    cases hs : s.phase with
    | writing w todo =>
      cases todo with
      | nil =>
        cases ok with
        | true => simpa [Compactor.step, hs] using h.commit hs
        | false =>
          simp only [Compactor.step, hs]
          exact h.of_same_files rfl rfl rfl trivial
      | cons e todo => simpa [Compactor.step, hs] using h
    | _ => simpa [Compactor.step, hs] using h
  | truncate openOk =>
    cases hs : s.phase with
    | committed => exact h.truncate hs openOk
    | _ => simpa [Compactor.step, hs] using h

theorem Inv.foldl_step (steps : List Step) (h : Inv InDump s) (hsafe : SafeRun dumpFn s steps) :
    Inv InDump (steps.foldl (Compactor.step dumpFn) s) := by
  induction steps generalizing s with
  | nil => exact h
  | cons st steps ih => exact ih (h.step hdump st hsafe.1) hsafe.2

end

end

/-! ## Runs -/

/-- The index entry of a logged `SET`. -/
def toIndex (e : WalEntry) : IndexEntry := ⟨e.id, ⟨e.lat, e.lon⟩, e.collection, e.timestamp⟩

/-- The append is acknowledged after the dump; the truncation then removes it
from the log, and the snapshot does not have it. -/
theorem append_during_compact_lost :
    let e : WalEntry := ⟨.set, lit "fleet", lit "a", 1, 2, 3⟩
    let s := run (map toIndex) 1
      [.dump, .append {} e, .beginSnapshot 9 true, .commit true, .truncate true]
    s.acked = [e] ∧ ¬ Recoverable (fun es e => toIndex e ∈ es) s e := by
  refine ⟨by decide +kernel, ?_⟩
  rintro (hlog | ⟨es, hload, hin⟩)
  · revert hlog
    decide
  · have hes : es = [] := by
      have hnil : ((run (map toIndex) 1 [.dump,
          .append {} ⟨.set, lit "fleet", lit "a", 1, 2, 3⟩, .beginSnapshot 9 true,
          .commit true, .truncate true]).snapshot.bind load) = some [] := by
        decide
      exact (Option.some.inj (hnil.symm.trans hload)).symm
    subst hes
    cases hin

/-- **Over every run of safe steps that syncs each append, every acknowledged
entry is recoverable**: a crash may happen after any of the steps. -/
theorem recoverable_of_safe (dumpFn : List WalEntry → List IndexEntry)
    (InDump : List IndexEntry → WalEntry → Prop)
    (hdump : ∀ applied, ∀ e ∈ applied, InDump (dumpFn applied) e)
    {syncEvery : Nat} (hsync : syncEvery ≤ 1) (steps : List Step)
    (hsafe : SafeRun dumpFn (State.init syncEvery) steps) :
    ∀ e ∈ (run dumpFn syncEvery steps).acked, Recoverable InDump (run dumpFn syncEvery steps) e :=
  ((init_inv hsync).foldl_step hdump steps hsafe).recoverable

/-- A safe run that compacts once, with an append before and one after. -/
theorem recoverable_of_safe_example :
    let e : WalEntry := ⟨.set, lit "fleet", lit "a", 1, 2, 3⟩
    let e' : WalEntry := ⟨.set, lit "fleet", lit "b", 4, 5, 6⟩
    let s := run (map toIndex) 1
      [.append {} e, .apply, .dump, .beginSnapshot 9 true, .writeEntry none, .commit true,
        .truncate true, .append {} e']
    s.acked = [e, e'] ∧ ∀ x ∈ s.acked, Recoverable (fun es e => toIndex e ∈ es) s x := by
  refine ⟨by decide +kernel, recoverable_of_safe _ _ ?_ le_rfl _ ?_⟩
  · intro applied e he
    exact mem_map_of_mem he
  · simp only [SafeRun, SafeStep, Short, ShortEntry]
    decide

end SpatialDb.Storage.Compactor
