import SpatialDb.Lib.Numeral
import SpatialDb.Lib.OrdMap
import SpatialDb.Lib.Outbox
import SpatialDb.Lib.Runs
import SpatialDb.Lib.Utf8

/-!
# The queue of hook messages

Model of `queueHooks` of `internal/legacy/server/aof.go` and of `Signal`,
`manager` and `proc` of `internal/legacy/server/hooks.go`, for hooks that are
neither replaced nor deleted.  `queueHooks` stores its messages under
increasing log ids in one transaction and then signals each hook.  The manager
of a hook takes all messages of the hook out of the database, sends them one
after the other, and puts back those from the first that no endpoint took.

The region that the manager runs with the lock of its hook held is one step: a
signal, which needs the lock, comes before it or after it.  Only the pause
after a failure is a phase of its own, since the lock is held all along.  The
messages stored keep their time to live, and transactions do not fail.

`queueHooks` signals the hooks themselves, but `proc` finds the messages of a
hook by the name in their text.  There a name that is not UTF-8 is another.
-/

namespace SpatialDb.Server

open Lib List OrdMap Bool

/-! ## The model -/

def hookLogPrefix : Bytes := lit "hook:log:"

def uint64ToString (u : Nat) : Bytes := padDecimal 20 u

/-- The key of a message in the queue database. -/
def logKey (id : Nat) : Bytes := hookLogPrefix ++ uint64ToString id

/-- Where the manager of a hook stands. -/
inductive HookPhase where
  /-- About to take the lock, at first and when woken. -/
  | starting
  /-- In `proc`, before its transaction; `sig` is the count the manager read. -/
  | processing (sig : Nat)
  /-- In the loop of `proc`, with the keys and values still to be sent. -/
  | sending (sig : Nat) (batch : List (Bytes × Bytes))
  /-- No endpoint took the first of these. -/
  | failed (sig : Nat) (batch : List (Bytes × Bytes))
  /-- `proc` has returned. -/
  | returned (sig : Nat) (ok : Bool)
  /-- In the pause after a failure, with the lock held. -/
  | sleeping
  | waiting
  deriving DecidableEq

namespace HookPhase

/-- What was taken out of the database and not sent. -/
def batch : HookPhase → List (Bytes × Bytes)
  | sending _ batch | failed _ batch => batch
  | _ => []

end HookPhase

/-- The state of a hook; `sent` are the messages that an endpoint took, and
`told` is the last log id that a signal was given for. -/
structure HookState where
  sig : Nat := 0
  phase : HookPhase := .starting
  sent : List (Bytes × Bytes) := []
  told : Nat := 0

/-- The queue database, the last log id, the hooks by their names, and the
signals that calls of `queueHooks` still have to give, each with the last log
id of its call.  `stored` are all messages ever stored: the log id, the hook
and the text. -/
structure QueueState where
  qdb : OrdMap Bytes Bytes := empty
  qidx : Nat := 0
  hooks : Bytes → HookState := fun _ => {}
  pending : List (Bytes × Nat) := []
  stored : List (Nat × Bytes × Bytes) := []

/-- The log ids and the texts. -/
def QueueState.queued (st : QueueState) : List (Nat × Bytes) := st.stored.map fun e => (e.1, e.2.2)

/-- The texts of messages: `makemsg` writes the name of the hook and the rest,
and `hookOf` reads the field `hook` with gjson. -/
structure MsgLib where
  makemsg : Bytes → Bytes → Bytes
  hookOf : Bytes → Bytes
  hookOf_makemsg : ∀ name rest, hookOf (makemsg name rest) = sanitize name

/-- The loop over the endpoints: the message is sent if one takes it. -/
def sendAny : List Bytes → (Nat → Bool) → Bool
  | [], _ => false
  | _ :: endpoints, answer =>
    if answer 0 then true else sendAny endpoints fun i => answer (i + 1)

section Model

variable (hookOf : Bytes → Bytes)

/-- The walk along the index `hooks`: the log entries of one hook, in the order
of their keys. -/
def logEntries (name : Bytes) (qdb : OrdMap Bytes Bytes) : List (Bytes × Bytes) :=
  qdb.entries.filter fun e => hookLogPrefix.isPrefixOf e.1 && hookOf e.2 == name

/-- The next step of the manager of a hook. -/
def managerStep (endpoints : List Bytes) (answer : Nat → Bool) (name : Bytes)
    (qdb : OrdMap Bytes Bytes) (h : HookState) : OrdMap Bytes Bytes × HookState :=
  match h.phase with
  | .starting => (qdb, { h with phase := .processing h.sig })
  | .processing sig =>
    let batch := logEntries hookOf name qdb
    ((batch.map Prod.fst).foldl delete qdb, { h with phase := .sending sig batch })
  | .sending sig [] => (qdb, { h with phase := .returned sig true })
  | .sending sig (e :: batch) =>
    if sendAny endpoints answer then
      (qdb, { h with phase := .sending sig batch, sent := h.sent ++ [e] })
    else (qdb, { h with phase := .failed sig (e :: batch) })
  | .failed sig batch =>
    (batch.foldl (fun qdb e => qdb.set e.1 e.2) qdb, { h with phase := .returned sig false })
  | .returned sig ok =>
    if !ok then (qdb, { h with phase := .sleeping })
    else if sig ≠ h.sig then (qdb, { h with phase := .processing h.sig })
    else (qdb, { h with phase := .waiting })
  | .sleeping => (qdb, { h with phase := .processing h.sig })
  | .waiting => (qdb, h)

/-- `Signal`, for a hook whose lock is free. -/
def HookState.signal (h : HookState) (upto : Nat) : HookState :=
  { h with
    sig := h.sig + 1
    told := max h.told upto
    phase := if h.phase = .waiting then .starting else h.phase }

/-- The body of the loop in the transaction of `queueHooks`. -/
def storeMsg (st : QueueState) (msg : Bytes × Bytes) : QueueState :=
  let qidx := (st.qidx + 1) % 2 ^ 64
  { st with
    qidx := qidx
    qdb := st.qdb.set (logKey qidx) msg.2
    stored := st.stored ++ [(qidx, msg)] }

/-- `queueHooks` up to its signals, for the sorted messages of the webhooks,
each with its hook. -/
def queueHooks (wmsgs : List (Bytes × Bytes)) (st : QueueState) : QueueState :=
  let st := wmsgs.foldl storeMsg st
  { st with
    qdb := st.qdb.set (lit "hook:idx") (uint64ToString st.qidx)
    pending := st.pending ++ (wmsgs.map Prod.fst).dedup.map fun name => (name, st.qidx) }

/-- What can happen: a command queues messages (a hook and what its message says
besides), a signal that is due is given, or the manager of a hook makes its
next step. -/
inductive QueueAction where
  | queue (wmsgs : List (Bytes × Bytes))
  | signal (i : Nat)
  | manage (name : Bytes) (answer : Nat → Bool)

variable (lib : MsgLib) (endpoints : Bytes → List Bytes) (st : QueueState)

def queueStep : QueueAction → QueueState
  | .queue wmsgs => queueHooks (wmsgs.map fun m => (m.1, lib.makemsg m.1 m.2)) st
  | .signal i =>
    match st.pending[i]? with
    | none => st
    | some (name, upto) =>
      -- the manager holds the lock of the hook while it sleeps
      if (st.hooks name).phase = .sleeping then st
      else { st with
        pending := st.pending.eraseIdx i
        hooks := Function.update st.hooks name ((st.hooks name).signal upto) }
  | .manage name answer =>
    let (qdb, h) := managerStep lib.hookOf (endpoints name) answer name st.qdb (st.hooks name)
    { st with qdb := qdb, hooks := Function.update st.hooks name h }

/-- The messages ever stored for a hook, as entries of the database, in the
order of their log ids. -/
def queuedFor (name : Bytes) : List (Bytes × Bytes) :=
  (st.stored.filter fun e => e.2.1 = name).map fun e => (logKey e.1, e.2.2)

/-- The messages with a name in their text. -/
def queuedAs (name : Bytes) : List (Bytes × Bytes) :=
  (st.queued.filter fun e => hookOf e.2 = name).map fun e => (logKey e.1, e.2)

/-- The log id of a call is larger than those before. -/
def Increasing : QueueAction → Prop
  | .queue wmsgs => st.qidx + wmsgs.length < 2 ^ 64
  | _ => True

/-- The hooks of a call have names that are UTF-8. -/
def Survives : QueueAction → Prop
  | .queue wmsgs => ∀ m ∈ wmsgs, sanitize m.1 = m.1
  | _ => True

instance : (action : QueueAction) → Decidable (Survives action)
  | .queue wmsgs => inferInstanceAs (Decidable (∀ m ∈ wmsgs, sanitize m.1 = m.1))
  | .signal _ | .manage _ _ => inferInstanceAs (Decidable True)

end Model

/-! ## The keys -/

theorem logKey_lt {m n : Nat} (hmn : m < n) (hn : n < 2 ^ 64) : logKey m < logKey n :=
  append_left_lt (padDecimal_lt hmn (lt_trans hn (by norm_num)))

theorem logKey_inj {m n : Nat} (hm : m < 2 ^ 64) (hn : n < 2 ^ 64) (h : logKey m = logKey n) :
    m = n := by
  rcases lt_trichotomy m n with hlt | heq | hlt
  · exact absurd (h ▸ logKey_lt hlt hn) (lt_irrefl _)
  · exact heq
  · exact absurd (h ▸ logKey_lt hlt hm) (lt_irrefl _)

theorem isPrefixOf_logKey (id : Nat) : hookLogPrefix.isPrefixOf (logKey id) = true :=
  isPrefixOf_iff_prefix.mpr (prefix_append _ _)

/-! ## The entries of a hook -/

variable {e : Bytes × Bytes}

variable {hookOf : Bytes → Bytes} {name : Bytes} {qdb : OrdMap Bytes Bytes}

theorem mem_logEntries :
    e ∈ logEntries hookOf name qdb ↔
      e ∈ qdb.entries ∧ hookLogPrefix.isPrefixOf e.1 = true ∧ hookOf e.2 = name := by
  rw [logEntries, mem_filter, and_eq_true, beq_iff_eq]

theorem logEntries_sorted : (logEntries hookOf name qdb).Pairwise fun a b => a.1 < b.1 :=
  qdb.sorted.filter _

theorem logEntries_eq {l : List (Bytes × Bytes)} (hsorted : l.Pairwise fun a b => a.1 < b.1)
    (hmem : ∀ e, e ∈ l ↔
      e ∈ qdb.entries ∧ hookLogPrefix.isPrefixOf e.1 = true ∧ hookOf e.2 = name) :
    logEntries hookOf name qdb = l := by
  refine filter_entries_eq hsorted ?_
  intro e
  rw [hmem, and_eq_true, beq_iff_eq]

/-- An entry that is no message does not show. -/
theorem logEntries_set_other {key : Bytes} (val : Bytes)
    (hkey : hookLogPrefix.isPrefixOf key = false) :
    logEntries hookOf name (qdb.set key val) = logEntries hookOf name qdb := by
  refine logEntries_eq logEntries_sorted ?_
  intro e
  rw [mem_logEntries, mem_entries_set]
  constructor
  · rintro ⟨hmem, hlog, hname⟩
    refine ⟨Or.inr ⟨hmem, ?_⟩, hlog, hname⟩
    rintro rfl
    exact Bool.noConfusion (hkey.symm.trans hlog)
  · rintro ⟨rfl | ⟨hmem, -⟩, hlog, hname⟩
    · exact Bool.noConfusion (hkey.symm.trans hlog)
    · exact ⟨hmem, hlog, hname⟩

/-- A message under a key beyond all others is the last one of its hook. -/
theorem logEntries_set_last {key msg : Bytes} (hkey : hookLogPrefix.isPrefixOf key = true)
    (hlast : ∀ e ∈ qdb.entries, hookLogPrefix.isPrefixOf e.1 = true → e.1 < key) :
    logEntries hookOf name (qdb.set key msg) =
      logEntries hookOf name qdb ++ if hookOf msg = name then [(key, msg)] else [] := by
  refine logEntries_eq ?_ ?_
  · rw [pairwise_append]
    refine ⟨logEntries_sorted, by split <;> simp, ?_⟩
    intro e he e' he'
    obtain ⟨hmem, hlog, -⟩ := mem_logEntries.mp he
    split at he'
    · rw [mem_singleton.mp he']
      exact hlast e hmem hlog
    · exact absurd he' not_mem_nil
  · intro e
    rw [mem_append, mem_logEntries, mem_entries_set]
    constructor
    · rintro (⟨hmem, hlog, hname⟩ | he)
      · exact ⟨Or.inr ⟨hmem, (hlast e hmem hlog).ne⟩, hlog, hname⟩
      · split_ifs at he with hname
        · rw [mem_singleton.mp he]
          exact ⟨Or.inl rfl, hkey, hname⟩
        · exact absurd he not_mem_nil
    · rintro ⟨rfl | ⟨hmem, -⟩, hlog, hname⟩
      · exact Or.inr (by rw [if_pos hname]; exact mem_singleton.mpr rfl)
      · exact Or.inl ⟨hmem, hlog, hname⟩

/-- Taking the messages of one hook leaves those of the others. -/
theorem logEntries_take (name' : Bytes) :
    logEntries hookOf name' (((logEntries hookOf name qdb).map Prod.fst).foldl delete qdb) =
      if name' = name then [] else logEntries hookOf name' qdb := by
  refine logEntries_eq ?_ ?_
  · split
    · exact Pairwise.nil
    · exact logEntries_sorted
  · intro e
    rw [mem_entries_foldl_delete]
    split_ifs with hname
    · refine iff_of_false not_mem_nil ?_
      rintro ⟨⟨hmem, hnot⟩, hlog, he⟩
      exact hnot (mem_map_of_mem (mem_logEntries.mpr ⟨hmem, hlog, he.trans hname⟩))
    rw [mem_logEntries]
    constructor
    · rintro ⟨hmem, hlog, he⟩
      refine ⟨⟨hmem, ?_⟩, hlog, he⟩
      intro hkeys
      obtain ⟨e', he', hkey⟩ := mem_map.mp hkeys
      obtain ⟨hmem', -, hname'⟩ := mem_logEntries.mp he'
      have hval : e'.2 = e.2 := by
        have hget := (qdb.mem_entries_iff e'.1 e'.2).mp hmem'
        rw [hkey, (qdb.mem_entries_iff e.1 e.2).mp hmem] at hget
        exact (Option.some.inj hget).symm
      exact hname (he.symm.trans (hval ▸ hname'))
    · rintro ⟨⟨hmem, -⟩, hlog, he⟩
      exact ⟨hmem, hlog, he⟩

/-- Messages put back stand before those that came in since. -/
theorem logEntries_putBack {batch : List (Bytes × Bytes)}
    (hbatch : ∀ e ∈ batch, hookLogPrefix.isPrefixOf e.1 = true ∧ hookOf e.2 = name)
    (hsorted : (batch ++ logEntries hookOf name qdb).Pairwise fun a b => a.1 < b.1)
    (hfresh : ∀ e ∈ qdb.entries, e.1 ∉ batch.map Prod.fst) (name' : Bytes) :
    logEntries hookOf name' (batch.foldl (fun qdb e => qdb.set e.1 e.2) qdb) =
      if name' = name then batch ++ logEntries hookOf name qdb
      else logEntries hookOf name' qdb := by
  have hnodup : (batch.map Prod.fst).Nodup :=
    pairwise_map.mpr ((pairwise_append.mp hsorted).1.imp ne_of_lt)
  refine logEntries_eq ?_ ?_
  · split
    · exact hsorted
    · exact logEntries_sorted
  · intro e
    rw [mem_entries_foldl_set _ hnodup]
    split_ifs with hname
    · rw [mem_append, mem_logEntries, hname]
      constructor
      · rintro (he | ⟨hmem, hlog⟩)
        · exact ⟨Or.inl he, hbatch e he⟩
        · exact ⟨Or.inr ⟨hmem, hfresh e hmem⟩, hlog⟩
      · rintro ⟨he | ⟨hmem, -⟩, hlog⟩
        · exact Or.inl he
        · exact Or.inr ⟨hmem, hlog⟩
    rw [mem_logEntries]
    constructor
    · rintro ⟨hmem, hlog⟩
      exact ⟨Or.inr ⟨hmem, hfresh e hmem⟩, hlog⟩
    · rintro ⟨he | ⟨hmem, -⟩, hlog⟩
      · exact absurd (hlog.2.symm.trans (hbatch e he).2) hname
      · exact ⟨hmem, hlog⟩

/-! ## The invariant -/

variable (hookOf)

/-- A hook as an outbox. -/
def outboxOf (st : QueueState) (name : Bytes) : Outbox (Bytes × Bytes) :=
  ⟨(st.hooks name).sent, (st.hooks name).phase.batch, logEntries hookOf name st.qdb⟩

/-- A message of the hook that a signal was given for is in the database. -/
def ToldQueued (st : QueueState) (name : Bytes) : Prop :=
  ∃ e ∈ st.queued, e.1 ≤ (st.hooks name).told ∧ (logKey e.1, e.2) ∈ logEntries hookOf name st.qdb

/-- From the transaction of `proc` on, a message that was signaled and is in the
database has come in since, with a signal that the manager has not counted. -/
def Awake (told : Prop) (sig : Nat) : HookPhase → Prop
  | .starting | .sleeping | .failed _ _ | .returned _ false => True
  | .processing seen => seen ≤ sig
  | .sending seen _ | .returned seen true => seen ≤ sig ∧ (told → seen < sig)
  | .waiting => ¬ told

theorem Awake.mono {told told' : Prop} {sig : Nat} {phase : HookPhase} (h : Awake told sig phase)
    (hold : told' → told) : Awake told' sig phase := by
  cases phase with
  | starting => trivial
  | processing seen => exact h
  | sending seen batch => exact ⟨h.1, fun htold => h.2 (hold htold)⟩
  | failed seen batch => trivial
  | returned seen ok =>
    cases ok with
    | false => trivial
    | true => exact ⟨h.1, fun htold => h.2 (hold htold)⟩
  | sleeping => trivial
  | waiting => exact fun htold => h (hold htold)

structure QueueInv (st : QueueState) : Prop where
  increasing : st.queued.Pairwise fun a b => a.1 < b.1
  bounded : ∀ e ∈ st.queued, e.1 ≤ st.qidx
  small : st.qidx < 2 ^ 64
  history : ∀ name, (outboxOf hookOf st name).history = queuedAs hookOf st name
  pending_le : ∀ p ∈ st.pending, p.2 ≤ st.qidx
  told_le : ∀ name, (st.hooks name).told ≤ st.qidx
  awake : ∀ name, Awake (ToldQueued hookOf st name) (st.hooks name).sig (st.hooks name).phase

variable {hookOf} {st : QueueState}

private theorem mem_queuedAs :
    e ∈ queuedAs hookOf st name ↔
      ∃ id, (id, e.2) ∈ st.queued ∧ e.1 = logKey id ∧ hookOf e.2 = name := by
  simp only [queuedAs, mem_map, mem_filter, decide_eq_true_eq, Prod.exists]
  constructor
  · rintro ⟨id, msg, ⟨hmem, hname⟩, rfl⟩
    exact ⟨id, hmem, rfl, hname⟩
  · rintro ⟨id, hmem, hkey, hname⟩
    exact ⟨id, e.2, ⟨hmem, hname⟩, Prod.ext hkey.symm rfl⟩

/-- The order of the log ids is that of the keys. -/
theorem queuedAs_sorted (hincreasing : st.queued.Pairwise fun a b => a.1 < b.1)
    (hbounded : ∀ e ∈ st.queued, e.1 ≤ st.qidx) (hsmall : st.qidx < 2 ^ 64) (name : Bytes) :
    (queuedAs hookOf st name).Pairwise fun a b => a.1 < b.1 := by
  refine pairwise_map.mpr (Pairwise.imp_of_mem ?_ (hincreasing.filter _))
  intro a b _ hb hab
  exact logKey_lt hab (lt_of_le_of_lt (hbounded b (mem_of_mem_filter hb)) hsmall)

section

variable (h : QueueInv hookOf st)
include h

theorem QueueInv.queuedAs_sorted (name : Bytes) :
    (queuedAs hookOf st name).Pairwise fun a b => a.1 < b.1 :=
  Server.queuedAs_sorted h.increasing h.bounded h.small name

/-- What is in the database or in a batch was stored. -/
theorem QueueInv.stored (he : e ∈ (st.hooks name).phase.batch ∨ e ∈ logEntries hookOf name st.qdb) :
    ∃ id, (id, e.2) ∈ st.queued ∧ e.1 = logKey id ∧ hookOf e.2 = name := by
  rw [← mem_queuedAs, ← h.history name]
  exact mem_append_right _ (mem_append.mpr he)

theorem QueueInv.batch_sorted (name : Bytes) :
    ((st.hooks name).phase.batch ++ logEntries hookOf name st.qdb).Pairwise
      fun a b => a.1 < b.1 := by
  have hsorted := h.queuedAs_sorted name
  rw [← h.history name] at hsorted
  exact (pairwise_append.mp hsorted).2.1

/-- No message of a batch is in the database as well. -/
theorem QueueInv.batch_fresh (name : Bytes) :
    ∀ e ∈ st.qdb.entries, e.1 ∉ (st.hooks name).phase.batch.map Prod.fst := by
  intro e hmem hkeys
  obtain ⟨e', he', hkey⟩ := mem_map.mp hkeys
  obtain ⟨id', hid', hkey', hname'⟩ := h.stored (Or.inl he')
  have hlog : e ∈ logEntries hookOf (hookOf e.2) st.qdb := by
    refine mem_logEntries.mpr ⟨hmem, ?_, rfl⟩
    rw [← hkey, hkey']
    exact isPrefixOf_logKey id'
  obtain ⟨id, hid, hkeyid, -⟩ := h.stored (Or.inr hlog)
  have hsame : id' = id := by
    refine logKey_inj ?_ ?_ (hkey'.symm.trans (hkey.trans hkeyid))
    · exact lt_of_le_of_lt (h.bounded _ hid') h.small
    · exact lt_of_le_of_lt (h.bounded _ hid) h.small
  have hval : e'.2 = e.2 := by
    have hids : (st.queued.map Prod.fst).Nodup := pairwise_map.mpr (h.increasing.imp ne_of_lt)
    exact (Prod.mk.inj (inj_on_of_nodup_map hids hid' hid hsame)).2
  have hlt := (pairwise_append.mp (h.batch_sorted name)).2.2 e' he' e
    (by rwa [← hval, hname'] at hlog)
  exact absurd hkey hlt.ne

/-! ## The steps -/

private theorem logEntries_storeMsg (hsmall : st.qidx + 1 < 2 ^ 64) (msg : Bytes × Bytes)
    (name : Bytes) :
    logEntries hookOf name (storeMsg st msg).qdb = logEntries hookOf name st.qdb ++
        if hookOf msg.2 = name then [(logKey (st.qidx + 1), msg.2)] else [] := by
  rw [storeMsg, Nat.mod_eq_of_lt hsmall]
  refine logEntries_set_last (isPrefixOf_logKey (st.qidx + 1)) ?_
  intro e hmem hlog
  obtain ⟨id, hid, hkey, -⟩ := h.stored (Or.inr (mem_logEntries.mpr ⟨hmem, hlog, rfl⟩))
  rw [hkey]
  exact logKey_lt (Nat.lt_succ_of_le (h.bounded _ hid)) hsmall

theorem storeMsg_inv (hsmall : st.qidx + 1 < 2 ^ 64) (msg : Bytes × Bytes) :
    QueueInv hookOf (storeMsg st msg) := by
  have hqidx : (storeMsg st msg).qidx = st.qidx + 1 := Nat.mod_eq_of_lt hsmall
  have hqueued : (storeMsg st msg).queued = st.queued ++ [(st.qidx + 1, msg.2)] := by
    rw [← hqidx]
    exact map_append
  refine ⟨?_, ?_, hqidx ▸ hsmall, ?_, ?_, ?_, ?_⟩
  · rw [hqueued, pairwise_append]
    refine ⟨h.increasing, pairwise_singleton _ _, ?_⟩
    intro a ha b hb
    rw [mem_singleton.mp hb]
    exact Nat.lt_succ_of_le (h.bounded a ha)
  · rw [hqueued, hqidx]
    intro e he
    rcases mem_append.mp he with he | he
    · exact (h.bounded e he).trans (Nat.le_succ _)
    · rw [mem_singleton.mp he]
  · intro name
    have hput : (outboxOf hookOf st name).Step
        (if hookOf msg.2 = name then [(logKey (st.qidx + 1), msg.2)] else [])
        (outboxOf hookOf (storeMsg st msg) name) := by
      rw [outboxOf, outboxOf, logEntries_storeMsg h hsmall]
      exact Outbox.Step.put _ _ _ _
    rw [hput.history, h.history name, queuedAs, queuedAs, hqueued, filter_append, map_append]
    split <;> simp [*]
  · rw [hqidx]
    exact fun p hp => (h.pending_le p hp).trans (Nat.le_succ _)
  · rw [hqidx]
    exact fun name => (h.told_le name).trans (Nat.le_succ _)
  · intro name
    have htold : ToldQueued hookOf (storeMsg st msg) name → ToldQueued hookOf st name := by
      rintro ⟨e, he, hle', hlog⟩
      have hle : e.1 ≤ st.qidx := hle'.trans (h.told_le name)
      rw [hqueued, mem_append, mem_singleton] at he
      rw [logEntries_storeMsg h hsmall, mem_append] at hlog
      refine ⟨e, ?_, hle', ?_⟩
      · rcases he with he | rfl
        · exact he
        · exact absurd hle (Nat.not_succ_le_self _)
      · rcases hlog with hlog | hlog
        · exact hlog
        split at hlog
        · have hkey := (Prod.mk.inj (mem_singleton.mp hlog)).1
          have hid := logKey_inj (lt_of_le_of_lt hle h.small) hsmall hkey
          exact absurd (hid ▸ hle) (Nat.not_succ_le_self _)
        · exact absurd hlog not_mem_nil
    exact (h.awake name).mono htold

private theorem queueHooks_inv (wmsgs : List (Bytes × Bytes))
    (hsmall : st.qidx + wmsgs.length < 2 ^ 64) : QueueInv hookOf (queueHooks wmsgs st) := by
  have hstore : QueueInv hookOf (wmsgs.foldl storeMsg st) := by
    induction wmsgs generalizing st with
    | nil => exact h
    | cons msg wmsgs ih =>
      rw [length_cons] at hsmall
      have hfirst : st.qidx + 1 < 2 ^ 64 := by omega
      have hqidx : (storeMsg st msg).qidx = st.qidx + 1 := Nat.mod_eq_of_lt hfirst
      exact ih (storeMsg_inv h hfirst msg) (by omega)
  have hentries : ∀ name, logEntries hookOf name (queueHooks wmsgs st).qdb =
      logEntries hookOf name (wmsgs.foldl storeMsg st).qdb :=
    fun name => logEntries_set_other _ (by decide)
  refine ⟨hstore.increasing, hstore.bounded, hstore.small, ?_, ?_, hstore.told_le, ?_⟩
  · intro name
    rw [outboxOf, hentries]
    exact hstore.history name
  · intro p hp
    rcases mem_append.mp hp with hp | hp
    · exact hstore.pending_le p hp
    · obtain ⟨name, -, rfl⟩ := mem_map.mp hp
      exact le_rfl
  · intro name
    rw [ToldQueued, hentries]
    exact hstore.awake name

/-- What holds after a step that concerns one hook. -/
theorem QueueInv.update {qdb : OrdMap Bytes Bytes} {hs : HookState}
    {pending : List (Bytes × Nat)} (hpending : ∀ p ∈ pending, p ∈ st.pending)
    (hothers : ∀ name' ≠ name, logEntries hookOf name' qdb = logEntries hookOf name' st.qdb)
    (hstep : (outboxOf hookOf st name).Step []
      ⟨hs.sent, hs.phase.batch, logEntries hookOf name qdb⟩)
    (htold : hs.told ≤ st.qidx)
    (hawake : Awake (∃ e ∈ st.queued, e.1 ≤ hs.told ∧
      (logKey e.1, e.2) ∈ logEntries hookOf name qdb) hs.sig hs.phase) :
    QueueInv hookOf
      { st with qdb := qdb, hooks := Function.update st.hooks name hs, pending := pending } := by
  refine ⟨h.increasing, h.bounded, h.small, ?_, fun p hp => h.pending_le p (hpending p hp), ?_, ?_⟩
  · intro name'
    by_cases hname : name' = name
    · subst hname
      simp only [outboxOf, Function.update_self]
      exact hstep.history.trans ((append_nil _).trans (h.history name'))
    · simp only [outboxOf, Function.update_of_ne hname, hothers name' hname]
      exact h.history name'
  · intro name'
    by_cases hname : name' = name
    · simpa [hname] using htold
    · simpa [Function.update_of_ne hname] using h.told_le name'
  · intro name'
    by_cases hname : name' = name
    · subst hname
      simpa only [ToldQueued, QueueState.queued, Function.update_self] using hawake
    · simpa only [ToldQueued, QueueState.queued, Function.update_of_ne hname,
        hothers name' hname] using h.awake name'

end

/-- A signal that finds the manager at work has not been counted by it. -/
theorem Awake.succ {told told' : Prop} {sig : Nat} {phase : HookPhase} (h : Awake told sig phase)
    (hphase : phase ≠ .waiting) : Awake told' (sig + 1) phase := by
  cases phase with
  | starting => trivial
  | processing seen => exact Nat.le_succ_of_le h
  | sending seen batch => exact ⟨Nat.le_succ_of_le h.1, fun _ => Nat.lt_succ_of_le h.1⟩
  | failed seen batch => trivial
  | returned seen ok =>
    cases ok with
    | false => trivial
    | true => exact ⟨Nat.le_succ_of_le h.1, fun _ => Nat.lt_succ_of_le h.1⟩
  | sleeping => trivial
  | waiting => exact absurd rfl hphase

private theorem signal_inv (h : QueueInv hookOf st) {i upto : Nat}
    (hi : st.pending[i]? = some (name, upto)) :
    QueueInv hookOf { st with
      pending := st.pending.eraseIdx i
      hooks := Function.update st.hooks name ((st.hooks name).signal upto) } := by
  have hupto : upto ≤ st.qidx := h.pending_le _ (mem_of_getElem? hi)
  refine h.update (fun p hp => mem_of_mem_eraseIdx hp) (fun _ _ => rfl) ?_
    (max_le (h.told_le name) hupto) ?_
  · by_cases hwait : (st.hooks name).phase = .waiting
    · simp only [HookState.signal, outboxOf, hwait, if_true]
      exact Outbox.Step.stay _
    · simp only [HookState.signal, outboxOf, hwait, if_false]
      exact Outbox.Step.stay _
  · by_cases hwait : (st.hooks name).phase = .waiting
    · simp only [HookState.signal, hwait, if_true]
      trivial
    · simp only [HookState.signal, hwait, if_false]
      exact (h.awake name).succ hwait

theorem managerStep_inv (h : QueueInv hookOf st) (endpoints : List Bytes) (answer : Nat → Bool)
    (name : Bytes) :
    QueueInv hookOf { st with
      qdb := (managerStep hookOf endpoints answer name st.qdb (st.hooks name)).1
      hooks := Function.update st.hooks name
        (managerStep hookOf endpoints answer name st.qdb (st.hooks name)).2 } := by
  have hawake := h.awake name
  have hview : outboxOf hookOf st name = ⟨(st.hooks name).sent, (st.hooks name).phase.batch,
    logEntries hookOf name st.qdb⟩ := rfl
  have htold := h.told_le name
  rw [managerStep]
  cases hphase : (st.hooks name).phase with
  | starting =>
    rw [hphase] at hview
    exact h.update (fun _ hp => hp) (fun _ _ => rfl) (hview ▸ .stay _) htold le_rfl
  | processing sig =>
    rw [hphase] at hview hawake
    have htake := @logEntries_take hookOf name st.qdb
    refine h.update (fun _ hp => hp) ?_ ?_ htold ?_
    · intro name' hname
      rw [htake, if_neg hname]
    · rw [hview, htake, if_pos rfl]
      exact .take _ _
    · rw [htake, if_pos rfl]
      refine ⟨hawake, ?_⟩
      rintro ⟨e, -, -, he⟩
      exact absurd he not_mem_nil
  | sending sig batch =>
    rw [hphase] at hview hawake
    cases batch with
    | nil => exact h.update (fun _ hp => hp) (fun _ _ => rfl) (hview ▸ .stay _) htold hawake
    | cons e batch =>
      cases hsend : sendAny endpoints answer with
      | true =>
        simp only [if_true]
        exact h.update (fun _ hp => hp) (fun _ _ => rfl) (hview ▸ .send _ _ _ _) htold hawake
      | false =>
        simp only [Bool.false_eq_true, if_false]
        exact h.update (fun _ hp => hp) (fun _ _ => rfl) (hview ▸ .stay _) htold trivial
  | failed sig batch =>
    rw [hphase] at hview
    have hbatch : ∀ e ∈ batch, hookLogPrefix.isPrefixOf e.1 = true ∧ hookOf e.2 = name := by
      intro e he
      obtain ⟨id, -, hkey, hname⟩ := h.stored (Or.inl (show e ∈ (st.hooks name).phase.batch by
        rw [hphase]
        exact he))
      exact ⟨hkey ▸ isPrefixOf_logKey id, hname⟩
    have hsorted := h.batch_sorted name
    have hfresh := h.batch_fresh name
    rw [hphase] at hsorted hfresh
    have hback := logEntries_putBack hbatch hsorted hfresh
    refine h.update (fun _ hp => hp) ?_ ?_ htold trivial
    · intro name' hname
      rw [hback, if_neg hname]
    · rw [hview, hback, if_pos rfl]
      exact .putBack _ _ _
  | returned sig ok =>
    rw [hphase] at hview hawake
    cases ok with
    | false =>
      exact h.update (fun _ hp => hp) (fun _ _ => rfl) (hview ▸ .stay _) htold trivial
    | true =>
      by_cases hsig : sig = (st.hooks name).sig
      · simp only [Bool.not_true, Bool.false_eq_true, if_false, ne_eq, hsig, not_true_eq_false]
        refine h.update (fun _ hp => hp) (fun _ _ => rfl) (hview ▸ .stay _) htold ?_
        intro htold
        exact absurd (hawake.2 htold) (hsig ▸ lt_irrefl _)
      · simp only [Bool.not_true, Bool.false_eq_true, if_false, ne_eq, hsig, not_false_eq_true,
          if_true]
        exact h.update (fun _ hp => hp) (fun _ _ => rfl) (hview ▸ .stay _) htold le_rfl
  | sleeping =>
    rw [hphase] at hview
    exact h.update (fun _ hp => hp) (fun _ _ => rfl) (hview ▸ .stay _) htold le_rfl
  | waiting => exact h.update (fun _ hp => hp) (fun _ _ => rfl) (.stay _) htold hawake

variable {lib : MsgLib}

theorem queueStep_inv (h : QueueInv lib.hookOf st) (endpoints : Bytes → List Bytes)
    (action : QueueAction) (hids : Increasing st action) :
    QueueInv lib.hookOf (queueStep lib endpoints st action) := by
  cases action with
  | queue wmsgs =>
    refine queueHooks_inv h _ ?_
    rw [length_map]
    exact hids
  | signal i =>
    rw [queueStep]
    cases hi : st.pending[i]? with
    | none => exact h
    | some p =>
      simp only
      split
      · exact h
      · exact signal_inv h hi
  | manage name answer => exact managerStep_inv h (endpoints name) answer name

/-- The text of every message has the name of its hook. -/
def Named (lib : MsgLib) (st : QueueState) : Prop :=
  ∀ e ∈ st.stored, lib.hookOf e.2.2 = e.2.1

theorem Named.foldl_storeMsg {wmsgs : List (Bytes × Bytes)} (h : Named lib st)
    (hmsgs : ∀ m ∈ wmsgs, lib.hookOf m.2 = m.1) : Named lib (wmsgs.foldl storeMsg st) := by
  induction wmsgs generalizing st with
  | nil => exact h
  | cons m wmsgs ih =>
    obtain ⟨hm, hmsgs⟩ := forall_mem_cons.mp hmsgs
    exact ih (forall_mem_append.mpr ⟨h, forall_mem_singleton.mpr hm⟩) hmsgs

theorem queueStep_named (h : Named lib st) (endpoints : Bytes → List Bytes) {action : QueueAction}
    (hnames : Survives action) : Named lib (queueStep lib endpoints st action) := by
  cases action with
  | queue wmsgs =>
    refine Named.foldl_storeMsg h (forall_mem_map.mpr fun m hm => ?_)
    exact (lib.hookOf_makemsg m.1 m.2).trans (hnames m hm)
  | signal i =>
    rw [queueStep]
    cases st.pending[i]? with
    | none => exact h
    | some p =>
      simp only
      split
      · exact h
      · exact h
  | manage name answer => exact h

theorem Named.queuedFor_eq (h : Named lib st) (name : Bytes) :
    queuedFor st name = queuedAs lib.hookOf st name := by
  rw [queuedFor, queuedAs, QueueState.queued, filter_map, map_map]
  refine congrArg (map _) (filter_congr fun e he => ?_)
  exact decide_eq_decide.mpr (by rw [← h e he])

/-! ## Whole runs -/

variable (lib) in
/-- The hooks have just been opened; messages may be left from before. -/
structure Opened (st : QueueState) : Prop where
  hooks : ∀ name, st.hooks name = {}
  pending : st.pending = []
  increasing : st.queued.Pairwise fun a b => a.1 < b.1
  bounded : ∀ e ∈ st.queued, e.1 ≤ st.qidx
  small : st.qidx < 2 ^ 64
  written : ∀ e ∈ st.stored, ∃ rest, e.2.2 = lib.makemsg e.2.1 rest
  logs : ∀ e : Bytes × Bytes, hookLogPrefix.isPrefixOf e.1 = true →
    (e ∈ st.qdb.entries ↔ ∃ id, (id, e.2) ∈ st.queued ∧ e.1 = logKey id)

/-- What is to hold of a hook at every moment: the messages that were sent are
the first ones of those queued for it, in the order of their log ids, each sent
once; the others are in the database or in the batch; and the manager does not
wait while a message is queued that a signal was given for. -/
structure HookOk (st : QueueState) (name : Bytes) : Prop where
  ordered : st.stored.Pairwise fun a b => a.1 < b.1
  sent : (st.hooks name).sent <+: queuedFor st name
  once : ((st.hooks name).sent.map Prod.fst).Nodup
  kept : ∀ e ∈ queuedFor st name, e ∉ (st.hooks name).sent →
    e ∈ st.qdb.entries ∨ e ∈ (st.hooks name).phase.batch
  woken : (st.hooks name).phase = .waiting → ∀ e ∈ st.stored, e.2.1 = name →
    e.1 ≤ (st.hooks name).told → (logKey e.1, e.2.2) ∉ st.qdb.entries

theorem Opened.inv (h : Opened lib st) : QueueInv lib.hookOf st := by
  refine ⟨h.increasing, h.bounded, h.small, ?_, ?_, ?_, ?_⟩
  · intro name
    rw [outboxOf, h.hooks name]
    refine logEntries_eq (queuedAs_sorted h.increasing h.bounded h.small name) ?_
    intro e
    rw [mem_queuedAs]
    constructor
    · rintro ⟨id, hid, hkey, hname⟩
      have hlog : hookLogPrefix.isPrefixOf e.1 = true := hkey ▸ isPrefixOf_logKey id
      exact ⟨(h.logs e hlog).mpr ⟨id, hid, hkey⟩, hlog, hname⟩
    · rintro ⟨hmem, hlog, hname⟩
      obtain ⟨id, hid, hkey⟩ := (h.logs e hlog).mp hmem
      exact ⟨id, hid, hkey, hname⟩
  · intro p hp
    rw [h.pending] at hp
    exact absurd hp not_mem_nil
  · intro name
    rw [h.hooks name]
    exact Nat.zero_le _
  · intro name
    rw [h.hooks name]
    trivial

theorem QueueInv.hookOk (h : QueueInv lib.hookOf st) (hnamed : Named lib st) (name : Bytes) :
    HookOk st name := by
  have hhistory := h.history name
  rw [← hnamed.queuedFor_eq] at hhistory
  have hsent : (st.hooks name).sent <+: queuedFor st name :=
    hhistory ▸ (outboxOf lib.hookOf st name).sent_isPrefix
  refine ⟨?_, hsent, ?_, ?_, ?_⟩
  · have hincreasing := h.increasing
    rw [QueueState.queued, pairwise_map] at hincreasing
    exact hincreasing
  · have hsorted := h.queuedAs_sorted name
    rw [← hnamed.queuedFor_eq] at hsorted
    exact pairwise_map.mpr ((hsorted.sublist hsent.sublist).imp ne_of_lt)
  · intro e he hnot
    rw [← hhistory] at he
    exact (Outbox.mem_or_mem he hnot).imp_left fun hlog => (mem_logEntries.mp hlog).1
  · intro hphase e he hname htold hmem
    have hawake := h.awake name
    rw [hphase] at hawake
    refine hawake ⟨(e.1, e.2.2), mem_map_of_mem he, htold, ?_⟩
    exact mem_logEntries.mpr ⟨hmem, isPrefixOf_logKey e.1, (hnamed e he).trans hname⟩

/-- **When the names of the hooks are UTF-8, every hook is in order at every
moment, whatever the interleaving and whichever sends fail.** -/
theorem hookQueue_run (endpoints : Bytes → List Bytes) (h : Opened lib st)
    (hstored : ∀ e ∈ st.stored, sanitize e.2.1 = e.2.1) (actions : List QueueAction)
    (hids : AtEach (queueStep lib endpoints) Increasing st actions)
    (hnames : ∀ action ∈ actions, Survives action) :
    Always (queueStep lib endpoints) (fun st => ∀ name, HookOk st name) st actions := by
  have hnamed : Named lib st := by
    intro e he
    obtain ⟨rest, htext⟩ := h.written e he
    rw [htext, lib.hookOf_makemsg, hstored e he]
  have hsafe : AtEach (queueStep lib endpoints)
      (fun st action => Increasing st action ∧ Survives action) st actions := by
    intro before action after heq
    refine ⟨hids before action after heq, hnames action ?_⟩
    rw [heq]
    exact mem_append_right before mem_cons_self
  have hinv : Always (queueStep lib endpoints)
      (fun st => QueueInv lib.hookOf st ∧ Named lib st) st actions := by
    refine always_of_atEach ?_ ⟨h.inv, hnamed⟩ hsafe
    intro st action hst hsafe
    exact ⟨queueStep_inv hst.1 endpoints action hsafe.1, queueStep_named hst.2 endpoints hsafe.2⟩
  intro before after heq name
  have hst := hinv before after heq
  exact hst.1.hookOk hst.2 name

/-! ## A small instance -/

/-- Bytes up to a mark, each behind another mark. -/
def unmark : Bytes → Bytes
  | 1 :: b :: s => b :: unmark s
  | _ => []

private theorem unmark_append (name rest : Bytes) :
    unmark (name.flatMap (fun b => [1, b]) ++ 0 :: rest) = name := by
  induction name with
  | nil => rfl
  | cons b name ih => exact congrArg (b :: ·) ih

def markLib : MsgLib where
  makemsg name rest := (sanitize name).flatMap (fun b => [1, b]) ++ 0 :: rest
  hookOf := unmark
  hookOf_makemsg := fun name rest => unmark_append (sanitize name) rest

private theorem opened_empty : Opened lib {} :=
  ⟨fun _ => rfl, rfl, .nil, by simp [QueueState.queued], by norm_num, by simp,
    by simp [empty, QueueState.queued]⟩

/-- Two messages of which the second fails once, and a third that comes in
between. -/
def retryActions : List QueueAction :=
  let manage := QueueAction.manage (lit "h")
  [.queue [(lit "h", lit "a"), (lit "h", lit "b")], .signal 0, manage fun _ => true,
    manage fun _ => true, manage fun _ => true, manage fun _ => false,
    .queue [(lit "h", lit "c")], manage fun _ => false, manage fun _ => true,
    manage fun _ => true, manage fun _ => true, manage fun _ => true]

theorem hookQueue_run_retry :
    let step := queueStep markLib fun _ => [lit "http://h"]
    AtEach step Increasing {} retryActions ∧ (∀ action ∈ retryActions, Survives action) ∧
      HookOk (retryActions.foldl step {}) (lit "h") ∧
      ((retryActions.foldl step {}).hooks (lit "h")).sent.map Prod.snd =
        [markLib.makemsg (lit "h") (lit "a"), markLib.makemsg (lit "h") (lit "b")] := by
  intro step
  have hids : AtEach step Increasing {} retryActions := by
    simp only [retryActions, atEach_cons]
    refine ⟨?_, trivial, trivial, trivial, trivial, trivial, ?_, trivial, trivial, trivial, trivial,
      trivial, atEach_nil⟩
    · show (0 : Nat) + _ < _
      decide +kernel
    · show QueueState.qidx _ + _ < _
      decide +kernel
  have hnames : ∀ action ∈ retryActions, Survives action := by decide +kernel
  exact ⟨hids, hnames,
    hookQueue_run _ opened_empty (by simp) _ hids hnames retryActions [] (by simp) _,
    by decide +kernel⟩

/-- **The name of this hook is not UTF-8.  Its manager is signaled, finds no
message of that name, and waits, with the message still in the database.** -/
theorem hookQueue_not_utf8 :
    let manage := QueueAction.manage [0xFF] fun _ => true
    let st := [.queue [([0xFF], lit "a")], .signal 0, manage, manage, manage, manage].foldl
      (queueStep markLib fun _ => [lit "http://h"]) {}
    (st.hooks [0xFF]).phase = .waiting ∧ (st.hooks [0xFF]).sent = [] ∧
      (st.hooks [0xFF]).told = 1 ∧ st.stored.map (fun e => (e.1, e.2.1)) = [(1, [0xFF])] ∧
      (st.qdb.get? (logKey 1)).isSome = true := by
  decide +kernel

end SpatialDb.Server
