import SpatialDb.Lib.Resp

/-!
# Loading a file in pieces

Model of `loadAOF` of `aof.go` with what it does beside the data: which commands
it executes and where it cuts the file.  The parser of commands and their
execution are parameters.

The bytes of a piece that do not make up a command are kept for the next one.
What is kept when the file ends is cut off; zero bytes in front of it are not
kept, so they stay in the file.
-/

namespace SpatialDb.Server.Chunked

open Lib List

/-- An error of the parser, or one of a command that ends the load. -/
inductive LoadErr (E : Type) where
  | protocol
  | fatal (e : E)

/-- The executed commands and how it ended. -/
structure Ran (E α : Type) where
  commands : List (List Bytes)
  result : Except (LoadErr E) α

namespace Ran

variable {E α β : Type}

def pure (a : α) : Ran E α := ⟨[], .ok a⟩

/-- More commands before. -/
def after (commands : List (List Bytes)) (r : Ran E α) : Ran E α :=
  ⟨commands ++ r.commands, r.result⟩

def bind (r : Ran E α) (f : α → Ran E β) : Ran E β :=
  match r.result with
  | .error e => ⟨r.commands, .error e⟩
  | .ok a => (f a).after r.commands

@[simp] theorem after_nil (r : Ran E α) : r.after [] = r := rfl

@[simp] theorem pure_bind (a : α) (f : α → Ran E β) : (pure a).bind f = f a := rfl

variable (cmds : List (List Bytes))

@[simp] theorem error_bind (e : LoadErr E) (f : α → Ran E β) :
    (⟨cmds, .error e⟩ : Ran E α).bind f = ⟨cmds, .error e⟩ := rfl

@[simp] theorem ok_bind (a : α) (f : α → Ran E β) :
    (⟨cmds, .ok a⟩ : Ran E α).bind f = (f a).after cmds := rfl

theorem after_bind (r : Ran E α) (f : α → Ran E β) :
    (r.after cmds).bind f = (r.bind f).after cmds := by
  obtain ⟨cmds', e | a⟩ := r
  · rfl
  · simp only [after, bind, append_assoc]

theorem bind_assoc {γ : Type} (r : Ran E α) (f : α → Ran E β) (g : β → Ran E γ) :
    (r.bind f).bind g = r.bind fun a => (f a).bind g := by
  obtain ⟨cmds, e | a⟩ := r
  · rfl
  · rw [ok_bind, ok_bind, after_bind]

end Ran

/-- What `loadAOF` leaves; `truncated` is where the file has been cut. -/
structure Loaded (S : Type) where
  st : S
  aofsz : Nat
  truncated : Option Nat

section

variable {S E : Type} (read : Scanner (List Bytes)) (exec : S → List Bytes → Except E S)

/-- One command. -/
def execute (s : S) (args : List Bytes) : Ran E S :=
  if args = [] then .pure s
  else
    match exec s args with
    | .error e => ⟨[args], .error (.fatal e)⟩
    | .ok s => ⟨[args], .ok s⟩

/-- The inner loop: the executed commands and the bytes that are left. -/
def loop : Nat → Bytes → S → Ran E (S × Bytes)
  | 0, data, s => .pure (s, data)
  | fuel + 1, data, s =>
    if data.head? = some 0 then loop fuel data.tail s
    else
      match read data with
      | .bad => ⟨[], .error .protocol⟩
      | .more => .pure (s, data)
      | .done args rest => (execute exec s args).bind fun s => loop fuel rest s

/-- Every round takes a byte, so the length bounds the rounds. -/
def run (data : Bytes) (s : S) : Ran E (S × Bytes) := loop read exec (data.length + 1) data s

/-- The end of the file: an incomplete command is cut off. -/
def atEOF (aofsz : Nat) (r : S × Bytes) : Loaded S :=
  if 0 < r.2.length then ⟨r.1, aofsz - r.2.length, some (aofsz - r.2.length)⟩
  else ⟨r.1, aofsz, none⟩

/-- `loadAOF` on the pieces in which the file is read. -/
def loadAOF : List Bytes → (buf : Bytes) → (aofsz : Nat) → S → Ran E (Loaded S)
  | [], buf, aofsz, s => .pure (atEOF aofsz (s, buf))
  | packet :: packets, buf, aofsz, s =>
    (run read exec (buf ++ packet) s).bind fun r =>
      loadAOF packets r.2 (aofsz + packet.length) r.1

/-- The commands one after the other. -/
def runAll : List (List Bytes) → S → Ran E S
  | [], s => .pure s
  | args :: cmds, s => (execute exec s args).bind fun s => runAll cmds s

/-- Complete commands, with zero bytes before each of them and behind the last. -/
inductive Complete : Bytes → List (List Bytes) → Prop where
  | nil : Complete [] []
  | zero {data : Bytes} {cmds : List (List Bytes)} : Complete data cmds → Complete (0 :: data) cmds
  | command {used data : Bytes} {args : List Bytes} {cmds : List (List Bytes)} :
      used.head? ≠ some 0 → Reads read used args → Complete data cmds →
      Complete (used ++ data) (args :: cmds)

/-- Bytes that are the beginning of a command, or nothing. -/
structure Incomplete (rest : Bytes) : Prop where
  head : rest.head? ≠ some 0
  front : ∀ front, front <+: rest → read front = .more

variable {read} {exec} {data rest buf kept : Bytes} {args : List Bytes} {cmds : List (List Bytes)}
  {s : S}

/-- A command is executed or ends the load; the parser has no part in that. -/
theorem execute_cases (exec : S → List Bytes → Except E S) (s : S) (args : List Bytes) :
    (∃ cmds e, execute exec s args = ⟨cmds, .error (.fatal e)⟩) ∨
      ∃ s', execute exec s args = ⟨[args].filter (· ≠ []), .ok s'⟩ := by
  unfold execute
  by_cases hargs : args = []
  · refine .inr ⟨s, ?_⟩
    rw [if_pos hargs, hargs]
    rfl
  have hfilter : [args].filter (· ≠ []) = [args] := by simp [hargs]
  rw [if_neg hargs, hfilter]
  cases exec s args with
  | error e => exact .inl ⟨[args], e, rfl⟩
  | ok s' => exact .inr ⟨s', rfl⟩

theorem head?_append_ne (hzero : data.head? ≠ some 0) (hne : data ≠ []) (more : Bytes) :
    (data ++ more).head? ≠ some 0 := by
  rwa [head?_append_of_ne_nil data hne]

theorem head?_of_front {front : Bytes} (h : front <+: data) (hzero : data.head? ≠ some 0) :
    front.head? ≠ some 0 := by
  obtain ⟨tail, rfl⟩ := h
  cases front with
  | nil => simp
  | cons b front => exact hzero

/-! ## Complete commands and the beginning of one -/

theorem Incomplete.of_front {front : Bytes} (h : Incomplete read rest) (hf : front <+: rest) :
    Incomplete read front :=
  ⟨head?_of_front hf h.head, fun _ hfront => h.front _ (hfront.trans hf)⟩

/-- The beginning of a command is no command. -/
theorem Incomplete.of_part {used : Bytes} (hused : Reads read used args)
    (hzero : used.head? ≠ some 0) (hpart : data <+: used) (hlen : data.length < used.length) :
    Incomplete read data := by
  refine ⟨head?_of_front hpart hzero, fun front hf => hused.part front (hf.trans hpart) ?_⟩
  rintro rfl
  exact absurd hf.length_le (not_le_of_gt hlen)

theorem Complete.loop (h : Complete read kept cmds) (hrest : Incomplete read rest) {fuel : Nat}
    (hfuel : (kept ++ rest).length ≤ fuel) (s : S) :
    loop read exec (fuel + 1) (kept ++ rest) s =
      (runAll exec cmds s).bind fun st => .pure (st, rest) := by
  induction h generalizing fuel s with
  | nil =>
    rw [nil_append, Chunked.loop, if_neg hrest.head, hrest.front rest prefix_rfl]
    rfl
  | zero _ ih =>
    rw [cons_append, length_cons] at hfuel
    obtain ⟨fuel, rfl⟩ : ∃ f, fuel = f + 1 := ⟨fuel - 1, by omega⟩
    rw [cons_append, Chunked.loop, if_pos (by simp), tail_cons]
    exact ih (by omega) s
  | @command used data args cmds hzero hused _ ih =>
    have hne : used ≠ [] := by
      rintro rfl
      have hfull := hused.full []
      rw [nil_append, hrest.front [] nil_prefix] at hfull
      cases hfull
    have hpos := length_pos_iff.mpr hne
    rw [append_assoc, length_append] at hfuel
    obtain ⟨fuel, rfl⟩ : ∃ f, fuel = f + 1 := ⟨fuel - 1, by omega⟩
    rw [append_assoc, Chunked.loop, if_neg (head?_append_ne hzero hne _), hused.full, runAll,
      Ran.bind_assoc]
    dsimp only
    congr 1
    funext s
    exact ih (by omega) s

/-- The front part of such a file is another one, and so is what is left of it
with the rest. -/
theorem Complete.split (h : Complete read kept cmds) (hrest : Incomplete read rest) {more : Bytes}
    (hdata : data ++ more = kept ++ rest) :
    ∃ kept₁ rest₁ kept₂ cmds₁ cmds₂, data = kept₁ ++ rest₁ ∧ cmds = cmds₁ ++ cmds₂ ∧
      Complete read kept₁ cmds₁ ∧ Incomplete read rest₁ ∧ rest₁ ++ more = kept₂ ++ rest ∧
      Complete read kept₂ cmds₂ := by
  induction h generalizing data with
  | nil =>
    exact ⟨[], data, [], [], [], rfl, rfl, .nil, hrest.of_front ⟨more, hdata⟩, hdata, .nil⟩
  | @zero kept cmds hkept ih =>
    cases data with
    | nil =>
      exact ⟨[], [], _, [], _, rfl, rfl, .nil, hrest.of_front nil_prefix, hdata, hkept.zero⟩
    | cons b data =>
      obtain ⟨rfl, htail⟩ := cons.inj hdata
      obtain ⟨kept₁, rest₁, kept₂, cmds₁, cmds₂, rfl, hcmds, hkept₁, hrest₁⟩ := ih htail
      exact ⟨0 :: kept₁, rest₁, kept₂, cmds₁, cmds₂, rfl, hcmds, hkept₁.zero, hrest₁⟩
  | @command used kept args cmds hzero hused hkept ih =>
    rw [append_assoc] at hdata
    rcases le_or_gt used.length data.length with hlen | hlen
    · obtain ⟨data, rfl⟩ := prefix_of_prefix_length_le (prefix_append _ _) ⟨more, hdata⟩ hlen
      rw [append_assoc, append_cancel_left_eq] at hdata
      obtain ⟨kept₁, rest₁, kept₂, cmds₁, cmds₂, rfl, rfl, hkept₁, hrest₁⟩ := ih hdata
      exact ⟨used ++ kept₁, rest₁, kept₂, args :: cmds₁, cmds₂, by rw [append_assoc], rfl,
        .command hzero hused hkept₁, hrest₁⟩
    have hpart := prefix_of_prefix_length_le ⟨more, hdata⟩ (prefix_append _ _) hlen.le
    exact ⟨[], data, used ++ kept, [], args :: cmds, rfl, rfl, .nil,
      .of_part hused hzero hpart hlen, by rw [hdata, append_assoc],
      .command hzero hused hkept⟩

theorem runAll_append (cmds cmds' : List (List Bytes)) (s : S) :
    runAll exec (cmds ++ cmds') s = (runAll exec cmds s).bind fun s => runAll exec cmds' s := by
  induction cmds generalizing s with
  | nil => rfl
  | cons args cmds ih =>
    rw [cons_append, runAll, runAll, Ran.bind_assoc]
    congr 1
    funext s
    exact ih s

/-- In whatever pieces such a file is read: the commands run one after the
other, and the rest is cut off. -/
theorem Complete.loadAOF (h : Complete read kept cmds) (hrest : Incomplete read rest)
    {packets : List Bytes} (hbuf : Incomplete read buf)
    (hdata : buf ++ packets.flatten = kept ++ rest) (aofsz : Nat) (s : S) :
    loadAOF read exec packets buf aofsz s = (runAll exec cmds s).bind fun st =>
      .pure (atEOF (aofsz + packets.flatten.length) (st, rest)) := by
  induction packets generalizing buf kept cmds aofsz s with
  | nil =>
    rw [flatten_nil, append_nil] at hdata
    have hloop : Chunked.loop read exec _ (kept ++ rest) s = _ := h.loop hrest le_rfl s
    rw [← hdata, ← nil_append buf, Complete.nil.loop hbuf le_rfl s] at hloop
    have hend := congrArg (Ran.bind · fun r => .pure (atEOF aofsz r)) hloop
    rwa [Ran.bind_assoc, Ran.bind_assoc] at hend
  | cons packet packets ih =>
    rw [flatten_cons, ← append_assoc] at hdata
    obtain ⟨kept₁, rest₁, kept₂, cmds₁, cmds₂, hsplit, rfl, hkept₁, hrest₁, hdata, hkept₂⟩ :=
      h.split hrest hdata
    rw [Chunked.loadAOF, hsplit, run, hkept₁.loop hrest₁ le_rfl s, runAll_append, Ran.bind_assoc,
      Ran.bind_assoc]
    congr 1
    funext st
    rw [flatten_cons, length_append, ← Nat.add_assoc]
    exact ih hkept₂ hrest₁ hdata (aofsz + packet.length) st

theorem commands_runAll {st : S} (h : (runAll exec cmds s).result = .ok st) :
    runAll exec cmds s = ⟨cmds.filter (· ≠ []), .ok st⟩ := by
  induction cmds generalizing s with
  | nil =>
    injection h with h
    subst h
    rfl
  | cons args cmds ih =>
    rw [runAll] at h ⊢
    obtain ⟨done, e, hexec⟩ | ⟨s', hexec⟩ := execute_cases exec s args
    · rw [hexec] at h
      cases h
    rw [hexec] at h ⊢
    rw [Ran.ok_bind, ih h, Ran.after, ← filter_append]
    rfl

/-- A file of complete commands, and perhaps the beginning of one. -/
theorem loadAOF_whole {packets : List Bytes}
    (hflat : packets.flatten = kept ++ rest) (hkept : Complete read kept cmds)
    (hrest : Incomplete read rest) {st : S} (hst : (runAll exec cmds s).result = .ok st) :
    loadAOF read exec packets [] 0 s = ⟨cmds.filter (· ≠ []),
      .ok ⟨st, kept.length, if rest = [] then none else some kept.length⟩⟩ := by
  rw [hkept.loadAOF hrest (hrest.of_front nil_prefix) hflat, commands_runAll hst, hflat]
  simp only [Ran.ok_bind, Ran.after, Ran.pure, append_nil, atEOF,
    length_append, Nat.zero_add, Nat.add_sub_cancel]
  cases rest with
  | nil => rfl
  | cons b rest => rfl

/-! ## Whatever the file holds -/

theorem run_more (hzero : data.head? ≠ some 0) (hread : read data = .more) (s : S) :
    run read exec data s = .pure (s, data) := by
  rw [run, loop, if_neg hzero, hread]

theorem run_bad (hzero : data.head? ≠ some 0) (hread : read data = .bad) (s : S) :
    run read exec data s = ⟨[], .error .protocol⟩ := by
  rw [run, loop, if_neg hzero, hread]

variable (hp : PrefixConsistent read)
include hp

theorem loop_eq_loop {fuel fuel' : Nat} (h : data.length < fuel)
    (h' : data.length < fuel') (s : S) :
    loop read exec fuel data s = loop read exec fuel' data s := by
  induction fuel generalizing data fuel' s with
  | zero => omega
  | succ fuel ih =>
    obtain ⟨fuel', rfl⟩ : ∃ f, fuel' = f + 1 := ⟨fuel' - 1, by omega⟩
    rw [loop, loop]
    split_ifs with hzero
    · obtain ⟨tail, rfl⟩ := head?_eq_some_iff.mp hzero
      rw [length_cons] at h h'
      exact ih (by rw [tail_cons]; omega) (by rw [tail_cons]; omega) s
    cases hread : read data with
    | bad => rfl
    | more => rfl
    | done args rest =>
      have hlt := hp.length_lt hread
      dsimp only
      congr 1
      funext s
      exact ih (by omega) (by omega) s

theorem run_zero (data : Bytes) (s : S) : run read exec (0 :: data) s = run read exec data s := by
  have hlen : data.length < (0 :: data).length := Nat.lt_succ_self _
  exact loop_eq_loop hp hlen (Nat.lt_succ_self _) s

theorem run_done (hzero : data.head? ≠ some 0) (hread : read data = .done args rest) (s : S) :
    run read exec data s = (execute exec s args).bind fun s => run read exec rest s := by
  have hlt := hp.length_lt hread
  rw [run, loop, if_neg hzero, hread]
  dsimp only
  congr 1
  funext s
  exact loop_eq_loop hp hlt (Nat.lt_succ_self _) s

/-- Induction along the rounds of the loop. -/
theorem run_induct {P : Bytes → Prop} (zero : ∀ data, P data → P (0 :: data))
    (bad : ∀ data, data.head? ≠ some 0 → read data = .bad → P data)
    (more : ∀ data, data.head? ≠ some 0 → read data = .more → P data)
    (done : ∀ data args rest, data.head? ≠ some 0 → read data = .done args rest → P rest → P data)
    (data : Bytes) : P data := by
  induction hn : data.length using Nat.strong_induction_on generalizing data with
  | _ n ih =>
    by_cases hzero : data.head? = some 0
    · obtain ⟨tail, rfl⟩ := head?_eq_some_iff.mp hzero
      rw [length_cons] at hn
      exact zero tail (ih _ (by omega) tail rfl)
    cases hread : read data with
    | bad => exact bad data hzero hread
    | more => exact more data hzero hread
    | done args rest =>
      have hlt := hp.length_lt hread
      exact done data args rest hzero hread (ih _ (by omega) rest rfl)

/-- What the loop leaves is no command yet and has no zero byte in front. -/
theorem run_left (data : Bytes) (s : S) {r : S × Bytes}
    (h : (run read exec data s).result = .ok r) : r.2.head? ≠ some 0 ∧ read r.2 = .more := by
  induction data using run_induct hp generalizing s with
  | zero data ih =>
    rw [run_zero hp] at h
    exact ih s h
  | bad data hzero hread =>
    rw [run_bad hzero hread] at h
    cases h
  | more data hzero hread =>
    rw [run_more hzero hread] at h
    injection h with h
    subst h
    exact ⟨hzero, hread⟩
  | done data args rest hzero hread ih =>
    rw [run_done hp hzero hread] at h
    obtain ⟨cmds, e, hexec⟩ | ⟨s', hexec⟩ := execute_cases exec s args
    · rw [hexec] at h
      cases h
    · rw [hexec] at h
      exact ih s' h

theorem ne_nil_of_read (h : read data ≠ .more) : data ≠ [] := by
  rintro rfl
  exact h hp.nil

/-- With more bytes the loop goes on where it stopped. -/
theorem run_append (data more : Bytes) (s : S)
    (h : (run read exec data s).result ≠ .error .protocol) :
    run read exec (data ++ more) s =
      (run read exec data s).bind fun r => run read exec (r.2 ++ more) r.1 := by
  induction data using run_induct hp generalizing s with
  | zero data ih =>
    rw [run_zero hp] at h ⊢
    rw [cons_append, run_zero hp]
    exact ih s h
  | bad data hzero hread =>
    rw [run_bad hzero hread] at h
    exact absurd rfl h
  | more data hzero hread =>
    rw [run_more hzero hread]
    rfl
  | done data args rest hzero hread ih =>
    have hne := ne_nil_of_read hp (by rw [hread]; simp)
    rw [run_done hp hzero hread] at h ⊢
    rw [run_done hp (head?_append_ne hzero hne more) (hp.append hread more), Ran.bind_assoc]
    obtain ⟨cmds, e, hexec⟩ | ⟨s', hexec⟩ := execute_cases exec s args
    · rw [hexec]
      rfl
    · rw [hexec] at h ⊢
      rw [Ran.ok_bind, Ran.ok_bind, ih s' h]

/-- Behind rejected bytes nothing is executed, whatever they have become. -/
theorem commands_run_append (data more : Bytes) (s : S)
    (h : (run read exec data s).result = .error .protocol) :
    (run read exec (data ++ more) s).commands = (run read exec data s).commands := by
  induction data using run_induct hp generalizing s with
  | zero data ih =>
    rw [run_zero hp] at h ⊢
    rw [cons_append, run_zero hp]
    exact ih s h
  | bad data hzero hread =>
    have hne := ne_nil_of_read hp (by rw [hread]; simp)
    have hzero' := head?_append_ne hzero hne more
    rw [run_bad hzero hread]
    cases hmore : read (data ++ more) with
    | bad => rw [run_bad hzero' hmore]
    | more => rw [run_more hzero' hmore]; rfl
    | done args rest => exact absurd hmore (hp.bad_append hread more)
  | more data hzero hread =>
    rw [run_more hzero hread] at h
    cases h
  | done data args rest hzero hread ih =>
    have hne := ne_nil_of_read hp (by rw [hread]; simp)
    rw [run_done hp hzero hread] at h ⊢
    rw [run_done hp (head?_append_ne hzero hne more) (hp.append hread more)]
    obtain ⟨cmds, e, hexec⟩ | ⟨s', hexec⟩ := execute_cases exec s args
    · rw [hexec]
      rfl
    · rw [hexec] at h ⊢
      exact congrArg (_ ++ ·) (ih s' h)

/-- The executed commands are those of the whole file. -/
theorem commands_loadAOF (packets : List Bytes) (aofsz : Nat) (s : S)
    (hzero : buf.head? ≠ some 0) (hmore : read buf = .more) :
    (loadAOF read exec packets buf aofsz s).commands =
      (run read exec (buf ++ packets.flatten) s).commands := by
  induction packets generalizing buf aofsz s with
  | nil =>
    rw [flatten_nil, append_nil, run_more hzero hmore]
    rfl
  | cons packet packets ih =>
    rw [loadAOF, flatten_cons, ← append_assoc]
    by_cases hprot : (run read exec (buf ++ packet) s).result = .error .protocol
    · rw [commands_run_append hp _ _ s hprot, Ran.bind, hprot]
    rw [run_append hp _ _ s hprot]
    cases hres : (run read exec (buf ++ packet) s).result with
    | error e => rw [Ran.bind, hres, Ran.bind, hres]
    | ok r =>
      obtain ⟨hleft, hleftMore⟩ := run_left hp _ s hres
      rw [Ran.bind, hres, Ran.bind, hres]
      exact congrArg (_ ++ ·) (ih (aofsz + packet.length) r.1 hleft hleftMore)

/-- However the file is read: the same commands are executed; and if it ends in
an incomplete command, it is cut behind the last complete one and the zero bytes
that follow it, and loading what is left executes these commands and cuts
nothing. -/
theorem loadAOF_chunks (packets : List Bytes) (s : S) :
    (∀ packets' : List Bytes, packets'.flatten = packets.flatten →
      (loadAOF read exec packets' [] 0 s).commands = (loadAOF read exec packets [] 0 s).commands) ∧
    ∀ (kept rest : Bytes) (cmds : List (List Bytes)) (st : S),
      packets.flatten = kept ++ rest → Complete read kept cmds → Incomplete read rest →
      rest ≠ [] → (runAll exec cmds s).result = .ok st →
      loadAOF read exec packets [] 0 s =
        ⟨cmds.filter (· ≠ []), .ok ⟨st, kept.length, some kept.length⟩⟩ ∧
      ∀ (packets' : List Bytes) (exec' : S → List Bytes → Except E S) (s' st' : S),
        packets'.flatten = packets.flatten.take kept.length →
        (runAll exec' cmds s').result = .ok st' →
        loadAOF read exec' packets' [] 0 s' =
          ⟨cmds.filter (· ≠ []), .ok ⟨st', kept.length, none⟩⟩ := by
  refine ⟨?_, ?_⟩
  · intro packets' hsame
    rw [commands_loadAOF hp packets' 0 s (by simp) hp.nil, hsame,
      ← commands_loadAOF hp packets 0 s (by simp) hp.nil]
  · intro kept rest cmds st hflat hkept hrest hne hst
    refine ⟨?_, ?_⟩
    · rw [loadAOF_whole hflat hkept hrest hst, if_neg hne]
    · intro packets' exec' s' st' hcut hst'
      rw [hflat, take_left, ← append_nil kept] at hcut
      rw [loadAOF_whole hcut hkept (hrest.of_front nil_prefix) hst', if_pos rfl]

end

/-- A command, a zero byte and half a command, in three pieces. -/
theorem loadAOF_chunks_torn :
    PrefixConsistent Lib.command ∧
      loadAOF (E := Unit) Lib.command (fun n _ => .ok (n + 1))
          [lit "*1\r\n$1", lit "\r\na\r\n\x00*", lit "1\r"] [] 0 0 =
        ⟨[[lit "a"]], .ok ⟨1, 12, some 12⟩⟩ := by
  have hread := reads_command [lit "a"]
  have hkept : Complete Lib.command (encodeCommand [lit "a"] ++ [0]) [[lit "a"]] :=
    .command (by decide) hread (.zero .nil)
  have hrest : Incomplete Lib.command (lit "*1\r") := ⟨by decide, fun front hf => by
    refine hread.part front (hf.trans (by decide)) ?_
    rintro rfl
    exact absurd hf (by decide)⟩
  exact ⟨prefixConsistent_command,
    ((@loadAOF_chunks Nat Unit Lib.command (fun n _ => .ok (n + 1)) prefixConsistent_command
      [lit "*1\r\n$1", lit "\r\na\r\n\x00*", lit "1\r"] 0).2 _ _ _ 1 (by decide) hkept hrest
      (by decide) rfl).1⟩

end SpatialDb.Server.Chunked
