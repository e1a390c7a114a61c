import SpatialDb.Lib.Runs
import SpatialDb.Server.FieldText
import SpatialDb.Server.ShrinkInv

/-!
# Rewriting while clients write
-/

namespace SpatialDb.Server

open Lib List

/-! ## Whole rewrites -/

variable {events : List ShrinkEvent}

section Run

variable {N G : Type} [LinearOrder N] (lib : ServerLib N G) (hlib : HookLib G)
  (slib : ShrinkLib G) (docs : List Bytes)

/-- A hold of the lock by the shrinker or a safe data command. -/
def DataEvent : ShrinkEvent → Prop
  | .client _ args => SafeData lib docs args
  | .shrink _ => True

/-- The same, or a rename of a key that the shrinker has left behind. -/
def SafeEvent (x : Shrink G) : ShrinkEvent → Prop
  | .client _ args => SafeData lib docs args ∨ SafeRename x args
  | .shrink _ => True

/-- Every event is safe in the state it meets. -/
def SafeEvents : Shrink G → List ShrinkEvent → Prop
  | _, [] => True
  | x, e :: events => SafeEvent lib docs x e ∧ SafeEvents (shrinkEvent lib hlib slib x e) events

/-- Whenever the shrinker has the lock, the objects in memory print back. -/
def PrintsThroughout : Shrink G → List ShrinkEvent → Prop :=
  AtEach (shrinkEvent lib hlib slib) fun x e =>
    ∀ tnow, e = .shrink tnow → PrintsAll lib slib x.l.st.cols

instance : (e : ShrinkEvent) → Decidable (DataEvent lib docs e)
  | .client _ args => inferInstanceAs (Decidable (SafeData lib docs args))
  | .shrink _ => inferInstanceAs (Decidable True)

instance (x : Shrink G) : (e : ShrinkEvent) → Decidable (SafeEvent lib docs x e)
  | .client _ args => inferInstanceAs (Decidable (SafeData lib docs args ∨ SafeRename x args))
  | .shrink _ => inferInstanceAs (Decidable True)

instance decidableSafeEvents : (x : Shrink G) → (events : List ShrinkEvent) →
    Decidable (SafeEvents lib hlib slib docs x events)
  | _, [] => inferInstanceAs (Decidable True)
  | x, e :: events =>
    have := decidableSafeEvents (shrinkEvent lib hlib slib x e) events
    inferInstanceAs (Decidable (SafeEvent lib docs x e ∧ SafeEvents lib hlib slib docs _ events))

variable {lib hlib slib docs} {now : Int} {s : ServerState G} {x : Shrink G}

theorem safeEvents_of_data (h : ∀ e ∈ events, DataEvent lib docs e)
    (x : Shrink G) : SafeEvents lib hlib slib docs x events := by
  induction events generalizing x with
  | nil => trivial
  | cons e events ih =>
    refine ⟨?_, ih (forall_mem_cons.mp h).2 _⟩
    have he := h e mem_cons_self
    cases e with
    | client env args => exact .inl he
    | shrink tnow => trivial

theorem shrinkRun_of_swapped (events : List ShrinkEvent) (h : x.stage = .swapped) :
    (shrinkRun lib hlib slib x events).stage = .swapped := by
  induction events generalizing x with
  | nil => exact h
  | cons e events ih =>
    refine ih ?_
    cases e with
    | client env args => exact h
    | shrink tnow =>
      rw [shrinkEvent, shrinkStep, h]
      exact h

theorem stage_ne_of_live {tnow : Int}
    (hlive : (shrinkRun lib hlib slib x (.shrink tnow :: events)).stage ≠ .swapped) :
    x.stage ≠ .hooks [] := by
  intro hstage
  refine hlive (shrinkRun_of_swapped events ?_)
  rw [shrinkEvent, shrinkStep, hstage]
  rfl

theorem aof_of_swap (hstage : x.stage = .hooks []) (tnow : Int) :
    (shrinkStep lib slib tnow x).l.aof = (x.file ++ x.l.shrinklog).flatMap encodeCommand := by
  rw [shrinkStep, hstage]
  rfl

section

variable (hspec : lib.ReadsSpecials) (hlines : HookLinesLoad hlib s.hooks)
include hspec hlines

theorem shrinkEvent_inv {e : ShrinkEvent} (hsafe : SafeEvent lib docs x e)
    (hback : ∀ tnow, e = .shrink tnow → PrintsAll lib slib x.l.st.cols)
    (h : ∃ d ops, ShrinkInv lib hlib docs now s x d ops)
    (hlive : (shrinkRun lib hlib slib x (e :: events)).stage ≠ .swapped) :
    ∃ d ops, ShrinkInv lib hlib docs now s (shrinkEvent lib hlib slib x e) d ops := by
  obtain ⟨d, ops, h⟩ := h
  cases e with
  | client env args =>
    obtain ⟨ops, h⟩ := client_inv hspec h hsafe
    exact ⟨d, ops, h⟩
  | shrink tnow =>
    obtain ⟨d, h⟩ := shrinkStep_inv hspec (hback tnow rfl) hlines h tnow (stage_ne_of_live hlive)
    exact ⟨d, ops, h⟩

/-- The invariant holds until the swap. -/
theorem shrinkRun_inv (hsafe : SafeEvents lib hlib slib docs x events)
    (hback : PrintsThroughout lib hlib slib x events)
    (h : ∃ d ops, ShrinkInv lib hlib docs now s x d ops)
    (hlive : (shrinkRun lib hlib slib x events).stage ≠ .swapped) :
    ∃ d ops, ShrinkInv lib hlib docs now s (shrinkRun lib hlib slib x events) d ops := by
  induction events generalizing x with
  | nil => exact h
  | cons e events ih =>
    obtain ⟨hfirst, hrest⟩ := atEach_cons.mp hback
    exact ih hsafe.2 hrest (shrinkEvent_inv hspec hlines hsafe.1 hfirst h hlive) hlive

end

theorem printsThroughout_of_lossless (hlossless : Lossless lib slib)
    (hlines : HookLinesLoad hlib s.hooks) (hsafe : SafeEvents lib hlib slib docs x events)
    (h : ∃ d ops, ShrinkInv lib hlib docs now s x d ops)
    (hlive : (shrinkRun lib hlib slib x events).stage ≠ .swapped) :
    PrintsThroughout lib hlib slib x events := by
  induction events generalizing x with
  | nil => exact atEach_nil
  | cons e events ih =>
    have hback : PrintsAll lib slib x.l.st.cols := by
      intro i o ho
      obtain ⟨d, ops, h⟩ := h
      exact hlossless.printsBack (h.good i o ho)
    have hnext := shrinkEvent_inv hlossless.toReadsSpecials hlines hsafe.1 (fun _ _ => hback) h
      hlive
    exact atEach_cons.mpr ⟨fun _ _ => hback, ih hsafe.2 hnext hlive⟩

/-- At the swap every cell has been passed, and the file loads to the data. -/
theorem ShrinkInv.load {d : ServerState G}
    {ops : List (StoreOp (Bytes × Bytes) (Geometry G) Bytes StoredValue)}
    (h : ShrinkInv lib hlib docs now s x d ops) (hstage : x.stage = .hooks [])
    (reader : CommandReader) (tnow : Int) {packets : List Bytes}
    (hpackets : packets.flatten = (shrinkStep lib slib tnow x).l.aof) :
    ∃ y, loadAOF lib hlib reader now packets [] ⟨ServerState.empty, 0⟩ = .ok y ∧
      NoEmpty y.st.cols ∧ ∀ i, view y.st.cols i = view x.l.st.cols i := by
  have hall : ∀ i, ¬ x.Pending i := not_pending_of_stage (by simp [hstage])
  obtain ⟨d', hrun, hd', hview⟩ := h.log d h.healthy fun _ _ => rfl
  have hlog : replay lib hlib now (x.file ++ x.l.shrinklog) ServerState.empty = .ok d' := by
    rw [replay_append, h.file]
    exact hrun
  have haof : packets.flatten = (x.file ++ x.l.shrinklog).flatMap encodeCommand :=
    hpackets.trans (aof_of_swap hstage tnow)
  refine ⟨_, loadAOF_flatMap reader h.lines haof hlog, hd'.noEmpty, fun i => ?_⟩
  rw [hview]
  exact h.fuzzy.final hall i

theorem shrinkRun_load (hspec : lib.ReadsSpecials) (reader : CommandReader) (now : Int)
    {l : Leader G} (hne : NoEmpty l.st.cols) (hgood : GoodData lib docs l.st.cols)
    (hlines : HookLinesLoad hlib l.st.hooks)
    (hsafe : SafeEvents lib hlib slib docs (Shrink.start l) events)
    (hback : PrintsThroughout lib hlib slib (Shrink.start l) events)
    (hswap : (shrinkRun lib hlib slib (Shrink.start l) events).stage = .hooks []) (tnow : Int)
    {packets : List Bytes}
    (hpackets : packets.flatten =
      (shrinkStep lib slib tnow (shrinkRun lib hlib slib (Shrink.start l) events)).l.aof) :
    ∃ y, loadAOF lib hlib reader now packets [] ⟨ServerState.empty, 0⟩ = .ok y ∧
      SameData y.st.cols (shrinkRun lib hlib slib (Shrink.start l) events).l.st.cols := by
  have hstart : ∃ d ops, ShrinkInv lib hlib docs now l.st (Shrink.start l) d ops :=
    ⟨_, _, shrinkInv_start hne hgood⟩
  obtain ⟨d, ops, h⟩ := shrinkRun_inv hspec hlines hsafe hback hstart (by simp [hswap])
  obtain ⟨y, hload, hne, hview⟩ := h.load hswap reader tnow hpackets
  exact ⟨y, hload, sameData_of_view hne h.noEmpty hview⟩

end Run

/-! ## The small instance -/

/-- The printing that goes with `textLib`. -/
def textShrink : ShrinkLib Unit where
  geoJSON _ := lit "[0,0]"
  formatTTL _ _ := lit "+Inf"

/-- A byte that is a letter neither itself nor by what follows stays in front. -/
theorem head?_toLower {b : UInt8} (hb : b ∈ [34, 123, 91]) (s : Bytes) :
    (toLower (b :: s)).head? = some b := by
  simp only [mem_cons, not_mem_nil, or_false] at hb
  match s with
  | [] => rcases hb with rfl | rfl | rfl <;> rfl
  | [_] => rcases hb with rfl | rfl | rfl <;> rfl
  | _ :: _ :: _ => rcases hb with rfl | rfl | rfl <;> rfl

theorem textLib_not_float {b : UInt8} (hb : b ∈ [34, 123, 91]) (s : Bytes) :
    (textLib.parseFloat (b :: s)).2 = false := by
  have hne : ∀ word ∈ [lit "nan", lit "inf", lit "+inf", lit "-inf"], toLower (b :: s) ≠ word := by
    have hhead : ∀ word ∈ [lit "nan", lit "inf", lit "+inf", lit "-inf"], word.head? ≠ some b := by
      simp only [mem_cons, not_mem_nil, or_false] at hb
      rcases hb with rfl | rfl | rfl <;> decide
    intro word hword heq
    refine hhead word hword ?_
    rw [← heq]
    exact head?_toLower hb s
  simp only [mem_cons, not_mem_nil, or_false, forall_eq_or_imp, forall_eq] at hne
  obtain ⟨hnan, hinf, hpinf, hninf⟩ := hne
  simp only [textLib, hnan, if_false, mem_cons, not_mem_nil, hinf, hpinf, or_self, hninf]

/-- `textLib` knows strings only. -/
theorem jsonLaws_text : textLib.toFieldLib.JsonLaws where
  nan := by decide
  pinf := by decide
  ninf := by decide
  valid_quote := by
    intro s
    show textLib.valid (34 :: s ++ [34]) = true
    simp only [textLib, getLast?_append]
    simp
  parse_quote := by
    intro s
    show textLib.parse (34 :: s ++ [34]) = (.string, s)
    simp [textLib]
  quote_marks := fun s => ⟨s, rfl⟩
  quote_special := fun _ _ => rfl
  quote_not_float := textLib_not_float (by simp)
  word := by
    rintro d - k w hword rfl
    simp [textLib] at hword
  valid_ugly := fun _ h => h
  ugly_ugly := fun _ _ => rfl
  ugly_brackets := fun _ _ h => nomatch h
  bracket_not_float := fun b hb => textLib_not_float (mem_cons_of_mem 34 hb)
  bracket_json := by
    intro b hb s hvalid
    simp only [textLib, Bool.and_eq_true, decide_eq_true_eq, head?_cons,
      Option.some.injEq] at hvalid
    rw [hvalid.1.2] at hb
    exact absurd hb (by decide)

theorem lossless_text : Lossless textLib textShrink where
  toReadsSpecials := jsonLaws_text.toReadsSpecials
  value := fun data => (guessed_valueOf _ data).valueOf_printed jsonLaws_text
  geo := fun _ => rfl
  ttl := by
    intro _ _
    show (textLib.parseFloat (lit "+Inf")).2 = true
    decide

/-! ## Results -/

variable {N G : Type} [LinearOrder N] {lib : ServerLib N G} {hlib : HookLib G}
  {slib : ShrinkLib G} {docs : List Bytes}

/-- **For every dataset with clean fields and every interleaving of safe data
commands with the holds of the lock by `aofshrink`: the new file, in whatever
pieces it is read, loads to the collections, ids, geometries and fields that
the server has at the swap.** -/
theorem shrink_load (hlossless : Lossless lib slib) (reader : CommandReader) (now : Int)
    {l : Leader G} (hne : NoEmpty l.st.cols) (hgood : GoodData lib docs l.st.cols)
    (hlines : HookLinesLoad hlib l.st.hooks) {events : List ShrinkEvent}
    (hsafe : ∀ e ∈ events, DataEvent lib docs e)
    (hswap : (shrinkRun lib hlib slib (Shrink.start l) events).stage = .hooks []) (tnow : Int)
    {packets : List Bytes}
    (hpackets : packets.flatten =
      (shrinkStep lib slib tnow (shrinkRun lib hlib slib (Shrink.start l) events)).l.aof) :
    ∃ y, loadAOF lib hlib reader now packets [] ⟨ServerState.empty, 0⟩ = .ok y ∧
      SameData y.st.cols (shrinkRun lib hlib slib (Shrink.start l) events).l.st.cols := by
  have hsafe : SafeEvents lib hlib slib docs (Shrink.start l) events := safeEvents_of_data hsafe _
  have hstart : ∃ d ops, ShrinkInv lib hlib docs now l.st (Shrink.start l) d ops :=
    ⟨_, _, shrinkInv_start hne hgood⟩
  have hback : PrintsThroughout lib hlib slib (Shrink.start l) events :=
    printsThroughout_of_lossless hlossless hlines hsafe hstart (by simp [hswap])
  exact shrinkRun_load hlossless.toReadsSpecials reader now hne hgood hlines hsafe hback hswap tnow
    hpackets

theorem shrink_load_text :
    let c := ShrinkEvent.client { out := .resp }
    let events := [c [lit "SET", lit "fleet", lit "truck1", lit "FIELD", lit "speed", lit "fast",
        lit "STRING", lit "idle"],
      .shrink 0, c [lit "FSET", lit "fleet", lit "truck1", lit "speed", lit "slow"], .shrink 0,
      c [lit "SET", lit "fleet", lit "truck2", lit "STRING", lit "full"], .shrink 0,
      c [lit "DEL", lit "fleet", lit "truck1"]]
    let x := shrinkRun textLib noHooks textShrink (Shrink.start Leader.start) events
    x.stage = .hooks [] ∧
      ∃ y, loadAOF textLib noHooks respReader 0 [(shrinkStep textLib textShrink 0 x).l.aof] []
        ⟨ServerState.empty, 0⟩ = .ok y ∧ SameData y.st.cols x.l.st.cols := by
  intro c events
  have hswap : (shrinkRun textLib noHooks textShrink (Shrink.start Leader.start) events).stage
      = .hooks [] := by decide +kernel
  have hsafe : ∀ e ∈ events, DataEvent textLib [] e := by decide +kernel
  have hgood : GoodData textLib [] (Leader.start : Leader Unit).st.cols := fun _ _ h => nomatch h
  exact ⟨hswap, shrink_load lossless_text respReader 0 noEmpty_empty hgood
    (fun _ _ h => nomatch h) hsafe hswap 0 (by simp)⟩

/-- **A field name that is reserved once it is trimmed gets into an object;
after the rewrite the file does not load.** -/
theorem shrink_reserved_name :
    let l := handleInputCommand textLib noHooks Leader.start { out := .resp }
      [lit "SET", lit "fleet", lit "truck1", lit "FIELD", lit " z", lit "hot",
        lit "STRING", lit "idle"]
    let x := shrinkRun textLib noHooks textShrink (Shrink.start l) [.shrink 0, .shrink 0, .shrink 0]
    x.stage = .hooks [] ∧ (lookup x.l.st.cols (lit "fleet", lit "truck1")).isSome = true ∧
      (match loadAOF textLib noHooks respReader 0 [(shrinkStep textLib textShrink 0 x).l.aof] []
          ⟨ServerState.empty, 0⟩ with
        | .error e => some e
        | .ok _ => none) = some (.invalidArgument (lit "z")) := by
  decide +kernel

/-- **With renames of keys that the shrinker has left behind, among safe data
commands, and objects that print back: the new file loads, and every object
that the server has at the swap is there under its key, with its geometry and
fields.** -/
theorem shrink_rename_load (hspec : lib.ReadsSpecials) (reader : CommandReader) (now : Int)
    {l : Leader G} (hne : NoEmpty l.st.cols) (hgood : GoodData lib docs l.st.cols)
    (hlines : HookLinesLoad hlib l.st.hooks) {events : List ShrinkEvent}
    (hsafe : SafeEvents lib hlib slib docs (Shrink.start l) events)
    (hback : PrintsThroughout lib hlib slib (Shrink.start l) events)
    (hswap : (shrinkRun lib hlib slib (Shrink.start l) events).stage = .hooks []) (tnow : Int)
    {packets : List Bytes}
    (hpackets : packets.flatten =
      (shrinkStep lib slib tnow (shrinkRun lib hlib slib (Shrink.start l) events)).l.aof) :
    ∃ y, loadAOF lib hlib reader now packets [] ⟨ServerState.empty, 0⟩ = .ok y ∧
      ∀ key id o,
        lookup (shrinkRun lib hlib slib (Shrink.start l) events).l.st.cols (key, id) = some o →
        ∃ o', lookup y.st.cols (key, id) = some o' ∧ o'.geo = o.geo ∧ o'.fields = o.fields := by
  obtain ⟨y, hload, -, hsame⟩ :=
    shrinkRun_load hspec reader now hne hgood hlines hsafe hback hswap tnow hpackets
  refine ⟨y, hload, fun key id o ho => ?_⟩
  have hobject := hsame key id
  rw [ho, Option.map_some, Option.map_eq_some_iff] at hobject
  obtain ⟨o', ho', heq⟩ := hobject
  exact ⟨o', ho', congrArg Prod.fst heq, congrArg Prod.snd heq⟩

theorem shrink_rename_load_text :
    let c := ShrinkEvent.client { out := .resp }
    let events := [c [lit "SET", lit "yard", lit "truck1", lit "STRING", lit "idle"],
      .shrink 0, .shrink 0, c [lit "RENAME", lit "yard", lit "fleet"], .shrink 0]
    let x := shrinkRun textLib noHooks textShrink (Shrink.start Leader.start) events
    (lookup x.l.st.cols (lit "fleet", lit "truck1")).isSome = true ∧
      ∃ y, loadAOF textLib noHooks respReader 0 [(shrinkStep textLib textShrink 0 x).l.aof] []
          ⟨ServerState.empty, 0⟩ = .ok y ∧
        ∀ key id o, lookup x.l.st.cols (key, id) = some o →
          ∃ o', lookup y.st.cols (key, id) = some o' ∧ o'.geo = o.geo ∧ o'.fields = o.fields := by
  intro c events
  have hswap : (shrinkRun textLib noHooks textShrink (Shrink.start Leader.start) events).stage
      = .hooks [] := by decide +kernel
  have hsafe : SafeEvents textLib noHooks textShrink [] (Shrink.start Leader.start) events := by
    decide +kernel
  have hgood : GoodData textLib [] (Leader.start : Leader Unit).st.cols := fun _ _ h => nomatch h
  have hlines : HookLinesLoad noHooks (Leader.start : Leader Unit).st.hooks :=
    fun _ _ h => nomatch h
  have hstart : ∃ d ops, ShrinkInv textLib noHooks [] 0 Leader.start.st
      (Shrink.start Leader.start) d ops := ⟨_, _, shrinkInv_start noEmpty_empty hgood⟩
  have hback : PrintsThroughout textLib noHooks textShrink (Shrink.start Leader.start) events :=
    printsThroughout_of_lossless lossless_text hlines hsafe hstart (by simp [hswap])
  exact ⟨by decide +kernel, shrink_rename_load lossless_text.toReadsSpecials respReader 0
    noEmpty_empty hgood hlines hsafe hback hswap 0 (by simp)⟩

/-- **A rename between the batch of keys and the batch of objects: the shrinker
does not find the old key, the load does not find what to rename, and the
object is gone.** -/
theorem shrink_rename_lost :
    let l := handleInputCommand textLib noHooks Leader.start { out := .resp }
      [lit "SET", lit "yard", lit "truck1", lit "STRING", lit "idle"]
    let x := shrinkRun textLib noHooks textShrink (Shrink.start l)
      [.shrink 0, .client { out := .resp } [lit "RENAME", lit "yard", lit "fleet"], .shrink 0,
        .shrink 0]
    x.stage = .hooks [] ∧ (lookup x.l.st.cols (lit "fleet", lit "truck1")).isSome = true ∧
      (loadAOF textLib noHooks respReader 0 [(shrinkStep textLib textShrink 0 x).l.aof] []
          ⟨ServerState.empty, 0⟩).toOption.map (fun y => y.st.cols.entries) = some [] := by
  decide +kernel

end SpatialDb.Server
