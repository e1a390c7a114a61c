import SpatialDb.Server.ShrinkLoad

/-!
# The invariant of a rewrite

`aofshrink` is an instance of `Lib.FuzzySnapshot`: the cells are the objects,
the copy is what the lines written so far load to, and a cell is passed when
the cursor has left it behind.

What a hold of the lock by the shrinker does to the file does not depend on
what the clients ran (`Copied`, `Copies`).
-/

namespace SpatialDb.Server

open Lib List OrdMap

/-! ## The cursor -/

variable {N G : Type} [LinearOrder N] {x : Shrink G} {i : Bytes × Bytes}

/-- The shrinker is still to visit this cell. -/
def Shrink.Pending (x : Shrink G) (i : Bytes × Bytes) : Prop :=
  x.stage = .objects ∧
    (i.1 ∈ x.keys.tail ∨ (x.keys.head? = some i.1 ∧ x.nextid ≤ i.2) ∨
      (x.keysdone = false ∧ x.nextkey ≤ i.1))

instance (x : Shrink G) (i : Bytes × Bytes) : Decidable (x.Pending i) :=
  inferInstanceAs (Decidable (_ ∧ _))

/-- After the objects nothing is pending. -/
theorem not_pending_of_stage (h : x.stage ≠ .objects) (i : Bytes × Bytes) : ¬ x.Pending i :=
  fun hi => h hi.1

/-- The shrinker has left the whole key behind. -/
def Shrink.Behind (x : Shrink G) (key : Bytes) : Prop :=
  x.stage ≠ .objects ∨ (key ∉ x.keys ∧ (x.keysdone = true ∨ key < x.nextkey))

instance (x : Shrink G) (key : Bytes) : Decidable (x.Behind key) :=
  inferInstanceAs (Decidable (_ ∨ _))

theorem Shrink.Behind.not_pending {key : Bytes} (h : x.Behind key) (id : Bytes) :
    ¬ x.Pending (key, id) := by
  rintro ⟨hstage, hpending⟩
  rcases h with h | ⟨hkeys, hnext⟩
  · exact h hstage
  rcases hpending with h | ⟨h, -⟩ | ⟨hdone, hle⟩
  · exact hkeys (mem_of_mem_tail h)
  · exact hkeys (mem_of_mem_head? h)
  · rcases hnext with h | h
    · rw [h] at hdone
      cases hdone
    · exact not_lt_of_ge hle h

/-- The keys of a batch are in order and before the next batch. -/
structure Shrink.Cursor (x : Shrink G) : Prop where
  sorted : x.keys.Pairwise (· < ·)
  ahead : x.keysdone = false → ∀ key ∈ x.keys, key < x.nextkey
  fresh : x.keys = [] → x.nextid = []

/-- At the beginning of a key. -/
theorem pending_of_fresh (hstage : x.stage = .objects) (hnext : x.nextid = []) :
    x.Pending i ↔ i.1 ∈ x.keys ∨ (x.keysdone = false ∧ x.nextkey ≤ i.1) := by
  have hnil : ([] : Bytes) ≤ i.2 := nil_le _
  unfold Shrink.Pending
  cases hkeys : x.keys with
  | nil => simp [hstage]
  | cons key rest =>
    simp only [hstage, hnext, hnil, true_and, and_true, tail_cons, head?_cons,
      Option.some.injEq, mem_cons, ← or_assoc]
    constructor
    · rintro ((h | h) | h)
      · exact .inl (.inr h)
      · exact .inl (.inl h.symm)
      · exact .inr h
    · rintro ((h | h) | h)
      · exact .inl (.inr h.symm)
      · exact .inl (.inl h)
      · exact .inr h

theorem pending_of_cons {key : Bytes} {rest : List Bytes} (hstage : x.stage = .objects)
    (hkeys : x.keys = key :: rest) :
    x.Pending i ↔ i.1 ∈ rest ∨ (i.1 = key ∧ x.nextid ≤ i.2) ∨
      (x.keysdone = false ∧ x.nextkey ≤ i.1) := by
  simp only [Shrink.Pending, hstage, hkeys, true_and, tail_cons, head?_cons,
    Option.some.injEq, eq_comm (a := key)]

/-! ## The invariant -/

variable (lib : ServerLib N G) (hlib : HookLib G) (docs : List Bytes) (now : Int)

/-- A dataset that a load can continue from, next to a server with `hooks`. -/
structure Healthy (hooks : OrdMap Bytes Hook) (d : ServerState G) : Prop where
  noEmpty : NoEmpty d.cols
  good : GoodData lib docs d.cols
  hooks : HooksFrom d.hooks hooks

/-- What holds of the lines written so far, next to a server that began with
`hooks`: they load to `d`, which has nothing yet where the shrinker is still to
go. -/
structure Copied (hooks : OrdMap Bytes Hook) (x : Shrink G) (d : ServerState G) : Prop where
  cursor : x.Cursor
  good : GoodData lib docs x.l.st.cols
  lines : ∀ args ∈ x.file, args ≠ []
  file : replay lib hlib now x.file ServerState.empty = .ok d
  healthy : Healthy lib docs hooks d
  hooks : ∀ name hook, x.l.st.hooks.get? name = some hook → hooks.get? name = some hook
  pending : ∀ i, x.Pending i → view d.cols i = none

/-- A step of the shrinker takes the cells that it passes over as they are. -/
structure Copies (x x' : Shrink G) (d d' : ServerState G) : Prop where
  leader : x'.l = x.l
  keep : ∀ i, ¬ x.Pending i → ¬ x'.Pending i ∧ view d'.cols i = view d.cols i
  new : ∀ i, x.Pending i → ¬ x'.Pending i → view d'.cols i = view x.l.st.cols i

/-- The commands `log` act on the cells as `ops`, on every dataset that has the
cells of `d` where the shrinker has been. -/
def Realizes (hooks hooks' : OrdMap Bytes Hook) (passed : Bytes × Bytes → Prop)
    (d : ServerState G) (log : List (List Bytes))
    (ops : List (StoreOp (Bytes × Bytes) (Geometry G) Bytes StoredValue)) : Prop :=
  ∀ e : ServerState G, Healthy lib docs hooks e →
    (∀ i, passed i → view e.cols i = view d.cols i) →
    ∃ e', replay lib hlib now log e = .ok e' ∧ Healthy lib docs hooks' e' ∧
      ∀ i, view e'.cols i = runAt (fieldCls lib.toFieldLib) ops i (view e.cols i)

/-- What holds during a rewrite that began on `s`: the lines written so far
load to `d`, and the shrink log acts as `ops`. -/
structure ShrinkInv (s : ServerState G) (x : Shrink G) (d : ServerState G)
    (ops : List (StoreOp (Bytes × Bytes) (Geometry G) Bytes StoredValue)) : Prop where
  shrinking : x.l.shrinking = true
  cursor : x.Cursor
  noEmpty : NoEmpty x.l.st.cols
  good : GoodData lib docs x.l.st.cols
  hooks : ∀ name hook, x.l.st.hooks.get? name = some hook → s.hooks.get? name = some hook
  lines : ∀ args ∈ x.file ++ x.l.shrinklog, args ≠ []
  file : replay lib hlib now x.file ServerState.empty = .ok d
  healthy : Healthy lib docs s.hooks d
  fuzzy : Fuzzy (fieldCls lib.toFieldLib) (view s.cols) (view x.l.st.cols) (view d.cols) ops
    fun i => ¬ x.Pending i
  log : Realizes lib hlib docs now s.hooks x.l.st.hooks (fun i => ¬ x.Pending i) d x.l.shrinklog ops

variable {lib hlib docs now} {s d : ServerState G}
  {ops : List (StoreOp (Bytes × Bytes) (Geometry G) Bytes StoredValue)}

theorem shrinkInv_start {l : Leader G} (hne : NoEmpty l.st.cols)
    (hgood : GoodData lib docs l.st.cols) :
    ShrinkInv lib hlib docs now l.st (Shrink.start l) ServerState.empty [] where
  shrinking := rfl
  cursor := ⟨.nil, fun _ _ h => (nomatch h), fun _ => rfl⟩
  noEmpty := hne
  good := hgood
  hooks := fun _ _ h => h
  lines := fun _ h => nomatch h
  file := rfl
  healthy := ⟨noEmpty_empty, fun _ _ h => (nomatch h), hooksFrom_empty _⟩
  fuzzy := by
    refine Fuzzy.init _ fun i => not_not.mpr ?_
    rw [pending_of_fresh rfl rfl]
    exact .inr ⟨rfl, nil_le _⟩
  log := fun e he _ => ⟨e, rfl, he, fun _ => rfl⟩

theorem replay_concat {log : List (List Bytes)} {args : List Bytes} {e e' e'' : ServerState G}
    (h : replay lib hlib now log e = .ok e') (hload : loadCommand lib hlib now e' args = .ok e'') :
    replay lib hlib now (log ++ [args]) e = .ok e'' := by
  rw [replay_append, h]
  dsimp only
  rw [replay, hload]
  rfl

section

variable (h : ShrinkInv lib hlib docs now s x d ops)
include h

/-- A logged command that is in effect, and that acts alike on every dataset
with the same cells where the shrinker has been. -/
theorem ShrinkInv.client {st : ServerState G}
    {args : List Bytes} {op : StoreOp (Bytes × Bytes) (Geometry G) Bytes StoredValue} (aof : Bytes)
    (hne : NoEmpty st.cols) (hgood : GoodData lib docs st.cols)
    (hhooks : ∀ name hook, st.hooks.get? name = some hook → x.l.st.hooks.get? name = some hook)
    (hview : ∀ i, view st.cols i = (op i).act (fieldCls lib.toFieldLib) (view x.l.st.cols i))
    (heffect : ∀ i, (op i).InEffect (view x.l.st.cols i)) (hargs : args ≠ [])
    (hload : ∀ e, Healthy lib docs x.l.st.hooks e →
      (∀ i, ¬ x.Pending i → view e.cols i = view x.l.st.cols i) →
      ∃ e', loadCommand lib hlib now e args = .ok e' ∧ Healthy lib docs st.hooks e' ∧
        ∀ i, view e'.cols i = (op i).act (fieldCls lib.toFieldLib) (view e.cols i)) :
    ShrinkInv lib hlib docs now s
      { x with l := { x.l with st, aof, shrinklog := x.l.shrinklog ++ [args] } } d
      (ops ++ [op]) where
  shrinking := h.shrinking
  cursor := ⟨h.cursor.sorted, h.cursor.ahead, h.cursor.fresh⟩
  noEmpty := hne
  good := hgood
  hooks := fun name hook hget => h.hooks name hook (hhooks name hook hget)
  lines := by
    intro a ha
    rcases mem_append.mp ha with ha | ha
    · exact h.lines a (mem_append_left _ ha)
    rcases mem_append.mp ha with ha | ha
    · exact h.lines a (mem_append_right _ ha)
    · rw [mem_singleton.mp ha]
      exact hargs
  file := h.file
  healthy := h.healthy
  fuzzy := by
    have hnow : view st.cols = fun i =>
        (op i).act (fieldCls lib.toFieldLib) (view x.l.st.cols i) := funext hview
    rw [hnow]
    exact h.fuzzy.client heffect
  log := by
    intro e he hcells
    obtain ⟨e', hrun, he', hops⟩ := h.log e he hcells
    -- where the shrinker has been, the load is at the live data
    have hlive : ∀ i, ¬ x.Pending i → view e'.cols i = view x.l.st.cols i := by
      intro i hi
      rw [hops, hcells i hi]
      exact h.fuzzy.passed_eq i hi
    obtain ⟨e'', hcmd, he'', hact⟩ := hload e' he' hlive
    refine ⟨e'', replay_concat hrun hcmd, he'', fun i => ?_⟩
    rw [hact, hops, runAt_concat]

theorem ShrinkInv.copied : Copied lib hlib docs now s.hooks x d where
  cursor := h.cursor
  good := h.good
  hooks := h.hooks
  lines := fun a ha => h.lines a (mem_append_left _ ha)
  file := h.file
  healthy := h.healthy
  pending := fun i hi => h.fuzzy.pending_eq i (not_not.mpr hi)

/-- The cells that are passed are copied as they are now. -/
theorem ShrinkInv.copy {x' : Shrink G}
    {d' : ServerState G} (hcopied : Copied lib hlib docs now s.hooks x' d')
    (hstep : Copies x x' d d') : ShrinkInv lib hlib docs now s x' d' ops where
  shrinking := by rw [hstep.leader]; exact h.shrinking
  cursor := hcopied.cursor
  noEmpty := by rw [hstep.leader]; exact h.noEmpty
  good := hcopied.good
  hooks := hcopied.hooks
  lines := by
    intro a ha
    rw [hstep.leader] at ha
    rcases mem_append.mp ha with ha | ha
    · exact hcopied.lines a ha
    · exact h.lines a (mem_append_right _ ha)
  file := hcopied.file
  healthy := hcopied.healthy
  fuzzy := by
    rw [hstep.leader]
    exact h.fuzzy.snapshot hstep.keep (fun i hi hi' => hstep.new i (not_not.mp hi) hi')
      fun i hi => hcopied.pending i (not_not.mp hi)
  log := by
    rw [hstep.leader]
    intro e he hcells
    refine h.log e he fun i hi => ?_
    obtain ⟨hi', hsame⟩ := hstep.keep i hi
    rw [hcells i hi', hsame]

end

/-! ## Client commands -/

variable (lib docs)

/-- A command that acts object by object on clean fields. -/
def SafeData (args : List Bytes) : Prop :=
  (∃ handler ∈ cellHandlers, handlerOf (commandName args) = some handler) ∧
    ∀ c ∈ parseCmd lib args, c.Safe docs

instance (args : List Bytes) : Decidable (SafeData lib docs args) :=
  inferInstanceAs (Decidable (_ ∧ _))

/-- A rename of a key that the shrinker has left behind; RENAMENX asks the same
of the new key. -/
def SafeRename (x : Shrink G) (args : List Bytes) : Prop :=
  handlerOf (commandName args) = some .rename ∧
    (x.Behind (args.getD 1 []) ∧ (commandName args = lit "renamenx" → x.Behind (args.getD 2 [])))

instance (x : Shrink G) (args : List Bytes) : Decidable (SafeRename x args) :=
  inferInstanceAs (Decidable (_ ∧ _))

variable {lib docs} {env : Env} {l : Leader G}

variable {args : List Bytes}

/-- A data command other than JDEL is a write without a deadline. -/
theorem handleInputCommand_of_handlerOf {handler : Handler}
    (h : handlerOf (commandName args) = some handler) (hjdel : handler ≠ .jdel) :
    handleInputCommand lib hlib l env args =
      finish l true args (command lib hlib env l.scripts l.st args) := by
  have hall : ∀ e ∈ handlers, e.2 ≠ .jdel →
      e.1 ∉ earlyCommands ∧ e.1 ≠ lit "timeout" ∧ e.1 ∈ writeCommands := by decide
  obtain ⟨hearly, htimeout, hwrite⟩ := hall _ (mem_handlers_of_handlerOf h) hjdel
  unfold handleInputCommand prepare
  rw [if_neg hearly, if_neg htimeout]
  dsimp only
  rw [Bool.false_and, if_neg Bool.false_ne_true, decide_eq_true hwrite]

variable {r : Result G × ServerState G}

theorem finish_of_not_updated (h : r.1.updated = false) :
    finish l true args r = { l with st := r.2 } := by
  obtain ⟨r, st⟩ := r
  cases r with
  | ok reply det =>
    have hdet : det.updated = false := h
    simp [finish, writeAOF, hdet]
  | err e => rfl
  | crash => rfl

theorem finish_of_updated (h : r.1.updated = true) (hshrinking : l.shrinking = true) :
    finish l true args r = { l with
      st := r.2
      aof := l.aof ++ encodeCommand args
      shrinklog := l.shrinklog ++ [args] } := by
  obtain ⟨r, st⟩ := r
  cases r with
  | ok reply det =>
    have hdet : det.updated = true := h
    simp [finish, writeAOF, hdet, hshrinking]
  | err e => cases h
  | crash => cases h

omit [LinearOrder N] in
theorem HooksFrom.hooksAfter {hooks hooks' : OrdMap Bytes Hook} (h : HooksFrom hooks hooks')
    (c : DataCmd N G) : HooksFrom (c.hooksAfter hooks) (c.hooksAfter hooks') := by
  cases c
  case flushdb => exact hooksFrom_empty _
  all_goals exact h

omit [LinearOrder N] in
theorem get?_hooksAfter {hooks : OrdMap Bytes Hook} (c : DataCmd N G) {name : Bytes} {hook : Hook}
    (h : (c.hooksAfter hooks).get? name = some hook) : hooks.get? name = some hook := by
  cases c
  case flushdb => cases h
  all_goals exact h

theorem SafeData.inv (hspec : lib.ReadsSpecials) (h : ShrinkInv lib hlib docs now s x d ops)
    (hsafe : SafeData lib docs args)
    (hupd : (command lib hlib env x.l.scripts x.l.st args).1.updated = true) (aof : Bytes) :
    ∃ op, ShrinkInv lib hlib docs now s
      { x with l := { x.l with
        st := (command lib hlib env x.l.scripts x.l.st args).2
        aof
        shrinklog := x.l.shrinklog ++ [args] } } d (ops ++ [op]) := by
  obtain ⟨⟨handler, hcell, hhandler⟩, hsafe⟩ := hsafe
  have hcall := command_of_handlerOf lib hlib env hhandler x.l.scripts x.l.st
  have hparsed : ∃ c, handler.parse lib args = some c := by
    rw [hcall] at hupd
    exact parse_of_updated hcell hupd
  obtain ⟨c, hc⟩ := hparsed
  have hparse : parseCmd lib args = some c := by
    rw [parseCmd, hhandler, Option.bind_some, hc]
  have hsafe := hsafe c hparse
  have hstep : CellStep lib docs env c x.l.st (command lib hlib env x.l.scripts x.l.st args) :=
    command_cells hspec hlib x.l.scripts h.good hparse hsafe fun _ => hupd
  have hhooks : (command lib hlib env x.l.scripts x.l.st args).2.hooks =
      c.hooksAfter x.l.st.hooks := by
    rw [hcall]
    exact call_hooksAfter x.l.st hc
  have hargs : args ≠ [] := by
    rintro rfl
    have hnil : handlerOf (commandName []) = none := by decide
    rw [hnil] at hhandler
    cases hhandler
  refine ⟨c.op lib, h.client aof (command_noEmpty h.noEmpty _ _) hstep.good ?_ hstep.cells
    (hstep.inEffect hupd) hargs ?_⟩
  · intro name hook hget
    rw [hhooks] at hget
    exact get?_hooksAfter c hget
  · intro e he _
    obtain ⟨e', hload, hcells, hgood, hafter⟩ :=
      loadCommand_cells hlib now hspec he.good hparse hsafe
    refine ⟨e', hload, ⟨noEmpty_of_loadCommand he.noEmpty hload, hgood, ?_⟩, hcells⟩
    rw [hhooks, hafter]
    exact he.hooks.hooksAfter c

theorem GoodData.renamed {cols : Dataset G} (h : GoodData lib docs cols)
    {key newKey : Bytes} {col : Col G} (hcol : cols.get? key = some col) :
    GoodData lib docs (renamed cols key newKey col) := by
  intro i o hi
  rw [lookup_renamed] at hi
  split at hi
  · rw [← lookup_of_get? hcol] at hi
    exact h _ o hi
  split at hi
  · cases hi
  · exact h i o hi

/-- A dataset that agrees with the live one behind the cursor is ready for the
rename too. -/
theorem RenameReady.of_live {live e : ServerState G} {name key newKey : Bytes}
    (h : RenameReady live name key newKey) (hlive : NoEmpty live.cols) (hne : NoEmpty e.cols)
    (hhooks : HooksFrom e.hooks live.hooks)
    (hkey : ∀ id, view e.cols (key, id) = view live.cols (key, id))
    (hnew : toLower name = lit "renamenx" →
      ∀ id, view e.cols (newKey, id) = view live.cols (newKey, id)) :
    RenameReady e name key newKey where
  old := by
    have hsome := (isSome_get?_iff hlive key).mp (Option.isSome_iff_ne_none.mpr h.old)
    simp only [← hkey] at hsome
    exact Option.isSome_iff_ne_none.mp ((isSome_get?_iff hne key).mpr hsome)
  hooks := by
    intro n hook hget
    obtain ⟨hook', hget', hkey, -⟩ := hhooks n hook hget
    rw [← hkey]
    exact h.hooks n hook' hget'
  free := by
    intro hnx
    by_contra hsome
    have hsome := (isSome_get?_iff hne newKey).mp (Option.isSome_iff_ne_none.mpr hsome)
    simp only [hnew hnx] at hsome
    exact Option.isSome_iff_ne_none.mp ((isSome_get?_iff hlive newKey).mpr hsome) (h.free hnx)

theorem SafeRename.inv (h : ShrinkInv lib hlib docs now s x d ops) (hsafe : SafeRename x args)
    (hupd : (command lib hlib env x.l.scripts x.l.st args).1.updated = true) (aof : Bytes) :
    ∃ op, ShrinkInv lib hlib docs now s
      { x with l := { x.l with
        st := (command lib hlib env x.l.scripts x.l.st args).2
        aof
        shrinklog := x.l.shrinklog ++ [args] } } d (ops ++ [op]) := by
  obtain ⟨hhandler, hsafe⟩ := hsafe
  have hcall : ∀ env scripts st, command lib hlib env scripts st args = cmdRENAME env st args :=
    fun env scripts st => command_of_handlerOf lib hlib env hhandler scripts st
  have hne : NoEmpty (command lib hlib env x.l.scripts x.l.st args).2.cols :=
    command_noEmpty h.noEmpty _ _
  rw [hcall] at hupd hne ⊢
  obtain ⟨name, key, newKey, col, rfl, hcol, hready⟩ := ready_of_updated hupd
  obtain ⟨reply, det, heq, -⟩ := cmdRENAME_of_ready env hready hcol
  have hkey : x.Behind key := hsafe.1
  have hnew : toLower name = lit "renamenx" → x.Behind newKey := hsafe.2
  rw [heq] at hne ⊢
  refine ⟨renameOp (fun id => view x.l.st.cols (key, id)) key newKey,
    h.client aof hne (h.good.renamed hcol) (fun _ _ hget => hget) (view_renamed _ hcol)
      (fun i => renameOp_inEffect _ _ _ i _) (by simp) fun e he hlive => ?_⟩
  have hready' : RenameReady e name key newKey :=
    hready.of_live h.noEmpty he.noEmpty he.hooks (fun id => hlive _ (hkey.not_pending id))
      fun hnx id => hlive _ ((hnew hnx).not_pending id)
  obtain ⟨col', hcol'⟩ := Option.ne_none_iff_exists'.mp hready'.old
  obtain ⟨reply', det', heq', hdet'⟩ := cmdRENAME_of_ready { out := .null, now } hready' hcol'
  have hload : loadCommand lib hlib now e [name, key, newKey] =
      .ok { e with cols := renamed e.cols key newKey col' } := by
    unfold loadCommand
    rw [hcall, heq']
  refine ⟨_, hload, ⟨noEmpty_of_loadCommand he.noEmpty hload, he.good.renamed hcol', he.hooks⟩,
    fun i => ?_⟩
  have hsame : (fun id => view e.cols (key, id)) = fun id => view x.l.st.cols (key, id) :=
    funext fun id => hlive _ (hkey.not_pending id)
  rw [← hsame]
  exact view_renamed _ hcol' i

/-- **The invariant is kept by every safe command.** -/
theorem client_inv (hspec : lib.ReadsSpecials) (h : ShrinkInv lib hlib docs now s x d ops)
    (hsafe : SafeData lib docs args ∨ SafeRename x args) :
    ∃ ops, ShrinkInv lib hlib docs now s
      { x with l := handleInputCommand lib hlib x.l env args } d ops := by
  have hhandler : ∃ handler, handlerOf (commandName args) = some handler ∧ handler ≠ .jdel := by
    rcases hsafe with ⟨⟨handler, hcell, hhandler⟩, -⟩ | ⟨hhandler, -⟩
    · refine ⟨handler, hhandler, ?_⟩
      rintro rfl
      revert hcell
      decide
    · exact ⟨_, hhandler, by simp⟩
  obtain ⟨handler, hhandler, hjdel⟩ := hhandler
  rw [handleInputCommand_of_handlerOf hhandler hjdel]
  cases hupd : (command lib hlib env x.l.scripts x.l.st args).1.updated with
  | false =>
    rw [finish_of_not_updated hupd, command_of_not_updated h.noEmpty _ _ hupd]
    exact ⟨ops, h⟩
  | true =>
    rw [finish_of_updated hupd h.shrinking]
    rcases hsafe with hsafe | hsafe
    · obtain ⟨op, hinv⟩ := hsafe.inv hspec h hupd (x.l.aof ++ encodeCommand args)
      exact ⟨_, hinv⟩
    · obtain ⟨op, hinv⟩ := hsafe.inv h hupd (x.l.aof ++ encodeCommand args)
      exact ⟨_, hinv⟩

/-! ## Steps of the shrinker -/

variable {slib : ShrinkLib G} {hooks : OrdMap Bytes Hook}

variable (lib slib) in
/-- Every object of the dataset prints back. -/
def PrintsAll (cols : Dataset G) : Prop := ∀ i o, lookup cols i = some o → PrintsBack lib slib o

/-- The lines of a batch of objects whose cells are still empty. -/
theorem replay_objectValues (hspec : lib.ReadsSpecials) (tnow : Int) (key : Bytes)
    {batch : List (Bytes × Object G)} (hd : Healthy lib docs hooks d)
    (hsorted : batch.Pairwise fun a b => a.1 < b.1)
    (hgood : ∀ e ∈ batch, PrintsBack lib slib e.2 ∧ GoodList lib.toFieldLib docs e.2.fields)
    (hempty : ∀ e ∈ batch, view d.cols (key, e.1) = none) :
    ∃ d', replay lib hlib now (batch.map fun e => objectValues lib slib tnow key e.1 e.2) d =
        .ok d' ∧ Healthy lib docs hooks d' ∧
      (∀ e ∈ batch, view d'.cols (key, e.1) = some (cellOf e.2)) ∧
      ∀ i, (∀ e ∈ batch, i ≠ (key, e.1)) → view d'.cols i = view d.cols i := by
  induction batch generalizing d with
  | nil => exact ⟨d, rfl, hd, by simp, fun _ _ => rfl⟩
  | cons e batch ih =>
    obtain ⟨hhead, htail⟩ := pairwise_cons.mp hsorted
    obtain ⟨d₁, hload, hview, hgood₁, hhooks⟩ := loadCommand_objectValues hspec hd.good tnow
      (hgood e mem_cons_self).1 (hgood e mem_cons_self).2 (hempty e mem_cons_self)
    have hother : ∀ f ∈ batch, (key, f.1) ≠ (key, e.1) := by
      intro f hf heq
      exact (ne_of_gt (hhead f hf)) (Prod.mk.inj heq).2
    have hd₁ : Healthy lib docs hooks d₁ :=
      ⟨noEmpty_of_loadCommand hd.noEmpty hload, hgood₁, by rw [hhooks]; exact hd.hooks⟩
    obtain ⟨d', hrun, hd', hnew, hkeep⟩ := ih hd₁ htail (forall_mem_cons.mp hgood).2 fun f hf => by
        rw [hview, if_neg (hother f hf)]
        exact hempty f (mem_cons_of_mem _ hf)
    refine ⟨d', ?_, hd', fun f hf => ?_, fun i hi => ?_⟩
    · rw [map_cons, replay, hload]
      exact hrun
    · rcases mem_cons.mp hf with rfl | hf
      · rw [hkeep _ fun g hg heq => hother g hg heq.symm, hview, if_pos rfl]
      · exact hnew f hf
    · rw [hkeep i (forall_mem_cons.mp hi).2, hview, if_neg (hi e mem_cons_self)]

variable {x' : Shrink G}

/-- Lines for cells that are pending, and a step of the cursor over them. -/
theorem Copied.write (h : Copied lib hlib docs now hooks x d) {d' : ServerState G}
    {lines : List (List Bytes)} (hl : x'.l = x.l) (hcursor : x'.Cursor)
    (hfile : x'.file = x.file ++ lines) (hlines : ∀ args ∈ lines, args ≠ [])
    (hrun : replay lib hlib now lines d = .ok d') (hhealthy : Healthy lib docs hooks d')
    (hrest : ∀ i, x'.Pending i → view d'.cols i = none) :
    Copied lib hlib docs now hooks x' d' where
  cursor := hcursor
  good := by rw [hl]; exact h.good
  hooks := by rw [hl]; exact h.hooks
  lines := by
    intro a ha
    rw [hfile] at ha
    rcases mem_append.mp ha with ha | ha
    · exact h.lines a ha
    · exact hlines a ha
  file := by
    rw [hfile, replay_append, h.file]
    exact hrun
  healthy := hhealthy
  pending := hrest

/-- A step of the cursor over cells with no object. -/
theorem Copied.move (h : Copied lib hlib docs now hooks x d) (hl : x'.l = x.l) (hcursor : x'.Cursor)
    (hfile : x'.file = x.file) (hpending : ∀ i, x'.Pending i → x.Pending i)
    (hnone : ∀ i, x.Pending i → ¬ x'.Pending i → view x.l.st.cols i = none) :
    Copied lib hlib docs now hooks x' d ∧ Copies x x' d d := by
  have hfile : x'.file = x.file ++ [] := by rw [hfile, append_nil]
  refine ⟨h.write hl hcursor hfile (by simp) rfl h.healthy
    fun i hi => h.pending i (hpending i hi), hl, ?_, fun i hi hi' => ?_⟩
  · exact fun i hi => ⟨fun hi' => hi (hpending i hi'), rfl⟩
  · rw [h.pending i hi, hnone i hi hi']

/-- A batch of objects of the first key: the cursor leaves behind the cells
with `upto`, and writes a line for each of them that has an object. -/
theorem Copied.ids (hspec : lib.ReadsSpecials) (hback : PrintsAll lib slib x.l.st.cols)
    (h : Copied lib hlib docs now hooks x d) (tnow : Int) (key : Bytes) (upto : Bytes → Prop)
    (batch : List (Bytes × Object G)) {col : Col G}
    (hlookup : ∀ id, lookup x.l.st.cols (key, id) = col.get? id) (hl : x'.l = x.l)
    (hcursor : x'.Cursor)
    (hfile : x'.file = x.file ++ batch.map fun e => objectValues lib slib tnow key e.1 e.2)
    (hsorted : batch.Pairwise fun a b => a.1 < b.1)
    (hbatch : ∀ id o, (id, o) ∈ batch ↔ x.Pending (key, id) ∧ upto id ∧ col.get? id = some o)
    (hpending : ∀ i, x'.Pending i ↔ x.Pending i ∧ ¬ (i.1 = key ∧ upto i.2)) :
    ∃ d', Copied lib hlib docs now hooks x' d' ∧ Copies x x' d d' := by
  obtain ⟨d', hrun, hd', hnew, hkeep⟩ := replay_objectValues hspec tnow key h.healthy hsorted
    (fun e he => by
      have hobj := (hlookup e.1).trans ((hbatch e.1 e.2).mp he).2.2
      exact ⟨hback (key, e.1) e.2 hobj, h.good (key, e.1) e.2 hobj⟩)
    fun e he => h.pending _ ((hbatch e.1 e.2).mp he).1
  refine ⟨d', h.write hl hcursor hfile ?_ hrun hd' ?_, hl, fun i hi => ⟨?_, ?_⟩, ?_⟩
  · intro args hargs
    obtain ⟨e, -, rfl⟩ := mem_map.mp hargs
    simp [objectValues]
  · intro i hi
    obtain ⟨hold, hnot⟩ := (hpending i).mp hi
    rw [hkeep, h.pending i hold]
    rintro e he rfl
    exact hnot ⟨rfl, ((hbatch e.1 e.2).mp he).2.1⟩
  · exact fun hi' => hi ((hpending i).mp hi').1
  · refine hkeep i fun e he heq => hi ?_
    rw [heq]
    exact ((hbatch e.1 e.2).mp he).1
  · rintro ⟨k, id⟩ hi hi'
    have hpassed : k = key ∧ upto id := by
      by_contra hnot
      exact hi' ((hpending (k, id)).mpr ⟨hi, hnot⟩)
    obtain ⟨rfl, hupto⟩ := hpassed
    have hlive : view x.l.st.cols (k, id) = (col.get? id).map cellOf := by rw [view, hlookup]
    rw [hlive]
    cases hobj : col.get? id with
    | some o => exact hnew (id, o) ((hbatch id o).mpr ⟨hi, hupto, hobj⟩)
    | none =>
      rw [hkeep, h.pending _ hi]
      · rfl
      · intro e he heq
        have hid : id = e.1 := (Prod.mk.inj heq).2
        rw [hid, ((hbatch e.1 e.2).mp he).2.2] at hobj
        cases hobj

theorem loadIds_copies (hspec : lib.ReadsSpecials) (hback : PrintsAll lib slib x.l.st.cols)
    (h : Copied lib hlib docs now hooks x d) (tnow : Int) (hstage : x.stage = .objects)
    {key : Bytes} {rest : List Bytes}
    (hkeys : x.keys = key :: rest) :
    ∃ d', Copied lib hlib docs now hooks (loadIds lib slib tnow x key rest) d' ∧
      Copies x (loadIds lib slib tnow x key rest) d d' := by
  have hsorted := h.cursor.sorted
  have hahead := h.cursor.ahead
  rw [hkeys] at hsorted hahead
  obtain ⟨hhead, htail⟩ := pairwise_cons.mp hsorted
  have hkey : key ∉ rest := fun hmem => lt_irrefl key (hhead key hmem)
  have hnext : ¬ (x.keysdone = false ∧ x.nextkey ≤ key) := fun hle =>
    not_lt_of_ge hle.2 (hahead hle.1 key mem_cons_self)
  have hpending : ∀ id, x.Pending (key, id) ↔ x.nextid ≤ id := by
    intro id
    rw [pending_of_cons hstage hkeys]
    simp only [hkey, hnext, or_false, false_or, true_and]
  -- leaving the key
  have hcursor : ∀ file, ({ x with keys := rest, nextid := [], file } : Shrink G).Cursor := fun _ =>
    ⟨htail, fun hdone k hk => hahead hdone k (mem_cons_of_mem _ hk), fun _ => rfl⟩
  have hleft : ∀ file i, ({ x with keys := rest, nextid := [], file } : Shrink G).Pending i ↔
      x.Pending i ∧ ¬ (i.1 = key ∧ True) := by
    intro file i
    have hfresh : ({ x with keys := rest, nextid := [], file } : Shrink G).Pending i ↔
        i.1 ∈ rest ∨ (x.keysdone = false ∧ x.nextkey ≤ i.1) := pending_of_fresh hstage rfl
    rw [hfresh, pending_of_cons hstage hkeys]
    by_cases hi : i.1 = key
    · simp only [hi, hkey, hnext, or_self, true_and, not_true, and_false]
    · simp only [hi, false_and, not_false_eq_true, and_true, false_or]
  unfold loadIds
  cases hcol : x.l.st.cols.get? key with
  | none =>
    have hlookup : ∀ id, lookup x.l.st.cols (key, id) = (empty : Col G).get? id :=
      lookup_of_none hcol
    exact h.ids hspec hback tnow key (fun _ => True) [] hlookup rfl (hcursor x.file) (by simp) .nil
      (by simp) (hleft x.file)
  | some col =>
    have hlookup := lookup_of_get? hcol
    have hmem : ∀ id o, (id, o) ∈ col.ascend x.nextid ↔
        x.Pending (key, id) ∧ col.get? id = some o := by
      intro id o
      rw [mem_ascend_iff, hpending]
    have hascend := col.ascend_sorted x.nextid
    dsimp only
    cases hdrop : (col.ascend x.nextid).drop maxids with
    | nil =>
      have htake : (col.ascend x.nextid).take maxids = col.ascend x.nextid :=
        take_of_length_le (drop_eq_nil_iff.mp hdrop)
      rw [htake]
      refine h.ids hspec hback tnow key (fun _ => True) _ hlookup rfl (hcursor _) rfl hascend
        (fun id o => ?_) (hleft _)
      rw [hmem, true_and]
    | cons e tail =>
      have hbatch := mem_take_iff Prod.fst hascend hdrop
      have hle : x.nextid ≤ e.1 := by
        have he : (e.1, e.2) ∈ col.ascend x.nextid := mem_of_mem_drop (hdrop ▸ mem_cons_self)
        exact ((mem_ascend_iff col x.nextid e.1 e.2).mp he).1
      refine h.ids hspec hback tnow key (fun id => id < e.1) _ hlookup rfl ?_ rfl
        (hascend.sublist (take_sublist _ _)) (fun id o => ?_) fun i => ?_
      · exact ⟨h.cursor.sorted, h.cursor.ahead, fun hnil => nomatch hkeys.symm.trans hnil⟩
      · rw [hbatch, hmem, and_assoc, and_comm (a := col.get? id = some o)]
      · have hmore : ∀ file, ({ x with nextid := e.1, file } : Shrink G).Pending i ↔
            i.1 ∈ rest ∨ (i.1 = key ∧ e.1 ≤ i.2) ∨
              (x.keysdone = false ∧ x.nextkey ≤ i.1) := fun _ => pending_of_cons hstage hkeys
        rw [hmore, pending_of_cons hstage hkeys]
        by_cases hi : i.1 = key
        · simp only [hi, hkey, hnext, false_or, or_false, true_and, not_lt]
          exact ⟨fun hid => ⟨hle.trans hid, hid⟩, fun hid => hid.2⟩
        · simp only [hi, false_and, not_false_eq_true, and_true, false_or]

theorem loadKeys_copies (h : Copied lib hlib docs now hooks x d) (hstage : x.stage = .objects)
    (hkeys : x.keys = []) (hdone : x.keysdone = false) :
    Copied lib hlib docs now hooks (loadKeys x) d ∧ Copies x (loadKeys x) d d := by
  have hnextid := h.cursor.fresh hkeys
  have hpending : ∀ i, x.Pending i ↔ x.nextkey ≤ i.1 := by
    intro i
    rw [pending_of_fresh hstage hnextid, hkeys]
    simp only [hdone, not_mem_nil, false_or, true_and]
  have hmem : ∀ key, key ∈ (x.l.st.cols.ascend x.nextkey).map Prod.fst ↔
      x.nextkey ≤ key ∧ ∃ col, x.l.st.cols.get? key = some col := by
    intro key
    simp only [mem_map, Prod.exists, exists_and_right, exists_eq_right,
      mem_ascend_iff, exists_and_left]
  have hsorted : ((x.l.st.cols.ascend x.nextkey).map Prod.fst).Pairwise (· < ·) :=
    pairwise_map.mpr (x.l.st.cols.ascend_sorted _)
  -- a key that is not found has no objects
  have hnone : ∀ i : Bytes × Bytes, x.nextkey ≤ i.1 →
      i.1 ∉ (x.l.st.cols.ascend x.nextkey).map Prod.fst → view x.l.st.cols i = none := by
    intro i hle hnot
    rw [hmem] at hnot
    cases hcol : x.l.st.cols.get? i.1 with
    | none => rw [view, lookup_of_none hcol]; rfl
    | some col => exact absurd ⟨hle, col, hcol⟩ hnot
  unfold loadKeys
  dsimp only
  generalize hfound : (x.l.st.cols.ascend x.nextkey).map Prod.fst = found at hmem hsorted hnone ⊢
  have htake : (found.take maxkeys).Pairwise (· < ·) := hsorted.sublist (take_sublist _ _)
  cases hdrop : found.drop maxkeys with
  | nil =>
    have hall : found.take maxkeys = found := take_of_length_le (drop_eq_nil_iff.mp hdrop)
    have hfresh : ∀ i, ({ x with keys := found.take maxkeys, keysdone := true } :
        Shrink G).Pending i ↔ i.1 ∈ found := by
      intro i
      refine Iff.trans (pending_of_fresh ?_ ?_) ?_
      · exact hstage
      · exact hnextid
      · simp only [hall, Bool.true_eq_false, false_and, or_false]
    refine h.move rfl ⟨htake, fun hdone => (by cases hdone), fun _ => hnextid⟩ rfl
      (fun i hi => ?_) fun i hi hi' => ?_
    · exact (hpending i).mpr ((hmem i.1).mp ((hfresh i).mp hi)).1
    · exact hnone i ((hpending i).mp hi) fun hin => hi' ((hfresh i).mpr hin)
  | cons key tail =>
    have hbefore := mem_take_iff id hsorted hdrop
    have hkey : x.nextkey ≤ key := ((hmem key).mp (mem_of_mem_drop (hdrop ▸ mem_cons_self))).1
    have hfresh : ∀ i, ({ x with keys := found.take maxkeys, nextkey := key } :
        Shrink G).Pending i ↔ i.1 ∈ found.take maxkeys ∨ key ≤ i.1 := by
      intro i
      refine Iff.trans (pending_of_fresh ?_ ?_) ?_
      · exact hstage
      · exact hnextid
      · simp only [hdone, true_and]
    refine h.move rfl ⟨htake, fun _ k hk => ((hbefore k).mp hk).2, fun _ => hnextid⟩ rfl
      (fun i hi => ?_) fun i hi hi' => ?_
    · rcases (hfresh i).mp hi with hin | hle
      · exact (hpending i).mpr ((hmem i.1).mp (mem_of_mem_take hin)).1
      · exact (hpending i).mpr (hkey.trans hle)
    · rw [hfresh, not_or, not_le] at hi'
      exact hnone i ((hpending i).mp hi) fun hin => hi'.1 ((hbefore i.1).mpr ⟨hin, hi'.2⟩)

/-- **A hold of the lock before the swap copies the cells it passes.** -/
theorem shrinkStep_copies (hspec : lib.ReadsSpecials)
    (hback : PrintsAll lib slib x.l.st.cols) (hlines : HookLinesLoad hlib hooks)
    (h : Copied lib hlib docs now hooks x d) (tnow : Int) (hswap : x.stage ≠ .hooks []) :
    ∃ d', Copied lib hlib docs now hooks (shrinkStep lib slib tnow x) d' ∧
      Copies x (shrinkStep lib slib tnow x) d d' := by
  have hcursor : ∀ stage file, ({ x with stage, file } : Shrink G).Cursor := fun _ _ =>
    ⟨h.cursor.sorted, h.cursor.ahead, h.cursor.fresh⟩
  unfold shrinkStep
  split
  · rename_i hstage
    split
    · rename_i hkeys
      split_ifs with hdone
      · refine ⟨d, h.move rfl (hcursor _ x.file) rfl
          (fun i hi => absurd hi (not_pending_of_stage (by simp) i)) ?_⟩
        intro i hi _
        rw [pending_of_fresh hstage (h.cursor.fresh hkeys), hkeys, hdone] at hi
        simp at hi
      · exact ⟨d, loadKeys_copies h hstage hkeys (Bool.eq_false_iff.mpr hdone)⟩
    · rename_i key rest hkeys
      exact loadIds_copies hspec hback h tnow hstage hkeys
  · rename_i name names hstage
    have hpassed : ∀ i, ¬ x.Pending i := not_pending_of_stage (by simp [hstage])
    split
    · exact ⟨d, h.move rfl (hcursor _ x.file) rfl
        (fun i hi => absurd hi (not_pending_of_stage (by simp) i))
        fun i hi => absurd hi (hpassed i)⟩
    rename_i hook hget
    obtain ⟨d', hload, hcols, hhooks⟩ : ∃ d',
        loadCommand lib hlib now d (hookValues name hook) = .ok d' ∧ d'.cols = d.cols ∧
          HooksFrom d'.hooks hooks :=
      loadCommand_hookValues hlines h.healthy.hooks (h.hooks name hook hget)
    have hrun : replay lib hlib now [hookValues name hook] d = .ok d' := by
      rw [replay, hload]
      rfl
    have hhealthy : Healthy lib docs hooks d' :=
      ⟨hcols ▸ h.healthy.noEmpty, hcols ▸ h.healthy.good, hhooks⟩
    exact ⟨d', h.write rfl (hcursor _ _) rfl (by simp [hookValues]) hrun hhealthy
        fun i hi => absurd hi (not_pending_of_stage (by simp) i), rfl,
      fun i _ => ⟨not_pending_of_stage (by simp) i, by rw [hcols]⟩,
      fun i hi => absurd hi (hpassed i)⟩
  · exact absurd ‹_› hswap
  · exact ⟨d, h, rfl, fun i hi => ⟨hi, rfl⟩, fun i hi hi' => absurd hi hi'⟩

/-- **The invariant is kept by every hold of the lock before the swap.** -/
theorem shrinkStep_inv (hspec : lib.ReadsSpecials) (hback : PrintsAll lib slib x.l.st.cols)
    (hlines : HookLinesLoad hlib s.hooks)
    (h : ShrinkInv lib hlib docs now s x d ops) (tnow : Int) (hswap : x.stage ≠ .hooks []) :
    ∃ d, ShrinkInv lib hlib docs now s (shrinkStep lib slib tnow x) d ops := by
  obtain ⟨d', hcopied, hstep⟩ := shrinkStep_copies hspec hback hlines h.copied tnow hswap
  exact ⟨d', h.copy hcopied hstep⟩

end SpatialDb.Server
