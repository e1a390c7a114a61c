import SpatialDb.Server.ShrinkLoad

/-!
# Replaying logs
-/

namespace SpatialDb.Server

open Lib OrdMap Option

/-! ## Hooks and data

Hooks can only make RENAME fail; otherwise the data does not depend on them. -/

variable {N G : Type} [LinearOrder N] {lib : ServerLib N G} {hlib : HookLib G} {env : Env}
  {now : Int} {args : List Bytes} {log : List (List Bytes)} {s s' t t' : ServerState G}

/-- A command that loads changes the data as if there were no hooks. -/
theorem call_cols {handler : Handler}
    (h : ∀ e, (handler.call lib env s args).1 = .err e → commandErrIsFatal e = false) :
    (handler.call lib env s args).2.cols =
      (handler.call lib env ⟨s.cols, empty⟩ args).2.cols := by
  by_cases hrename : handler = .rename
  · subst hrename
    simp only [Handler.call] at h ⊢
    unfold cmdRENAME at h ⊢
    split
    · dsimp only at h ⊢
      split
      · rfl
      rename_i col hcol
      rw [hcol] at h
      dsimp only at h
      split
      · rename_i hhook
        rw [if_pos hhook] at h
        exact absurd (h _ rfl) (by decide)
      rename_i hhook
      rw [if_neg hhook] at h
      split
      · rename_i hchan
        rw [if_pos hchan] at h
        exact absurd (h _ rfl) (by decide)
      · rfl
    · rfl
  · by_cases hflush : handler = .flushdb
    · subst hflush
      simp only [Handler.call, cmdFLUSHDB]
      split <;> rfl
    · have hmk : handler.call lib env s args = _ := call_mk hrename hflush s.cols s.hooks empty args
      rw [hmk]

/-- The same data are related objects, whatever their deadlines. -/
theorem sameData_iff {cols cols' : Dataset G} : SameData cols cols' ↔
    OrdMap.Rel (OrdMap.Rel (SameObject fun _ _ => True)) cols cols' := by
  constructor
  · intro h
    refine rel_of_get? h.1 fun key col col' hcol hcol' => ?_
    have hids : ∀ id, (col.get? id).map (fun o => (o.geo, o.fields)) =
        (col'.get? id).map fun o => (o.geo, o.fields) := by
      intro id
      rw [← lookup_of_get? hcol, ← lookup_of_get? hcol']
      exact h.2 key id
    refine rel_of_get? (fun id => ?_) fun id o o' ho ho' => ?_
    · simpa using congrArg isSome (hids id)
    · have heq := hids id
      rw [ho, ho'] at heq
      obtain ⟨hgeo, hfields⟩ := Prod.mk.inj (some.inj heq)
      exact ⟨hgeo, hfields, trivial⟩
  · intro h
    refine ⟨fun key => ?_, fun key id => ?_⟩
    · rcases h.get?_cases key with ⟨hkey, hkey'⟩ | ⟨_, _, hkey, hkey', -⟩
      · rw [hkey, hkey']
      · rw [hkey, hkey']
        rfl
    · rcases h.get?_cases key with ⟨hkey, hkey'⟩ | ⟨col, col', hkey, hkey', hcol⟩
      · rw [lookup_of_none hkey, lookup_of_none hkey']
      rw [lookup_of_get? hkey, lookup_of_get? hkey']
      rcases hcol.get?_cases id with ⟨hid, hid'⟩ | ⟨o, o', hid, hid', ho⟩
      · rw [hid, hid']
      · rw [hid, hid', map_some, map_some, ho.geo, ho.fields]

theorem SameData.symm {cols cols' : Dataset G} (h : SameData cols cols') : SameData cols' cols :=
  ⟨fun key => (h.1 key).symm, fun key id => (h.2 key id).symm⟩

/-- On the same data a command that loads gives the same data, whatever the
hooks. -/
theorem loadCommand_sameData (hne : NoEmpty s.cols) (hne' : NoEmpty s'.cols)
    (hdata : SameData s.cols s'.cols)
    (h : loadCommand lib hlib now s args = .ok t) (h' : loadCommand lib hlib now s' args = .ok t') :
    SameData t.cols t'.cols := by
  obtain ⟨⟨-, hquiet⟩, rfl⟩ := loadCommand_eq_ok_iff.mp h
  obtain ⟨⟨-, hquiet'⟩, rfl⟩ := loadCommand_eq_ok_iff.mp h'
  cases hhandler : handlerOf (commandName args) with
  | none =>
    rw [command_of_handlerOf_none hhandler, command_of_handlerOf_none hhandler]
    exact hdata
  | some handler =>
    have hhook : ¬ setsHook args := by
      rintro (hname | hname)
      · rw [hname, show handlerOf (lit "sethook") = none from by decide] at hhandler
        cases hhandler
      · rw [hname, show handlerOf (lit "setchan") = none from by decide] at hhandler
        cases hhandler
    simp only [command_of_handlerOf lib hlib _ hhandler] at hquiet hquiet' ⊢
    rw [call_cols hquiet, call_cols hquiet']
    -- without hooks, an update of one of the two states is an update of the other
    have hredo : ∀ cols cols' : Dataset G, SameData cols cols' → Redoes (fun _ _ => True)
        (handler.call lib { out := .null, now } ⟨cols, empty⟩ args)
        (handler.call lib { out := .null, now } ⟨cols', empty⟩ args) := by
      intro cols cols' hcols
      have haged : Aged (fun _ _ => True) (⟨cols, empty⟩ : ServerState G)
          ⟨cols', empty⟩ := ⟨sameData_iff.mp hcols, rfl⟩
      rw [← command_of_handlerOf lib hlib _ hhandler [],
        ← command_of_handlerOf lib hlib _ hhandler []]
      exact command_redoes haged trivial rfl rfl (fun hset => absurd hset hhook)
        (fun _ _ _ => trivial)
    by_cases hupd : (handler.call lib { out := .null, now } ⟨s.cols, empty⟩ args).1.updated = true
    · exact sameData_iff.mpr (hredo _ _ hdata hupd).aged.cols
    by_cases hupd' : (handler.call lib { out := .null, now } ⟨s'.cols, empty⟩ args).1.updated = true
    · exact (sameData_iff.mpr (hredo _ _ hdata.symm hupd').aged.cols).symm
    rw [call_of_not_updated (s := ⟨s.cols, empty⟩) hne handler args
      (Bool.eq_false_iff.mpr hupd), call_of_not_updated (s := ⟨s'.cols, empty⟩) hne'
      handler args (Bool.eq_false_iff.mpr hupd')]
    exact hdata

theorem replay_cons_eq_ok (h : replay lib hlib now (args :: log) s = .ok t) :
    ∃ u, loadCommand lib hlib now s args = .ok u ∧ replay lib hlib now log u = .ok t := by
  rw [replay] at h
  split at h
  · cases h
  · rename_i u hload
    exact ⟨u, hload, h⟩

theorem replay_append_eq_ok {log' : List (List Bytes)}
    (h : replay lib hlib now (log ++ log') s = .ok t) :
    ∃ u, replay lib hlib now log s = .ok u ∧ replay lib hlib now log' u = .ok t := by
  rw [replay_append] at h
  split at h
  · cases h
  · rename_i u hrun
    exact ⟨u, hrun, h⟩

theorem noEmpty_of_replay (hne : NoEmpty s.cols) (h : replay lib hlib now log s = .ok t) :
    NoEmpty t.cols := by
  induction log generalizing s with
  | nil =>
    cases h
    exact hne
  | cons args log ih =>
    obtain ⟨u, hload, hrun⟩ := replay_cons_eq_ok h
    exact ih (noEmpty_of_loadCommand hne hload) hrun

theorem replay_sameData (hne : NoEmpty s.cols) (hne' : NoEmpty s'.cols)
    (hdata : SameData s.cols s'.cols)
    (h : replay lib hlib now log s = .ok t) (h' : replay lib hlib now log s' = .ok t') :
    SameData t.cols t'.cols := by
  induction log generalizing s s' with
  | nil =>
    cases h
    cases h'
    exact hdata
  | cons args log ih =>
    obtain ⟨u, hload, hrun⟩ := replay_cons_eq_ok h
    obtain ⟨u', hload', hrun'⟩ := replay_cons_eq_ok h'
    exact ih (noEmpty_of_loadCommand hne hload) (noEmpty_of_loadCommand hne' hload')
      (loadCommand_sameData hne hne' hdata hload hload') hrun hrun'

/-! ## Repeating a log

A log of data commands that were in effect can be run again, from any command
on, over the data it has led to (`run_run`). -/

variable (lib) (hlib) (docs : List Bytes) (now)

/-- A command that acts object by object on clean fields, with arguments that
are accepted. -/
def SafeLine (args : List Bytes) : Prop := ∃ c, parseCmd lib args = some c ∧ c.Safe docs

/-- Every command of the log reports an update when its turn comes, as in a log
that `writeAOF` has written. -/
def Effective : List (List Bytes) → ServerState G → Prop
  | [], _ => True
  | args :: log, s =>
    (command lib hlib { out := .null, now } [] s args).1.updated = true ∧
      Effective log (command lib hlib { out := .null, now } [] s args).2

/-- What the commands of a log do to the cells. -/
def logOps (log : List (List Bytes)) :
    List (StoreOp (Bytes × Bytes) (Geometry G) Bytes StoredValue) :=
  log.filterMap fun args => (parseCmd lib args).map fun c => c.op lib

instance (args : List Bytes) : Decidable (SafeLine lib docs args) :=
  match h : parseCmd lib args with
  | none => isFalse fun ⟨_, hc, _⟩ => nomatch h.symm.trans hc
  | some c => decidable_of_iff (c.Safe docs) ⟨fun hc => ⟨c, h, hc⟩, fun ⟨_, hc, hsafe⟩ =>
    some.inj (h.symm.trans hc) ▸ hsafe⟩

instance decidableEffective : (log : List (List Bytes)) → (s : ServerState G) →
    Decidable (Effective lib hlib now log s)
  | [], _ => inferInstanceAs (Decidable True)
  | args :: log, s =>
    have := decidableEffective log (command lib hlib { out := .null, now } [] s args).2
    inferInstanceAs (Decidable (_ ∧ _))

variable {lib hlib docs now}

theorem logOps_cons {c : DataCmd N G} (h : parseCmd lib args = some c)
    (log : List (List Bytes)) : logOps lib (args :: log) = c.op lib :: logOps lib log := by
  rw [logOps, List.filterMap_cons_some (by rw [h]; rfl)]
  rfl

theorem replay_cells (hspec : lib.ReadsSpecials) (hsafe : ∀ args ∈ log, SafeLine lib docs args)
    (hgood : GoodData lib docs s.cols) (h : replay lib hlib now log s = .ok t) :
    GoodData lib docs t.cols ∧
      ∀ i, view t.cols i = runAt (fieldCls lib.toFieldLib) (logOps lib log) i (view s.cols i) := by
  induction log generalizing s with
  | nil =>
    cases h
    exact ⟨hgood, fun _ => rfl⟩
  | cons args log ih =>
    obtain ⟨c, hparse, hc⟩ := hsafe args List.mem_cons_self
    obtain ⟨u, hload, hrun⟩ := replay_cons_eq_ok h
    obtain ⟨u', hload', hcells, hgood', -⟩ := loadCommand_cells hlib now hspec hgood hparse hc
    rw [hload] at hload'
    cases hload'
    obtain ⟨hgoodt, hview⟩ := ih (List.forall_mem_cons.mp hsafe).2 hgood' hrun
    refine ⟨hgoodt, fun i => ?_⟩
    rw [hview, hcells, logOps_cons hparse]
    rfl

/-- In a log of commands that were in effect, so are their operations. -/
theorem Effective.valid (hspec : lib.ReadsSpecials) (hsafe : ∀ args ∈ log, SafeLine lib docs args)
    (hgood : GoodData lib docs s.cols) (h : Effective lib hlib now log s) (i : Bytes × Bytes) :
    Valid (fieldCls lib.toFieldLib) ((logOps lib log).map fun op => op i) (view s.cols i) := by
  induction log generalizing s with
  | nil => trivial
  | cons args log ih =>
    obtain ⟨c, hparse, hc⟩ := hsafe args List.mem_cons_self
    have hstep : CellStep lib docs { out := .null, now } c s
        (command lib hlib { out := .null, now } [] s args) :=
      command_cells hspec hlib [] hgood hparse hc fun h => nomatch h
    rw [logOps_cons hparse]
    refine ⟨hstep.inEffect h.1 i, ?_⟩
    rw [← hstep.cells i]
    exact ih (List.forall_mem_cons.mp hsafe).2 hstep.good h.2

/-- **Running the end of a log once more, before what follows, makes no
difference to the data.** -/
theorem replay_again (hspec : lib.ReadsSpecials) {second rest : List (List Bytes)}
    {s₁ s₂ u : ServerState G} (hne : NoEmpty s₁.cols) (hgood : GoodData lib docs s₁.cols)
    (hsafe : ∀ args ∈ second, SafeLine lib docs args)
    (hsecond : replay lib hlib now second s₁ = .ok s₂) (heffect : Effective lib hlib now second s₁)
    (hrest : replay lib hlib now rest s₂ = .ok t)
    (hagain : replay lib hlib now (second ++ rest) s₂ = .ok u) : SameData u.cols t.cols := by
  obtain ⟨s₃, hthird, hlast⟩ := replay_append_eq_ok hagain
  obtain ⟨hgood₂, hview₂⟩ := replay_cells hspec hsafe hgood hsecond
  obtain ⟨-, hview₃⟩ := replay_cells hspec hsafe hgood₂ hthird
  have hne₂ := noEmpty_of_replay hne hsecond
  have hne₃ := noEmpty_of_replay hne₂ hthird
  refine replay_sameData hne₃ hne₂ (sameData_of_view hne₃ hne₂ fun i => ?_) hlast hrest
  rw [hview₃, hview₂]
  exact run_run (heffect.valid hspec hsafe hgood i)

end SpatialDb.Server
