import SpatialDb.Server.Shrink

/-!
# Loading a rewritten file

What a load does with the lines that `aofshrink` writes and with the commands
of the shrink log, on a dataset that need not be the one they were written on.

RENAME moves whole collections and is not an operation on single cells.  On a
dataset that is ready for it, it acts as an assignment of known contents to
the cells of both keys.
-/

namespace SpatialDb.Server

open Lib OrdMap

/-! ## Data commands -/

variable {args : List Bytes}

section Commands

variable {N G : Type} [LinearOrder N] {lib : ServerLib N G} {hlib : HookLib G} {env : Env}
  {docs : List Bytes}

/-- The commands that act object by object. -/
def cellHandlers : List Handler := [.set, .fset, .del, .pdel, .drop, .flushdb, .expire, .persist]

/-- An update was reported, so the arguments were accepted. -/
theorem parse_of_updated {handler : Handler} {s : ServerState G}
    (hcell : handler ∈ cellHandlers) (h : (handler.call lib env s args).1.updated = true) :
    ∃ c, handler.parse lib args = some c := by
  rw [← Option.ne_none_iff_exists']
  intro hnone
  have hcontra : (handler.call lib env s args).1.updated = false := by
    cases handler with
    | set =>
      simp only [Handler.parse, Handler.call, cmdSET] at hnone ⊢
      split at hnone
      · cases hnone
      rename_i hparse
      rw [hparse]
      split <;> rfl
    | fset =>
      simp only [Handler.parse, Handler.call, cmdFSET] at hnone ⊢
      split at hnone
      · cases hnone
      rename_i hparse
      rw [hparse]
      split <;> rfl
    | del =>
      simp only [Handler.parse, Handler.call, cmdDEL] at hnone ⊢
      split
      · rename_i rest
        cases hparse : parseErron404 rest false with
        | error e => rfl
        | ok e =>
          simp only [hparse] at hnone
          cases hnone
      · rfl
    | pdel =>
      simp only [Handler.parse, Handler.call, cmdPDEL] at hnone ⊢
      split
      · cases hnone
      · rfl
    | drop =>
      simp only [Handler.parse, Handler.call, cmdDROP] at hnone ⊢
      split
      · cases hnone
      · rfl
    | flushdb =>
      simp only [Handler.parse, Handler.call, cmdFLUSHDB] at hnone ⊢
      split
      · cases hnone
      · rfl
    | expire =>
      simp only [Handler.parse, Handler.call, cmdEXPIRE] at hnone ⊢
      split
      · rename_i svalue
        cases hparse : parseFloatArg lib svalue with
        | error e => rfl
        | ok x =>
          simp only [hparse] at hnone
          cases hnone
      · rfl
    | persist =>
      simp only [Handler.parse, Handler.call, cmdPERSIST] at hnone ⊢
      split
      · cases hnone
      · rfl
    | rename => simp [cellHandlers] at hcell
    | jset => simp [cellHandlers] at hcell
    | jdel => simp [cellHandlers] at hcell
  rw [hcontra] at h
  cases h

/-- The hooks after a data command: only FLUSHDB touches them. -/
def DataCmd.hooksAfter : DataCmd N G → OrdMap Bytes Hook → OrdMap Bytes Hook
  | .flushdb, _ => empty
  | _, hooks => hooks

theorem call_hooksAfter {handler : Handler} {c : DataCmd N G}
    (s : ServerState G) (hparse : handler.parse lib args = some c) :
    (handler.call lib env s args).2.hooks = c.hooksAfter s.hooks := by
  by_cases hflush : handler = .flushdb
  · subst hflush
    simp only [Handler.parse] at hparse
    split at hparse
    · cases hparse
      rfl
    · cases hparse
  rw [call_hooks handler args hflush]
  cases handler
  case flushdb => exact absurd rfl hflush
  all_goals
    simp only [Handler.parse] at hparse
    repeat' split at hparse
    all_goals cases hparse
    all_goals rfl

end Commands

/-! ## Loading lines -/

/-- Every hook of `hooks` has the key and the kind of the hook of that name in
`hooks'`. -/
def HooksFrom (hooks hooks' : OrdMap Bytes Hook) : Prop :=
  ∀ name hook, hooks.get? name = some hook →
    ∃ hook', hooks'.get? name = some hook' ∧ hook'.key = hook.key ∧ hook'.channel = hook.channel

theorem hooksFrom_empty (hooks : OrdMap Bytes Hook) : HooksFrom empty hooks := by
  intro name hook h
  cases h

theorem HooksFrom.set {hooks hooks' : OrdMap Bytes Hook} (h : HooksFrom hooks hooks') {name : Bytes}
    {hook hook' : Hook} (hget : hooks'.get? name = some hook') (hkey : hook'.key = hook.key)
    (hchannel : hook'.channel = hook.channel) : HooksFrom (hooks.set name hook) hooks' :=
  forall_get?_set h ⟨hook', hget, hkey, hchannel⟩

/-- The line of every hook is accepted by SETHOOK or SETCHAN, whatever the
data, or refused with an error that a load skips. -/
def HookLinesLoad {G : Type} (hlib : HookLib G) (hooks : OrdMap Bytes Hook) : Prop :=
  ∀ name hook, hooks.get? name = some hook → ∀ cols,
    match hlib.parseHook cols [] hook.channel (hookValues name hook) with
    | .error e => commandErrIsFatal e = false
    | .ok (name', key, _) => name' = name ∧ key = hook.key

variable {N G : Type} [LinearOrder N] {lib : ServerLib N G} {hlib : HookLib G}
  {slib : ShrinkLib G} {docs : List Bytes} {hooks : OrdMap Bytes Hook} {now : Int}
  {d : ServerState G}

/-- A data command loads without a fatal error and acts on the cells. -/
theorem loadCommand_cells (hlib : HookLib G) (now : Int) (hspec : lib.ReadsSpecials)
    (hgood : GoodData lib docs d.cols)
    {c : DataCmd N G} (hparse : parseCmd lib args = some c)
    (hsafe : c.Safe docs) :
    ∃ d', loadCommand lib hlib now d args = .ok d' ∧
      (∀ i, view d'.cols i = (c.op lib i).act (fieldCls lib.toFieldLib) (view d.cols i)) ∧
      GoodData lib docs d'.cols ∧ d'.hooks = c.hooksAfter d.hooks := by
  have hstep : CellStep lib docs { out := .null, now } c d
      (command lib hlib { out := .null, now } [] d args) :=
    command_cells hspec hlib [] hgood hparse hsafe fun h => nomatch h
  refine ⟨_, loadCommand_eq_ok_iff.mpr ⟨hstep.quiet rfl, rfl⟩, hstep.cells, hstep.good, ?_⟩
  obtain ⟨handler, hhandler, hparse⟩ := Option.bind_eq_some_iff.mp hparse
  rw [command_of_handlerOf lib hlib _ hhandler]
  exact call_hooksAfter d hparse

/-- The line of an object whose cell is still empty. -/
theorem loadCommand_objectValues (h : lib.ReadsSpecials) (hgood : GoodData lib docs d.cols)
    (tnow : Int) {key id : Bytes} {o : Object G} (hback : PrintsBack lib slib o)
    (ho : GoodList lib.toFieldLib docs o.fields)
    (hempty : view d.cols (key, id) = none) :
    ∃ d', loadCommand lib hlib now d (objectValues lib slib tnow key id o) = .ok d' ∧
      (∀ i, view d'.cols i = if i = (key, id) then some (cellOf o) else view d.cols i) ∧
      GoodData lib docs d'.cols ∧ d'.hooks = d.hooks := by
  obtain ⟨d', hload, hcells, hgood', hhooks⟩ := loadCommand_cells hlib now h hgood
    (parseCmd_objectValues h hback tnow key id ho) (lineArgs_safe h tnow key id ho)
  refine ⟨d', hload, fun i => ?_, hgood', hhooks⟩
  rw [hcells]
  by_cases hi : i = (key, id)
  · subst hi
    have hop : (DataCmd.set (lineArgs lib slib tnow key id o) o.geo).op lib (key, id) =
        .store false false o.geo (puts lib.toFieldLib (listFields lib o.fields)) := if_pos rfl
    rw [hop, hempty, if_pos rfl, CellOp.act, assignAll_listFields h ho]
    rfl
  · have hop : (DataCmd.set (lineArgs lib slib tnow key id o) o.geo).op lib i = .keep := if_neg hi
    rw [hop, if_neg hi]
    rfl

/-- The line of a hook changes no data. -/
theorem loadCommand_hookValues (hlines : HookLinesLoad hlib hooks)
    (hfrom : HooksFrom d.hooks hooks) {name : Bytes} {hook : Hook}
    (hget : hooks.get? name = some hook) :
    ∃ d', loadCommand lib hlib now d (hookValues name hook) = .ok d' ∧ d'.cols = d.cols ∧
      HooksFrom d'.hooks hooks := by
  have hcmd : command lib hlib { out := .null, now } [] d (hookValues name hook) =
      cmdSetHook hlib { out := .null, now } [] d hook.channel (hookValues name hook) := by
    cases hchannel : hook.channel with
    | true =>
      have hname : commandName (hookValues name hook) = lit "setchan" := by
        simp only [hookValues, hchannel, if_true, commandName, List.headD_cons]
        decide
      unfold command
      simp only [hname]
      rfl
    | false =>
      have hname : commandName (hookValues name hook) = lit "sethook" := by
        simp only [hookValues, hchannel, Bool.false_eq_true, if_false, commandName, List.headD_cons]
        decide
      unfold command
      simp only [hname]
      rfl
  have hline := hlines name hook hget d.cols
  have hset : ∃ r s, cmdSetHook hlib { out := .null, now } [] d hook.channel
      (hookValues name hook) = (r, s) ∧ s.cols = d.cols ∧ HooksFrom s.hooks hooks ∧
      (r ≠ .crash ∧ ∀ e, r = .err e → commandErrIsFatal e = false) := by
    unfold cmdSetHook
    cases hparse : hlib.parseHook d.cols [] hook.channel (hookValues name hook) with
    | error e =>
      rw [hparse] at hline
      exact ⟨_, _, rfl, rfl, hfrom, by simp, fun e' he => by cases he; exact hline⟩
    | ok p =>
      obtain ⟨name', key, desc⟩ := p
      rw [hparse] at hline
      obtain ⟨rfl, rfl⟩ := hline
      dsimp only
      have hstored : HooksFrom (d.hooks.set name' ⟨hook.key, hook.channel, desc⟩) hooks :=
        hfrom.set hget rfl rfl
      split
      · exact ⟨_, _, rfl, rfl, hstored, by simp, by simp⟩
      rename_i prev hprev
      obtain ⟨hook', hget', -, hchannel⟩ := hfrom name' prev hprev
      rw [hget] at hget'
      cases hget'
      rw [if_neg (not_not.mpr hchannel.symm)]
      split
      · exact ⟨_, _, rfl, rfl, hstored, by simp, by simp⟩
      · exact ⟨_, _, rfl, rfl, hstored, by simp, by simp⟩
  obtain ⟨r, s, heq, hcols, hhooks, hquiet⟩ := hset
  refine ⟨s, loadCommand_eq_ok_iff.mpr ?_, hcols, hhooks⟩
  rw [hcmd, heq]
  exact ⟨hquiet, rfl⟩

/-! ## RENAME -/

variable {env : Env} {s : ServerState G}

/-- What RENAME and RENAMENX ask for: a collection to rename, no hook on either
key, and for RENAMENX a free new key. -/
structure RenameReady (s : ServerState G) (name key newKey : Bytes) : Prop where
  old : s.cols.get? key ≠ none
  hooks : ∀ n hook, s.hooks.get? n = some hook → hook.key ≠ key ∧ hook.key ≠ newKey
  free : toLower name = lit "renamenx" → s.cols.get? newKey = none

/-- The collections after a rename. -/
def renamed (cols : Dataset G) (key newKey : Bytes) (col : Col G) : Dataset G :=
  ((cols.delete newKey).delete key).set newKey col

theorem any_values_iff {hooks : OrdMap Bytes Hook} {p : Hook → Bool} :
    hooks.values.any p = true ↔ ∃ n hook, hooks.get? n = some hook ∧ p hook = true := by
  rw [List.any_eq_true]
  constructor
  · rintro ⟨hook, hmem, hp⟩
    obtain ⟨e, he, rfl⟩ := List.mem_map.mp hmem
    exact ⟨e.1, e.2, (hooks.mem_entries_iff e.1 e.2).mp he, hp⟩
  · rintro ⟨n, hook, hget, hp⟩
    exact ⟨hook, List.mem_map.mpr ⟨(n, hook), (hooks.mem_entries_iff n hook).mpr hget, rfl⟩, hp⟩

theorem cmdRENAME_of_ready (env : Env) {name key newKey : Bytes} {col : Col G}
    (h : RenameReady s name key newKey) (hcol : s.cols.get? key = some col) :
    ∃ reply det, cmdRENAME env s [name, key, newKey] =
      (.ok reply det, { s with cols := renamed s.cols key newKey col }) ∧ det.updated = true := by
  have hnone : ∀ q : Hook → Bool, (s.hooks.values.any fun hook =>
      (decide (hook.key = key) || decide (hook.key = newKey)) && q hook) = false := by
    intro q
    rw [Bool.eq_false_iff, Ne, any_values_iff]
    rintro ⟨n, hook, hget, hp⟩
    have hkeys := h.hooks n hook hget
    simp [hkeys.1, hkeys.2] at hp
  unfold cmdRENAME
  dsimp only
  rw [hcol]
  dsimp only
  rw [hnone fun hook => !hook.channel, if_neg Bool.false_ne_true, hnone fun hook => hook.channel,
    if_neg Bool.false_ne_true]
  cases hnew : s.cols.get? newKey with
  | none =>
    rw [renamed, delete_eq_self hnew]
    exact ⟨_, _, rfl, rfl⟩
  | some col' =>
    have hnx : ¬ toLower name = lit "renamenx" := fun hnx => by
      rw [h.free hnx] at hnew
      cases hnew
    simp only [hnx, decide_false]
    exact ⟨_, _, rfl, rfl⟩

theorem ready_of_updated (h : (cmdRENAME env s args).1.updated = true) :
    ∃ name key newKey col, args = [name, key, newKey] ∧ s.cols.get? key = some col ∧
      RenameReady s name key newKey := by
  unfold cmdRENAME at h
  split at h
  · rename_i name key newKey
    split at h
    · cases h
    rename_i col hcol
    dsimp only at h
    split at h
    · cases h
    rename_i hhook
    split at h
    · cases h
    rename_i hchan
    refine ⟨name, key, newKey, col, rfl, hcol, by simp [hcol], ?_, ?_⟩
    · intro n hook hget
      simp only [any_values_iff, not_exists, not_and] at hhook hchan
      have hhook := hhook n hook hget
      have hchan := hchan n hook hget
      cases hc : hook.channel <;> simp_all
    · intro hnx
      cases hnew : s.cols.get? newKey with
      | none => rfl
      | some col' =>
        simp only [hnew, hnx, decide_true] at h
        cases h
  · cases h

theorem lookup_renamed (cols : Dataset G) (key newKey : Bytes) (col : Col G) (i : Bytes × Bytes) :
    lookup (renamed cols key newKey col) i =
      if i.1 = newKey then col.get? i.2 else if i.1 = key then none else lookup cols i := by
  rw [renamed, lookup_set, lookup_delete, lookup_delete]
  by_cases hnew : i.1 = newKey <;> simp [hnew]

variable (contents : Bytes → Option (Cell (Geometry G) Bytes StoredValue))

/-- A rename as an operation on the cells, for the given contents of the old
key. -/
def renameOp
    (key newKey : Bytes) : StoreOp (Bytes × Bytes) (Geometry G) Bytes StoredValue := fun i =>
  if i.1 = newKey then .reset (contents i.2)
  else if i.1 = key then .reset none
  else .keep

theorem renameOp_inEffect
    (key newKey : Bytes) (i : Bytes × Bytes) (c : Option (Cell (Geometry G) Bytes StoredValue)) :
    (renameOp contents key newKey i).InEffect c := by
  unfold renameOp
  repeat' split
  all_goals trivial

theorem view_renamed {N : Type} [DecidableEq N]
    (cls : Option StoredValue → Kind × Option (F64 N) × Bytes) {cols : Dataset G}
    {key newKey : Bytes} {col : Col G} (hcol : cols.get? key = some col) (i : Bytes × Bytes) :
    view (renamed cols key newKey col) i =
      (renameOp (fun id => view cols (key, id)) key newKey i).act cls (view cols i) := by
  rw [view, lookup_renamed, renameOp]
  split
  · rw [view, lookup_of_get? hcol]
    rfl
  · split <;> rfl

end SpatialDb.Server
