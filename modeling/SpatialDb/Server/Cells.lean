import SpatialDb.Lib.FuzzySnapshot
import SpatialDb.Server.Aof
import SpatialDb.Server.Record

/-!
# The data commands, object by object

The data commands without RENAME and the JSON commands act on every object on
its own.  Here they are shown to refine the operations of
`Lib.FuzzySnapshot`: an object is a cell, its geometry the body and its field
list the record (`Server.Record`).  Deadlines are left out.
-/

namespace SpatialDb.Server

open Lib OrdMap Option

/-! ## Objects as cells -/

section Views

variable {G : Type}

/-- An object without its deadline. -/
def cellOf (o : Object G) : Cell (Geometry G) Bytes StoredValue := ⟨o.geo, o.fields.get?⟩

def view (cols : Dataset G) (i : Bytes × Bytes) : Option (Cell (Geometry G) Bytes StoredValue) :=
  (lookup cols i).map cellOf

variable {cols : Dataset G} {key : Bytes} {col : Col G}

theorem lookup_set (cols : Dataset G) (key : Bytes) (col : Col G) (i : Bytes × Bytes) :
    lookup (cols.set key col) i = if i.1 = key then col.get? i.2 else lookup cols i := by
  rw [lookup, get?_set]
  split <;> rfl

theorem lookup_delete (cols : Dataset G) (key : Bytes) (i : Bytes × Bytes) :
    lookup (cols.delete key) i = if i.1 = key then none else lookup cols i := by
  rw [lookup, get?_delete]
  split <;> rfl

/-- An object stored in its collection. -/
theorem lookup_put (hcol : ∀ id, col.get? id = lookup cols (key, id)) (id : Bytes) (o : Object G)
    (i : Bytes × Bytes) :
    lookup (cols.set key (col.set id o)) i = if i = (key, id) then some o else lookup cols i := by
  obtain ⟨k, j⟩ := i
  rw [lookup_set, get?_set, hcol]
  by_cases hk : k = key
  · subst hk
    by_cases hj : j = id <;> simp [hj]
  · simp [hk]

/-- A collection put back, or dropped when nothing is left in it. -/
theorem lookup_putBack (cols : Dataset G) (key : Bytes) (col : Col G) (i : Bytes × Bytes) :
    lookup (if col.size = 0 then cols.delete key else cols.set key col) i =
      if i.1 = key then col.get? i.2 else lookup cols i := by
  split
  · rename_i hsize
    rw [lookup_delete, (col.size_eq_zero_iff).mp hsize]
    rfl
  · exact lookup_set cols key col i

/-- An object taken out of its collection. -/
theorem lookup_takeOut (hcol : cols.get? key = some col) (id : Bytes) (i : Bytes × Bytes) :
    lookup (if (col.delete id).size = 0 then cols.delete key else cols.set key (col.delete id)) i =
      if i = (key, id) then none else lookup cols i := by
  obtain ⟨k, j⟩ := i
  rw [lookup_putBack]
  by_cases hk : k = key
  · subst hk
    rw [if_pos rfl, get?_delete, lookup_of_get? hcol]
    by_cases hj : j = id <;> simp [hj]
  · simp [hk]

/-- Without empty collections, a key is there when an object is. -/
theorem isSome_get?_iff (h : NoEmpty cols) (key : Bytes) :
    (cols.get? key).isSome = true ↔ ∃ id, view cols (key, id) ≠ none := by
  constructor
  · intro hsome
    obtain ⟨col, hcol⟩ := isSome_iff_exists.mp hsome
    have hne := h key col hcol
    rw [Ne, eq_empty_iff, not_forall] at hne
    obtain ⟨id, hid⟩ := hne
    refine ⟨id, ?_⟩
    rw [view, lookup_of_get? hcol]
    simpa using hid
  · rintro ⟨id, hid⟩
    cases hcol : cols.get? key with
    | none =>
      rw [view, lookup_of_none hcol] at hid
      exact absurd rfl hid
    | some col => rfl

/-- Two datasets with the same keys, ids, geometries and fields. -/
def SameData (cols cols' : Dataset G) : Prop :=
  (∀ key, (cols.get? key).isSome = (cols'.get? key).isSome) ∧
    ∀ key id, (lookup cols (key, id)).map (fun o => (o.geo, o.fields)) =
      (lookup cols' (key, id)).map fun o => (o.geo, o.fields)

/-- The same cell holds the same geometry and fields. -/
theorem lookup_of_view {cols' : Dataset G} {i : Bytes × Bytes} (h : view cols i = view cols' i) :
    (lookup cols i).map (fun o => (o.geo, o.fields)) =
      (lookup cols' i).map fun o => (o.geo, o.fields) := by
  unfold view at h
  cases ho : lookup cols i with
  | none =>
    rw [ho] at h
    cases ho' : lookup cols' i with
    | none => rfl
    | some o' =>
      rw [ho'] at h
      cases h
  | some o =>
    rw [ho] at h
    cases ho' : lookup cols' i with
    | none =>
      rw [ho'] at h
      cases h
    | some o' =>
      rw [ho'] at h
      simp only [map_some, some.injEq, cellOf, Cell.mk.injEq] at h
      have hfields : o.fields = o'.fields := ext_get? fun n => congrFun h.2 n
      simp [h.1, hfields]

/-- The cells and the absence of empty collections determine the data. -/
theorem sameData_of_view {cols' : Dataset G} (h : NoEmpty cols) (h' : NoEmpty cols')
    (hview : ∀ i, view cols i = view cols' i) : SameData cols cols' := by
  constructor
  · intro key
    rw [Bool.eq_iff_iff, isSome_get?_iff h, isSome_get?_iff h']
    simp only [hview]
  · exact fun key id => lookup_of_view (hview (key, id))

end Views

/-! ## Commands as operations on cells -/

/-- A data command with its arguments parsed.  EXPIRE and PERSIST touch only
deadlines. -/
inductive DataCmd (N G : Type) where
  | set (a : SetArgs N G) (geo : Geometry G)
  | fset (a : FsetArgs N)
  | del (key id : Bytes)
  | pdel (key pattern : Bytes)
  | drop (key : Bytes)
  | flushdb
  | touch

variable {N G : Type} [LinearOrder N] (lib : ServerLib N G) (docs : List Bytes)

/-- The arguments of a handler, if it accepts them. -/
def Handler.parse (args : List Bytes) : Handler → Option (DataCmd N G)
  | .set =>
    match parseSET lib args with
    | .ok (a, geo) => some (.set a geo)
    | .error _ => none
  | .fset =>
    match parseFSET lib args with
    | .ok a => some (.fset a)
    | .error _ => none
  | .del =>
    match args with
    | _ :: key :: id :: rest =>
      match parseErron404 rest false with
      | .ok _ => some (.del key id)
      | .error _ => none
    | _ => none
  | .pdel =>
    match args with
    | [_, key, pattern] => some (.pdel key pattern)
    | _ => none
  | .drop =>
    match args with
    | [_, key] => some (.drop key)
    | _ => none
  | .flushdb =>
    match args with
    | [_] => some .flushdb
    | _ => none
  | .expire =>
    match args with
    | [_, _, _, svalue] =>
      match parseFloatArg lib svalue with
      | .ok _ => some .touch
      | .error _ => none
    | _ => none
  | .persist =>
    match args with
    | [_, _, _] => some .touch
    | _ => none
  | _ => none

def parseCmd (args : List Bytes) : Option (DataCmd N G) :=
  (handlerOf (commandName args)).bind (Handler.parse lib args)

/-- The ids a PDEL deletes. -/
def pdelHits (pattern id : Bytes) : Bool :=
  let limits := lib.globLimits pattern
  ((limits.1 = [] ∧ limits.2 = []) || (limits.1 ≤ id && !(decide (limits.2 ≤ id)))) &&
    lib.globMatch pattern id

/-- What a command does to every cell. -/
def DataCmd.op : DataCmd N G → StoreOp (Bytes × Bytes) (Geometry G) Bytes StoredValue
  | .set a geo => fun i =>
    if i = (a.key, a.id) then .store a.nx a.xx geo (puts lib.toFieldLib a.fields) else .keep
  | .fset a => fun i =>
    if i = (a.key, a.id) then .modify (updates lib.toFieldLib a.fields) else .keep
  | .del key id => fun i => if i = (key, id) then .reset none else .keep
  | .pdel key pattern => fun i =>
    if i.1 = key ∧ pdelHits lib pattern i.2 = true then .reset none else .keep
  | .drop key => fun i => if i.1 = key then .reset none else .keep
  | .flushdb => fun _ => .reset none
  | .touch => fun _ => .keep

/-- No RETURN, clean fields, and for FSET plain names. -/
def DataCmd.Safe : DataCmd N G → Prop
  | .set a _ => a.ret = none ∧ ∀ f ∈ a.fields, CleanField docs f.name f.value
  | .fset a => a.ret = none ∧
      ∀ f ∈ a.fields, CleanField docs f.name f.value ∧ Plain docs f.name
  | _ => True

instance : (c : DataCmd N G) → Decidable (c.Safe docs)
  | .set a _ =>
    inferInstanceAs (Decidable (a.ret = none ∧ ∀ f ∈ a.fields, CleanField docs f.name f.value))
  | .fset a => inferInstanceAs (Decidable (a.ret = none ∧
      ∀ f ∈ a.fields, CleanField docs f.name f.value ∧ Plain docs f.name))
  | .del _ _ | .pdel _ _ | .drop _ | .flushdb | .touch => inferInstanceAs (Decidable True)

/-- All field lists are good. -/
def GoodData (cols : Dataset G) : Prop :=
  ∀ i o, lookup cols i = some o → GoodList lib.toFieldLib docs o.fields

/-- What a return of a data command says about the cells. -/
structure CellStep (env : Env) (c : DataCmd N G) (s : ServerState G)
    (r : Result G × ServerState G) : Prop where
  cells : ∀ i, view r.2.cols i = (c.op lib i).act (fieldCls lib.toFieldLib) (view s.cols i)
  inEffect : r.1.updated = true → ∀ i, (c.op lib i).InEffect (view s.cols i)
  good : GoodData lib docs r.2.cols
  quiet : env.out = .null → r.1 ≠ .crash ∧ ∀ e, r.1 = .err e → commandErrIsFatal e = false

variable {lib docs} {env : Env} {s : ServerState G}

variable {cols : Dataset G} {col : Col G} {c : DataCmd N G} {r : Reply G} {d : Details G}
  {P : Bytes × Bytes → Prop} {a : SetArgs N G} {args : List Bytes} {j : Bytes × Bytes}
  {f : CellOp (Geometry G) Bytes StoredValue}

variable {o : Object G}

theorem GoodData.put (h : GoodData lib docs cols) {key id : Bytes}
    (hcol : ∀ id, col.get? id = lookup cols (key, id))
    (ho : GoodList lib.toFieldLib docs o.fields) :
    GoodData lib docs (cols.set key (col.set id o)) := by
  intro i o' hi
  rw [lookup_put hcol] at hi
  split at hi
  · cases hi
    exact ho
  · exact h i o' hi

theorem GoodData.of_lookup {cols' : Dataset G} (h : GoodData lib docs cols)
    (hsub : ∀ i o, lookup cols' i = some o → lookup cols i = some o) : GoodData lib docs cols' :=
  fun i o hi => h i o (hsub i o hi)

/-- A return that is not an error. -/
theorem quiet_ok : env.out = .null →
    (Result.ok r d) ≠ .crash ∧ ∀ e, Result.ok r d = .err e → commandErrIsFatal e = false := by
  intro _
  simp

/-- The errors that a load skips. -/
theorem Missed.quiet {r : Result G} (h : Missed r) : env.out = .null →
    r ≠ .crash ∧ ∀ e, r = .err e → commandErrIsFatal e = false := by
  intro hout
  cases h with
  | ok r => exact quiet_ok hout
  | _ =>
    refine ⟨by simp, fun e he => ?_⟩
    cases he
    rfl

omit [LinearOrder N] in
theorem view_erase {cols' : Dataset G} [DecidablePred P]
    (h : ∀ i, lookup cols' i = if P i then none else lookup cols i)
    (cls : Option StoredValue → Kind × Option (F64 N) × Bytes) [DecidableEq N] (i : Bytes × Bytes) :
    view cols' i = (if P i then CellOp.reset none else .keep).act cls (view cols i) := by
  rw [view, h]
  split <;> rfl

omit [LinearOrder N] in
theorem mem_pdelIds {pattern : Bytes} (id : Bytes) :
    id ∈ pdelIds lib pattern col ↔ id ∈ col.keys ∧ pdelHits lib pattern id = true := by
  unfold pdelIds scanIds pdelHits
  rw [List.mem_filter]
  split_ifs with hall
  · simp [hall]
  have hsorted : ((col.ascend (lib.globLimits pattern).1).map Prod.fst).Pairwise (· < ·) :=
    List.pairwise_map.mpr (col.ascend_sorted _)
  rw [mem_takeWhile_iff hsorted]
  · rw [mem_keys_iff, ne_none_iff_exists']
    simp only [List.mem_map, Prod.exists, exists_and_right, exists_eq_right,
      mem_ascend_iff, exists_and_left, hall, decide_false, Bool.false_or,
      Bool.and_eq_true, Bool.not_eq_true', decide_eq_true_eq, decide_eq_false_iff_not]
    tauto
  · intro a _ b _ hab hb
    simp only [decide_eq_true_eq, not_le] at hb ⊢
    exact hab.trans hb

section

variable (hgood : GoodData lib docs s.cols)
include hgood

/-- Nothing changed, and the operation changes nothing. -/
theorem CellStep.same {r : Result G} (hupd : r.updated = false)
    (hquiet : env.out = .null → r ≠ .crash ∧ ∀ e, r = .err e → commandErrIsFatal e = false)
    (hcells : ∀ i, (c.op lib i).act (fieldCls lib.toFieldLib) (view s.cols i) = view s.cols i) :
    CellStep lib docs env c s (r, s) where
  cells := fun i => (hcells i).symm
  inEffect := fun h => absurd (hupd.symm.trans h) (by simp)
  good := hgood
  quiet := hquiet

/-- The operation acts on one cell, and changes nothing there. -/
theorem CellStep.kept {r : Result G} (hop : ∀ i, c.op lib i = if i = j then f else .keep)
    (hupd : r.updated = false)
    (hquiet : env.out = .null → r ≠ .crash ∧ ∀ e, r = .err e → commandErrIsFatal e = false)
    (hact : f.act (fieldCls lib.toFieldLib) (view s.cols j) = view s.cols j) :
    CellStep lib docs env c s (r, s) := by
  refine .same hgood hupd hquiet fun i => ?_
  rw [hop]
  split_ifs with hi
  · rw [hi, hact]
  · rfl

/-- The operation acts on one cell, and the command stores what it gives. -/
theorem CellStep.put (hop : ∀ i, c.op lib i = if i = j then f else .keep)
    (hcol : ∀ id, col.get? id = lookup s.cols (j.1, id))
    (ho : GoodList lib.toFieldLib docs o.fields)
    (hact : f.act (fieldCls lib.toFieldLib) (view s.cols j) = some (cellOf o))
    (heffect : f.InEffect (view s.cols j)) :
    CellStep lib docs env c s (.ok r d, { s with cols := s.cols.set j.1 (col.set j.2 o) }) where
  cells := by
    intro i
    rw [hop, view, lookup_put hcol]
    split_ifs with hi
    · rw [hi, hact]
      rfl
    · rfl
  inEffect := by
    intro _ i
    rw [hop]
    split_ifs with hi
    · rw [hi]
      exact heffect
    · trivial
  good := hgood.put hcol ho
  quiet := quiet_ok

/-! ### DEL, PDEL, DROP, FLUSHDB -/

/-- A command that takes away the objects with `P`. -/
theorem CellStep.erase {s' : ServerState G} [DecidablePred P]
    (hop : ∀ i, c.op lib i = if P i then .reset none else .keep)
    (h : ∀ i, lookup s'.cols i = if P i then none else lookup s.cols i) :
    CellStep lib docs env c s (.ok r d, s') where
  cells := by
    intro i
    rw [hop]
    exact view_erase h _ i
  inEffect := by
    intro _ i
    rw [hop]
    split <;> trivial
  good := hgood.of_lookup fun i o hi => by
    rw [h] at hi
    split at hi
    · cases hi
    · exact hi
  quiet := quiet_ok

/-- The same command when there is nothing to take away. -/
theorem CellStep.missing {r : Result G} [DecidablePred P]
    (hop : ∀ i, c.op lib i = if P i then .reset none else .keep)
    (hnone : ∀ i, P i → lookup s.cols i = none) (hr : Missed r) :
    CellStep lib docs env c s (r, s) := by
  refine .same hgood hr.updated hr.quiet fun i => ?_
  rw [hop]
  refine (view_erase (fun i => ?_) _ i).symm
  split
  · exact hnone i ‹_›
  · rfl

variable (name key id : Bytes)

theorem cmdDEL_cells {rest : List Bytes} {e : Bool}
    (hparse : parseErron404 rest false = .ok e) :
    CellStep lib docs env (.del key id) s (cmdDEL env s (name :: key :: id :: rest)) := by
  cases ho : lookup s.cols (key, id) with
  | none =>
    obtain ⟨r, hr, heq⟩ := cmdDEL_of_none env name hparse ho
    rw [heq]
    exact .kept hgood (fun _ => rfl) hr.updated hr.quiet (by rw [view, ho]; rfl)
  | some o =>
    obtain ⟨col, hcol, hid⟩ := bind_eq_some_iff.mp ho
    rw [cmdDEL_of_some env name hparse hcol hid]
    exact .erase hgood (fun _ => rfl) (lookup_takeOut hcol id)

theorem cmdDROP_cells (name key : Bytes) :
    CellStep lib docs env (.drop key) s (cmdDROP env s [name, key]) := by
  unfold cmdDROP dropKey
  dsimp only
  cases hcol : s.cols.get? key with
  | none =>
    refine .missing hgood (fun _ => rfl) ?_ (.ok _ rfl)
    rintro ⟨k, j⟩ rfl
    exact lookup_of_none hcol j
  | some col => exact .erase hgood (fun _ => rfl) fun i => lookup_delete s.cols key i

theorem cmdFLUSHDB_cells (name : Bytes) :
    CellStep lib docs env .flushdb s (cmdFLUSHDB env s [name]) := by
  have hop : ∀ i, (DataCmd.flushdb : DataCmd N G).op lib i =
      if True then .reset none else .keep := fun _ => rfl
  exact .erase hgood hop fun _ => rfl

theorem cmdPDEL_cells (name key pattern : Bytes) :
    CellStep lib docs env (.pdel key pattern) s (cmdPDEL lib env s [name, key, pattern]) := by
  unfold cmdPDEL
  dsimp only
  cases hcol : s.cols.get? key with
  | none =>
    refine .missing hgood (fun _ => rfl) ?_ (.ok _ rfl)
    rintro ⟨k, j⟩ ⟨rfl, -⟩
    exact lookup_of_none hcol j
  | some col =>
    have hlookup := fun i =>
      lookup_putBack s.cols key ((pdelIds lib pattern col).foldl delete col) i
    have herase : ∀ i : Bytes × Bytes,
        (if i.1 = key then ((pdelIds lib pattern col).foldl delete col).get? i.2
          else lookup s.cols i) =
        if i.1 = key ∧ pdelHits lib pattern i.2 = true then none else lookup s.cols i := by
      rintro ⟨k, j⟩
      by_cases hk : k = key
      · subst hk
        simp only [if_true, true_and, get?_foldl_delete, mem_pdelIds, lookup_of_get? hcol]
        by_cases hj : pdelHits lib pattern j = true
        · by_cases hmem : j ∈ col.keys
          · simp [hj, hmem]
          have hnone : col.get? j = none := by
            rw [mem_keys_iff] at hmem
            simpa using hmem
          simp [hj, hnone]
        · simp [hj]
      · simp [hk]
    dsimp only
    split_ifs with hsize
    · refine .erase hgood (fun _ => rfl) fun i => ?_
      rw [← herase, ← hlookup, if_pos hsize]
    · refine .erase hgood (fun _ => rfl) fun i => ?_
      rw [← herase, ← hlookup, if_neg hsize]

/-! ### EXPIRE and PERSIST -/

/-- An object stored again with another deadline. -/
theorem CellStep.touch {key id : Bytes} (hcol : s.cols.get? key = some col)
    (hid : col.get? id = some o) (expires : Int) :
    CellStep lib docs env .touch s (.ok r d,
      { s with cols := s.cols.set key (col.set id ⟨o.geo, expires, o.fields⟩) }) := by
  have ho : lookup s.cols (key, id) = some o := (lookup_of_get? hcol id).trans hid
  refine .put hgood (fun _ => (ite_self _).symm) (j := (key, id)) (f := .keep)
    (fun id => (lookup_of_get? hcol id).symm) (hgood (key, id) o ho) ?_ trivial
  rw [view, ho]
  rfl

theorem cmdEXPIRE_cells {svalue : Bytes} {x : F64 N}
    (hparse : parseFloatArg lib svalue = .ok x) :
    CellStep lib docs env .touch s (cmdEXPIRE lib env s [name, key, id, svalue]) := by
  cases ho : lookup s.cols (key, id) with
  | none =>
    obtain ⟨r, hr, heq⟩ := cmdEXPIRE_of_none env name hparse ho
    rw [heq]
    exact .same hgood hr.updated hr.quiet fun _ => rfl
  | some o =>
    obtain ⟨col, hcol, hid⟩ := bind_eq_some_iff.mp ho
    simp only [cmdEXPIRE, hparse, hcol, hid]
    exact .touch hgood hcol hid _

theorem cmdPERSIST_cells : CellStep lib docs env .touch s (cmdPERSIST env s [name, key, id]) := by
  cases ho : lookup s.cols (key, id) with
  | none =>
    obtain ⟨r, hr, heq⟩ := cmdPERSIST_of_none env name ho
    rw [heq]
    exact .same hgood hr.updated hr.quiet fun _ => rfl
  | some o =>
    obtain ⟨col, hcol, hid⟩ := bind_eq_some_iff.mp ho
    simp only [cmdPERSIST, hcol, hid]
    split
    · exact .touch hgood hcol hid 0
    · exact .same hgood rfl quiet_ok fun _ => rfl

/-! ### SET and FSET -/

theorem execSET_cells (hlib : lib.ReadsSpecials) (hfs : ∀ f ∈ a.fields, Made lib.toFieldLib docs f)
    (geo : Geometry G) : CellStep lib docs env (.set a geo) s (execSET lib env s a geo) := by
  rcases execSET_cases lib env s a geo with ⟨h, r, heq, hr⟩ | ⟨hxx, hnx, r, -, heq⟩
  · rw [heq]
    refine .kept hgood (fun _ => rfl) ?_ ?_ ?_
    · rcases hr with rfl | ⟨-, e, rfl⟩ <;> rfl
    · rcases hr with rfl | ⟨hjson, -⟩
      · exact quiet_ok
      -- without an output type NX and XX are silent
      intro hnull
      rw [hjson] at hnull
      cases hnull
    · rw [view]
      rcases h with ⟨hxx, hnone⟩ | ⟨hnx, hsome⟩
      · rw [hnone, map_none, CellOp.act, hxx, if_pos rfl]
      · obtain ⟨o, ho⟩ := ne_none_iff_exists'.mp hsome
        rw [ho, map_some, CellOp.act, hnx, if_pos rfl]
  rw [heq]
  have hold : GoodList lib.toFieldLib docs
      (((lookup s.cols (a.key, a.id)).map Object.fields).getD empty) := by
    cases ho : lookup s.cols (a.key, a.id) with
    | none => exact fun name sv hget => by cases hget
    | some o => exact hgood (a.key, a.id) o ho
  obtain ⟨hnew, hget⟩ := foldl_setField hlib hold hfs
  refine .put hgood (fun _ => rfl) (j := (a.key, a.id)) (o := setObject lib env s a geo)
    (get?_getD s.cols a.key) hnew ?_ ?_
  · refine Eq.trans ?_ (congrArg (fun f => some (Cell.mk geo f)) hget).symm
    rw [view]
    cases ho : lookup s.cols (a.key, a.id) with
    | none =>
      simp only [map_none, CellOp.act, hxx ho, Bool.false_eq_true, if_false]
      rfl
    | some o =>
      simp only [map_some, CellOp.act, hnx (by simp [ho]), Bool.false_eq_true, if_false]
      rfl
  · rw [view]
    cases ho : lookup s.cols (a.key, a.id) with
    | none => exact hxx ho
    | some o => exact hnx (by simp [ho])

theorem execFSET_cells (hlib : lib.ReadsSpecials) {a : FsetArgs N} (hret : a.ret = none)
    (hfs : ∀ f ∈ a.fields, Made lib.toFieldLib docs f ∧ Plain docs f.name) :
    CellStep lib docs env (.fset a) s (execFSET lib env s a) := by
  cases ho : lookup s.cols (a.key, a.id) with
  | none =>
    -- on a missing object the assignments find nothing
    obtain ⟨r, hupd, hr, heq⟩ := execFSET_of_none lib env ho
    rw [heq]
    exact .kept hgood (fun _ => rfl) hupd (hr hret).quiet (by rw [view, ho]; rfl)
  | some o =>
    obtain ⟨col, hcol, hid⟩ := bind_eq_some_iff.mp ho
    obtain ⟨r, -, heq⟩ := execFSET_of_some lib env hcol hid
    obtain ⟨hnew, hget⟩ := fsetFields_eq hlib (hgood _ o ho) hfs
    rw [heq]
    refine .put hgood (fun _ => rfl) (j := (a.key, a.id))
      (fun id => (lookup_of_get? hcol id).symm) hnew ?_ ?_
    · rw [view, ho]
      exact (congrArg (fun f => some (Cell.mk o.geo f)) hget).symm
    · rw [view, ho]
      simp [CellOp.InEffect]

end

/-! ### All commands -/

theorem made_of_make {f : Field N} (hmake : ∃ name data, f = Field.make lib.toFieldLib name data)
    (hclean : CleanField docs f.name f.value) : Made lib.toFieldLib docs f := by
  obtain ⟨name, data, rfl⟩ := hmake
  exact ⟨⟨data, rfl⟩, trimSpace_trimSpace name, hclean⟩

/-- SET and FSET that report an update had the memory. -/
theorem oom_of_updated {handler : Handler} (hhandler : handler = .set ∨ handler = .fset)
    (hoom : env.oom = true → (handler.call lib env s args).1.updated = true) :
    env.oom = false := by
  cases hmem : env.oom with
  | false => rfl
  | true =>
    have hupd := hoom hmem
    rcases hhandler with rfl | rfl
    · simp only [Handler.call, cmdSET, hmem, if_true] at hupd
      cases hupd
    · simp only [Handler.call, cmdFSET, hmem, if_true] at hupd
      cases hupd

theorem call_cells (hlib : lib.ReadsSpecials) (hgood : GoodData lib docs s.cols) {handler : Handler}
    (hparse : handler.parse lib args = some c) (hsafe : c.Safe docs)
    (hoom : env.oom = true → (handler.call lib env s args).1.updated = true) :
    CellStep lib docs env c s (handler.call lib env s args) := by
  cases handler with
  | set =>
    have hmem := oom_of_updated (.inl rfl) hoom
    simp only [Handler.parse] at hparse
    split at hparse
    · rename_i a geo hset
      cases hparse
      simp only [Handler.call, cmdSET, hmem, Bool.false_eq_true, if_false, hset]
      exact execSET_cells hgood hlib
        (fun f hf => made_of_make (parseSET_fields lib hset f hf) (hsafe.2 f hf)) geo
    · cases hparse
  | fset =>
    have hmem := oom_of_updated (.inr rfl) hoom
    simp only [Handler.parse] at hparse
    split at hparse
    · rename_i a hfset
      cases hparse
      simp only [Handler.call, cmdFSET, hmem, Bool.false_eq_true, if_false, hfset]
      exact execFSET_cells hgood hlib hsafe.1 fun f hf =>
        ⟨made_of_make (parseFSET_fields lib hfset f hf) (hsafe.2 f hf).1, (hsafe.2 f hf).2⟩
    · cases hparse
  | del =>
    simp only [Handler.parse] at hparse
    split at hparse
    · rename_i name key id rest
      split at hparse
      · rename_i hrest
        cases hparse
        exact cmdDEL_cells hgood name key id hrest
      · cases hparse
    · cases hparse
  | pdel =>
    simp only [Handler.parse] at hparse
    split at hparse
    · rename_i name key pattern
      cases hparse
      exact cmdPDEL_cells hgood name key pattern
    · cases hparse
  | drop =>
    simp only [Handler.parse] at hparse
    split at hparse
    · rename_i name key
      cases hparse
      exact cmdDROP_cells hgood name key
    · cases hparse
  | flushdb =>
    simp only [Handler.parse] at hparse
    split at hparse
    · rename_i name
      cases hparse
      exact cmdFLUSHDB_cells hgood name
    · cases hparse
  | expire =>
    simp only [Handler.parse] at hparse
    split at hparse
    · rename_i name key id svalue
      split at hparse
      · rename_i hvalue
        cases hparse
        exact cmdEXPIRE_cells hgood name key id hvalue
      · cases hparse
    · cases hparse
  | persist =>
    simp only [Handler.parse] at hparse
    split at hparse
    · rename_i name key id
      cases hparse
      exact cmdPERSIST_cells hgood name key id
    · cases hparse
  | rename => cases hparse
  | jset => cases hparse
  | jdel => cases hparse

/-- **A data command does to every cell what its operation says**, unless SET
or FSET is turned down for want of memory. -/
theorem command_cells (hlib : lib.ReadsSpecials) (hookLib : HookLib G) (scripts : Scripts)
    (hgood : GoodData lib docs s.cols) (hparse : parseCmd lib args = some c) (hsafe : c.Safe docs)
    (hoom : env.oom = true → (command lib hookLib env scripts s args).1.updated = true) :
    CellStep lib docs env c s (command lib hookLib env scripts s args) := by
  obtain ⟨handler, hhandler, hparse⟩ := bind_eq_some_iff.mp hparse
  rw [command_of_handlerOf lib hookLib env hhandler] at hoom ⊢
  exact call_cells hlib hgood hparse hsafe hoom

end SpatialDb.Server
