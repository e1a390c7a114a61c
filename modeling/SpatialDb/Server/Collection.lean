import SpatialDb.Lib.SecondaryIndex
import SpatialDb.Server.Object

/-!
# Collections

Model of `internal/legacy/collection/collection.go`: the id index, the spatial
index, the values and expires indexes and the four counters, with `Set` and
`Delete` updating all of them.  A btree is an ordered map on the key its
comparison reads; the rtree is a multiset of rectangle and item.
-/

namespace SpatialDb.Server

open Lib OrdMap List

/-- `Collection`. -/
structure Collection (G R : Type*) where
  objs : OrdMap Bytes (Object G)
  spatial : Multiset (R × Bytes × Object G)
  values : OrdMap (Bytes ×ₗ Bytes) (Object G)
  expires : OrdMap (Int ×ₗ Bytes) (Object G)
  weight : Int
  points : Int
  objects : Int
  nobjects : Int

namespace Collection

variable {G R : Type*}

def new : Collection G R := ⟨empty, 0, empty, empty, 0, 0, 0, 0⟩

def count (c : Collection G R) : Int := c.objects + c.nobjects

variable [DecidableEq G] [DecidableEq R] (lib : GeoLib G R) (fieldsWeight : FieldList → Nat)
variable (c : Collection G R) (id : Bytes)

def indexDelete (item : Object G) : Collection G R :=
  match item.geo with
  | .spatial g =>
    if lib.empty g then c else { c with spatial := c.spatial.erase (lib.rect g, id, item) }
  | .string _ => c

def indexInsert (item : Object G) : Collection G R :=
  match item.geo with
  | .spatial g =>
    if lib.empty g then c else { c with spatial := (lib.rect g, id, item) ::ₘ c.spatial }
  | .string _ => c

/-- The first half of `setFill`: take the replaced object out. -/
def takeOut (prev : Object G) : Collection G R :=
  let c := if prev.geo.isSpatial then
      let c := c.indexDelete lib id prev
      { c with objects := c.objects - 1 }
    else
      { c with
        values := c.values.delete (toLex (prev.geo.str lib, id))
        nobjects := c.nobjects - 1 }
  let c := if prev.expires ≠ 0 then
      { c with expires := c.expires.delete (toLex (prev.expires, id)) }
    else c
  { c with
    points := c.points - prev.geo.numPoints lib
    weight := c.weight - prev.weight lib fieldsWeight id }

/-- The second half of `setFill`: put the new object in. -/
def putIn (obj : Object G) : Collection G R :=
  let c := if obj.geo.isSpatial then
      let c := c.indexInsert lib id obj
      { c with objects := c.objects + 1 }
    else
      { c with
        values := c.values.set (toLex (obj.geo.str lib, id)) obj
        nobjects := c.nobjects + 1 }
  let c := if obj.expires ≠ 0 then
      { c with expires := c.expires.set (toLex (obj.expires, id)) obj }
    else c
  { c with
    points := c.points + obj.geo.numPoints lib
    weight := c.weight + obj.weight lib fieldsWeight id }

def setFill (prev : Option (Object G)) (obj : Object G) : Collection G R :=
  let c := match prev with
    | some prev => c.takeOut lib fieldsWeight id prev
    | none => c
  c.putIn lib fieldsWeight id obj

def set (obj : Object G) : Option (Object G) × Collection G R :=
  let prev := c.objs.get? id
  (prev, setFill lib fieldsWeight { c with objs := c.objs.set id obj } id prev obj)

/-- `Delete`; it tests for an empty geometry before `indexDelete` does again. -/
def delete : Option (Object G) × Collection G R :=
  match c.objs.get? id with
  | none => (none, { c with objs := c.objs.delete id })
  | some prev =>
    let c := { c with objs := c.objs.delete id }
    let c := if prev.geo.isSpatial then
        let c := if !prev.geo.isEmpty lib then c.indexDelete lib id prev else c
        { c with objects := c.objects - 1 }
      else
        { c with
          values := c.values.delete (toLex (prev.geo.str lib, id))
          nobjects := c.nobjects - 1 }
    let c := if prev.expires ≠ 0 then
        { c with expires := c.expires.delete (toLex (prev.expires, id)) }
      else c
    (some prev, { c with
      points := c.points - prev.geo.numPoints lib
      weight := c.weight - prev.weight lib fieldsWeight id })

def get : Option (Object G) := c.objs.get? id

/-! ## The indexes follow the id index -/

variable (o : Object G)

/-- The entry of an object in the spatial index, if it has one. -/
def item : Option (R × Bytes × Object G) :=
  match o.geo with
  | .spatial g => if lib.empty g then none else some (lib.rect g, id, o)
  | .string _ => none

/-- `item` as a multiset with at most one element. -/
def items : Multiset (R × Bytes × Object G) :=
  (item lib id o).elim 0 fun i => {i}

/-- The key of the values index. -/
def valueKey : Option Bytes :=
  match o.geo with
  | .spatial _ => none
  | .string s => some s

/-- The key of the expires index. -/
def expiresKey : Option Int := if o.expires ≠ 0 then some o.expires else none

/-- One for a spatial object. -/
def spatialOne (_ : Bytes) (o : Object G) : Int := if o.geo.isSpatial then 1 else 0

/-- One for an object that is not spatial. -/
def stringOne (_ : Bytes) (o : Object G) : Int := if o.geo.isSpatial then 0 else 1

/-- The indexes and counters of `c` are those of the objects in `m`. -/
structure Fits (c : Collection G R) (m : OrdMap Bytes (Object G)) : Prop where
  spatial : c.spatial = m.total (items lib)
  values : Indexes valueKey c.values m
  expires : Indexes expiresKey c.expires m
  objects : c.objects = m.total spatialOne
  nobjects : c.nobjects = m.total stringOne
  points : c.points = m.total fun _ o => (o.geo.numPoints lib : Int)
  weight : c.weight = m.total (Object.weight lib fieldsWeight)

section SetFill

variable {lib fieldsWeight} {c : Collection G R} {m : OrdMap Bytes (Object G)} {id : Bytes}

/-- All that `takeOut` does, container by container. -/
theorem takeOut_eq (c : Collection G R) (id : Bytes) (prev : Object G) :
    c.takeOut lib fieldsWeight id prev =
      { objs := c.objs
        spatial := c.spatial - items lib id prev
        values := unindex valueKey c.values id prev
        expires := unindex expiresKey c.expires id prev
        weight := c.weight - prev.weight lib fieldsWeight id
        points := c.points - prev.geo.numPoints lib
        objects := c.objects - spatialOne id prev
        nobjects := c.nobjects - stringOne id prev } := by
  unfold takeOut indexDelete items item spatialOne stringOne unindex valueKey expiresKey
  cases prev.geo with
  | string s =>
    by_cases hex : prev.expires = 0 <;> simp [Geometry.isSpatial, Geometry.str, hex]
  | spatial g =>
    by_cases hempty : lib.empty g = true <;> by_cases hex : prev.expires = 0 <;>
      simp [Geometry.isSpatial, hempty, hex]

omit [DecidableEq G] [DecidableEq R] in
/-- All that `putIn` does, container by container. -/
theorem putIn_eq (c : Collection G R) (id : Bytes) (obj : Object G) :
    c.putIn lib fieldsWeight id obj =
      { objs := c.objs
        spatial := items lib id obj + c.spatial
        values := index valueKey c.values id obj
        expires := index expiresKey c.expires id obj
        weight := c.weight + obj.weight lib fieldsWeight id
        points := c.points + obj.geo.numPoints lib
        objects := c.objects + spatialOne id obj
        nobjects := c.nobjects + stringOne id obj } := by
  unfold putIn indexInsert items item spatialOne stringOne index valueKey expiresKey
  cases obj.geo with
  | string s =>
    by_cases hex : obj.expires = 0 <;> simp [Geometry.isSpatial, Geometry.str, hex]
  | spatial g =>
    by_cases hempty : lib.empty g = true <;> by_cases hex : obj.expires = 0 <;>
      simp [Geometry.isSpatial, hempty, hex]

theorem Fits.takeOut {prev : Object G} (h : Fits lib fieldsWeight c m)
    (hprev : m.get? id = some prev) :
    Fits lib fieldsWeight (c.takeOut lib fieldsWeight id prev) (m.delete id) := by
  have htotal : ∀ f : Bytes → Object G → Int, m.total f - f id prev = (m.delete id).total f := by
    intro f
    rw [total_eq_add_delete f hprev, add_sub_cancel_left]
  rw [takeOut_eq]
  refine ⟨?_, h.values.delete hprev, h.expires.delete hprev, ?_, ?_, ?_, ?_⟩
  · show c.spatial - items lib id prev = _
    rw [h.spatial, total_eq_add_delete _ hprev, add_tsub_cancel_left]
  · rw [← htotal, ← h.objects]
  · rw [← htotal, ← h.nobjects]
  · rw [← htotal, ← h.points]
  · rw [← htotal, ← h.weight]

omit [DecidableEq G] [DecidableEq R] in
theorem Fits.putIn (h : Fits lib fieldsWeight c m) (hfree : m.get? id = none) (obj : Object G) :
    Fits lib fieldsWeight (c.putIn lib fieldsWeight id obj) (m.set id obj) := by
  have htotal : ∀ f : Bytes → Object G → Int, m.total f + f id obj = (m.set id obj).total f := by
    intro f
    rw [total_set f obj hfree, add_comm]
  rw [putIn_eq]
  refine ⟨?_, h.values.set hfree obj, h.expires.set hfree obj, ?_, ?_, ?_, ?_⟩
  · show items lib id obj + c.spatial = _
    rw [h.spatial, total_set _ obj hfree]
  · rw [← htotal, ← h.objects]
  · rw [← htotal, ← h.nobjects]
  · rw [← htotal, ← h.points]
  · rw [← htotal, ← h.weight]

/-- The two emptiness tests of `Delete` amount to the one of `setFill`. -/
theorem delete_eq (c : Collection G R) (id : Bytes) :
    c.delete lib fieldsWeight id =
      match c.objs.get? id with
      | none => (none, { c with objs := c.objs.delete id })
      | some prev =>
        (some prev, takeOut lib fieldsWeight { c with objs := c.objs.delete id } id prev) := by
  unfold delete takeOut indexDelete
  cases c.objs.get? id with
  | none => rfl
  | some prev =>
    cases hgeo : prev.geo with
    | string s => simp [Geometry.isSpatial, hgeo]
    | spatial g =>
      by_cases hempty : lib.empty g = true <;>
        simp [Geometry.isSpatial, Geometry.isEmpty, hempty, hgeo]

end SetFill

/-- The indexes and counters of a collection are those of its id index. -/
def Inv (c : Collection G R) : Prop := Fits lib fieldsWeight c c.objs

section Runs

variable {lib fieldsWeight}

omit [DecidableEq G] [DecidableEq R] in
theorem new_inv : Inv lib fieldsWeight (new : Collection G R) where
  spatial := rfl
  values := indexes_empty _
  expires := indexes_empty _
  objects := rfl
  nobjects := rfl
  points := rfl
  weight := rfl

@[simp] theorem objs_set (c : Collection G R) (id : Bytes) (obj : Object G) :
    (c.set lib fieldsWeight id obj).2.objs = c.objs.set id obj := by
  unfold Collection.set setFill
  cases c.objs.get? id <;> simp [putIn_eq, takeOut_eq]

@[simp] theorem objs_delete (c : Collection G R) (id : Bytes) :
    (c.delete lib fieldsWeight id).2.objs = c.objs.delete id := by
  rw [delete_eq]
  cases c.objs.get? id <;> simp [takeOut_eq]

variable {c : Collection G R}

theorem Inv.set (h : Inv lib fieldsWeight c) (id : Bytes)
    (obj : Object G) : Inv lib fieldsWeight (c.set lib fieldsWeight id obj).2 := by
  have hfits : Fits lib fieldsWeight { c with objs := c.objs.set id obj } c.objs :=
    ⟨h.spatial, h.values, h.expires, h.objects, h.nobjects, h.points, h.weight⟩
  rw [Inv, objs_set]
  unfold Collection.set setFill
  cases hprev : c.objs.get? id with
  | none => exact hfits.putIn hprev obj
  | some prev =>
    have hput := (hfits.takeOut hprev).putIn (get?_delete_self _ _) obj
    rwa [set_delete] at hput

theorem Inv.delete (h : Inv lib fieldsWeight c) (id : Bytes) :
    Inv lib fieldsWeight (c.delete lib fieldsWeight id).2 := by
  have hfits : Fits lib fieldsWeight { c with objs := c.objs.delete id } c.objs :=
    ⟨h.spatial, h.values, h.expires, h.objects, h.nobjects, h.points, h.weight⟩
  rw [Inv, objs_delete, delete_eq]
  cases hprev : c.objs.get? id with
  | none => rwa [delete_eq_self hprev] at hfits ⊢
  | some prev => exact hfits.takeOut hprev

omit [DecidableEq G] [DecidableEq R] in
theorem count_eq_size (h : Inv lib fieldsWeight c) : c.count = c.objs.size := by
  rw [count, h.objects, h.nobjects, OrdMap.total, OrdMap.total, size]
  induction c.objs.entries with
  | nil => rfl
  | cons e es ih =>
    simp only [map_cons, sum_cons, length_cons, spatialOne, stringOne] at ih ⊢
    split <;> omega

end Runs

/-! ## Runs -/

/-- The calls that change a collection. -/
inductive Op (G : Type*) where
  | set (id : Bytes) (obj : Object G)
  | delete (id : Bytes)

def step (c : Collection G R) : Op G → Collection G R
  | .set id obj => (c.set lib fieldsWeight id obj).2
  | .delete id => (c.delete lib fieldsWeight id).2

variable (ops : List (Op G))

def run : Collection G R := ops.foldl (step lib fieldsWeight) new

/-- The last object set for `id` and not deleted since; `history` has the
newest call first. -/
def lastSet (id : Bytes) : (history : List (Op G)) → Option (Object G)
  | [] => none
  | .set id' obj :: older => if id' = id then some obj else lastSet id older
  | .delete id' :: older => if id' = id then none else lastSet id older

theorem run_inv : Inv lib fieldsWeight (run lib fieldsWeight ops : Collection G R) := by
  induction ops using List.reverseRecOn with
  | nil => exact new_inv
  | append_singleton ops op ih =>
    rw [run, foldl_append]
    cases op with
    | set id obj => exact ih.set id obj
    | delete id => exact ih.delete id

theorem get?_objs_run (id : Bytes) :
    (run lib fieldsWeight ops : Collection G R).objs.get? id = lastSet id ops.reverse := by
  induction ops using List.reverseRecOn with
  | nil => rfl
  | append_singleton ops op ih =>
    rw [run, foldl_append, reverse_append]
    rw [run] at ih
    cases op with
    | set id' obj =>
      simp only [foldl_cons, foldl_nil, step, objs_set, get?_set, ih, reverse_cons,
        reverse_nil, nil_append, cons_append, lastSet, eq_comm]
    | delete id' =>
      simp only [foldl_cons, foldl_nil, step, objs_delete, get?_delete, ih, reverse_cons,
        reverse_nil, nil_append, cons_append, lastSet, eq_comm]

omit [DecidableEq G] in
/-- A counter as the number of objects it counts. -/
theorem total_eq_length_filter (p : Object G → Bool) (m : OrdMap Bytes (Object G)) :
    (m.total fun _ o => if p o then (1 : Int) else 0) = (m.values.filter p).length := by
  rw [OrdMap.total, OrdMap.values]
  induction m.entries with
  | nil => rfl
  | cons e es ih =>
    rw [map_cons, sum_cons, ih, map_cons, filter_cons]
    split
    · rw [length_cons]
      omega
    · rw [zero_add]

omit [DecidableEq G] [DecidableEq R] in
/-- The spatial index as a listing of the id index. -/
theorem total_items (m : OrdMap Bytes (Object G)) :
    m.total (items lib) = (m.entries.filterMap fun e => item lib e.1 e.2 : List _) :=
  total_elim (item lib) m

/-- **After every run of `Set` and `Delete` the id index holds the last object
set for each id, and the other indexes and the counters are those of the id
index.** -/
theorem run_indexes :
    let c : Collection G R := run lib fieldsWeight ops
    (∀ id, c.objs.get? id = lastSet id ops.reverse) ∧
    c.spatial = (c.objs.entries.filterMap fun e => item lib e.1 e.2 : List _) ∧
    (∀ s id o, c.values.get? (toLex (s, id)) = some o ↔
      c.objs.get? id = some o ∧ o.geo = .string s) ∧
    (∀ ex id o, c.expires.get? (toLex (ex, id)) = some o ↔
      c.objs.get? id = some o ∧ o.expires = ex ∧ ex ≠ 0) ∧
    c.objects = (c.objs.values.filter fun o => o.geo.isSpatial).length ∧
    c.nobjects = (c.objs.values.filter fun o => !o.geo.isSpatial).length ∧
    c.points = (c.objs.entries.map fun e => (e.2.geo.numPoints lib : Int)).sum ∧
    c.weight = (c.objs.entries.map fun e => e.2.weight lib fieldsWeight e.1).sum := by
  have h : Inv lib fieldsWeight (run lib fieldsWeight ops : Collection G R) :=
    run_inv lib fieldsWeight ops
  refine ⟨get?_objs_run lib fieldsWeight ops, h.spatial.trans (total_items lib _), ?_, ?_, ?_, ?_,
    h.points, h.weight⟩
  · intro s id o
    rw [h.values s id o, valueKey]
    cases o.geo <;> simp
  · intro ex id o
    rw [h.expires ex id o, expiresKey]
    refine and_congr_right fun _ => ?_
    by_cases hex : o.expires = 0
    · simp only [hex, ne_eq, not_true_eq_false, if_false, reduceCtorEq, false_iff, not_and, not_not]
      exact fun h => h.symm
    · simp only [ne_eq, hex, not_false_eq_true, if_true, Option.some.injEq]
      exact ⟨fun h => ⟨h, h ▸ hex⟩, fun h => h.1⟩
  · rw [h.objects]
    exact total_eq_length_filter _ _
  · rw [h.nobjects, ← total_eq_length_filter]
    congr 1
    funext _ o
    cases hs : o.geo.isSpatial <;> simp [stringOne, hs]

end Collection

end SpatialDb.Server
