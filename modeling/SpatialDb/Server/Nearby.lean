import SpatialDb.Server.Scan

/-!
# NEARBY

Model of `cmdNearby` of `internal/legacy/server/search.go` around a point and
without SPARSE, and of `Nearby` of `internal/legacy/collection/collection.go`.
The spatial index lists the objects of the collection by their distance; the
callback ends the iteration at the first one beyond the radius.

A radius that is not given is minus one.  The callback looks for a radius above
zero instead, and a radius of zero is no radius to it.
-/

namespace SpatialDb.Server

open Lib List OrdMap
open Lib.Paging (found readPage readPage_items)

/-! ## Model -/

/-- The nearest-neighbour search of the spatial index: the objects of a tree by
their distance from a point, in an order of its own among equals. -/
structure NearLib (G R P K : Type*) [LE K] where
  dist : P → Item G → K
  nearby : Multiset (R × Bytes × Object G) → P → List (Item G)
  nearby_eq : ∀ tree center, (nearby tree center : Multiset (Item G)) = tree.map Prod.snd
  nearby_sorted : ∀ tree center,
    (nearby tree center).Pairwise fun o o' => dist center o ≤ dist center o'

section Model

variable {G R P K : Type*} [LinearOrder K] [Zero K] [One K] [Neg K]
variable (lib : GeoLib G R) (near : NearLib G R P K)

/-- The meters of a POINT: NEARBY takes one without a distance. -/
def pointMeters (radius : Option K) : K := radius.getD (-1)

/-- The callback of `cmdNearby` ends the iteration here. -/
def tooFar (center : P) (maxDist : K) (o : Item G) : Bool :=
  decide (maxDist > 0) && decide (near.dist center o > maxDist)

/-- `Nearby`, with the callback of `cmdNearby`. -/
def Collection.nearby (c : Collection G R) (center : P) (maxDist : K) (sw : ScanWriter G) :
    Except Bytes (ScanWriter G) :=
  iterateFrom lib (tooFar near center maxDist) (near.nearby c.spatial center) sw

/-- `cmdNearby` around a point and without SPARSE, up to `writeFoot`. -/
def cmdNearby (col : Option (Collection G R)) (a : ScanArgs G) (center : P) (radius : Option K) :
    Except Bytes (ScanWriter G) :=
  let sw := newScanWriter a false
  match col with
  | none => .ok sw
  | some c => c.nearby lib near center (pointMeters radius) sw

end Model

/-! ## What is returned -/

/-- A request for objects from the first one on, without filters. -/
structure ScanArgs.Plain {G : Type*} (a : ScanArgs G) : Prop where
  cursor : a.cursor = 0
  globs : a.globs = []
  filters : a.filters = {}
  output : a.output ≠ .count

/-- The limit in force: a hundred objects when none is given. -/
def ScanArgs.limitInForce {G : Type*} (a : ScanArgs G) : Nat :=
  if a.limit = 0 then limitItems else a.limit

section Returned

variable {G R P K : Type*} [LinearOrder K] [Zero K] [One K] [Neg K] {lib : GeoLib G R}
variable {a : ScanArgs G}

theorem ScanArgs.Plain.limit_eq (h : a.Plain) : (newScanWriter a false).limit = a.limitInForce := by
  unfold newScanWriter ScanArgs.limitInForce
  simp only [h.output, if_false]

theorem ScanArgs.limitInForce_pos (a : ScanArgs G) : 1 ≤ a.limitInForce := by
  unfold ScanArgs.limitInForce limitItems
  split <;> omega

theorem ScanArgs.Plain.passes (h : a.Plain) (n : Nat) (o : Item G) :
    passes lib ((newScanWriter a false).step n) o = true := by
  simp [Server.passes, testObject, globMatch, newScanWriter, ScanWriter.step, h.globs, h.filters,
    fieldMatch, evalMatch]

/-- What is returned are the objects before the callback ends the iteration, up
to the limit. -/
theorem filled_cmdNearby (lib : GeoLib G R) (near : NearLib G R P K) (c : Collection G R)
    (h : a.Plain) (center : P) (radius : Option K) :
    ∃ sw, cmdNearby lib near (some c) a center radius = .ok sw ∧
      sw.filled = ((near.nearby c.spatial center).takeWhile fun o =>
        !tooFar near center (pointMeters radius) o).take a.limitInForce := by
  have hlimit : 1 ≤ (newScanWriter a false).limit := h.limit_eq ▸ a.limitInForce_pos
  have htotal : ((newScanWriter a false).step 0).filters.Total := by
    show a.filters.Total
    rw [h.filters]
    intro whereeval hmem
    cases hmem
  have hcmd : cmdNearby lib near (some c) a center radius =
      iterate lib (tooFar near center (pointMeters radius)) 0 (near.nearby c.spatial center) 0
        ((newScanWriter a false).step 0) := by
    have hcursor : (newScanWriter a false).cursor = 0 := h.cursor
    rw [cmdNearby, Collection.nearby, iterateFrom, hcursor]
  have hkeep : passes lib ((newScanWriter a false).step 0) = fun _ => true := funext (h.passes 0)
  refine ⟨_, hcmd.trans (iterate_items lib _ htotal h.output hlimit _ _ 0), ?_⟩
  show [] ++ (readPage _ _ (newScanWriter a false).limit _).items = _
  rw [nil_append, readPage_items hlimit, hkeep, h.limit_eq, found, filter_true]

end Returned

/-! ## The cut-off -/

section CutOff

variable {G R P K : Type*} [LinearOrder K] {near : NearLib G R P K}
variable {c : Collection G R} {center : P} {maxDist : K}

/-- The objects within a distance come first. -/
theorem filter_near_eq_take (near : NearLib G R P K) (c : Collection G R) (center : P)
    (maxDist : K) :
    ((near.nearby c.spatial center).filter fun o => near.dist center o ≤ maxDist) =
      (near.nearby c.spatial center).take
        ((near.nearby c.spatial center).filter fun o => near.dist center o ≤ maxDist).length := by
  refine filter_eq_take (near.nearby_sorted _ center) fun o _ o' _ hle ho' => ?_
  exact decide_eq_true (hle.trans (of_decide_eq_true ho'))

variable [Zero K]

theorem takeWhile_near_of_pos (h : 0 < maxDist) :
    ((near.nearby c.spatial center).takeWhile fun o => !tooFar near center maxDist o) =
      (near.nearby c.spatial center).filter fun o => near.dist center o ≤ maxDist := by
  have hcut : (fun o => !tooFar near center maxDist o) =
      fun o => decide (near.dist center o ≤ maxDist) := by
    funext o
    rw [tooFar, decide_eq_true h, Bool.true_and, ← decide_not, decide_eq_decide, not_lt]
  rw [hcut]
  refine takeWhile_eq_filter (near.nearby_sorted _ center) fun o _ o' _ hle ho' => ?_
  exact decide_eq_true (hle.trans (of_decide_eq_true ho'))

/-- Without a radius above zero the iteration goes on to the end. -/
theorem takeWhile_near_of_not_pos (h : ¬ 0 < maxDist) :
    ((near.nearby c.spatial center).takeWhile fun o => !tooFar near center maxDist o) =
      near.nearby c.spatial center := by
  refine takeWhile_eq_self_iff.mpr fun o _ => ?_
  rw [tooFar, decide_eq_false h]
  rfl

end CutOff

/-! ## The objects within the radius -/

section Within

variable {G R P K : Type*} [DecidableEq G] [DecidableEq R]
variable [LinearOrder K] [Zero K] [One K] [Neg K]
variable {lib : GeoLib G R} {near : NearLib G R P K} {fieldsWeight : FieldList → Nat}

/-- The objects of a collection that have a place. -/
def Collection.placed (lib : GeoLib G R) (c : Collection G R) : List (Item G) :=
  c.objs.entries.filter fun o => (Collection.item lib o.1 o.2).isSome

/-- Those of them within a distance. -/
def Collection.within (lib : GeoLib G R) (near : NearLib G R P K) (c : Collection G R) (center : P)
    (maxDist : K) : List (Item G) :=
  (c.placed lib).filter fun o => near.dist center o ≤ maxDist

omit [DecidableEq G] [DecidableEq R] in
/-- The spatial index holds the objects with a place. -/
theorem Collection.Inv.map_spatial {c : Collection G R} (h : c.Inv lib fieldsWeight) :
    c.spatial.map Prod.snd = (c.placed lib : Multiset (Item G)) := by
  rw [h.spatial.trans (Collection.total_items lib _), Multiset.map_coe, Collection.placed]
  refine congrArg _ ?_
  induction c.objs.entries with
  | nil => rfl
  | cons o objs ih =>
    have hitem : ∀ i, Collection.item lib o.1 o.2 = some i → i.2 = o := by
      intro i hi
      unfold Collection.item at hi
      split at hi
      · split at hi
        · cases hi
        · exact (congrArg Prod.snd (Option.some.inj hi)).symm
      · cases hi
    rw [filterMap_cons, filter_cons, ← ih]
    cases hi : Collection.item lib o.1 o.2 with
    | none => rfl
    | some i => exact congrArg (· :: _) (hitem i hi)

omit [DecidableEq G] [DecidableEq R] [Zero K] [One K] [Neg K] in
theorem nearby_perm_placed {c : Collection G R} (h : c.Inv lib fieldsWeight) (center : P) :
    (near.nearby c.spatial center).Perm (c.placed lib) :=
  Multiset.coe_eq_coe.mp ((near.nearby_eq c.spatial center).trans h.map_spatial)

/-- The objects that a NEARBY returns are those within its radius, nearest
first, exactly when the limit has room for them and either the radius is above
zero, or the limit is reached with the last of them, or they are all there
are. -/
theorem cmdNearby_iff (lib : GeoLib G R) (near : NearLib G R P K) (fieldsWeight : FieldList → Nat)
    (ops : List (Collection.Op G)) {a : ScanArgs G} (h : a.Plain) (center : P) (radius : K) :
    let c : Collection G R := Collection.run lib fieldsWeight ops
    let within := c.within lib near center radius
    (∃ sw, cmdNearby lib near (some c) a center (some radius) = .ok sw ∧
      sw.filled.Perm within ∧
      sw.filled.Pairwise fun o o' => near.dist center o ≤ near.dist center o') ↔
    within.length ≤ a.limitInForce ∧
      (0 < radius ∨ within.length = a.limitInForce ∨ within.length = (c.placed lib).length) := by
  intro c within
  obtain ⟨sw, hsw, hfilled⟩ := filled_cmdNearby lib near c h center (some radius)
  have hplaced : (near.nearby c.spatial center).Perm (c.placed lib) :=
    nearby_perm_placed (Collection.run_inv lib fieldsWeight ops) center
  have hwithin : ((near.nearby c.spatial center).filter fun o => near.dist center o ≤ radius).Perm
      within := hplaced.filter _
  have hsorted : sw.filled.Pairwise fun o o' => near.dist center o ≤ near.dist center o' := by
    rw [hfilled]
    exact (near.nearby_sorted c.spatial center).sublist
      ((take_sublist _ _).trans (takeWhile_sublist _))
  by_cases hpos : 0 < radius
  · replace hfilled : sw.filled = ((near.nearby c.spatial center).filter fun o =>
        near.dist center o ≤ radius).take a.limitInForce :=
      hfilled.trans (congrArg (List.take _) (takeWhile_near_of_pos hpos))
    constructor
    · rintro ⟨sw', hsw', hperm, -⟩
      obtain rfl : sw' = sw := Except.ok.inj (hsw'.symm.trans hsw)
      have hlen := hperm.length_eq
      rw [hfilled, length_take, hwithin.length_eq] at hlen
      exact ⟨by omega, .inl hpos⟩
    · rintro ⟨hle, -⟩
      refine ⟨sw, hsw, ?_, hsorted⟩
      rw [hfilled, take_of_length_le (hwithin.length_eq.trans_le hle)]
      exact hwithin
  replace hfilled : sw.filled = (near.nearby c.spatial center).take a.limitInForce :=
    hfilled.trans (congrArg (List.take _) (takeWhile_near_of_not_pos hpos))
  constructor
  · rintro ⟨sw', hsw', hperm, -⟩
    obtain rfl : sw' = sw := Except.ok.inj (hsw'.symm.trans hsw)
    have hlen := hperm.length_eq
    rw [hfilled, length_take, hplaced.length_eq] at hlen
    exact ⟨by omega, .inr (by omega)⟩
  · rintro ⟨hle, hcases⟩
    have hfirst := filter_near_eq_take near c center radius
    rw [hwithin.length_eq] at hfirst
    refine ⟨sw, hsw, ?_, hsorted⟩
    -- within the radius are the first objects of the search, and so is what is returned
    refine .trans (.of_eq ?_) hwithin
    rw [hfilled, hfirst]
    rcases hcases with hpos' | hfull | hall
    · exact absurd hpos' hpos
    · rw [hfull]
    · have hlen := hplaced.length_eq
      rw [take_of_length_le (by omega), take_of_length_le (by omega)]

end Within

/-! ## One object a meter away -/

/-- The search that sorts the objects by a distance. -/
noncomputable def NearLib.sorting {G R P K : Type*} [LinearOrder K] (dist : P → Item G → K) :
    NearLib G R P K where
  dist := dist
  nearby tree center :=
    (tree.map Prod.snd).toList.mergeSort fun o o' => dist center o ≤ dist center o'
  nearby_eq tree center := by
    rw [Multiset.coe_eq_coe.mpr (List.mergeSort_perm _ _), Multiset.coe_toList]
  nearby_sorted tree center := by
    refine (List.pairwise_mergeSort ?_ ?_ _).imp of_decide_eq_true
    · intro o o' o'' h h'
      exact decide_eq_true ((of_decide_eq_true h).trans (of_decide_eq_true h'))
    · intro o o'
      rw [Bool.or_eq_true, decide_eq_true_eq, decide_eq_true_eq]
      exact le_total _ _

/-- A truck one meter and a bike two meters from every point. -/
def parkedOps : List (Collection.Op Unit) :=
  [.set (lit "bike") ⟨.spatial (), 0, empty⟩,
    .set (lit "truck") ⟨.spatial (), 0, empty⟩]

def parked : Collection Unit Unit := Collection.run pointLib (fun _ => 0) parkedOps

noncomputable def parkedNear : NearLib Unit Unit Unit Int :=
  NearLib.sorting fun _ o => if o.1 = lit "truck" then 1 else 2

/-- `NEARBY fleet IDS POINT lat lon 1`. -/
theorem cmdNearby_iff_truck :
    ∃ sw, cmdNearby pointLib parkedNear (some parked) { output := .ids } () (some 1) = .ok sw ∧
      sw.filled.Perm [(lit "truck", ⟨.spatial (), 0, empty⟩)] := by
  have hwithin : parked.within pointLib parkedNear () 1 =
      [(lit "truck", ⟨.spatial (), 0, empty⟩)] := by decide +kernel
  obtain ⟨sw, hsw, hperm, -⟩ := (cmdNearby_iff pointLib parkedNear (fun _ => 0) parkedOps
    (⟨rfl, rfl, rfl, by decide⟩ : ({ output := .ids } : ScanArgs Unit).Plain) () 1).mpr
    ⟨by decide +kernel, .inl (by decide)⟩
  exact ⟨sw, hsw, hwithin ▸ hperm⟩

/-- `NEARBY fleet IDS POINT lat lon 0`: nothing is within the radius, and both
objects are returned. -/
theorem cmdNearby_zero_all :
    parked.within pointLib parkedNear () 0 = [] ∧
    ∃ sw, cmdNearby pointLib parkedNear (some parked) { output := .ids } () (some 0) = .ok sw ∧
      sw.filled.length = 2 := by
  refine ⟨by decide +kernel, ?_⟩
  obtain ⟨sw, hsw, hfilled⟩ := filled_cmdNearby pointLib parkedNear parked
    (⟨rfl, rfl, rfl, by decide⟩ : ({ output := .ids } : ScanArgs Unit).Plain) () (some 0)
  have hplaced : (parkedNear.nearby parked.spatial ()).Perm (parked.placed pointLib) :=
    nearby_perm_placed (Collection.run_inv pointLib (fun _ => 0) parkedOps) ()
  have htwo : (parked.placed pointLib).length = 2 := by decide +kernel
  have hall : sw.filled = (parkedNear.nearby parked.spatial ()).take 100 :=
    hfilled.trans (congrArg (List.take _) (takeWhile_near_of_not_pos (by decide)))
  refine ⟨sw, hsw, ?_⟩
  rw [hall, length_take, hplaced.length_eq, htwo]
  rfl

end SpatialDb.Server
