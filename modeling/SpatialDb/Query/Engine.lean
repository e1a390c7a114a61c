import SpatialDb.Lib.Sorting
import SpatialDb.Spatial.Geometry

/-!
# Pages of a query

Model of `cpp/query/engine.cpp`.  Limits and offsets are `size_t` values and
their sums wrap.  A range whose end lies before its start is undefined
behaviour, here `none`.  The index and the great-circle distance are
parameters.
-/

namespace SpatialDb.Query

open Lib Spatial List

/-! ## Model -/

inductive SortOrder where
  | asc
  | desc
  | none
  deriving DecidableEq

/-- The part of `QueryOptions` that the engine reads. -/
structure QueryOptions where
  limit : UInt64 := 100
  offset : UInt64 := 0
  sort : SortOrder := .none

structure NearbyQuery (T : Type*) where
  collection : Bytes
  circle : Circle T
  opts : QueryOptions

structure BBoxQuery (T : Type*) where
  collection : Bytes
  bbox : BBox T
  opts : QueryOptions

structure QueryResult (T : Type*) where
  entries : List (IndexEntry T)
  nextCursor : Bytes := []
  totalCount : Nat
  hasMore : Bool

section Model

variable {T : Type*}

/-- The end of both queries: the range from `start` to `end` of the entries. -/
def page (opts : QueryOptions) (entries : List (IndexEntry T)) : Option (QueryResult T) :=
  let start := min opts.offset.toNat entries.length
  let stop := min ((start + opts.limit.toNat) % 2 ^ 64) entries.length
  if start ≤ stop then
    some
      { entries := (entries.drop start).take (stop - start)
        totalCount := entries.length
        hasMore := decide (stop < entries.length) }
  else none

variable (sort : StdSort (IndexEntry T)) (ix : IndexView T)

def executeBBox (q : BBoxQuery T) : Option (QueryResult T) :=
  let entries := ix.searchBBox q.collection q.bbox
  page q.opts <|
    match q.opts.sort with
    | .asc => sort.run (fun a b => decide (a.timestamp < b.timestamp)) entries
    | .desc => sort.run (fun a b => decide (a.timestamp > b.timestamp)) entries
    | .none => entries

variable [LinearOrder T] (haversineDistance : Point T → Point T → T)

def executeNearby (q : NearbyQuery T) : Option (QueryResult T) :=
  let entries := ix.searchRadius q.collection q.circle (q.opts.limit + q.opts.offset)
  page q.opts <|
    sort.run
      (fun a b => decide (haversineDistance q.circle.center a.point <
        haversineDistance q.circle.center b.point))
      entries

end Model

/-! ## One page -/

section Page

variable {T : Type*}

/-- `r` is the page of `sorted` that `opts` asks for. -/
structure IsPage (opts : QueryOptions) (sorted : List (IndexEntry T)) (r : QueryResult T) :
    Prop where
  entries : r.entries = (sorted.drop opts.offset.toNat).take opts.limit.toNat
  hasMore : r.hasMore = true ↔ opts.offset.toNat + opts.limit.toNat < sorted.length

/-- The sum that `page` forms does not wrap. -/
def Fits (opts : QueryOptions) (length : Nat) : Prop :=
  min opts.offset.toNat length + opts.limit.toNat < 2 ^ 64

variable {opts : QueryOptions} {entries : List (IndexEntry T)}

theorem page_of_fits (h : Fits opts entries.length) :
    ∃ r, page opts entries = some r ∧ IsPage opts entries r := by
  unfold Fits at h
  have hrange : min opts.offset.toNat entries.length ≤
      min (min opts.offset.toNat entries.length + opts.limit.toNat) entries.length := by omega
  have hsame : (entries.drop (min opts.offset.toNat entries.length)).take
        (min (min opts.offset.toNat entries.length + opts.limit.toNat) entries.length -
          min opts.offset.toNat entries.length) =
      (entries.drop opts.offset.toNat).take opts.limit.toNat := by
    rcases Nat.le_total opts.offset.toNat entries.length with hle | hge
    · rw [Nat.min_eq_left hle, take_eq_take_iff, length_drop]
      omega
    · rw [Nat.min_eq_right hge, drop_eq_nil_of_le hge, drop_length]
      simp
  unfold page
  dsimp only
  rw [Nat.mod_eq_of_lt h, if_pos hrange, hsame]
  refine ⟨_, rfl, rfl, ?_⟩
  rw [decide_eq_true_eq]
  omega

theorem page_of_not_fits (h : ¬ Fits opts entries.length) : page opts entries = none := by
  have hlimit := opts.limit.toNat_lt
  unfold Fits at h
  unfold page
  rw [if_neg]
  omega

theorem fits_of_page {r : QueryResult T} (h : page opts entries = some r) :
    Fits opts entries.length ∧ IsPage opts entries r := by
  have hfits : Fits opts entries.length := by
    by_contra hwrap
    rw [page_of_not_fits hwrap] at h
    cases h
  obtain ⟨r', hsome, hpage⟩ := page_of_fits hfits
  rw [h] at hsome
  cases hsome
  exact ⟨hfits, hpage⟩

end Page

/-! ## Box queries -/

section BBoxPage

variable {T : Type*} (sort : StdSort (IndexEntry T)) (ix : IndexView T)

/-- `sorted` holds the matches in the order that was asked for. -/
def Ordered (order : SortOrder) (found sorted : List (IndexEntry T)) : Prop :=
  match order with
  | .asc => sorted.Perm found ∧ sorted.Pairwise fun a b => a.timestamp ≤ b.timestamp
  | .desc => sorted.Perm found ∧ sorted.Pairwise fun a b => b.timestamp ≤ a.timestamp
  | .none => sorted = found

/-- The sort of `executeBBox`. -/
theorem exists_ordered (q : BBoxQuery T) :
    ∃ sorted, Ordered q.opts.sort (ix.searchBBox q.collection q.bbox) sorted ∧
      executeBBox sort ix q = page q.opts sorted := by
  unfold executeBBox Ordered
  cases q.opts.sort with
  | asc =>
    have hless : ∀ a b : IndexEntry T, decide (a.timestamp < b.timestamp) = true ↔
        a.timestamp.toNat < b.timestamp.toNat := fun a b => decide_eq_true_iff
    exact ⟨_, sort.run_of_key hless _, rfl⟩
  | desc =>
    have hless : ∀ a b : IndexEntry T, decide (a.timestamp > b.timestamp) = true ↔
        OrderDual.toDual a.timestamp.toNat < OrderDual.toDual b.timestamp.toNat :=
      fun a b => decide_eq_true_iff
    exact ⟨_, sort.run_of_key hless _, rfl⟩
  | none => exact ⟨_, rfl, rfl⟩

theorem Ordered.length_eq {order : SortOrder} {found sorted : List (IndexEntry T)}
    (h : Ordered order found sorted) : sorted.length = found.length := by
  cases order with
  | asc => exact h.1.length_eq
  | desc => exact h.1.length_eq
  | none => exact congrArg List.length h

/-- **A box query forms a valid range and returns the page that it was asked
for if and only if the sum of start and limit does not wrap.** -/
theorem executeBBox_iff (q : BBoxQuery T) :
    (∃ r sorted, executeBBox sort ix q = some r ∧
      Ordered q.opts.sort (ix.searchBBox q.collection q.bbox) sorted ∧ IsPage q.opts sorted r) ↔
    min q.opts.offset.toNat (ix.searchBBox q.collection q.bbox).length + q.opts.limit.toNat <
      2 ^ 64 := by
  obtain ⟨sorted, hordered, heq⟩ := exists_ordered sort ix q
  rw [← hordered.length_eq, heq]
  constructor
  · rintro ⟨r, -, hsome, -⟩
    exact (fits_of_page hsome).1
  · intro hfits
    obtain ⟨r, hsome, hpage⟩ := page_of_fits hfits
    exact ⟨r, sorted, hsome, hordered, hpage⟩

/-- The second of two matches with the largest limit: the end of the range lies
before its start. -/
theorem executeBBox_inverted :
    let a : IndexEntry ℤ := ⟨lit "a", ⟨1, 0⟩, lit "fleet", 0⟩
    let b : IndexEntry ℤ := ⟨lit "b", ⟨2, 0⟩, lit "fleet", 0⟩
    let ix := IndexView.enumerate (fun a b => 111 * |a.lat - b.lat|) (fun _ l => l) fun _ => [a, b]
    let q : BBoxQuery ℤ :=
      ⟨lit "fleet", ⟨0, 0, 90, 180⟩, { limit := 18446744073709551615, offset := 1 }⟩
    ix.searchBBox q.collection q.bbox = [a, b] ∧ executeBBox StdSort.stable ix q = none ∧
    ¬ ∃ r sorted, executeBBox StdSort.stable ix q = some r ∧
      Ordered q.opts.sort (ix.searchBBox q.collection q.bbox) sorted ∧
      IsPage q.opts sorted r := by
  intro a b ix q
  have hfound : ix.searchBBox q.collection q.bbox = [a, b] := by decide
  obtain ⟨sorted, hordered, heq⟩ := exists_ordered StdSort.stable ix q
  have hwrap : ¬ Fits q.opts sorted.length := by
    rw [hordered.length_eq, hfound]
    unfold Fits
    decide +kernel
  have hnone := heq.trans (page_of_not_fits hwrap)
  refine ⟨hfound, hnone, ?_⟩
  rintro ⟨r, -, hsome, -⟩
  rw [hnone] at hsome
  cases hsome

end BBoxPage

/-! ## Nearby queries -/

section NearbyPage

variable {T : Type*} [LinearOrder T] (sort : StdSort (IndexEntry T)) (ix : IndexView T)
variable (haversineDistance : Point T → Point T → T)

/-- `sorted` holds the entries of the circle by their distance from its
center. -/
structure ByDistance (circle : Circle T) (found sorted : List (IndexEntry T)) : Prop where
  perm : sorted.Perm found
  sorted : sorted.Pairwise fun a b =>
    haversineDistance circle.center a.point ≤ haversineDistance circle.center b.point

/-- The sort of `executeNearby`. -/
theorem byDistance_run (circle : Circle T) (found : List (IndexEntry T)) :
    ByDistance haversineDistance circle found
      (sort.run (fun a b => decide (haversineDistance circle.center a.point <
        haversineDistance circle.center b.point)) found) := by
  have hless : ∀ a b : IndexEntry T, decide (haversineDistance circle.center a.point <
      haversineDistance circle.center b.point) = true ↔
        haversineDistance circle.center a.point < haversineDistance circle.center b.point :=
    fun a b => decide_eq_true_iff
  obtain ⟨hperm, hsorted⟩ := sort.run_of_key hless found
  exact ⟨hperm, hsorted⟩

/-- No match lies behind the page; if `limit + offset` wraps, then none lies
in it either and the second sum does not wrap. -/
def NothingBehind (opts : QueryOptions) (length : Nat) : Prop :=
  if opts.offset.toNat + opts.limit.toNat < 2 ^ 64 then
    length ≤ opts.offset.toNat + opts.limit.toNat
  else
    length ≤ opts.offset.toNat ∧
      min (opts.offset.toNat + opts.limit.toNat - 2 ^ 64) length + opts.limit.toNat < 2 ^ 64

/-- **A nearby query returns the page of the matches by distance, and says
rightly whether more follow, if and only if no match lies behind the page (and
the sums do not wrap below one that lies in it).** -/
theorem executeNearby_iff {content : Bytes → List (IndexEntry T)}
    (h : ix.Answers haversineDistance content) (q : NearbyQuery T) :
    (∃ r sorted, executeNearby sort ix haversineDistance q = some r ∧
      ByDistance haversineDistance q.circle
        (inCircle haversineDistance (content q.collection) q.circle) sorted ∧
      IsPage q.opts sorted r) ↔
    NothingBehind q.opts (inCircle haversineDistance (content q.collection) q.circle).length := by
  have hrun := byDistance_run sort haversineDistance q.circle
    (ix.searchRadius q.collection q.circle (q.opts.limit + q.opts.offset))
  have hcut := h.length q.collection q.circle (q.opts.limit + q.opts.offset)
  have hsum : (q.opts.limit + q.opts.offset).toNat =
      (q.opts.offset.toNat + q.opts.limit.toNat) % 2 ^ 64 := by
    rw [UInt64.toNat_add, Nat.add_comm]
  have hoffset := q.opts.offset.toNat_lt
  rw [← hrun.perm.length_eq, hsum] at hcut
  unfold NothingBehind executeNearby
  dsimp only
  generalize sort.run _ (ix.searchRadius q.collection q.circle (q.opts.limit + q.opts.offset)) =
    got at hrun hcut ⊢
  constructor
  · rintro ⟨r, sorted, hsome, hsorted, hpage⟩
    obtain ⟨hfits, hgot⟩ := fits_of_page hsome
    have hmore := hgot.hasMore.symm.trans hpage.hasMore
    rw [hsorted.perm.length_eq] at hmore
    unfold Fits at hfits
    split
    · -- the index was asked for the page and what lies before it, and for no more
      rename_i hroom
      rw [Nat.mod_eq_of_lt hroom] at hcut
      omega
    have hshort : got.length < q.opts.offset.toNat := by omega
    have hempty := hgot.entries
    rw [drop_eq_nil_of_le hshort.le, take_nil, hpage.entries] at hempty
    have hlength := congrArg List.length hempty
    rw [length_take, length_drop, length_nil, hsorted.perm.length_eq] at hlength
    exact ⟨by omega, by omega⟩
  · intro hbehind
    split_ifs at hbehind with hroom
    · have hfits : Fits q.opts got.length := by
        unfold Fits
        omega
      obtain ⟨r, hsome, hpage⟩ := page_of_fits hfits
      have hperm := h.perm (hbehind.trans (hsum.trans (Nat.mod_eq_of_lt hroom)).ge)
      exact ⟨r, got, hsome, ⟨hrun.perm.trans hperm, hrun.sorted⟩, hpage⟩
    -- the page that is asked for and the one that is cut out are both empty
    have hfits : Fits q.opts got.length := by
      unfold Fits
      omega
    obtain ⟨r, hsome, hpage⟩ := page_of_fits hfits
    have hsorted := byDistance_run sort haversineDistance q.circle
      (inCircle haversineDistance (content q.collection) q.circle)
    have hlength := hsorted.perm.length_eq
    refine ⟨r, _, hsome, hsorted, ?_, ?_⟩
    · rw [hpage.entries, drop_eq_nil_of_le (by omega), drop_eq_nil_of_le (by omega)]
    · rw [hpage.hasMore]
      omega

/-- Both matches fit on the page. -/
theorem executeNearby_iff_two :
    let dist : Point ℤ → Point ℤ → ℤ := fun a b => 111 * |a.lat - b.lat|
    let far : IndexEntry ℤ := ⟨lit "b", ⟨2, 0⟩, lit "fleet", 0⟩
    let near : IndexEntry ℤ := ⟨lit "a", ⟨1, 0⟩, lit "fleet", 0⟩
    let ix := IndexView.enumerate dist (fun _ l => l) fun _ => [far, near]
    let q : NearbyQuery ℤ := ⟨lit "fleet", ⟨⟨0, 0⟩, 300⟩, { limit := 2 }⟩
    ∃ r sorted, executeNearby StdSort.stable ix dist q = some r ∧
      ByDistance dist q.circle (inCircle dist [far, near] q.circle) sorted ∧
      IsPage q.opts sorted r := by
  intro dist far near ix q
  have hanswers : ix.Answers dist fun _ => [far, near] :=
    IndexView.enumerate_answers (fun _ => by decide) fun _ l => Perm.refl l
  exact (executeNearby_iff StdSort.stable ix dist hanswers q).mpr (by
    unfold NothingBehind
    decide)

/-- The index meets the farther of two matches first: a query for the nearest
one returns the other, and says that nothing follows. -/
theorem executeNearby_misses_nearest :
    let dist : Point ℤ → Point ℤ → ℤ := fun a b => 111 * |a.lat - b.lat|
    let far : IndexEntry ℤ := ⟨lit "b", ⟨2, 0⟩, lit "fleet", 0⟩
    let near : IndexEntry ℤ := ⟨lit "a", ⟨1, 0⟩, lit "fleet", 0⟩
    let ix := IndexView.enumerate dist (fun _ l => l) fun _ => [far, near]
    let q : NearbyQuery ℤ := ⟨lit "fleet", ⟨⟨0, 0⟩, 300⟩, { limit := 1 }⟩
    ix.Answers dist (fun _ => [far, near]) ∧
    executeNearby StdSort.stable ix dist q =
      some { entries := [far], totalCount := 1, hasMore := false } ∧
    ¬ ∃ r sorted, executeNearby StdSort.stable ix dist q = some r ∧
      ByDistance dist q.circle (inCircle dist [far, near] q.circle) sorted ∧
      IsPage q.opts sorted r := by
  intro dist far near ix q
  have hanswers : ix.Answers dist fun _ => [far, near] :=
    IndexView.enumerate_answers (fun _ => by decide) fun _ l => Perm.refl l
  have hfound : ix.searchRadius q.collection q.circle (q.opts.limit + q.opts.offset) = [far] := by
    decide
  have hrun : executeNearby StdSort.stable ix dist q =
      some { entries := [far], totalCount := 1, hasMore := false } := by
    have hperm := (byDistance_run StdSort.stable dist q.circle [far]).perm
    unfold executeNearby
    dsimp only
    rw [hfound, perm_singleton.mp hperm]
    rfl
  refine ⟨hanswers, hrun, ?_⟩
  rintro ⟨r, sorted, hsome, hsorted, hpage⟩
  rw [hrun] at hsome
  cases hsome
  have hlength : sorted.length = 2 := hsorted.perm.length_eq
  have hmore := hpage.hasMore.mpr (by rw [hlength]; decide)
  cases hmore

end NearbyPage

end SpatialDb.Query
