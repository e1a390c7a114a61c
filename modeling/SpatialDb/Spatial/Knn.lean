import SpatialDb.Lib.Sorting
import SpatialDb.Spatial.Geometry

/-!
# Nearest neighbours

Model of `cpp/spatial/knn.cpp`: a circle around the query point is searched and
doubled until it holds enough entries, at most eight times, and each time the
index is asked for at most `4 * k` entries.  The index, the great-circle
distance and the square root are parameters.
-/

namespace SpatialDb.Spatial.Knn

open Lib List

/-! ## Model -/

structure KNNResult (T : Type*) where
  entry : IndexEntry T
  distanceKm : T

section

variable {T : Type*} [Field T] [LinearOrder T]

/-- `expandRadius`; `sqrt k` stands for `std::sqrt((double)k)`. -/
def expandRadius (sqrt : UInt64 → T) (k : UInt64) : T := max 1 (sqrt k * (1 / 2))

variable (haversineDistance : Point T → Point T → T) (ix : IndexView T)
variable (collection : Bytes) (query : Point T) (k : UInt64) (maxRadiusKm : T)

omit [Field T] in
/-- The results of one round. -/
def attempt (radius : T) : List (KNNResult T) :=
  let circle : Circle T := ⟨query, min radius maxRadiusKm⟩
  let candidates := ix.searchRadius collection circle (k * 4)
  (candidates.map fun c => ⟨c, haversineDistance query c.point⟩).filter
    fun r => r.distanceKm ≤ maxRadiusKm

/-- The loop, with the number of rounds that are left. -/
def expand : Nat → T → List (KNNResult T) → List (KNNResult T)
  | 0, _, results => results
  | left + 1, radius, _ =>
    let results := attempt haversineDistance ix collection query k maxRadiusKm radius
    if results.length ≥ k.toNat ∨ radius ≥ maxRadiusKm then results
    else expand left (radius * 2) results

def search (sort : StdSort (KNNResult T)) (sqrt : UInt64 → T) : List (KNNResult T) :=
  let results := sort.run (fun a b => decide (a.distanceKm < b.distanceKm))
    (expand haversineDistance ix collection query k maxRadiusKm 8 (expandRadius sqrt k) [])
  if results.length > k.toNat then results.take k.toNat else results

/-! ## The last circle -/

/-- The radius of the last round, from the number of entries in each circle. -/
def lastRadius (count : T → Nat) (k limit : Nat) (maxRadiusKm : T) : Nat → T → T
  | 0, radius => radius
  | 1, radius => radius
  | left + 2, radius =>
    if min limit (count (min radius maxRadiusKm)) ≥ k ∨ radius ≥ maxRadiusKm then radius
    else lastRadius count k limit maxRadiusKm (left + 1) (radius * 2)

variable {haversineDistance} {content : Bytes → List (IndexEntry T)}
variable {ix}

/-- The entries within a radius of the query point. -/
def within (haversineDistance : Point T → Point T → T) (content : List (IndexEntry T))
    (query : Point T) (radius : T) : List (IndexEntry T) :=
  inCircle haversineDistance content ⟨query, radius⟩

omit [Field T] in
/-- The second test of the distance lets everything pass. -/
theorem attempt_eq (h : ix.Answers haversineDistance content) (radius : T) :
    attempt haversineDistance ix collection query k maxRadiusKm radius =
      (ix.searchRadius collection ⟨query, min radius maxRadiusKm⟩ (k * 4)).map
        fun c => ⟨c, haversineDistance query c.point⟩ := by
  unfold attempt
  rw [filter_eq_self]
  intro r hr
  obtain ⟨c, hc, rfl⟩ := mem_map.mp hr
  have hin := (mem_filter.mp (h.subset _ _ _ hc)).2
  unfold circleContainsPoint at hin
  rw [decide_eq_true_eq] at hin ⊢
  exact hin.trans (min_le_right _ _)

/-- **The loop ends with the search of one circle.** -/
theorem expand_eq (h : ix.Answers haversineDistance content) (left : Nat) (radius : T)
    (results : List (KNNResult T)) :
    expand haversineDistance ix collection query k maxRadiusKm (left + 1) radius results =
      attempt haversineDistance ix collection query k maxRadiusKm (lastRadius
          (fun r => (within haversineDistance (content collection) query r).length)
          k.toNat (k * 4).toNat maxRadiusKm (left + 1) radius) := by
  induction left generalizing radius results with
  | zero =>
    rw [expand, lastRadius]
    split
    · rfl
    · rw [expand]
  | succ left ih =>
    have hlength : (attempt haversineDistance ix collection query k maxRadiusKm radius).length =
        min (k * 4).toNat
          (within haversineDistance (content collection) query
            (min radius maxRadiusKm)).length := by
      rw [attempt_eq collection query k maxRadiusKm h, length_map]
      exact h.length _ _ _
    rw [expand, lastRadius, hlength]
    split
    · rfl
    · exact ih _ _

end

/-! ## The nearest entries -/

section Nearest

variable {T : Type*} [Field T] [LinearOrder T] (haversineDistance : Point T → Point T → T)

/-- The `k` nearest of the entries that were found, each with its distance. -/
structure Nearest (query : Point T) (k : Nat) (found : List (IndexEntry T))
    (results : List (KNNResult T)) : Prop where
  distance : ∀ r ∈ results, r.distanceKm = haversineDistance query r.entry.point
  smallest : Smallest (fun e => haversineDistance query e.point) k found
    (results.map KNNResult.entry)

variable {haversineDistance} {content : Bytes → List (IndexEntry T)}
variable (sort : StdSort (KNNResult T)) (sqrt : UInt64 → T)
variable (collection : Bytes) (query : Point T) (k : UInt64) (maxRadiusKm : T)

/-- The search takes the first `k` entries of the last circle's answer, sorted
by distance. -/
theorem search_eq {ix : IndexView T} (h : ix.Answers haversineDistance content) :
    let radius := lastRadius
      (fun r => (within haversineDistance (content collection) query r).length)
      k.toNat (k * 4).toNat maxRadiusKm 8 (expandRadius sqrt k)
    ∃ sorted : List (IndexEntry T),
      sorted.Perm (ix.searchRadius collection ⟨query, min radius maxRadiusKm⟩ (k * 4)) ∧
      (sorted.Pairwise fun a b =>
        haversineDistance query a.point ≤ haversineDistance query b.point) ∧
      search haversineDistance ix collection query k maxRadiusKm sort sqrt =
        (sorted.take k.toNat).map fun e => ⟨e, haversineDistance query e.point⟩ := by
  intro radius
  have hless : ∀ a b : KNNResult T, decide (a.distanceKm < b.distanceKm) = true ↔
      a.distanceKm < b.distanceKm := fun a b => decide_eq_true_iff
  obtain ⟨hsortPerm, hsorted⟩ := sort.run_of_key hless
    (expand haversineDistance ix collection query k maxRadiusKm 8 (expandRadius sqrt k) [])
  have hloop := expand_eq collection query k maxRadiusKm h 7 (expandRadius sqrt k) []
  rw [attempt_eq collection query k maxRadiusKm h] at hloop
  unfold search
  generalize sort.run _ _ = results at hsortPerm hsorted ⊢
  have hperm := hsortPerm.trans (Perm.of_eq hloop)
  have hentries := hperm.map KNNResult.entry
  rw [map_map, show KNNResult.entry ∘ _ = id from rfl, map_id] at hentries
  -- a result is determined by its entry
  have hresult : ∀ r ∈ results, r = ⟨r.entry, haversineDistance query r.entry.point⟩ := by
    intro r hr
    obtain ⟨c, -, rfl⟩ := mem_map.mp (hperm.subset hr)
    rfl
  refine ⟨results.map KNNResult.entry, hentries, ?_, ?_⟩
  · rw [pairwise_map]
    refine hsorted.imp_of_mem fun {a b} ha hb hab => ?_
    rw [hresult a ha, hresult b hb] at hab
    exact hab
  · have htake : (if results.length > k.toNat then results.take k.toNat else results) =
        results.take k.toNat := by
      split
      · rfl
      · rw [take_of_length_le (by omega)]
    rw [htake, ← map_take, map_map]
    conv_lhs => rw [← map_id (results.take k.toNat)]
    exact map_congr_left fun r hr => hresult r (mem_of_mem_take hr)

omit [Field T] in
theorem mem_within {content : List (IndexEntry T)} {radius : T} {e : IndexEntry T} :
    e ∈ within haversineDistance content query radius ↔
      e ∈ content ∧ haversineDistance query e.point ≤ radius := by
  simp [within, inCircle, circleContainsPoint]

omit [Field T] in
variable (haversineDistance) in
/-- A circle within another: what it leaves out of the larger one is farther
away. -/
theorem within_min (content : List (IndexEntry T)) (radius : T) :
    let near := within haversineDistance content query (min radius maxRadiusKm)
    let all := within haversineDistance content query maxRadiusKm
    near ⊆ all ∧ near.length ≤ all.length ∧
      ∀ a ∈ all, a ∉ near → ∀ x ∈ near,
        haversineDistance query x.point ≤ haversineDistance query a.point := by
  intro near all
  have hsublist : near.Sublist all := by
    refine monotone_filter_right content fun e he => ?_
    unfold circleContainsPoint at he ⊢
    rw [decide_eq_true_eq] at he ⊢
    exact he.trans (min_le_right _ _)
  refine ⟨hsublist.subset, hsublist.length_le, fun a ha hnot x hx => ?_⟩
  rw [mem_within] at ha hnot hx
  have hfar : min radius maxRadiusKm < haversineDistance query a.point :=
    not_le.mp fun hle => hnot ⟨ha.1, hle⟩
  exact hx.2.trans hfar.le

/-- An index that goes through a circle from the outside. -/
def farthestFirst (haversineDistance : Point T → Point T → T)
    (content : Bytes → List (IndexEntry T)) : IndexView T :=
  IndexView.enumerate haversineDistance
    (fun circle => StdSort.stable.run fun a b =>
      decide (haversineDistance circle.center b.point < haversineDistance circle.center a.point))
    content

omit [Field T] in
variable (haversineDistance) in
theorem arranges_farthest (center : Point T) (l : List (IndexEntry T)) :
    let desc := StdSort.stable.run (fun a b => decide
      (haversineDistance center b.point < haversineDistance center a.point)) l
    desc.Perm l ∧ desc.Pairwise fun a b =>
      haversineDistance center b.point ≤ haversineDistance center a.point := by
  intro desc
  have hless : ∀ a b : IndexEntry T, decide (haversineDistance center b.point <
      haversineDistance center a.point) = true ↔
        OrderDual.toDual (haversineDistance center a.point) <
          OrderDual.toDual (haversineDistance center b.point) := fun a b => decide_eq_true_iff
  exact StdSort.stable.run_of_key hless l

/-- **The `k` nearest entries within the maximal radius are returned, in
whatever order the index enumerates a circle, if and only if the last circle
either is not cut short and holds `k` entries or all there are, or is cut short
but all of its entries except a few are equally near.** -/
theorem search_nearest_iff (hdistinct : ∀ collection, (content collection).Nodup) (hk : 1 ≤ k) :
    let limit := (k * 4).toNat
    let radius := lastRadius
      (fun r => (within haversineDistance (content collection) query r).length)
      k.toNat limit maxRadiusKm 8 (expandRadius sqrt k)
    let near := within haversineDistance (content collection) query (min radius maxRadiusKm)
    let all := within haversineDistance (content collection) query maxRadiusKm
    (∀ ix : IndexView T, ix.Answers haversineDistance content →
      Nearest haversineDistance query k.toNat all
        (search haversineDistance ix collection query k maxRadiusKm sort sqrt)) ↔
    (near.length ≤ limit ∧ (k.toNat ≤ near.length ∨ near.length = all.length)) ∨
      (limit < near.length ∧ k.toNat ≤ limit ∧
        (aboveLeast (fun e => haversineDistance query e.point) near).length ≤ limit - k.toNat) := by
  intro limit radius near all
  obtain ⟨hsub, hlength, hbeyond⟩ :=
    within_min haversineDistance query maxRadiusKm (content collection) radius
  have hentries : ∀ sorted : List (IndexEntry T),
      ((sorted.take k.toNat).map fun e =>
        (⟨e, haversineDistance query e.point⟩ : KNNResult T)).map KNNResult.entry =
      sorted.take k.toNat := by
    intro sorted
    rw [map_map]
    exact map_id _
  constructor
  · intro hall
    have hanswers : (farthestFirst haversineDistance content).Answers haversineDistance content :=
      IndexView.enumerate_answers hdistinct fun circle l =>
        (arranges_farthest haversineDistance circle.center l).1
    obtain ⟨sorted, hperm, -, hsearch⟩ :=
      search_eq sort sqrt collection query k maxRadiusKm hanswers
    have hsmall := (hall _ hanswers).smallest
    rw [hsearch, hentries] at hsmall
    obtain ⟨hdesc, hpair⟩ := arranges_farthest haversineDistance query near
    exact few_above_least hk hsub hlength ((hdistinct collection).filter _) hdesc hpair hperm hsmall
  · intro hcond ix hanswers
    obtain ⟨sorted, hperm, hpair, hsearch⟩ :=
      search_eq sort sqrt collection query k maxRadiusKm hanswers
    rw [hsearch]
    refine ⟨?_, ?_⟩
    · intro r hr
      obtain ⟨e, -, rfl⟩ := mem_map.mp hr
      rfl
    · rw [hentries]
      exact Smallest.of_sample hsub hlength hbeyond (hanswers.nodup _ _ _) (hanswers.subset _ _ _)
        (hanswers.length _ _ _) hperm hpair hcond

end Nearest

/-- One entry in the first circle. -/
theorem search_nearest_iff_one :
    let dist : Point ℚ → Point ℚ → ℚ := fun a b => 111 * |a.lat - b.lat|
    let content : Bytes → List (IndexEntry ℚ) := fun _ => [⟨lit "a", ⟨1 / 1000, 0⟩, lit "fleet", 0⟩]
    ∀ ix : IndexView ℚ, ix.Answers dist content →
      Nearest dist ⟨0, 0⟩ 1 (within dist (content (lit "fleet")) ⟨0, 0⟩ 50)
        (search dist ix (lit "fleet") ⟨0, 0⟩ 1 50 StdSort.stable
          fun k => (Nat.sqrt k.toNat : ℚ)) := by
  intro dist content
  exact (search_nearest_iff StdSort.stable (fun k => (Nat.sqrt k.toNat : ℚ)) (lit "fleet") ⟨0, 0⟩ 1
    50 (fun _ => nodup_singleton _) (by decide)).mpr (by decide +kernel)

/-- The only entry is 222 km away, and everything within 1000 km is asked for:
after eight rounds the circle has 128 km, and nothing is returned. -/
theorem search_gives_up :
    let dist : Point ℚ → Point ℚ → ℚ := fun a b => 111 * |a.lat - b.lat|
    let content : Bytes → List (IndexEntry ℚ) := fun _ => [⟨lit "a", ⟨2, 0⟩, lit "fleet", 0⟩]
    let ix := IndexView.enumerate dist (fun _ l => l) content
    let results := search dist ix (lit "fleet") ⟨0, 0⟩ 1 1000 StdSort.stable
      fun k => (Nat.sqrt k.toNat : ℚ)
    ix.Answers dist content ∧ results = [] ∧
      ¬ Nearest dist ⟨0, 0⟩ 1 (within dist (content (lit "fleet")) ⟨0, 0⟩ 1000) results := by
  intro dist content ix results
  have hanswers : ix.Answers dist content :=
    IndexView.enumerate_answers (fun _ => nodup_singleton _) fun _ l => Perm.refl l
  have hempty : results = [] := by
    obtain ⟨sorted, hperm, -, hsearch⟩ := search_eq StdSort.stable
      (fun k => (Nat.sqrt k.toNat : ℚ)) (lit "fleet") ⟨0, 0⟩ 1 1000 hanswers
    have hnone : (ix.searchRadius (lit "fleet") ⟨⟨0, 0⟩, min (lastRadius
        (fun r => (within dist (content (lit "fleet")) ⟨0, 0⟩ r).length) 1 4 1000 8
        (expandRadius (fun k => (Nat.sqrt k.toNat : ℚ)) 1)) 1000⟩ 4) = [] := by
      decide +kernel
    obtain rfl : sorted = [] := (hperm.trans (Perm.of_eq hnone)).eq_nil
    exact hsearch
  refine ⟨hanswers, hempty, fun hnearest => ?_⟩
  have hlength := hnearest.smallest.length
  rw [hempty] at hlength
  revert hlength
  decide +kernel

end SpatialDb.Spatial.Knn
