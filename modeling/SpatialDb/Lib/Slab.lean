import Mathlib

/-!
# Clipping a segment to a range

The points of a segment are `p + t * (q - p)` for `t` from `0` to `1`.  On one
axis those between two bounds form an interval of parameters; a segment meets a
box when the intervals of its axes overlap.
-/

namespace SpatialDb.Lib

variable {K : Type*} [Field K] [LinearOrder K]

/-- The ends of the interval of parameters at which the segment from `p` to `q`
lies between `lo` and `hi`; the first is above the second when there is none. -/
def slab (lo hi p q : K) : K × K :=
  if p < q then (max 0 ((lo - p) / (q - p)), min 1 ((hi - p) / (q - p)))
  else if q < p then (max 0 ((hi - p) / (q - p)), min 1 ((lo - p) / (q - p)))
  else if lo ≤ p ∧ p ≤ hi then (0, 1) else (1, 0)

variable [IsStrictOrderedRing K] {lo hi p q t : K}

theorem mem_slab_iff :
    (slab lo hi p q).1 ≤ t ∧ t ≤ (slab lo hi p q).2 ↔
      (0 ≤ t ∧ t ≤ 1) ∧ lo ≤ p + t * (q - p) ∧ p + t * (q - p) ≤ hi := by
  unfold slab
  split
  · rename_i hlt
    have hpos : 0 < q - p := sub_pos.mpr hlt
    rw [max_le_iff, le_min_iff, div_le_iff₀ hpos, le_div_iff₀ hpos, sub_le_iff_le_add',
      le_sub_iff_add_le']
    exact and_and_and_comm
  split
  · rename_i hlt
    have hneg : q - p < 0 := sub_neg.mpr hlt
    rw [max_le_iff, le_min_iff, div_le_iff_of_neg hneg, le_div_iff_of_neg hneg,
      sub_le_iff_le_add', le_sub_iff_add_le']
    constructor
    · rintro ⟨⟨h0, hhi⟩, h1, hlo⟩
      exact ⟨⟨h0, h1⟩, hlo, hhi⟩
    · rintro ⟨⟨h0, h1⟩, hlo, hhi⟩
      exact ⟨⟨h0, hhi⟩, h1, hlo⟩
  rename_i hpq hqp
  obtain rfl : p = q := le_antisymm (not_lt.mp hqp) (not_lt.mp hpq)
  rw [sub_self, mul_zero, add_zero]
  split_ifs with hin
  · simp [hin]
  · refine ⟨fun h => ?_, fun h => absurd h.2 hin⟩
    exact absurd (h.1.trans h.2) (not_le.mpr zero_lt_one)

variable {lo' hi' p' q' : K}

/-- A parameter that suits both axes exists when the intervals overlap. -/
theorem exists_mem_slabs_iff :
    (∃ t, (0 ≤ t ∧ t ≤ 1) ∧ (lo ≤ p + t * (q - p) ∧ p + t * (q - p) ≤ hi) ∧
        lo' ≤ p' + t * (q' - p') ∧ p' + t * (q' - p') ≤ hi') ↔
      max (slab lo hi p q).1 (slab lo' hi' p' q').1 ≤
        min (slab lo hi p q).2 (slab lo' hi' p' q').2 := by
  constructor
  · rintro ⟨t, ht, hin, hin'⟩
    have hslab := mem_slab_iff.mpr ⟨ht, hin⟩
    have hslab' := mem_slab_iff.mpr ⟨ht, hin'⟩
    exact (max_le hslab.1 hslab'.1).trans (le_min hslab.2 hslab'.2)
  · intro hle
    -- the larger of the left ends lies in both intervals
    refine ⟨max (slab lo hi p q).1 (slab lo' hi' p' q').1, ?_⟩
    obtain ⟨hright, hright'⟩ := le_min_iff.mp hle
    have hslab := mem_slab_iff.mp ⟨le_max_left _ _, hright⟩
    have hslab' := mem_slab_iff.mp ⟨le_max_right _ _, hright'⟩
    exact ⟨hslab.1, hslab.2, hslab'.2⟩

end SpatialDb.Lib
