import Mathlib

/-!
# Delivery of a numbered stream in batches

A stream of entries numbered from zero goes out in consecutive batches, and
a receiver has the set of the numbers that reached it.  `Reaches k` says it
has the first `k` entries, `GapFree` that what it has is a first part of the
stream.  `Majority` counts receivers.

The two `union_Ico` rules say what another batch does to a receiver of which
some first part of the batch reaches: it stays level with the stream exactly
if it was and gets all of it, and it stays gap-free exactly if it was level
or gets none of it.
-/

namespace SpatialDb.Lib.Delivery

open Finset

/-- The first `k` entries are there. -/
def Reaches (k : Nat) (received : Finset Nat) : Prop :=
  Finset.range k ⊆ received

instance (k : Nat) : DecidablePred (Reaches k) :=
  fun received => inferInstanceAs (Decidable (Finset.range k ⊆ received))

/-- No entry is there without all before it. -/
def GapFree (received : Finset Nat) : Prop :=
  ∀ i ∈ received, Finset.range i ⊆ received

theorem Reaches.mono {k l : Nat} {received : Finset Nat} (h : Reaches l received) (hle : k ≤ l) :
    Reaches k received :=
  (range_subset_range.mpr hle).trans h

theorem reaches_zero (received : Finset Nat) : Reaches 0 received := by
  simp [Reaches]

theorem gapFree_empty : GapFree ∅ := by
  simp [GapFree]

/-- A receiver of nothing beyond the first `k` that has them all. -/
theorem gapFree_of_reaches {k : Nat} {received : Finset Nat} (hlt : received ⊆ Finset.range k)
    (hreaches : Reaches k received) : GapFree received := by
  intro i hi
  exact hreaches.mono (mem_range.mp (hlt hi)).le

section Batch

variable {received : Finset Nat} {offset : Nat}

section

variable (hlt : received ⊆ Finset.range offset)
include hlt

theorem union_Ico_subset {arrived size : Nat} (hle : arrived ≤ size) :
    received ∪ Finset.Ico offset (offset + arrived) ⊆ Finset.range (offset + size) := by
  refine union_subset (hlt.trans (range_subset_range.mpr (by omega))) ?_
  intro i hi
  rw [mem_Ico] at hi
  exact mem_range.mpr (by omega)

theorem reaches_union_Ico_iff {arrived size : Nat} (hle : arrived ≤ size) (hsize : 0 < size) :
    Reaches (offset + size) (received ∪ Finset.Ico offset (offset + arrived))
      ↔ Reaches offset received ∧ arrived = size := by
  constructor
  · intro h
    constructor
    · intro i hi
      have hi' : i < offset := mem_range.mp hi
      have hmem := h (mem_range.mpr (by omega : i < offset + size))
      rcases mem_union.mp hmem with hold | hnew
      · exact hold
      · have := (mem_Ico.mp hnew).1
        omega
    · -- the last entry of the batch can only have come with it
      have hmem := h (mem_range.mpr (by omega : offset + size - 1 < offset + size))
      rcases mem_union.mp hmem with hold | hnew
      · have := mem_range.mp (hlt hold)
        omega
      · have := (mem_Ico.mp hnew).2
        omega
  · rintro ⟨h, rfl⟩ i hi
    by_cases hold : i < offset
    · exact mem_union_left _ (h (mem_range.mpr hold))
    · exact mem_union_right _ (mem_Ico.mpr ⟨by omega, mem_range.mp hi⟩)

theorem gapFree_union_Ico_iff (hgap : GapFree received) (arrived : Nat) :
    GapFree (received ∪ Finset.Ico offset (offset + arrived))
      ↔ (0 < arrived → Reaches offset received) := by
  constructor
  · intro h harrived i hi
    have hi' : i < offset := mem_range.mp hi
    -- the first entry of the batch needs all before it
    have hfirst : offset ∈ received ∪ Finset.Ico offset (offset + arrived) :=
      mem_union_right _ (mem_Ico.mpr ⟨le_rfl, by omega⟩)
    rcases mem_union.mp (h offset hfirst hi) with hold | hnew
    · exact hold
    · have := (mem_Ico.mp hnew).1
      omega
  · intro h
    rcases Nat.eq_zero_or_pos arrived with rfl | harrived
    · simpa using hgap
    · exact gapFree_of_reaches (union_Ico_subset hlt le_rfl)
        ((reaches_union_Ico_iff hlt le_rfl harrived).mpr ⟨h harrived, rfl⟩)

end

end Batch

/-! ## Majorities -/

variable {ι : Type*} [Fintype ι]

/-- More than half have the property.  Of no receivers at all, every property
counts as held by most. -/
def Majority (P : ι → Prop) [DecidablePred P] : Prop :=
  Nonempty ι → Fintype.card ι < 2 * (Finset.univ.filter P).card

theorem Majority.mono {P Q : ι → Prop} [DecidablePred P] [DecidablePred Q] (h : Majority P)
    (hPQ : ∀ i, P i → Q i) : Majority Q := by
  intro hne
  have hcard : (univ.filter P).card ≤ (univ.filter Q).card :=
    card_le_card (monotone_filter_right _ fun i _ => hPQ i)
  have := h hne
  omega

theorem majority_congr {P Q : ι → Prop} [DecidablePred P] [DecidablePred Q]
    (hPQ : ∀ i, P i ↔ Q i) : Majority P ↔ Majority Q :=
  ⟨fun h => h.mono fun i => (hPQ i).mp, fun h => h.mono fun i => (hPQ i).mpr⟩

theorem majority_of_forall {P : ι → Prop} [DecidablePred P] (h : ∀ i, P i) : Majority P := by
  rintro ⟨i⟩
  have hcard : (univ.filter P).card = Fintype.card ι := by
    rw [filter_true_of_mem fun i _ => h i, card_univ]
  have : 0 < Fintype.card ι := Fintype.card_pos_iff.mpr ⟨i⟩
  omega

end SpatialDb.Lib.Delivery
