import SpatialDb.Lib.Bytes

/-!
# Byte strings with a common beginning as a range

In the order of byte strings the strings that begin with `q ++ [x]` are those
from `q ++ [x]` up to, and without, `q ++ [x + 1]`, unless `x` is the largest
byte.  The string right after `p` is `p` with a zero byte.
-/

namespace SpatialDb.Lib

open List UInt8

theorem byte_cons_lt_iff {a b : UInt8} {s t : Bytes} :
    a :: s < b :: t ↔ a < b ∨ a = b ∧ s < t := cons_lt_cons_iff

theorem byte_cons_le_iff {a b : UInt8} {s t : Bytes} : a :: s ≤ b :: t ↔ a < b ∨ a = b ∧ s ≤ t := by
  rw [le_iff_lt_or_eq, byte_cons_lt_iff, cons.injEq, le_iff_lt_or_eq]
  tauto

theorem append_lt_append_left_iff {q s t : Bytes} : q ++ s < q ++ t ↔ s < t := by
  induction q with
  | nil => rfl
  | cons a q ih =>
    rw [cons_append, cons_append, byte_cons_lt_iff, ih]
    simp

/-- Which of two strings is smaller is decided where they first differ. -/
theorem append_cons_lt_iff {q s t : Bytes} {a b : UInt8} (h : a ≠ b) :
    q ++ a :: s < q ++ b :: t ↔ a < b := by
  rw [append_lt_append_left_iff, byte_cons_lt_iff]
  simp [h]

theorem le_of_begins {p s : Bytes} (h : p <+: s) : p ≤ s := by
  obtain ⟨t, rfl⟩ := h
  exact le_append p t

theorem lt_append_zero_iff {p s : Bytes} : s < p ++ [0] ↔ s ≤ p := by
  induction p generalizing s with
  | nil =>
    cases s with
    | nil => simp [nil_lt_cons]
    | cons b s =>
      have hb : ¬ b < 0 := UInt8.not_lt.mpr UInt8.zero_le
      rw [nil_append, byte_cons_lt_iff, ← not_lt]
      simp [hb, nil_lt_cons]
  | cons a p ih =>
    cases s with
    | nil => simp [nil_lt_cons, nil_le]
    | cons b s => rw [cons_append, byte_cons_lt_iff, ih, byte_cons_le_iff]

theorem lt_add_one_iff_of_lt {x b : UInt8} (hx : x < 0xFF) : b < x + 1 ↔ b ≤ x := by
  have hadd : (x + 1).toNat = x.toNat + 1 := by
    rw [UInt8.toNat_add]
    have hlt : x.toNat < 255 := lt_iff_toNat_lt.mp hx
    exact Nat.mod_eq_of_lt (Nat.succ_lt_succ hlt)
  rw [lt_iff_toNat_lt, le_iff_toNat_le, hadd]
  omega

theorem lt_max_or_eq (x : UInt8) : x < 0xFF ∨ x = 0xFF := by
  have hlt := x.toNat_lt
  rw [UInt8.lt_iff_toNat_lt, ← UInt8.toNat_inj]
  change x.toNat < 255 ∨ x.toNat = 255
  omega

theorem sub_one_lt_of_ne {x : UInt8} (hx : x ≠ 0) : x - 1 < x ∧ x - 1 + 1 = x := by
  have hpos : 0 < x.toNat := Nat.pos_of_ne_zero fun h => hx (UInt8.toNat_inj.mp h)
  have hle : (1 : UInt8) ≤ x := le_iff_toNat_le.mpr hpos
  refine ⟨?_, sub_add_cancel x 1⟩
  rw [UInt8.lt_iff_toNat_lt, UInt8.toNat_sub_of_le _ _ hle]
  exact Nat.sub_lt hpos Nat.one_pos

/-- The strings that begin with `q ++ [x]`. -/
theorem le_and_lt_iff_begins {q s : Bytes} {x : UInt8} (hx : x < 0xFF) :
    q ++ [x] ≤ s ∧ s < q ++ [x + 1] ↔ q ++ [x] <+: s := by
  induction q generalizing s with
  | nil =>
    cases s with
    | nil => simp [nil_lt_cons]
    | cons b s =>
      rw [nil_append, nil_append, byte_cons_le_iff, byte_cons_lt_iff,
        lt_add_one_iff_of_lt hx, cons_prefix_cons]
      simp only [nil_le, and_true, not_lt_nil, and_false, or_false, nil_prefix, ← le_iff_lt_or_eq]
      exact le_antisymm_iff.symm
  | cons a q ih =>
    cases s with
    | nil => simp [nil_lt_cons]
    | cons b s =>
      simp only [cons_append]
      rw [byte_cons_le_iff, byte_cons_lt_iff, cons_prefix_cons, ← ih]
      constructor
      · rintro ⟨hab | ⟨hab, hle⟩, hba | ⟨hba, hlt⟩⟩
        · exact absurd hab (lt_asymm hba)
        · exact absurd hab (by rw [hba]; exact lt_irrefl _)
        · exact absurd hba (by rw [hab]; exact lt_irrefl _)
        · exact ⟨hab, hle, hlt⟩
      · rintro ⟨hab, hle, hlt⟩
        exact ⟨Or.inr ⟨hab, hle⟩, Or.inr ⟨hab.symm, hlt⟩⟩

end SpatialDb.Lib
