import Mathlib

/-!
# Byte strings

Go strings and C++ `std::string` values are finite byte sequences compared
byte by byte as unsigned numbers.  Both are modelled by `Bytes`, so that the
order used by an ordered container is the lexicographic order of `List`.

`lit` writes an ASCII literal of the source as a `Bytes` value; it reduces
in the kernel, so that keyword comparisons can be decided.
-/

namespace SpatialDb.Lib

instance instLinearOrderUInt8 : LinearOrder UInt8 where
  le_refl := UInt8.le_refl
  le_trans _ _ _ := UInt8.le_trans
  lt_iff_le_not_ge a b := by
    rw [UInt8.not_le]
    exact ⟨fun h => ⟨UInt8.le_of_lt h, h⟩, fun h => h.2⟩
  le_antisymm _ _ := UInt8.le_antisymm
  le_total := UInt8.le_total
  toDecidableLE := inferInstance
  toDecidableLT := inferInstance
  toDecidableEq := inferInstance

/-- Identifiers that key an ordered map. -/
instance instLinearOrderUInt64 : LinearOrder UInt64 where
  le_refl := UInt64.le_refl
  le_trans _ _ _ := UInt64.le_trans
  lt_iff_le_not_ge a b := by
    rw [UInt64.not_le]
    exact ⟨fun h => ⟨UInt64.le_of_lt h, h⟩, fun h => h.2⟩
  le_antisymm _ _ := UInt64.le_antisymm
  le_total := UInt64.le_total
  toDecidableLE := inferInstance
  toDecidableLT := inferInstance
  toDecidableEq := inferInstance

/-- Membership in a byte string is decided by comparing bytes. -/
instance instLawfulBEqUInt8 : LawfulBEq UInt8 := inferInstance

/-- A finite byte string. -/
abbrev Bytes := List UInt8

/-- Membership in a keyword table is decided by comparing byte strings. -/
instance instDecidableMemBytes (s : Bytes) (l : List Bytes) : Decidable (s ∈ l) :=
  List.instDecidableMemOfLawfulBEq s l

/-- An ASCII literal as a byte string. -/
def lit (s : String) : Bytes := s.toList.map fun c => c.toNat.toUInt8

theorem nil_le (s : Bytes) : [] ≤ s := by
  cases s with
  | nil => exact le_refl _
  | cons b s => exact le_of_lt (List.nil_lt_cons b s)

/-- A byte string is never above one of its extensions. -/
theorem le_append (s t : Bytes) : s ≤ s ++ t := by
  induction s with
  | nil => exact nil_le t
  | cons b s ih => exact List.cons_le_cons b ih

/-- The length of the common beginning. -/
def commonLength : Bytes → Bytes → Nat
  | a :: s, b :: t => if a = b then commonLength s t + 1 else 0
  | _, _ => 0

theorem le_commonLength_iff {s t : Bytes} {n : Nat} :
    n ≤ commonLength s t ↔ n ≤ s.length ∧ n ≤ t.length ∧ s.take n = t.take n := by
  induction s generalizing t n with
  | nil =>
    have hzero : commonLength [] t = 0 := by cases t <;> rfl
    rw [hzero, List.length_nil]
    constructor
    · intro h
      obtain rfl := Nat.le_zero.mp h
      exact ⟨le_rfl, Nat.zero_le _, rfl⟩
    · exact fun h => h.1
  | cons a s ih =>
    cases t with
    | nil =>
      rw [commonLength, List.length_nil]
      · constructor
        · intro h
          obtain rfl := Nat.le_zero.mp h
          exact ⟨Nat.zero_le _, le_rfl, rfl⟩
        · exact fun h => h.2.1
      · intros
        simp_all
    | cons b t =>
      cases n with
      | zero => simp
      | succ n =>
        rw [commonLength]
        split_ifs with hab
        · subst hab
          rw [Nat.add_le_add_iff_right, ih]
          simp
        · simp [hab]

end SpatialDb.Lib
