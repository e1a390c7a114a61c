import Mathlib.Data.Rat.Cast.Order

/-!
# Rounded arithmetic

A double holds 53 binary digits and an exponent.  An operation computes the exact
result and rounds it; a result that fits is left as it is.  How other results
are rounded is left open.
-/

namespace SpatialDb.Lib

/-- The number is a double. -/
def Fits (x : ℚ) : Prop :=
  ∃ (m : ℤ) (a n : ℕ), |m| ≤ 2 ^ 53 ∧ a ≤ 970 ∧ n ≤ 1074 ∧ x = m * 2 ^ a / 2 ^ n

/-- A way of rounding to doubles. -/
structure Rounding where
  round : ℚ → ℚ
  fits_round : ∀ x, Fits (round x)
  round_of_fits : ∀ {x}, Fits x → round x = x

open Classical in
/-- What does not fit becomes zero. -/
noncomputable instance : Inhabited Rounding where
  default := {
    round x := if Fits x then x else 0
    fits_round x := by
      split_ifs with h
      · exact h
      · exact ⟨0, 0, 0, by simp⟩
    round_of_fits h := if_pos h }

/-- The doubles, with the arithmetic of a rounding. -/
structure Double (r : Rounding) where
  val : ℚ
  fits : Fits val

namespace Double

variable {r : Rounding}

def round (x : ℚ) : Double r := ⟨r.round x, r.fits_round x⟩

instance : Add (Double r) := ⟨fun x y => round (x.val + y.val)⟩

instance : Sub (Double r) := ⟨fun x y => round (x.val - y.val)⟩

instance : Div (Double r) := ⟨fun x y => round (x.val / y.val)⟩

instance : Neg (Double r) := ⟨fun x => round (-x.val)⟩

instance (n : ℕ) : OfNat (Double r) n := ⟨round n⟩

instance : LE (Double r) := ⟨fun x y => x.val ≤ y.val⟩

instance : DecidableLE (Double r) := fun x y => inferInstanceAs (Decidable (x.val ≤ y.val))

theorem val_round {x : ℚ} (h : Fits x) : (round x : Double r).val = x := r.round_of_fits h

end Double

end SpatialDb.Lib
