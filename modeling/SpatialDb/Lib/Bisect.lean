import Mathlib.Algebra.Order.Floor.Semiring
import Mathlib.Order.Interval.Set.OrdConnected
import Mathlib.Tactic.FieldSimp
import Mathlib.Tactic.Linarith
import Mathlib.Tactic.Ring

/-!
# Repeated bisection of an interval

Halving `[a, b]` `n` times gives `2 ^ n` slots of equal width.  A number has a
coordinate at each level, the number of slot widths from `a`; the slots end at
the whole coordinates.  Every number is assigned a slot: the first or last one
if it lies outside the interval.
-/

namespace SpatialDb.Lib.Bisect

variable {K : Type*} [Field K]

/-- The number at coordinate `t` of level `n`. -/
def pos (a b : K) (n : ℕ) (t : K) : K := a + (b - a) * t / (2 ^ n : ℕ)

/-- The coordinate of a number at level `n`. -/
def coord (a b : K) (n : ℕ) (x : K) : K := (x - a) / (b - a) * (2 ^ n : ℕ)

section Pos

variable (a b : K) (n : ℕ)

@[simp] theorem pos_zero : pos a b n 0 = a := by
  simp [pos]

/-- Slot ends of one level are all the same distance apart. -/
theorem pos_add_width (s t d : K) :
    pos a b n t + d * (pos a b n (s + 1) - pos a b n s) = pos a b n (t + d) := by
  unfold pos
  ring

theorem coord_succ (x : K) : coord a b (n + 1) x = 2 * coord a b n x := by
  unfold coord
  push_cast
  ring

end Pos

variable [LinearOrder K] [IsStrictOrderedRing K]

@[simp] theorem pos_last (a b : K) (n : ℕ) : pos a b n (2 ^ n) = b := by
  unfold pos
  push_cast
  field_simp
  ring

theorem pos_succ (a b : K) (n : ℕ) (t : K) : pos a b (n + 1) (2 * t) = pos a b n t := by
  unfold pos
  push_cast
  rw [pow_succ']
  field_simp

theorem midpoint_pos (a b : K) (n : ℕ) (s t : K) :
    (pos a b n s + pos a b n t) / 2 = pos a b n ((s + t) / 2) := by
  unfold pos
  ring

variable {i : ℕ}

section Slot

variable {a b : K} (hab : a < b)
include hab

theorem pos_coord (n : ℕ) (x : K) : pos a b n (coord a b n x) = x := by
  unfold pos coord
  field_simp
  ring

variable {n : ℕ}

theorem pos_le_pos {s t : K} : pos a b n s ≤ pos a b n t ↔ s ≤ t := by
  have hpos : 0 < b - a := sub_pos.mpr hab
  unfold pos
  rw [add_le_add_iff_left, div_le_div_iff_of_pos_right (by positivity), mul_le_mul_iff_right₀ hpos]

theorem pos_lt_pos {s t : K} : pos a b n s < pos a b n t ↔ s < t :=
  lt_iff_lt_of_le_iff_le (pos_le_pos hab)

theorem coord_pos (n : ℕ) (t : K) : coord a b n (pos a b n t) = t :=
  le_antisymm ((pos_le_pos hab).mp (pos_coord hab n _).le)
    ((pos_le_pos hab).mp (pos_coord hab n _).ge)

theorem pos_le_iff {t x : K} : pos a b n t ≤ x ↔ t ≤ coord a b n x := by
  rw [← pos_le_pos hab (n := n) (t := coord a b n x), pos_coord hab]

theorem lt_pos_iff {t x : K} : x < pos a b n t ↔ coord a b n x < t :=
  lt_iff_lt_of_le_iff_le (pos_le_iff hab)

/-! Only the outermost slots have the ends of the interval. -/

theorem left_le_pos (n i : ℕ) : a ≤ pos a b n i := by
  have hle := (pos_le_pos hab (n := n)).mpr (Nat.cast_nonneg i)
  rwa [pos_zero] at hle

theorem left_lt_pos : a < pos a b n i ↔ 0 < i := by
  have hlt := pos_lt_pos hab (n := n) (s := 0) (t := (i : K))
  rwa [pos_zero, Nat.cast_pos] at hlt

theorem pos_lt_right : pos a b n i < b ↔ i < 2 ^ n := by
  have hlt := pos_lt_pos hab (n := n) (s := (i : K)) (t := 2 ^ n)
  rw [pos_last] at hlt
  rw [hlt]
  exact_mod_cast Iff.rfl

end Slot

/-! ## The slot of a number -/

variable [FloorSemiring K]

/-- The slot of a number at level `n`. -/
def slot (a b : K) (n : ℕ) (x : K) : ℕ := min ⌊coord a b n x⌋₊ (2 ^ n - 1)

omit [IsStrictOrderedRing K] in
theorem slot_lt (a b : K) (n : ℕ) (x : K) : slot a b n x < 2 ^ n := by
  have hpos : 0 < 2 ^ n := Nat.two_pow_pos n
  unfold slot
  omega

variable {a b : K} {n : ℕ}

/-- A slot reaches from its number to the next; the first and the last have no
outer end. -/
theorem slot_eq_iff {x : K} (hi : i < 2 ^ n) :
    slot a b n x = i ↔
      (i = 0 ∨ (i : K) ≤ coord a b n x) ∧ (i + 1 = 2 ^ n ∨ coord a b n x < i + 1) := by
  have hlow : i ≤ ⌊coord a b n x⌋₊ ↔ i = 0 ∨ (i : K) ≤ coord a b n x := by
    by_cases h0 : i = 0
    · simp [h0]
    · rw [Nat.le_floor_iff' h0, or_iff_right h0]
  have hhigh : ⌊coord a b n x⌋₊ < i + 1 ↔ coord a b n x < i + 1 := by
    rw [Nat.floor_lt' (Nat.succ_ne_zero i), Nat.cast_succ]
  rw [← hlow, ← hhigh]
  unfold slot
  omega

omit [IsStrictOrderedRing K] in
theorem slot_zero (a b x : K) : slot a b 0 x = 0 :=
  Nat.lt_one_iff.mp (slot_lt a b 0 x)

/-- Halving: the number is in the upper half of its slot if it is not below the
midpoint. -/
theorem slot_succ (hab : a < b) (n : ℕ) (x : K) :
    slot a b (n + 1) x = 2 * slot a b n x +
      (decide (pos a b n (slot a b n x + 1 / 2) ≤ x)).toNat := by
  obtain ⟨hlow, hhigh⟩ := (slot_eq_iff (slot_lt a b n x)).mp rfl
  have hlt := slot_lt a b n x
  generalize slot a b n x = s at hlow hhigh hlt
  rw [decide_eq_decide.mpr (pos_le_iff hab)]
  by_cases hmid : (s : K) + 1 / 2 ≤ coord a b n x
  · rw [decide_eq_true hmid, Bool.toNat_true, slot_eq_iff (by omega), coord_succ]
    push_cast
    refine ⟨Or.inr (by linarith), ?_⟩
    rcases hhigh with hlast | hhigh
    · exact Or.inl (by omega)
    · exact Or.inr (by linarith)
  rw [decide_eq_false hmid, Bool.toNat_false, slot_eq_iff (by omega), coord_succ]
  push_cast
  refine ⟨?_, Or.inr (by linarith)⟩
  rcases hlow with rfl | hlow
  · exact Or.inl rfl
  · exact Or.inr (by linarith)

/-- A number of the interval lies between the ends of its slot. -/
theorem pos_slot_le (hab : a < b) {x : K} (hx : a ≤ x) : pos a b n (slot a b n x) ≤ x := by
  rcases ((slot_eq_iff (slot_lt a b n x)).mp rfl).1 with h0 | hlow
  · rw [h0, Nat.cast_zero, pos_zero]
    exact hx
  · exact (pos_le_iff hab).mpr hlow

theorem le_pos_slot (hab : a < b) {x : K} (hx : x ≤ b) : x ≤ pos a b n (slot a b n x + 1) := by
  rcases ((slot_eq_iff (slot_lt a b n x)).mp rfl).2 with hlast | hhigh
  · have hcast : (slot a b n x : K) + 1 = 2 ^ n := by exact_mod_cast hlast
    rw [hcast, pos_last]
    exact hx
  · exact ((lt_pos_iff hab).mpr hhigh).le

/-- The `i`-th of `2 ^ n` equal parts of `[a, b]`: the upper end belongs to the
next part, `b` itself to the last. -/
def InPart (a b : K) (n i : ℕ) (x : K) : Prop :=
  i < 2 ^ n ∧ a + (b - a) * i / (2 ^ n : ℕ) ≤ x ∧
    (x < a + (b - a) * (i + 1) / (2 ^ n : ℕ) ∨ i + 1 = 2 ^ n ∧ x = b)

/-- Within the interval the slots are its parts. -/
theorem inPart_iff (hab : a < b) {x : K} (ha : a ≤ x) (hb : x ≤ b) :
    InPart a b n i x ↔ slot a b n x = i := by
  constructor
  · rintro ⟨hi, hlow, hhigh⟩
    refine (slot_eq_iff hi).mpr ⟨Or.inr ((pos_le_iff hab).mp hlow), ?_⟩
    rcases hhigh with hhigh | ⟨hlast, -⟩
    · exact Or.inr ((lt_pos_iff hab).mp hhigh)
    · exact Or.inl hlast
  · rintro rfl
    refine ⟨slot_lt a b n x, pos_slot_le hab ha, ?_⟩
    rcases ((slot_eq_iff (slot_lt a b n x)).mp rfl).2 with hlast | hhigh
    · rcases hb.lt_or_eq with hlt | heq
      · left
        have hcast : (slot a b n x : K) + 1 = 2 ^ n := by exact_mod_cast hlast
        have hend := pos_last a b n
        rw [← hcast] at hend
        exact hlt.trans_eq hend.symm
      · exact Or.inr ⟨hlast, heq⟩
    · exact Or.inl ((lt_pos_iff hab).mpr hhigh)

/-! ## Slots of given coordinates -/

theorem slot_pos (hab : a < b) (n : ℕ) (t : K) :
    slot a b n (pos a b n t) = min ⌊t⌋₊ (2 ^ n - 1) := by
  rw [slot, coord_pos hab]

theorem slot_centre (hab : a < b) (hi : i < 2 ^ n) : slot a b n (pos a b n (i + 1 / 2)) = i := by
  rw [slot_eq_iff hi, coord_pos hab]
  exact ⟨Or.inr (by linarith), Or.inr (by linarith)⟩

/-- A whole number of slots from the centre of slot `i`, but not beyond the
first or last slot. -/
theorem slot_shift (hab : a < b) (n i : ℕ) (d : ℤ) :
    slot a b n (pos a b n (i + 1 / 2 + d)) = min (i + d).toNat (2 ^ n - 1) := by
  rw [slot_pos hab]
  congr 1
  rcases lt_or_ge ((i : ℤ) + d) 0 with hneg | hnonneg
  · have hle : (i : K) + d ≤ -1 := by exact_mod_cast Int.le_sub_one_of_lt hneg
    rw [Int.toNat_of_nonpos hneg.le]
    exact Nat.floor_of_nonpos (by linarith)
  obtain ⟨m, hm⟩ := Int.eq_ofNat_of_zero_le hnonneg
  have hcast : (i : K) + d = m := by exact_mod_cast hm
  rw [hm, Int.toNat_natCast, Nat.floor_eq_iff (by linarith)]
  constructor <;> linarith

/-! ## Slots that an interval touches -/

/-- The slots that have a point in common with `[lo, hi]`, ends included. -/
def touched (a b : K) (n : ℕ) (lo hi : K) : Set ℕ :=
  {i | i < 2 ^ n ∧ pos a b n i ≤ hi ∧ lo ≤ pos a b n (i + 1)}

theorem ordConnected_touched (hab : a < b) (n : ℕ) (lo hi : K) :
    (touched a b n lo hi).OrdConnected := by
  refine ⟨fun i ⟨_, _, hi₃⟩ j ⟨hj₁, hj₂, _⟩ m ⟨him, hmj⟩ => ⟨lt_of_le_of_lt hmj hj₁, ?_, ?_⟩⟩
  · exact ((pos_le_pos hab).mpr (Nat.cast_le.mpr hmj)).trans hj₂
  · exact hi₃.trans ((pos_le_pos hab).mpr (by gcongr))

end SpatialDb.Lib.Bisect
