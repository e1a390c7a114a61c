import Mathlib

/-!
# The Hilbert curve

The curve of order `k` visits the `2 ^ k` by `2 ^ k` cells.  It is four turned
copies of the curve of order `k - 1`, one for each quadrant; a number below
`4 ^ k` is read in base four, its leading digit names the quadrant.
-/

namespace SpatialDb.Lib.HilbertCurve

open Nat

variable (rx ry : Bool)

/-! ## Quadrants -/

/-- The quadrant with the given halves, as it is numbered along the curve. -/
def digit (right upper : Bool) : Nat := (3 * right.toNat) ^^^ upper.toNat

/-- Whether quadrant `q` is a right one. -/
def right (q : Nat) : Bool := decide (q / 2 % 2 = 1)

/-- Whether quadrant `q` is an upper one. -/
def upper (q : Nat) : Bool := decide ((q + q / 2) % 2 = 1)

theorem digit_lt : digit rx ry < 4 := by
  revert rx ry
  decide

@[simp] theorem right_digit : right (digit rx ry) = rx := by
  revert rx ry
  decide

@[simp] theorem upper_digit : upper (digit rx ry) = ry := by
  revert rx ry
  decide

theorem digit_right_upper {q : Nat} (h : q < 4) : digit (right q) (upper q) = q := by
  revert q
  decide

/-- The copy in a lower quadrant is mirrored; in the right one it is turned
around first. -/
def turn (s : Nat) (rx ry : Bool) (p : Nat × Nat) : Nat × Nat :=
  if ry then p else if rx then (s - 1 - p.2, s - 1 - p.1) else (p.2, p.1)

variable {p : Nat × Nat}

theorem turn_lt {s : Nat} (h : p.1 < s ∧ p.2 < s) :
    (turn s rx ry p).1 < s ∧ (turn s rx ry p).2 < s := by
  unfold turn
  split
  · exact h
  split
  · exact ⟨by omega, by omega⟩
  · exact ⟨h.2, h.1⟩

theorem turn_turn {s : Nat} (h : p.1 < s ∧ p.2 < s) : turn s rx ry (turn s rx ry p) = p := by
  obtain ⟨x, y⟩ := p
  obtain ⟨hx, hy⟩ : x < s ∧ y < s := h
  cases ry with
  | true => rfl
  | false =>
    cases rx with
    | false => rfl
    | true =>
      show (s - 1 - (s - 1 - x), s - 1 - (s - 1 - y)) = (x, y)
      exact Prod.ext (by omega) (by omega)

/-- A cell of the smaller curve, moved to quadrant `q`. -/
def place (s q : Nat) (p : Nat × Nat) : Nat × Nat :=
  ((turn s (right q) (upper q) p).1 + s * (right q).toNat,
    (turn s (right q) (upper q) p).2 + s * (upper q).toNat)

/-! ## The curve -/

/-- The cell that the curve of order `k` visits at `d`. -/
def point : Nat → Nat → Nat × Nat
  | 0, _ => (0, 0)
  | k + 1, d => place (2 ^ k) (d / 4 ^ k % 4) (point k d)

/-- The number of a cell on the curve of order `k`. -/
def index : Nat → Nat × Nat → Nat
  | 0, _ => 0
  | k + 1, p =>
    let rx := p.1.testBit k
    let ry := p.2.testBit k
    4 ^ k * digit rx ry + index k (turn (2 ^ k) rx ry (p.1 % 2 ^ k, p.2 % 2 ^ k))

theorem place_lt {s q : Nat} (h : p.1 < s ∧ p.2 < s) :
    (place s q p).1 < 2 * s ∧ (place s q p).2 < 2 * s := by
  obtain ⟨hx, hy⟩ := turn_lt (right q) (upper q) h
  have hbit : ∀ b : Bool, s * b.toNat ≤ s := by
    intro b
    cases b <;> simp
  have hright := hbit (right q)
  have hupper := hbit (upper q)
  exact ⟨by unfold place; omega, by unfold place; omega⟩

theorem point_lt (k d : Nat) : (point k d).1 < 2 ^ k ∧ (point k d).2 < 2 ^ k := by
  induction k with
  | zero => exact ⟨one_pos, one_pos⟩
  | succ k ih =>
    rw [point, pow_succ, mul_comm]
    exact place_lt ih

theorem index_lt (k : Nat) (p : Nat × Nat) : index k p < 4 ^ k := by
  induction k generalizing p with
  | zero => exact one_pos
  | succ k ih =>
    have hdigit := digit_lt (p.1.testBit k) (p.2.testBit k)
    have hrest := ih (turn (2 ^ k) (p.1.testBit k) (p.2.testBit k) (p.1 % 2 ^ k, p.2 % 2 ^ k))
    have hmul : 4 ^ k * digit (p.1.testBit k) (p.2.testBit k) ≤ 4 ^ k * 3 :=
      mul_le_mul_left _ (by omega)
    rw [index, pow_succ]
    omega

/-- Only the low bits of the coordinates count. -/
theorem index_congr {k : Nat} {p p' : Nat × Nat} (hx : p.1 % 2 ^ k = p'.1 % 2 ^ k)
    (hy : p.2 % 2 ^ k = p'.2 % 2 ^ k) : index k p = index k p' := by
  cases k with
  | zero => rfl
  | succ k =>
    have hbit : ∀ {a b : Nat}, a % 2 ^ (k + 1) = b % 2 ^ (k + 1) →
        a.testBit k = b.testBit k ∧ a % 2 ^ k = b % 2 ^ k := by
      intro a b h
      constructor
      · have hk : ∀ c : Nat, (c % 2 ^ (k + 1)).testBit k = c.testBit k := fun c => by
          simp [testBit_mod_two_pow]
        rw [← hk a, h, hk b]
      · have hdvd : 2 ^ k ∣ 2 ^ (k + 1) := pow_dvd_pow 2 (le_succ k)
        rw [← mod_mod_of_dvd a hdvd, h, mod_mod_of_dvd b hdvd]
    obtain ⟨hx1, hx2⟩ := hbit hx
    obtain ⟨hy1, hy2⟩ := hbit hy
    rw [index, index, hx1, hx2, hy1, hy2]

/-- Only the low digits of a number count. -/
theorem point_congr {k d d' : Nat} (h : d % 4 ^ k = d' % 4 ^ k) : point k d = point k d' := by
  induction k with
  | zero => rfl
  | succ k ih =>
    have hdvd : 4 ^ k ∣ 4 ^ (k + 1) := pow_dvd_pow 4 (le_succ k)
    have hlow : d % 4 ^ k = d' % 4 ^ k := by
      rw [← mod_mod_of_dvd d hdvd, h, mod_mod_of_dvd d' hdvd]
    have hhigh : ∀ c : Nat, c % 4 ^ (k + 1) / 4 ^ k = c / 4 ^ k % 4 := fun c => by
      rw [pow_succ, mod_mul_right_div_self]
    rw [point, point, ih hlow, ← hhigh d, h, hhigh d']

/-! ## Both ways -/

theorem testBit_add_mul {k a : Nat} (h : a < 2 ^ k) (b : Bool) :
    (a + 2 ^ k * b.toNat).testBit k = b ∧ (a + 2 ^ k * b.toNat) % 2 ^ k = a := by
  constructor
  · rw [Nat.testBit_eq_decide_div_mod_eq, Nat.add_mul_div_left a _ (Nat.two_pow_pos k),
      div_eq_of_lt h]
    cases b <;> rfl
  · rw [add_mul_mod_self_left, mod_eq_of_lt h]

theorem add_mul_testBit {k a : Nat} (h : a < 2 ^ (k + 1)) :
    a % 2 ^ k + 2 ^ k * (a.testBit k).toNat = a := by
  have hhigh : a / 2 ^ k < 2 := by
    rw [Nat.div_lt_iff_lt_mul (Nat.two_pow_pos k)]
    rwa [pow_succ, mul_comm] at h
  have hbit : (a.testBit k).toNat = a / 2 ^ k := by
    rw [testBit_eq_decide_div_mod_eq, mod_eq_of_lt hhigh]
    generalize a / 2 ^ k = b at hhigh
    obtain rfl | rfl : b = 0 ∨ b = 1 := by omega
    · rfl
    · rfl
  rw [hbit, mod_add_div]

/-- The number of the visited cell is the number itself. -/
theorem index_point (k d : Nat) : index k (point k d) = d % 4 ^ k := by
  induction k with
  | zero => rw [index, pow_zero, mod_one]
  | succ k ih =>
    have hlt := turn_lt (right (d / 4 ^ k % 4)) (upper (d / 4 ^ k % 4)) (point_lt k d)
    obtain ⟨hx, hxmod⟩ := testBit_add_mul hlt.1 (right (d / 4 ^ k % 4))
    obtain ⟨hy, hymod⟩ := testBit_add_mul hlt.2 (upper (d / 4 ^ k % 4))
    have hq : d / 4 ^ k % 4 < 4 := mod_lt _ (by decide)
    rw [point, index]
    simp only [place]
    rw [hx, hy, hxmod, hymod, digit_right_upper hq, Prod.mk.eta,
      turn_turn _ _ (point_lt k d), ih, pow_succ, mod_mul, add_comm]

/-- A cell of the square is visited at its number. -/
theorem point_index {k : Nat} (h : p.1 < 2 ^ k ∧ p.2 < 2 ^ k) : point k (index k p) = p := by
  induction k generalizing p with
  | zero =>
    obtain ⟨x, y⟩ := p
    obtain ⟨hx, hy⟩ : x < 1 ∧ y < 1 := h
    exact Prod.ext (by show 0 = x; omega) (by show 0 = y; omega)
  | succ k ih =>
    obtain ⟨x, y⟩ := p
    have hlow : (x % 2 ^ k, y % 2 ^ k).1 < 2 ^ k ∧ (x % 2 ^ k, y % 2 ^ k).2 < 2 ^ k :=
      ⟨Nat.mod_lt _ (Nat.two_pow_pos k), Nat.mod_lt _ (Nat.two_pow_pos k)⟩
    have hcell := turn_lt (x.testBit k) (y.testBit k) hlow
    have hrest := index_lt k (turn (2 ^ k) (x.testBit k) (y.testBit k) (x % 2 ^ k, y % 2 ^ k))
    have hpos : 0 < 4 ^ k := Nat.pow_pos (by decide)
    have hdigit := digit_lt (x.testBit k) (y.testBit k)
    -- the leading digit and the rest are read off the sum again
    have hhead : index (k + 1) (x, y) / 4 ^ k % 4 = digit (x.testBit k) (y.testBit k) := by
      rw [index, mul_add_div hpos, div_eq_of_lt hrest, add_zero, mod_eq_of_lt hdigit]
    have htail : point k (index (k + 1) (x, y)) =
        turn (2 ^ k) (x.testBit k) (y.testBit k) (x % 2 ^ k, y % 2 ^ k) := by
      rw [← ih hcell]
      apply point_congr
      rw [index, mul_add_mod]
    rw [point, hhead, htail]
    simp only [place, right_digit, upper_digit]
    rw [turn_turn _ _ hlow]
    exact Prod.ext (add_mul_testBit h.1) (add_mul_testBit h.2)

/-! ## Neighbouring cells -/

def manhattan (p p' : Nat × Nat) : Nat := Nat.dist p.1 p'.1 + Nat.dist p.2 p'.2

theorem dist_flip {s a b : Nat} (ha : a < s) (hb : b < s) :
    Nat.dist (s - 1 - a) (s - 1 - b) = Nat.dist a b := by
  unfold Nat.dist
  omega

/-- Moving two cells to a quadrant keeps their distance. -/
theorem manhattan_place {s : Nat} {p p' : Nat × Nat} (q : Nat) (h : p.1 < s ∧ p.2 < s)
    (h' : p'.1 < s ∧ p'.2 < s) :
    manhattan (place s q p) (place s q p') = manhattan p p' := by
  obtain ⟨x, y⟩ := p
  obtain ⟨x', y'⟩ := p'
  simp only at h h'
  simp only [manhattan, place, dist_add_add_right]
  unfold turn
  split
  · rfl
  split
  · show Nat.dist (s - 1 - y) (s - 1 - y') + Nat.dist (s - 1 - x) (s - 1 - x') = _
    rw [dist_flip h.2 h'.2, dist_flip h.1 h'.1, add_comm]
  · exact add_comm _ _

/-- The curve starts in the lower left corner and ends in the lower right one. -/
theorem point_ends (k : Nat) : point k 0 = (0, 0) ∧ point k (4 ^ k - 1) = (2 ^ k - 1, 0) := by
  induction k with
  | zero => exact ⟨rfl, rfl⟩
  | succ k ih =>
    obtain ⟨hstart, hend⟩ := ih
    have hpos : 0 < 4 ^ k := Nat.pow_pos (by decide)
    have hlast : 4 ^ (k + 1) - 1 = 4 ^ k * 3 + (4 ^ k - 1) := by
      rw [pow_succ]
      omega
    constructor
    · rw [point, hstart, Nat.zero_div]
      rfl
    · have hhead : (4 ^ (k + 1) - 1) / 4 ^ k % 4 = 3 := by
        rw [hlast, mul_add_div hpos, div_eq_of_lt (by omega)]
      have htail : point k (4 ^ (k + 1) - 1) = (2 ^ k - 1, 0) := by
        rw [← hend]
        apply point_congr
        rw [hlast, mul_add_mod]
      rw [point, hhead, htail]
      show (2 ^ k - 1 - 0 + 2 ^ k * 1, 2 ^ k - 1 - (2 ^ k - 1) + 2 ^ k * 0) = _
      rw [pow_succ]
      exact Prod.ext (by show _ = 2 ^ k * 2 - 1; omega) (by show _ = 0; omega)

/-- From the end of one copy to the start of the next it is one step. -/
theorem manhattan_place_succ {s q : Nat} (hs : 0 < s) (hq : q < 3) :
    manhattan (place s q (s - 1, 0)) (place s (q + 1) (0, 0)) = 1 := by
  obtain rfl | rfl | rfl : q = 0 ∨ q = 1 ∨ q = 2 := by omega
  · show Nat.dist (0 + s * 0) (0 + s * 0) + Nat.dist (s - 1 + s * 0) (0 + s * 1) = 1
    simp only [Nat.dist]
    omega
  · show Nat.dist (s - 1 + s * 0) (0 + s * 1) + Nat.dist (0 + s * 1) (0 + s * 1) = 1
    simp only [Nat.dist]
    omega
  · show Nat.dist (s - 1 + s * 1) (s - 1 - 0 + s * 1) + Nat.dist (0 + s * 1) (s - 1 - 0 + s * 0) = 1
    simp only [Nat.dist]
    omega

/-- **Consecutive numbers visit neighbouring cells.** -/
theorem manhattan_point_succ {k d : Nat} (h : d + 1 < 4 ^ k) :
    manhattan (point k d) (point k (d + 1)) = 1 := by
  induction k generalizing d with
  | zero => exact absurd h (by simp)
  | succ k ih =>
    have hpos : 0 < 4 ^ k := Nat.pow_pos (by decide)
    have hsplit := div_add_mod d (4 ^ k)
    have hdiv : d / 4 ^ k < 4 := by
      rw [div_lt_iff_lt_mul hpos]
      rw [pow_succ, mul_comm] at h
      omega
    by_cases hinside : d % 4 ^ k + 1 < 4 ^ k
    · -- both lie in the same copy
      have hnext : d + 1 = 4 ^ k * (d / 4 ^ k) + (d % 4 ^ k + 1) := by omega
      have hhead : (d + 1) / 4 ^ k = d / 4 ^ k := by
        rw [hnext, mul_add_div hpos, div_eq_of_lt hinside, add_zero]
      have htail : point k (d + 1) = point k (d % 4 ^ k + 1) := by
        apply point_congr
        conv_lhs => rw [hnext]
        rw [mul_add_mod]
      have hlow : point k d = point k (d % 4 ^ k) := point_congr (mod_mod _ _).symm
      rw [point, point, hhead, manhattan_place _ (point_lt k d) (point_lt k (d + 1)), htail, hlow]
      exact ih hinside
    -- `d` is the last number of its copy
    have hnext : d + 1 = 4 ^ k * (d / 4 ^ k + 1) := by
      rw [mul_add]
      omega
    have hdiv' : d / 4 ^ k + 1 < 4 := by
      rw [hnext, pow_succ] at h
      exact Nat.lt_of_mul_lt_mul_left h
    have hhead : (d + 1) / 4 ^ k = d / 4 ^ k + 1 := by
      rw [hnext, Nat.mul_div_cancel_left _ hpos]
    have htail : point k (d + 1) = (0, 0) := by
      rw [← (point_ends k).1]
      apply point_congr
      rw [hnext, mul_mod_right, zero_mod]
    have hlow : point k d = (2 ^ k - 1, 0) := by
      rw [← (point_ends k).2]
      apply point_congr
      rw [mod_eq_of_lt (show 4 ^ k - 1 < 4 ^ k by omega)]
      omega
    rw [point, point, hhead, hlow, htail, mod_eq_of_lt hdiv, mod_eq_of_lt hdiv']
    exact manhattan_place_succ (Nat.two_pow_pos k) (by omega)

end SpatialDb.Lib.HilbertCurve
