import SpatialDb.Lib.HilbertCurve

/-!
# Hilbert numbers

Model of `cpp/spatial/hilbert.cpp` in the machine words of the source.
`xyToD` does not mask the coordinates that it turns around, so that they wrap;
only their low bits are read afterwards.
-/

namespace SpatialDb.Spatial.Hilbert

open Lib.HilbertCurve Nat UInt32 UInt64 Bool

/-! ## Model -/

/-- The part of both loops under `if (ry == 0)`. -/
def rotate (s rx ry x y : UInt32) : UInt32 × UInt32 :=
  if ry == 0 then
    let (x, y) := if rx == 1 then (s - 1 - x, s - 1 - y) else (x, y)
    (y, x)
  else (x, y)

/-- The loop of `xyToD`; `s` is zero after at most 32 rounds. -/
def xyToDLoop : Nat → UInt32 → UInt32 → UInt32 → UInt64 → UInt64
  | 0, _, _, _, d => d
  | fuel + 1, s, x, y, d =>
    if s > 0 then
      let rx : UInt32 := if x &&& s > 0 then 1 else 0
      let ry : UInt32 := if y &&& s > 0 then 1 else 0
      let d := d + s.toUInt64 * s.toUInt64 * ((3 * rx) ^^^ ry).toUInt64
      let (x, y) := rotate s rx ry x y
      xyToDLoop fuel (s / 2) x y d
    else d

def xyToD (n x y : UInt32) : UInt64 := xyToDLoop 32 (n / 2) x y 0

/-- The loop of `dToXY`.  If `n` is above `2 ^ 31`, then `s` becomes zero after
32 rounds, stays below `n`, and the loop does not end: `none`. -/
def dToXYLoop (n : UInt32) : Nat → UInt32 → UInt64 → UInt32 → UInt32 → Option (UInt32 × UInt32)
  | 0, _, _, _, _ => none
  | fuel + 1, s, d, x, y =>
    if s < n then
      let rx := (1 &&& (d / 2)).toUInt32
      let ry := (1 &&& (d ^^^ rx.toUInt64)).toUInt32
      let (x, y) := rotate s rx ry x y
      dToXYLoop n fuel (s * 2) (d / 4) (x + s * rx) (y + s * ry)
    else some (x, y)

def dToXY (n : UInt32) (d : UInt64) : Option (UInt32 × UInt32) := dToXYLoop n 33 1 d 0 0

/-! ## One round -/

/-- A bit as a machine word. -/
def flag (b : Bool) : UInt32 := if b then 1 else 0

theorem toNat_flag (b : Bool) : (flag b).toNat = b.toNat := by
  cases b <;> rfl

theorem rotate_flag (s x y : UInt32) (rx ry : Bool) :
    rotate s (flag rx) (flag ry) x y =
      if ry then (x, y) else if rx then (s - 1 - y, s - 1 - x) else (y, x) := by
  cases rx <;> cases ry <;> rfl

variable {s : UInt32} {k : Nat}

section

variable (hs : s.toNat = 2 ^ k)
include hs

theorem flag_and (x : UInt32) : (if x &&& s > 0 then 1 else 0) = flag (x.toNat.testBit k) := by
  have hand : (x &&& s).toNat = (x.toNat.testBit k).toNat * 2 ^ k := by
    rw [UInt32.toNat_and, hs, and_two_pow]
  have hpos : x &&& s > 0 ↔ x.toNat.testBit k = true := by
    rw [gt_iff_lt, UInt32.lt_iff_toNat_lt, hand]
    cases x.toNat.testBit k with
    | false => simp
    | true => simp
  rw [flag]
  exact if_congr hpos rfl rfl

theorem toNat_sub_one : (s - 1).toNat = 2 ^ k - 1 := by
  have hle : (1 : UInt32) ≤ s := by
    rw [UInt32.le_iff_toNat_le, hs]
    exact Nat.two_pow_pos k
  rw [UInt32.toNat_sub_of_le _ _ hle, hs]
  rfl

/-- Turning around wraps, but the low bits are those of the number turned
around. -/
theorem toNat_sub_mod {x : UInt32} (hk : k ≤ 32) :
    (s - 1 - x).toNat % 2 ^ k = 2 ^ k - 1 - x.toNat % 2 ^ k := by
  have hpos : 0 < 2 ^ k := Nat.two_pow_pos k
  have hsplit := div_add_mod x.toNat (2 ^ k)
  have hword : 2 ^ 32 = 2 ^ k * 2 ^ (32 - k) := by
    rw [← pow_add]
    congr 1
    omega
  have hlt : x.toNat / 2 ^ k < 2 ^ (32 - k) := by
    rw [div_lt_iff_lt_mul hpos, mul_comm, ← hword]
    exact x.toNat_lt
  -- the difference is the turned number and a multiple of `2 ^ k`
  have hsum : 2 ^ 32 - x.toNat + (2 ^ k - 1) =
      2 ^ k * (2 ^ (32 - k) - x.toNat / 2 ^ k) + (2 ^ k - 1 - x.toNat % 2 ^ k) := by
    have hle : 2 ^ k * (x.toNat / 2 ^ k) + 2 ^ k ≤ 2 ^ k * 2 ^ (32 - k) := by
      rw [← mul_succ]
      exact mul_le_mul_left _ hlt
    rw [Nat.mul_sub, hword]
    omega
  rw [UInt32.toNat_sub, toNat_sub_one hs, mod_mod_of_dvd _ (pow_dvd_pow 2 hk), hsum, mul_add_mod,
    mod_eq_of_lt (by omega)]

/-- The turn of a round of `xyToD`, seen through the low bits. -/
theorem rotate_mod (hk : k ≤ 32) (rx ry : Bool) (x y : UInt32) :
    let r := rotate s (flag rx) (flag ry) x y
    (r.1.toNat % 2 ^ k, r.2.toNat % 2 ^ k) =
      turn (2 ^ k) rx ry (x.toNat % 2 ^ k, y.toNat % 2 ^ k) := by
  intro r
  show (_, _) = if ry then _ else if rx then _ else _
  subst r
  rw [rotate_flag]
  split
  · rfl
  split
  · exact Prod.ext (toNat_sub_mod hs hk) (toNat_sub_mod hs hk)
  · rfl

/-- The turn of a round of `dToXY`: nothing wraps. -/
theorem rotate_of_lt {x y : UInt32} (h : x.toNat < 2 ^ k ∧ y.toNat < 2 ^ k) (rx ry : Bool) :
    let r := rotate s (flag rx) (flag ry) x y
    (r.1.toNat, r.2.toNat) = turn (2 ^ k) rx ry (x.toNat, y.toNat) := by
  intro r
  have hone := toNat_sub_one hs
  have hsub : ∀ z : UInt32, z.toNat < 2 ^ k → (s - 1 - z).toNat = 2 ^ k - 1 - z.toNat := by
    intro z hz
    rw [UInt32.toNat_sub_of_le _ _ (by rw [UInt32.le_iff_toNat_le, hone]; omega), hone]
  show (_, _) = if ry then _ else if rx then _ else _
  subst r
  rw [rotate_flag]
  split
  · rfl
  split
  · exact Prod.ext (hsub y h.2) (hsub x h.1)
  · rfl

/-! ## The loops -/

/-- What a round of `xyToD` adds. -/
theorem weight_eq (rx ry : Bool) :
    s.toUInt64 * s.toUInt64 * ((3 * flag rx) ^^^ flag ry).toUInt64 =
      UInt64.ofNat (4 ^ k * digit rx ry) := by
  have hside : s.toUInt64 = UInt64.ofNat (2 ^ k) := by
    rw [← hs]
    exact UInt64.toNat_inj.mp (by simp)
  have hdigit : ((3 * flag rx) ^^^ flag ry).toUInt64 = UInt64.ofNat (digit rx ry) := by
    cases rx <;> cases ry <;> rfl
  rw [hside, hdigit, ← UInt64.ofNat_mul, ← UInt64.ofNat_mul, ← Nat.mul_pow]

end

/-- From a side of `2 ^ k` on, the loop adds the number of the cell on the
curve of order `k`. -/
theorem xyToDLoop_eq (hk : k ≤ 31) {fuel : Nat} (hfuel : k ≤ fuel) (hs : s.toNat = 2 ^ k / 2)
    (x y : UInt32) (d : UInt64) :
    xyToDLoop fuel s x y d = d + UInt64.ofNat (index k (x.toNat, y.toNat)) := by
  induction k generalizing fuel s x y d with
  | zero =>
    obtain rfl : s = 0 := UInt32.toNat_inj.mp hs
    cases fuel with
    | zero => exact (add_zero d).symm
    | succ fuel =>
      rw [xyToDLoop, if_neg (by decide)]
      exact (add_zero d).symm
  | succ k ih =>
    obtain ⟨fuel, rfl⟩ : ∃ f, fuel = f + 1 := ⟨fuel - 1, by omega⟩
    have hs' : s.toNat = 2 ^ k := by
      rw [hs, pow_succ]
      omega
    have hpos : s > 0 := by
      rw [gt_iff_lt, UInt32.lt_iff_toNat_lt, hs']
      exact Nat.two_pow_pos k
    have hhalf : (s / 2).toNat = 2 ^ k / 2 := by
      rw [UInt32.toNat_div, hs']
      rfl
    rw [xyToDLoop, if_pos hpos, flag_and hs', flag_and hs']
    simp only
    have hturn := rotate_mod hs' (by omega) (x.toNat.testBit k) (y.toNat.testBit k) x y
    -- the words that the round leaves behind agree with the turned cell in their low bits
    have hrest : ∀ r : UInt32 × UInt32, (r.1.toNat % 2 ^ k, r.2.toNat % 2 ^ k) =
        turn (2 ^ k) (x.toNat.testBit k) (y.toNat.testBit k)
          (x.toNat % 2 ^ k, y.toNat % 2 ^ k) →
        index k (r.1.toNat, r.2.toNat) =
          index k (turn (2 ^ k) (x.toNat.testBit k) (y.toNat.testBit k)
            (x.toNat % 2 ^ k, y.toNat % 2 ^ k)) := by
      intro r hr
      rw [← hr]
      exact index_congr (mod_mod _ _).symm (mod_mod _ _).symm
    rw [ih (by omega) (by omega) hhalf, hrest _ hturn, weight_eq hs', index, UInt64.ofNat_add,
      add_assoc]

theorem toNat_side (hk : k ≤ 31) : (UInt32.ofNat (2 ^ k)).toNat = 2 ^ k := by
  have hlt : 2 ^ k < 2 ^ 32 := Nat.pow_lt_pow_right (by decide) (by omega)
  exact toNat_ofNat_of_lt' hlt

theorem four_pow_le (hk : k ≤ 31) : 4 ^ k ≤ 2 ^ 64 := by
  rw [show 4 = 2 ^ 2 from rfl, ← pow_mul]
  exact Nat.pow_le_pow_right (by decide) (by omega)

/-- **`xyToD` computes the number of a cell.** -/
theorem toNat_xyToD (hk : k ≤ 31) (x y : UInt32) :
    (xyToD (UInt32.ofNat (2 ^ k)) x y).toNat = index k (x.toNat, y.toNat) := by
  have hside : (UInt32.ofNat (2 ^ k) / 2).toNat = 2 ^ k / 2 := by
    rw [UInt32.toNat_div, toNat_side hk]
    rfl
  have hlt : index k (x.toNat, y.toNat) < 2 ^ 64 := lt_of_lt_of_le (index_lt k _) (four_pow_le hk)
  rw [xyToD, xyToDLoop_eq hk (by omega) hside, zero_add, toNat_ofNat_of_lt' hlt]

/-- The quadrant bits of a round of `dToXY`. -/
theorem quadrant_flags (d : UInt64) :
    (1 &&& (d / 2)).toUInt32 = flag (right (d.toNat % 4)) ∧
      (1 &&& (d ^^^ (1 &&& (d / 2)).toUInt32.toUInt64)).toUInt32 = flag (upper (d.toNat % 4)) := by
  have hflag : ∀ {w : UInt64} {p : Prop} [Decidable p], w.toNat = (decide p).toNat →
      w.toUInt32 = flag (decide p) := by
    intro w p _ hw
    apply UInt32.toNat_inj.mp
    rw [toNat_flag, ← hw, UInt64.toNat_toUInt32, mod_eq_of_lt]
    rw [hw]
    exact lt_of_le_of_lt (toNat_le _) (by decide)
  have hbit : ∀ m : Nat, m % 2 = (decide (m % 2 = 1)).toNat := by
    intro m
    obtain h | h := mod_two_eq_zero_or_one m
    · rw [h]
      rfl
    · rw [h]
      rfl
  have hrx : (1 &&& (d / 2)).toNat = d.toNat / 2 % 2 := by
    rw [UInt64.toNat_and, UInt64.toNat_div]
    exact one_and_eq_mod_two _
  have hright : d.toNat % 4 / 2 % 2 = d.toNat / 2 % 2 := by omega
  have hfirst : (1 &&& (d / 2)).toUInt32 = flag (right (d.toNat % 4)) := by
    apply hflag
    rw [hrx, ← hright]
    exact hbit _
  refine ⟨hfirst, hflag ?_⟩
  have hry : (1 &&& (d ^^^ (1 &&& (d / 2)).toUInt32.toUInt64)).toNat =
      (d.toNat + d.toNat / 2 % 2) % 2 := by
    have hword : (1 &&& (d / 2)).toUInt32.toUInt64.toNat = d.toNat / 2 % 2 := by
      rw [toNat_toUInt64, toNat_toUInt32, hrx, mod_eq_of_lt (by omega)]
    rw [UInt64.toNat_and, UInt64.toNat_xor, hword]
    exact (one_and_eq_mod_two _).trans (xor_mod_two_eq)
  rw [hry, show (d.toNat + d.toNat / 2 % 2) % 2 = (d.toNat % 4 + d.toNat % 4 / 2) % 2 by omega]
  exact hbit _

theorem toNat_add_mul_flag {r : UInt32} {j : Nat} (hs : s.toNat = 2 ^ j) (hj : j < 31)
    (h : r.toNat < 2 ^ j) (b : Bool) : (r + s * flag b).toNat = r.toNat + 2 ^ j * b.toNat := by
  have hword : 2 ^ j * 2 ≤ 2 ^ 31 := by
    rw [← pow_succ]
    exact Nat.pow_le_pow_right (by decide) hj
  have hmul : (s * flag b).toNat = 2 ^ j * b.toNat := by
    rw [UInt32.toNat_mul, hs, toNat_flag, mod_eq_of_lt]
    cases b <;> simp only [toNat_true, toNat_false] <;> omega
  rw [UInt32.toNat_add, hmul, mod_eq_of_lt]
  cases b <;> simp only [toNat_true, toNat_false] <;> omega

/-- After the rounds below `2 ^ j` the words hold the cell of the low digits. -/
theorem dToXYLoop_eq (hk : k ≤ 31) {n : UInt32} (hn : n.toNat = 2 ^ k) (d₀ : Nat) (rounds : Nat) :
    ∀ {j fuel : Nat}, j + rounds = k → rounds < fuel → ∀ {s x y : UInt32} {d : UInt64},
      s.toNat = 2 ^ j → d.toNat = d₀ / 4 ^ j → (x.toNat, y.toNat) = point j d₀ →
      ∃ x' y', dToXYLoop n fuel s d x y = some (x', y') ∧ (x'.toNat, y'.toNat) = point k d₀ := by
  induction rounds with
  | zero =>
    intro j fuel hj hfuel s x y d hs hd hxy
    obtain rfl : j = k := hj
    obtain ⟨fuel, rfl⟩ : ∃ f, fuel = f + 1 := ⟨fuel - 1, by omega⟩
    have hnot : ¬ s < n := by
      rw [UInt32.lt_iff_toNat_lt, hs, hn]
      exact lt_irrefl _
    rw [dToXYLoop, if_neg hnot]
    exact ⟨x, y, rfl, hxy⟩
  | succ rounds ih =>
    intro j fuel hj hfuel s x y d hs hd hxy
    obtain ⟨fuel, rfl⟩ : ∃ f, fuel = f + 1 := ⟨fuel - 1, by omega⟩
    have hlt : s < n := by
      rw [UInt32.lt_iff_toNat_lt, hs, hn]
      exact Nat.pow_lt_pow_right (by decide) (by omega)
    obtain ⟨hrx, hry⟩ := quadrant_flags d
    rw [dToXYLoop, if_pos hlt]
    simp only
    rw [hry, hrx]
    rw [hd]
    have hcell := point_lt j d₀
    rw [← hxy] at hcell
    have hturn := rotate_of_lt hs hcell (right (d₀ / 4 ^ j % 4)) (upper (d₀ / 4 ^ j % 4))
    have hbound := turn_lt (right (d₀ / 4 ^ j % 4)) (upper (d₀ / 4 ^ j % 4)) hcell
    rw [← hturn] at hbound
    generalize rotate s _ _ x y = r at hturn hbound ⊢
    have hdouble : (s * 2).toNat = 2 ^ (j + 1) := by
      have hword : 2 ^ (j + 1) < 2 ^ 32 := Nat.pow_lt_pow_right (by decide) (by omega)
      rw [UInt32.toNat_mul, hs]
      exact mod_eq_of_lt hword
    have hquarter : (d / 4).toNat = d₀ / 4 ^ (j + 1) := by
      rw [UInt64.toNat_div, hd, Nat.pow_succ, ← Nat.div_div_eq_div_mul]
      rfl
    refine ih (by omega) (by omega) hdouble hquarter ?_
    rw [toNat_add_mul_flag hs (by omega) hbound.1, toNat_add_mul_flag hs (by omega) hbound.2,
      point, ← hxy, place, ← hturn]

/-- **`dToXY` computes the cell of a number.** -/
theorem dToXY_eq (hk : k ≤ 31) (d : UInt64) :
    ∃ x y, dToXY (UInt32.ofNat (2 ^ k)) d = some (x, y) ∧
      (x.toNat, y.toNat) = point k d.toNat :=
  dToXYLoop_eq hk (toNat_side hk) d.toNat k (zero_add k) (by omega) rfl
    (by rw [Nat.pow_zero, Nat.div_one]) rfl

/-! ## Both together -/

/-- **For every order up to 31, `xyToD` and `dToXY` are inverse bijections
between the cells of the square and the numbers below its size, and
consecutive numbers belong to cells at Manhattan distance one.** -/
theorem hilbert_bijection {k : Nat} (hk : k ≤ 31) {n : UInt32} (hn : n.toNat = 2 ^ k) :
    (∀ x y : UInt32, x < n → y < n →
      (xyToD n x y).toNat < n.toNat * n.toNat ∧ dToXY n (xyToD n x y) = some (x, y)) ∧
    (∀ d : UInt64, d.toNat < n.toNat * n.toNat →
      ∃ x y, dToXY n d = some (x, y) ∧ x < n ∧ y < n ∧ xyToD n x y = d) ∧
    (∀ d : UInt64, d.toNat + 1 < n.toNat * n.toNat →
      ∃ x y x' y', dToXY n d = some (x, y) ∧ dToXY n (d + 1) = some (x', y') ∧
        Nat.dist x.toNat x'.toNat + Nat.dist y.toNat y'.toNat = 1) := by
  have hsize : n.toNat * n.toNat = 4 ^ k := by
    rw [hn, ← Nat.mul_pow]
  rw [hsize]
  obtain rfl : UInt32.ofNat (2 ^ k) = n := UInt32.toNat_inj.mp ((toNat_side hk).trans hn.symm)
  refine ⟨fun x y hx hy => ?_, fun d hd => ?_, fun d hd => ?_⟩
  · have hcell : x.toNat < 2 ^ k ∧ y.toNat < 2 ^ k := ⟨hn ▸ hx, hn ▸ hy⟩
    have hindex := toNat_xyToD hk x y
    obtain ⟨x', y', hback, hpoint⟩ := dToXY_eq hk (xyToD (UInt32.ofNat (2 ^ k)) x y)
    rw [hindex, point_index hcell, Prod.mk.injEq] at hpoint
    obtain rfl := UInt32.toNat_inj.mp hpoint.1
    obtain rfl := UInt32.toNat_inj.mp hpoint.2
    exact ⟨hindex ▸ index_lt k _, hback⟩
  · obtain ⟨x, y, hto, hpoint⟩ := dToXY_eq hk d
    have hcell := point_lt k d.toNat
    have hindex := index_point k d.toNat
    rw [← hpoint] at hcell hindex
    refine ⟨x, y, hto, ?_, ?_, ?_⟩
    · exact lt_iff_toNat_lt.mpr (hcell.1.trans_eq hn.symm)
    · exact lt_iff_toNat_lt.mpr (hcell.2.trans_eq hn.symm)
    · apply UInt64.toNat_inj.mp
      rw [toNat_xyToD hk, hindex, Nat.mod_eq_of_lt hd]
  · obtain ⟨x, y, hto, hpoint⟩ := dToXY_eq hk d
    obtain ⟨x', y', hto', hpoint'⟩ := dToXY_eq hk (d + 1)
    have hnext : (d + 1).toNat = d.toNat + 1 := by
      rw [UInt64.toNat_add]
      exact Nat.mod_eq_of_lt (lt_of_lt_of_le hd (four_pow_le hk))
    have hstep := manhattan_point_succ hd
    rw [hnext] at hpoint'
    rw [← hpoint, ← hpoint'] at hstep
    exact ⟨x, y, x', y', hto, hto', hstep⟩

/-- The largest order, and a cell of it that wraps while it is turned. -/
theorem hilbert_bijection_largest :
    dToXY 2147483648 (xyToD 2147483648 2147483647 1) = some (2147483647, 1) := by
  have hn : (2147483648 : UInt32).toNat = 2 ^ 31 := by decide
  exact ((hilbert_bijection (by decide) hn).1 2147483647 1 (by decide) (by decide)).2

end SpatialDb.Spatial.Hilbert
