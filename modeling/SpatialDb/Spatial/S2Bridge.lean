import Mathlib.Data.Nat.Bitwise
import Mathlib.Tactic.Ring

/-!
# Cell ids

Model of `S2CellID` of `cpp/spatial/s2_bridge.cpp`: the packing of `fromLatLon`
once face and coordinates are known, and the functions that take an id apart.
Words of 64 bits are numbers.
-/

namespace SpatialDb.Spatial.S2CellID

open Nat

/-- The id that `fromLatLon` packs. -/
def encode (face i j level : Nat) : Nat :=
  (face <<< (2 * level + 1)) % 2 ^ 64 ||| (i <<< (level + 1)) % 2 ^ 64 ||| j ||| 1

/-- `__builtin_ctzll`, with the number of bits to look at. -/
def ctz : Nat → Nat → Nat
  | 0, _ => 0
  | n + 1, x => if x % 2 = 1 then 0 else ctz n (x / 2) + 1

/-- `level`; the division of C++ rounds toward zero. -/
def level (id : Nat) : Int :=
  if id = 0 then -1 else (30 * 2 - ctz 64 id : Int).tdiv 2

def parent (id level : Nat) : Nat :=
  let lsbBits := 2 * (30 - level)
  -- the shift is by -1 at level 30: undefined in C++, by 63 on the machine
  (id &&& (2 ^ 64 - 1 - (2 ^ lsbBits - 1))) ||| 2 ^ ((lsbBits + 63) % 64)

def contains (id other : Nat) : Bool :=
  id ≤ other && other ≤ (id + (id &&& (2 ^ 64 - id)) * 2 + (2 ^ 64 - 1)) % 2 ^ 64

/-! ## The lowest bit -/

variable {a q n s k id : Nat}

private theorem ctz_eq (h : a < n) : ctz n (2 ^ a * (2 * q + 1)) = a := by
  obtain ⟨n, rfl⟩ := Nat.exists_eq_succ_of_ne_zero (Nat.ne_zero_of_lt h)
  induction a generalizing n with
  | zero => simp [ctz, Nat.add_mod]
  | succ a ih =>
    obtain ⟨n, rfl⟩ := Nat.exists_eq_succ_of_ne_zero (Nat.ne_zero_of_lt (Nat.lt_of_succ_lt_succ h))
    rw [ctz, pow_succ', Nat.mul_assoc, Nat.mul_mod_right, if_neg zero_ne_one,
      Nat.mul_div_cancel_left _ two_pos, ih n (Nat.lt_of_succ_lt_succ h)]

private theorem level_eq (h : a < 64) : level (2 ^ a * (2 * q + 1)) = (60 - a : Int).tdiv 2 := by
  have hne : 2 ^ a * (2 * q + 1) ≠ 0 := Nat.mul_ne_zero (Nat.two_pow_pos a).ne' (Nat.succ_ne_zero _)
  rw [level, if_neg hne, ctz_eq h]
  rfl

private theorem and_neg (ha : a < 64) (h : 2 ^ a * (2 * q + 1) < 2 ^ 64) :
    2 ^ a * (2 * q + 1) &&& (2 ^ 64 - 2 ^ a * (2 * q + 1)) = 2 ^ a := by
  have hpos := Nat.two_pow_pos a
  have hid : 2 ^ a * (2 * q + 1) = 2 ^ (a + 1) * q + 2 ^ a := by
    rw [Nat.pow_succ, Nat.mul_add, Nat.mul_one, Nat.mul_assoc]
  have hneg : 2 ^ 64 - 2 ^ a * (2 * q + 1) = 2 ^ 64 - (2 ^ (a + 1) * q + (2 ^ a - 1) + 1) := by
    omega
  have hlt : 2 ^ (a + 1) * q + (2 ^ a - 1) < 2 ^ 64 := by omega
  have hlow : 2 ^ a < 2 ^ (a + 1) := Nat.pow_lt_pow_succ one_lt_two
  apply Nat.eq_of_testBit_eq
  intro i
  rw [hneg, hid, testBit_and, testBit_two_pow_sub_succ hlt,
    testBit_two_pow_mul_add q hlow, testBit_two_pow_mul_add q (by omega)]
  rcases lt_trichotomy i a with h' | rfl | h'
  · simp [h'.ne', lt_succ_of_lt h']
  · simp [ha]
  · simpa [not_lt.mpr (succ_le_of_lt h'), h'.ne] using fun hq _ => hq

/-! ## Parents -/

private theorem and_high (hs : s ≤ 64) (hid : id < 2 ^ 64) :
    id &&& (2 ^ 64 - 1 - (2 ^ s - 1)) = 2 ^ s * (id / 2 ^ s) := by
  have hpos := Nat.two_pow_pos s
  have hle : 2 ^ s ≤ 2 ^ 64 := Nat.pow_le_pow_right two_pos hs
  have hmask : 2 ^ 64 - 1 - (2 ^ s - 1) = 2 ^ 64 - (2 ^ s - 1 + 1) := by omega
  have hlt : 2 ^ s - 1 < 2 ^ 64 := by omega
  apply Nat.eq_of_testBit_eq
  intro i
  rw [hmask, testBit_and, testBit_two_pow_sub_succ hlt, testBit_two_pow_sub_one,
    testBit_two_pow_mul, testBit_div_two_pow]
  rcases lt_or_ge i s with h | h
  · simp [h, not_le.mpr h]
  have htop : id.testBit i = true → i < 64 := fun hbit =>
    (Nat.pow_lt_pow_iff_right one_lt_two).mp ((ge_two_pow_of_testBit hbit).trans_lt hid)
  simpa [h, not_lt.mpr h] using htop

private theorem parent_eq (hk : k < 30) (hid : id < 2 ^ 64) :
    parent id k = 2 ^ (59 - 2 * k) * (2 * (id / 2 ^ (60 - 2 * k)) + 1) := by
  have hs : 2 * (30 - k) = 59 - 2 * k + 1 := by omega
  have hs' : 60 - 2 * k = 59 - 2 * k + 1 := by omega
  have hlow : 2 ^ (59 - 2 * k) < 2 ^ (59 - 2 * k + 1) := Nat.pow_lt_pow_succ one_lt_two
  have hshift : (59 - 2 * k + 1 + 63) % 64 = 59 - 2 * k := by omega
  rw [parent, hs, hs', and_high (by omega) hid, hshift, ← Nat.two_pow_add_eq_or_of_lt hlow]
  ring

/-- A parent contains the id when the bit that it sets was set already. -/
theorem contains_parent (hk : k < 30) (hid : id < 3 * 2 ^ 62) :
    contains (parent id k) id = true ↔ id.testBit (59 - 2 * k) = true := by
  have hs : 60 - 2 * k = 59 - 2 * k + 1 := by omega
  have hle : 2 ^ (59 - 2 * k) ≤ 2 ^ 59 := Nat.pow_le_pow_right two_pos (by omega)
  have hpos := Nat.two_pow_pos (59 - 2 * k)
  have hneg (q : Nat) := and_neg (a := 59 - 2 * k) (q := q) (by omega)
  rw [parent_eq hk (by omega), contains, hs, pow_succ, testBit_eq_decide_div_mod_eq,
    Bool.and_eq_true, decide_eq_true_eq, decide_eq_true_eq, decide_eq_true_eq]
  generalize 2 ^ (59 - 2 * k) = w at *
  have hw : w * (2 * (id / (w * 2)) + 1) = w * 2 * (id / (w * 2)) + w := by ring
  have hdiv := Nat.div_add_mod id (w * 2)
  have hmod := Nat.mod_mul (x := id) (a := w) (b := 2)
  have hlow := Nat.mod_lt id hpos
  have hbound : w * (2 * (id / (w * 2)) + 1) < 2 ^ 64 := by omega
  rw [hneg _ hbound, hw]
  generalize w * 2 * (id / (w * 2)) = high at *
  rw [← Nat.add_sub_assoc (by decide), Nat.sub_add_comm (by omega), add_mod_right,
    mod_eq_of_lt (by omega)]
  rcases mod_two_eq_zero_or_one (id / w) with h | h <;> rw [h] at hmod ⊢ <;> omega

variable {face i j l : Nat}

private theorem encode_lt (hl : l ≤ 30) (hf : face < 6) (hi : i < 2 ^ l) (hj : j < 2 ^ l) :
    encode face i j l < 3 * 2 ^ 62 := by
  have hpow : 2 ^ (2 * l + 1) ≤ 2 ^ 61 := Nat.pow_le_pow_right two_pos (by omega)
  have hsplit : 2 ^ (2 * l + 1) = 2 ^ l * 2 ^ (l + 1) := by rw [← pow_add]; congr 1; omega
  have hlow : (i <<< (l + 1)) % 2 ^ 64 ||| (j ||| 1) < 2 ^ (2 * l + 1) := by
    refine or_lt_two_pow ?_ (or_lt_two_pow ?_ ?_)
    · rw [shiftLeft_eq]
      exact (Nat.mod_le ..).trans_lt (hsplit ▸ Nat.mul_lt_mul_of_pos_right hi (Nat.two_pow_pos _))
    · exact hj.trans_le (Nat.pow_le_pow_right two_pos (by omega))
    · exact Nat.one_lt_two_pow (by omega)
  have hface : 2 ^ (2 * l + 1) * face ≤ 2 ^ (2 * l + 1) * 5 := Nat.mul_le_mul_left _ (by omega)
  rw [encode, lor_assoc, lor_assoc, shiftLeft_eq, Nat.mul_comm face,
    mod_eq_of_lt (by omega), ← Nat.two_pow_add_eq_or_of_lt hlow]
  omega

private theorem encode_odd (face i j l : Nat) : ∃ q, encode face i j l = 2 ^ 0 * (2 * q + 1) := by
  have hbit : (encode face i j l).testBit 0 = true := by simp [encode]
  rw [testBit_zero, decide_eq_true_eq] at hbit
  exact ⟨encode face i j l / 2, by omega⟩

private theorem testBit_encode {b : Nat} (hpos : 0 < b) (hb : b < 64) :
    (encode face i j l).testBit b = true ↔
      (2 * l < b ∧ face.testBit (b - (2 * l + 1)) = true) ∨
        (l < b ∧ i.testBit (b - (l + 1)) = true) ∨ j.testBit b = true := by
  have hone : testBit 1 b = false := by
    rw [← pow_zero 2, testBit_two_pow]
    exact decide_eq_false hpos.ne
  rw [encode, testBit_or, testBit_or, testBit_or, testBit_mod_two_pow, testBit_mod_two_pow, hone]
  simp only [hb, decide_true, testBit_shiftLeft, ge_iff_le, succ_le_iff, Bool.true_and,
    Bool.or_false, Bool.or_eq_true, Bool.and_eq_true, decide_eq_true_eq, or_assoc]

/-- Which of the laws of cell ids hold at level `l`. -/
theorem laws_iff (hl : l ≤ 30) :
    ((∀ face < 6, ∀ face' < 6, ∀ i < 2 ^ l, ∀ i' < 2 ^ l, ∀ j < 2 ^ l, ∀ j' < 2 ^ l,
        encode face i j l = encode face' i' j' l → face = face' ∧ i = i' ∧ j = j') ↔ l = 0) ∧
      ∀ face < 6, ∀ i < 2 ^ l, ∀ j < 2 ^ l,
        (level (encode face i j l) = l ↔ l = 30) ∧
        ∀ k < l, level (parent (encode face i j l) k) = k ∧
          (contains (parent (encode face i j l) k) (encode face i j l) = true ↔
            (2 * l < 59 - 2 * k ∧ face.testBit (59 - 2 * k - (2 * l + 1)) = true) ∨
              (l < 59 - 2 * k ∧ i.testBit (59 - 2 * k - (l + 1)) = true) ∨
              j.testBit (59 - 2 * k) = true) := by
  refine ⟨⟨?_, ?_⟩, ?_⟩
  · intro h
    by_contra hne
    have h1 : 1 < 2 ^ l := Nat.one_lt_two_pow hne
    have h0 : 0 < 2 ^ l := Nat.two_pow_pos l
    have hsame : encode 0 0 0 l = encode 0 0 1 l := by simp [encode]
    exact zero_ne_one (h 0 (by decide) 0 (by decide) 0 h0 0 h0 0 h0 1 h1 hsame).2.2
  · rintro rfl face hface face' hface' i hi i' hi' j hj j' hj' h
    simp only [pow_zero, lt_one_iff] at hi hi' hj hj'
    subst hi hi' hj hj'
    refine ⟨?_, rfl, rfl⟩
    revert face face'
    decide
  · intro face hf i hi j hj
    obtain ⟨q, hq⟩ := encode_odd face i j l
    have hlt := encode_lt hl hf hi hj
    refine ⟨?_, fun k hk => ⟨?_, (contains_parent (by omega) hlt).trans
      (testBit_encode (by omega) (by omega))⟩⟩
    · rw [hq, level_eq (by decide)]
      show (30 : Int) = l ↔ l = 30
      omega
    · rw [parent_eq (by omega) (by omega), level_eq (by omega),
        Int.tdiv_eq_ediv_of_nonneg (by omega)]
      omega

/-- The deepest level, where the marker stands right. -/
theorem level_encode_deepest : level (encode 5 3 7 30) = 30 :=
  ((laws_iff (l := 30) le_rfl).2 5 (by decide) 3 (by decide) 7 (by decide)).1.mpr rfl

/-- Two cells of level 1 have one id, whose level is 30 and which its parent
does not contain. -/
theorem encode_siblings :
    encode 0 0 0 1 = encode 0 0 1 1 ∧ level (encode 0 0 0 1) = 30 ∧
      contains (parent (encode 0 0 0 1) 0) (encode 0 0 0 1) = false := by
  decide +kernel

end SpatialDb.Spatial.S2CellID
