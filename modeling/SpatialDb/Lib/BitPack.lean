import SpatialDb.Lib.Bytes

/-!
# Packing bits into bytes

A sequence of bits is stored eight to a byte, the first bit in the lowest
position; the last byte is filled up with zeros.  A reader that knows the
number of bits gets them back whatever that number is modulo eight.
-/

namespace SpatialDb.Lib

open Nat List

variable (byte : UInt8)

/-- `(byte >> b) & 1`. -/
def testBit (b : Nat) : Bool := (byte >>> UInt8.ofNat b) &&& 1 != 0

/-- The byte built by setting each bit `b < n` with `f b`, lowest first. -/
def setBits (f : Nat → Bool) : Nat → UInt8
  | 0 => 0
  | b + 1 => if f b then setBits f b ||| (1 <<< UInt8.ofNat b) else setBits f b

theorem testBit_eq_testBit_toNat {b : Nat} (hb : b < 8) :
    testBit byte b = byte.toNat.testBit b := by
  have hmod : b % 8 = b := mod_eq_of_lt hb
  rw [testBit, Nat.testBit, bne, bne, Bool.eq_iff_iff]
  simp only [Bool.not_eq_true', beq_eq_false_iff_ne, ne_eq, ← UInt8.toNat_inj]
  simp [UInt8.toNat_shiftRight, hmod, land_comm]

theorem testBit_or_shiftLeft {b j : Nat} (hb : b < 8) (hj : j < 8) :
    testBit (byte ||| (1 <<< UInt8.ofNat b)) j = (decide (j = b) || testBit byte j) := by
  have hmod : b % 8 = b := mod_eq_of_lt hb
  have hlt : 2 ^ b < 256 := Nat.pow_lt_pow_right (show 1 < 2 by decide) hb
  rw [testBit_eq_testBit_toNat _ hj, testBit_eq_testBit_toNat _ hj, UInt8.toNat_or,
    UInt8.toNat_shiftLeft, testBit_or, Bool.or_comm]
  congr 1
  simp [hmod, mod_eq_of_lt hlt, one_shiftLeft, testBit_two_pow, eq_comm]

theorem testBit_setBits (f : Nat → Bool) {n j : Nat} (hn : n ≤ 8) (hj : j < 8) :
    testBit (setBits f n) j = (decide (j < n) && f j) := by
  induction n with
  | zero =>
    have hzero : ∀ j : Fin 8, testBit 0 j.val = false := by decide
    simpa [setBits] using hzero ⟨j, hj⟩
  | succ n ih =>
    have ih := ih (by omega)
    rw [setBits]
    by_cases hjn : j = n
    · subst hjn
      cases hf : f j
      · simp [ih]
      · simp [testBit_or_shiftLeft _ hj hj]
    have hlt : j < n + 1 ↔ j < n := by omega
    split
    · rw [testBit_or_shiftLeft _ (by omega) hj, ih]
      simp [hjn, hlt]
    · rw [ih]
      simp [hlt]

/-! ## Sequences -/

variable (bits : List Bool)

/-- Eight bits to a byte. -/
def packBits : Bytes :=
  (range ((bits.length + 7) / 8)).map fun j =>
    setBits (fun b => bits.getD (8 * j + b) false) 8

/-- The first `n` bits of `data`; bits past its end read as zero. -/
def unpackBits (n : Nat) (data : Bytes) : List Bool :=
  (range n).map fun i => match data[i / 8]? with
    | some byte => testBit byte (i % 8)
    | none => false

@[simp] theorem length_unpackBits (n : Nat) (data : Bytes) : (unpackBits n data).length = n := by
  simp [unpackBits]

theorem getElem?_packBits {bits : List Bool} {i : Nat} (hi : i < bits.length) :
    (packBits bits)[i / 8]? =
      some (setBits (fun b => bits.getD (8 * (i / 8) + b) false) 8) := by
  have hrange : i / 8 < (bits.length + 7) / 8 := by omega
  simp [packBits, hrange]

theorem unpackBits_packBits : unpackBits bits.length (packBits bits) = bits := by
  apply ext_getElem (length_unpackBits _ _)
  intro i hi hbits
  have hpos : 8 * (i / 8) + i % 8 = i := div_add_mod i 8
  simp only [unpackBits, getElem_map, getElem_range, getElem?_packBits hbits]
  rw [testBit_setBits _ (le_refl 8) (mod_lt i (by decide)), hpos]
  simp [mod_lt i (show 0 < 8 by decide), hbits]

/-! ## Bytes that are a packed sequence -/

theorem eq_of_testBit_eq {x y : UInt8} (h : ∀ j < 8, testBit x j = testBit y j) : x = y := by
  apply UInt8.toNat_inj.mp
  apply Nat.eq_of_testBit_eq
  intro j
  by_cases hj : j < 8
  · rw [← testBit_eq_testBit_toNat x hj, ← testBit_eq_testBit_toNat y hj]
    exact h j hj
  have hpow : 2 ^ 8 ≤ 2 ^ j := Nat.pow_le_pow_right (by decide) (Nat.le_of_not_lt hj)
  rw [testBit_lt_two_pow (lt_of_lt_of_le x.toNat_lt hpow),
    testBit_lt_two_pow (lt_of_lt_of_le y.toNat_lt hpow)]

/-- `data` has the size of `n` packed bits, and the bits that fill up the last
byte are zero. -/
structure Packed (n : Nat) (data : Bytes) : Prop where
  length : data.length = (n + 7) / 8
  fill : ∀ i < 8 * data.length, n ≤ i → testBit (data.getD (i / 8) 0) (i % 8) = false

instance (n : Nat) (data : Bytes) : Decidable (Packed n data) :=
  decidable_of_iff (data.length = (n + 7) / 8 ∧
      ∀ i < 8 * data.length, n ≤ i → testBit (data.getD (i / 8) 0) (i % 8) = false)
    ⟨fun h => ⟨h.1, h.2⟩, fun h => ⟨h.length, h.fill⟩⟩

theorem packed_packBits : Packed bits.length (packBits bits) := by
  have hlen : (packBits bits).length = (bits.length + 7) / 8 := by simp [packBits]
  refine ⟨hlen, ?_⟩
  intro i hi hge
  have hpos : 8 * (i / 8) + i % 8 = i := div_add_mod i 8
  have hrange : i / 8 < (bits.length + 7) / 8 := by omega
  have hbyte : (packBits bits).getD (i / 8) 0 =
      setBits (fun b => bits.getD (8 * (i / 8) + b) false) 8 := by
    simp [packBits, hrange]
  rw [hbyte, testBit_setBits _ (le_refl 8) (mod_lt i (by decide)), hpos]
  simp [hge]

/-- Bit `b` of byte `j`, below `n`, comes back from `unpackBits`. -/
theorem getD_unpackBits {n : Nat} {data : Bytes} {j b : Nat} (hb : b < 8) (hn : 8 * j + b < n)
    (hj : j < data.length) :
    (unpackBits n data).getD (8 * j + b) false = testBit (data.getD j 0) b := by
  have hdiv : (8 * j + b) / 8 = j := by omega
  have hmod : (8 * j + b) % 8 = b := by omega
  simp [unpackBits, hn, hdiv, hmod, hj]

theorem packBits_unpackBits_iff (n : Nat) (data : Bytes) :
    packBits (unpackBits n data) = data ↔ Packed n data := by
  constructor
  · intro h
    have hpacked := packed_packBits (unpackBits n data)
    rwa [length_unpackBits, h] at hpacked
  · rintro ⟨hlen, hfill⟩
    have hlen' : (packBits (unpackBits n data)).length = data.length := by simp [packBits, hlen]
    apply ext_getElem hlen'
    intro j hj hdata
    apply eq_of_testBit_eq
    intro b hb
    have hget : data[j] = data.getD j 0 := by simp [hdata]
    have hdiv : (8 * j + b) / 8 = j := by omega
    have hmod : (8 * j + b) % 8 = b := by omega
    simp only [packBits, getElem_map, getElem_range]
    rw [testBit_setBits _ (le_refl 8) hb, hget]
    by_cases hn : 8 * j + b < n
    · rw [getD_unpackBits hb hn hdata]
      simp [hb]
    have hzero := hfill (8 * j + b) (by omega) (by omega)
    rw [hdiv, hmod] at hzero
    rw [hzero, getD_eq_default _ _ (by rw [length_unpackBits]; omega), Bool.and_false]

end SpatialDb.Lib
