import SpatialDb.Lib.Bytes

/-!
# Variable-length integers

`putUvarint` is `binary.PutUvarint` of Go: seven bits a byte, the low ones
first, and the high bit set on all bytes but the last.  `uvarint` reads it back
in machine words of 64 bits; it returns the number and how many bytes it took,
and `(0, 0)` if the bytes end before the number does.
-/

namespace SpatialDb.Lib

open Nat

/-- A word of 64 bits takes ten bytes at most. -/
def putUvarintFuel : Nat → Nat → Bytes
  | 0, _ => []
  | fuel + 1, x =>
    if 128 ≤ x then (UInt8.ofNat x ||| 128) :: putUvarintFuel fuel (x / 128)
    else [UInt8.ofNat x]

def putUvarint (x : Nat) : Bytes := putUvarintFuel 10 x

/-- The loop of `uvarint`, with what it has read and how many bytes. -/
def uvarintLoop (x i : Nat) : Bytes → Nat × Nat
  | [] => (0, 0)
  | b :: bs =>
    if b < 128 then (x ||| (b.toNat <<< (i * 7)) % 2 ^ 64, i + 1)
    else uvarintLoop (x ||| ((b &&& 127).toNat <<< (i * 7)) % 2 ^ 64) (i + 1) bs

def uvarint (bs : Bytes) : Nat × Nat := uvarintLoop 0 0 bs

theorem length_putUvarintFuel_le (fuel x : Nat) : (putUvarintFuel fuel x).length ≤ fuel := by
  induction fuel generalizing x with
  | zero => exact le_rfl
  | succ fuel ih =>
    rw [putUvarintFuel]
    split
    · rw [List.length_cons]
      exact succ_le_succ (ih _)
    · exact succ_le_succ (zero_le _)

theorem length_putUvarint_le (x : Nat) : (putUvarint x).length ≤ 10 := length_putUvarintFuel_le 10 x

theorem length_putUvarint_pos (x : Nat) : 0 < (putUvarint x).length := by
  rw [putUvarint, putUvarintFuel]
  split <;> exact succ_pos _

variable {acc x i : Nat}

/-- The bytes of a number do not meet those read before. -/
theorem or_shiftLeft (hacc : acc < 2 ^ (i * 7)) (hx : x * 2 ^ (i * 7) < 2 ^ 64) :
    acc ||| (x <<< (i * 7)) % 2 ^ 64 = acc + x * 2 ^ (i * 7) := by
  rw [shiftLeft_eq, mod_eq_of_lt hx, lor_comm, mul_comm x, ← two_pow_add_eq_or_of_lt hacc, add_comm]

theorem toNat_ofNat_or (x : Nat) : (UInt8.ofNat x ||| 128).toNat = x % 128 + 128 := by
  have h128 : (128 : UInt8).toNat = 2 ^ 7 * 1 := rfl
  rw [UInt8.toNat_or, UInt8.toNat_ofNat', h128, lor_comm]
  rcases lt_or_ge (x % 2 ^ 8) (2 ^ 7) with hlt | hge
  · rw [← two_pow_add_eq_or_of_lt hlt]
    omega
  -- the bit is there already
  have hbit : x % 2 ^ 8 = 2 ^ 7 * 1 + x % 128 := by omega
  rw [hbit, Nat.two_pow_add_eq_or_of_lt (Nat.mod_lt x (by decide)), ← Nat.lor_assoc, Nat.or_self,
    ← two_pow_add_eq_or_of_lt (mod_lt x (by decide))]
  omega

theorem toNat_and_127 (x : Nat) : ((UInt8.ofNat x ||| 128) &&& 127).toNat = x % 128 := by
  have h127 : (127 : UInt8).toNat = 2 ^ 7 - 1 := rfl
  rw [UInt8.toNat_and, toNat_ofNat_or, h127, and_two_pow_sub_one_eq_mod]
  omega

theorem uvarintLoop_last (hacc : acc < 2 ^ (i * 7)) (hx : x * 2 ^ (i * 7) < 2 ^ 64)
    (hsmall : x < 128) (rest : Bytes) :
    uvarintLoop acc i ([UInt8.ofNat x] ++ rest) = (acc + x * 2 ^ (i * 7), i + 1) := by
  have hval : (UInt8.ofNat x).toNat = x := by
    rw [UInt8.toNat_ofNat']
    omega
  have hb : UInt8.ofNat x < 128 := by
    rw [UInt8.lt_iff_toNat_lt, hval]
    exact hsmall
  rw [List.singleton_append, uvarintLoop, if_pos hb, hval, or_shiftLeft hacc hx]

theorem uvarintLoop_putUvarintFuel (fuel : Nat) (hacc : acc < 2 ^ (i * 7))
    (hx : x * 2 ^ (i * 7) < 2 ^ 64) (hfuel : x < 128 ^ (fuel + 1)) (rest : Bytes) :
    uvarintLoop acc i (putUvarintFuel (fuel + 1) x ++ rest) =
      (acc + x * 2 ^ (i * 7), i + (putUvarintFuel (fuel + 1) x).length) := by
  induction fuel generalizing acc x i with
  | zero =>
    have hsmall : ¬ 128 ≤ x := by omega
    rw [putUvarintFuel, if_neg hsmall]
    exact uvarintLoop_last hacc hx (not_le.mp hsmall) rest
  | succ fuel ih =>
    rw [putUvarintFuel]
    by_cases hbig : 128 ≤ x
    · have hb : ¬ (UInt8.ofNat x ||| 128) < 128 := by
        rw [UInt8.lt_iff_toNat_lt, toNat_ofNat_or]
        show ¬ x % 128 + 128 < 128
        omega
      have hpow : 2 ^ ((i + 1) * 7) = 128 * 2 ^ (i * 7) := by
        rw [Nat.add_mul, Nat.pow_add, Nat.mul_comm]
      have hdiv : x = x % 128 + 128 * (x / 128) := (Nat.mod_add_div x 128).symm
      have hlow : x % 128 * 2 ^ (i * 7) < 2 ^ 64 :=
        lt_of_le_of_lt (Nat.mul_le_mul_right _ (Nat.mod_le x 128)) hx
      have hacc' : acc + x % 128 * 2 ^ (i * 7) < 2 ^ ((i + 1) * 7) := by
        have hmod : x % 128 + 1 ≤ 128 := Nat.mod_lt x (by decide)
        calc acc + x % 128 * 2 ^ (i * 7) < (x % 128 + 1) * 2 ^ (i * 7) := by
              rw [Nat.add_mul, Nat.one_mul, Nat.add_comm]
              exact Nat.add_lt_add_left hacc _
          _ ≤ 128 * 2 ^ (i * 7) := Nat.mul_le_mul_right _ hmod
          _ = 2 ^ ((i + 1) * 7) := hpow.symm
      have hsplit : x / 128 * 2 ^ ((i + 1) * 7) + x % 128 * 2 ^ (i * 7) = x * 2 ^ (i * 7) := by
        conv_rhs => rw [hdiv]
        rw [hpow]
        ring
      have hx' : x / 128 * 2 ^ ((i + 1) * 7) < 2 ^ 64 := by omega
      have hfuel' : x / 128 < 128 ^ (fuel + 1) := by
        rw [Nat.pow_succ] at hfuel
        exact Nat.div_lt_of_lt_mul (by rw [Nat.mul_comm]; exact hfuel)
      rw [if_pos hbig, List.cons_append, uvarintLoop, if_neg hb, toNat_and_127,
        or_shiftLeft hacc hlow, ih hacc' hx' hfuel', List.length_cons, Prod.mk.injEq]
      constructor
      · omega
      · omega
    · rw [if_neg hbig]
      exact uvarintLoop_last hacc hx (not_le.mp hbig) rest

/-- Reading after writing gives the number and its length, whatever follows. -/
theorem uvarint_putUvarint {x : Nat} (hx : x < 2 ^ 64) (rest : Bytes) :
    uvarint (putUvarint x ++ rest) = (x, (putUvarint x).length) := by
  have hword : x * 2 ^ (0 * 7) < 2 ^ 64 := by omega
  have h := uvarintLoop_putUvarintFuel 9 zero_lt_one hword (by omega) rest
  rw [zero_add, zero_mul, pow_zero, mul_one, zero_add] at h
  exact h

/-- `binary.PutVarint`: the sign goes to the lowest bit. -/
def putVarint (x : Int64) : Bytes :=
  putUvarint (if x < 0 then ~~~ (x.toUInt64 <<< 1) else x.toUInt64 <<< 1).toNat

def varint (bs : Bytes) : Int64 × Nat :=
  let (u, n) := uvarint bs
  let ux := UInt64.ofNat u
  let x := (ux >>> 1).toInt64
  (if ux &&& 1 ≠ 0 then ~~~ x else x, n)

theorem and_one_eq_zero_iff (u : UInt64) : u &&& 1 = 0 ↔ u.toBitVec.getLsbD 0 = false := by
  rw [← UInt64.toBitVec_inj, UInt64.toBitVec_and]
  show u.toBitVec &&& 1#64 = 0#64 ↔ _
  rw [BitVec.and_one_eq_setWidth_ofBool_getLsbD]
  cases u.toBitVec.getLsbD 0 <;> decide

theorem varint_putVarint (x : Int64) (rest : Bytes) :
    varint (putVarint x ++ rest) = (x, (putVarint x).length) := by
  have hsign : x < 0 ↔ x.toBitVec.getLsbD 63 = true := by
    rw [Int64.lt_iff_toBitVec_slt]
    simp [BitVec.slt_zero_iff_msb_cond, BitVec.msb_eq_getLsbD_last]
  rw [varint, putVarint, uvarint_putUvarint (UInt64.toNat_lt _)]
  simp only [UInt64.ofNat_toNat, Prod.mk.injEq, and_true, ne_eq, and_one_eq_zero_iff]
  rw [← Int64.toBitVec_inj]
  -- the shift loses the top bit, which is the sign
  by_cases hneg : x < 0
  · have htop := hsign.mp hneg
    simp only [hneg, if_true]
    ext i hi
    by_cases hlast : i = 63
    · simpa [hlast] using htop
    · have hinner : 1 + i < 64 := by omega
      simp [hinner]
  have htop := Bool.eq_false_iff.mpr (hneg ∘ hsign.mpr)
  simp only [hneg, if_false]
  ext i hi
  by_cases hlast : i = 63
  · simpa [hlast] using htop
  · have hinner : 1 + i < 64 := by omega
    simp [hinner]

theorem varint_of_zero {bs : Bytes} (h : bs[0]? = some 0) : (varint bs).1 = 0 := by
  cases bs with
  | nil => cases h
  | cons b bs =>
    obtain rfl : b = 0 := Option.some.inj h
    rfl

end SpatialDb.Lib
