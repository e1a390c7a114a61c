import Mathlib.Data.Nat.Bitwise
import SpatialDb.Lib.Bytes

/-!
# Quad keys

Model of `TileXYToQuadKey` and `QuadKeyToTileXY` of
`internal/legacy/bing/bing.go`; an `int64` is its pattern of 64 bits.
-/

namespace SpatialDb.Spatial.Bing

open Lib Nat List

/-- `int64(1 << (i - 1))` in round `i` of the loops, here with `i` counted from zero. -/
def mask (i : Nat) : Nat := 2 ^ i % 2 ^ 64

/-- The loop of `TileXYToQuadKey` with `i` digits to go. -/
def tileXYToQuadKey (tileX tileY : Nat) : Nat → Bytes
  | 0 => []
  | i + 1 =>
    (if tileX &&& mask i ≠ 0 then
      if tileY &&& mask i ≠ 0 then 51 else 49
    else if tileY &&& mask i ≠ 0 then 50 else 48) :: tileXYToQuadKey tileX tileY i

/-- The loop of `QuadKeyToTileXY`; a digit above 3 is refused. -/
def quadKeyLoop (tileX tileY : Nat) : Bytes → Option (Nat × Nat)
  | [] => some (tileX, tileY)
  | d :: ds =>
    if d = 48 then quadKeyLoop tileX tileY ds
    else if d = 49 then quadKeyLoop (tileX ||| mask ds.length) tileY ds
    else if d = 50 then quadKeyLoop tileX (tileY ||| mask ds.length) ds
    else if d = 51 then quadKeyLoop (tileX ||| mask ds.length) (tileY ||| mask ds.length) ds
    else none

def quadKeyToTileXY (quadKey : Bytes) : Option (Nat × Nat × Nat) :=
  (quadKeyLoop 0 0 quadKey).map fun (tileX, tileY) => (tileX, tileY, quadKey.length)

variable {x y i l : Nat}

/-- The digit of two bits. -/
def digit (bitX bitY : Bool) : UInt8 :=
  if bitX then if bitY then 51 else 49 else if bitY then 50 else 48

theorem mask_eq (hi : i < 64) : mask i = 2 ^ i :=
  mod_eq_of_lt (Nat.pow_lt_pow_right one_lt_two hi)

theorem and_mask_ne_zero (hi : i < 64) : x &&& mask i ≠ 0 ↔ x.testBit i = true := by
  rw [mask_eq hi, and_two_pow]
  cases x.testBit i <;> simp

theorem tileXYToQuadKey_succ (hi : i < 64) :
    tileXYToQuadKey x y (i + 1) = digit (x.testBit i) (y.testBit i) :: tileXYToQuadKey x y i := by
  simp only [tileXYToQuadKey, digit, and_mask_ne_zero hi]

theorem length_tileXYToQuadKey (x y l : Nat) : (tileXYToQuadKey x y l).length = l := by
  induction l with
  | zero => rfl
  | succ i ih => rw [tileXYToQuadKey, length_cons, ih]

/-- The low bits of a coordinate, from its bit `i` and those below. -/
theorem mod_two_pow_succ (acc x i : Nat) :
    acc ||| x % 2 ^ (i + 1) = (if x.testBit i then acc ||| 2 ^ i else acc) ||| x % 2 ^ i := by
  apply Nat.eq_of_testBit_eq
  intro j
  rcases lt_trichotomy j i with h | rfl | h
  · cases x.testBit i <;> simp [lt_succ_of_lt h, h, h.ne']
  · cases hbit : x.testBit j <;> simp [hbit]
  · cases x.testBit i <;> simp [not_lt.mpr (succ_le_of_lt h), not_lt_of_gt h, h.ne]

/-- Each round adds one bit of the tile to the coordinates read so far. -/
theorem quadKeyLoop_tileXYToQuadKey (hl : l ≤ 64) (accX accY : Nat) :
    quadKeyLoop accX accY (tileXYToQuadKey x y l) =
      some (accX ||| x % 2 ^ l, accY ||| y % 2 ^ l) := by
  induction l generalizing accX accY with
  | zero => simp [tileXYToQuadKey, quadKeyLoop, mod_one]
  | succ i ih =>
    rw [tileXYToQuadKey_succ hl, mod_two_pow_succ, mod_two_pow_succ]
    cases x.testBit i <;> cases y.testBit i <;>
      simp [digit, quadKeyLoop, ih (by omega), length_tileXYToQuadKey, mask_eq hl]

theorem quadKeyToTileXY_tileXYToQuadKey (hl : l ≤ 64) (hx : x < 2 ^ l) (hy : y < 2 ^ l) :
    quadKeyToTileXY (tileXYToQuadKey x y l) = some (x, y, l) := by
  rw [quadKeyToTileXY, quadKeyLoop_tileXYToQuadKey hl, length_tileXYToQuadKey, zero_or,
    zero_or, mod_eq_of_lt hx, mod_eq_of_lt hy]
  rfl

/-- The last digit holds the lowest bits, and the others are the key of the parent. -/
theorem tileXYToQuadKey_snoc (hi : i < 64) :
    tileXYToQuadKey x y (i + 1) =
      tileXYToQuadKey (x / 2) (y / 2) i ++ [digit (x.testBit 0) (y.testBit 0)] := by
  induction i with
  | zero => exact tileXYToQuadKey_succ hi
  | succ i ih =>
    rw [tileXYToQuadKey_succ hi, ih (by omega), tileXYToQuadKey_succ (by omega),
      testBit_succ, testBit_succ, cons_append]

theorem exists_digit : ∀ d ∈ lit "0123", ∃ bitX bitY, d = digit bitX bitY := by
  decide +kernel

theorem exists_tileXYToQuadKey (key : Bytes) (hlen : key.length ≤ 64)
    (hkey : ∀ d ∈ key, d ∈ lit "0123") :
    ∃ x y, x < 2 ^ key.length ∧ y < 2 ^ key.length ∧ tileXYToQuadKey x y key.length = key := by
  induction key using reverseRecOn with
  | nil => exact ⟨0, 0, one_pos, one_pos, rfl⟩
  | append_singleton key d ih =>
    rw [length_append] at hlen ⊢
    obtain ⟨x, y, hx, hy, hxy⟩ := ih (by omega) (forall_mem_append.mp hkey).1
    obtain ⟨bitX, bitY, rfl⟩ := exists_digit d ((forall_mem_append.mp hkey).2 d (by simp))
    refine ⟨Nat.bit bitX x, Nat.bit bitY y, bit_lt_two_pow_succ_iff.mpr hx,
      bit_lt_two_pow_succ_iff.mpr hy, ?_⟩
    rw [length_singleton, tileXYToQuadKey_snoc hlen, bit_div_two, bit_div_two, hxy,
      testBit_bit_zero, testBit_bit_zero]

/-- **Keys and tiles of a level determine each other, and the key of the parent
lacks the last digit.** -/
theorem quadKey_spec (hl : 1 ≤ l ∧ l ≤ 62) :
    (∀ x < 2 ^ l, ∀ y < 2 ^ l, quadKeyToTileXY (tileXYToQuadKey x y l) = some (x, y, l) ∧
      tileXYToQuadKey (x / 2) (y / 2) (l - 1) = (tileXYToQuadKey x y l).dropLast) ∧
    ∀ key : Bytes, key.length = l → (∀ d ∈ key, d ∈ lit "0123") →
      ∃! tile : Nat × Nat, (tile.1 < 2 ^ l ∧ tile.2 < 2 ^ l) ∧
        tileXYToQuadKey tile.1 tile.2 l = key := by
  have hl64 : l ≤ 64 := by omega
  refine ⟨fun x hx y hy => ⟨quadKeyToTileXY_tileXYToQuadKey hl64 hx hy, ?_⟩, ?_⟩
  · obtain ⟨i, rfl⟩ := Nat.exists_eq_add_of_le' hl.1
    rw [tileXYToQuadKey_snoc hl64, dropLast_concat, Nat.add_sub_cancel]
  · rintro key rfl hkey
    obtain ⟨x, y, hx, hy, hxy⟩ := exists_tileXYToQuadKey key hl64 hkey
    refine ⟨(x, y), ⟨⟨hx, hy⟩, hxy⟩, ?_⟩
    rintro ⟨x', y'⟩ ⟨⟨hx', hy'⟩, hxy'⟩
    have h' := quadKeyToTileXY_tileXYToQuadKey hl64 hx' hy'
    have h := quadKeyToTileXY_tileXYToQuadKey hl64 hx hy
    rw [hxy] at h
    rw [hxy', h] at h'
    simp only [Option.some.injEq, Prod.mk.injEq, and_true] at h'
    rw [h'.1, h'.2]

theorem quadKey_213 :
    (quadKeyToTileXY (tileXYToQuadKey 3 5 3) = some (3, 5, 3) ∧
      tileXYToQuadKey 1 2 2 = (tileXYToQuadKey 3 5 3).dropLast) ∧
    ∃! tile : Nat × Nat, (tile.1 < 8 ∧ tile.2 < 8) ∧
      tileXYToQuadKey tile.1 tile.2 3 = lit "213" := by
  have h := quadKey_spec (l := 3) ⟨by decide, by decide⟩
  exact ⟨h.1 3 (by decide) 5 (by decide), h.2 (lit "213") rfl (by decide +kernel)⟩

end SpatialDb.Spatial.Bing
