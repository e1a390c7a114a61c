import SpatialDb.Lib.Bytes

/-!
# Decoding UTF-8

`decodeRune` is Go's `utf8.DecodeRuneInString`: the first character of a byte
string and the number of bytes it takes.  A byte that starts no valid
encoding is the replacement character, and takes one byte.
-/

namespace SpatialDb.Lib

/-- `utf8.RuneError`. -/
def runeError : Nat := 0xFFFD

/-- For the first byte of a longer encoding: how many bytes follow, and the
range of the first of them. -/
def runeTail (b : UInt8) : Option (Nat × UInt8 × UInt8) :=
  if 0xC2 ≤ b ∧ b ≤ 0xDF then some (1, 0x80, 0xBF)
  else if b = 0xE0 then some (2, 0xA0, 0xBF)
  else if b = 0xED then some (2, 0x80, 0x9F)
  else if 0xE1 ≤ b ∧ b ≤ 0xEF then some (2, 0x80, 0xBF)
  else if b = 0xF0 then some (3, 0x90, 0xBF)
  else if 0xF1 ≤ b ∧ b ≤ 0xF3 then some (3, 0x80, 0xBF)
  else if b = 0xF4 then some (3, 0x80, 0x8F)
  else none

/-- The lower six bits of the bytes that follow, put after `r`. -/
def joinTail (r : Nat) (tail : Bytes) : Nat :=
  tail.foldl (fun r b => r * 64 + b.toNat % 64) r

def decodeRune : Bytes → Nat × Nat
  | [] => (runeError, 0)
  | b :: s =>
    if b < 0x80 then (b.toNat, 1)
    else
      match runeTail b with
      | none => (runeError, 1)
      | some (n, lo, hi) =>
        if (s.take n).length = n ∧ lo ≤ s.headD 0 ∧ s.headD 0 ≤ hi ∧
            (s.take n).all (fun c => 0x80 ≤ c && c ≤ 0xBF) then
          (joinTail (b.toNat % 2 ^ (6 - n)) (s.take n), n + 1)
        else (runeError, 1)

theorem decodeRune_ascii {b : UInt8} (h : b < 0x80) (s : Bytes) :
    decodeRune (b :: s) = (b.toNat, 1) := if_pos h

theorem decodeRune_width_pos (b : UInt8) (s : Bytes) : 0 < (decodeRune (b :: s)).2 := by
  rw [decodeRune]
  split
  · exact Nat.one_pos
  split
  · exact Nat.one_pos
  split
  · exact Nat.succ_pos _
  · exact Nat.one_pos

example : decodeRune [0xE7, 0x9A, 0x84, 0x61] = (0x7684, 3) := by decide +kernel

example : decodeRune [0xF0, 0x9F, 0x98, 0x80] = (0x1F600, 4) := by decide +kernel

def sanitizeLoop : Nat → Bytes → Bytes
  | 0, _ => []
  | _ + 1, [] => []
  | fuel + 1, b :: s =>
    let (r, n) := decodeRune (b :: s)
    (if r = runeError ∧ n = 1 then [0xEF, 0xBF, 0xBD] else (b :: s).take n) ++
      sanitizeLoop fuel ((b :: s).drop n)

/-- Every byte that is not part of a character becomes U+FFFD. -/
def sanitize (s : Bytes) : Bytes := sanitizeLoop s.length s

end SpatialDb.Lib
