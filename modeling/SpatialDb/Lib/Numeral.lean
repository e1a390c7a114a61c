import SpatialDb.Lib.InStream

/-!
# Numerals

Texts that are nothing but an optional sign and digits, and what the C
library's number scanner makes of them.  The scanner accepts more: leading
white space, and anything behind the digits.
-/

namespace SpatialDb.Lib

open List

def numeralValue (s : Bytes) : Int :=
  if (splitSign s).1 then -(digitsValue (splitSign s).2 : Int) else digitsValue (splitSign s).2

/-- `std::stoll`; nothing where it throws. -/
def stoll (s : Bytes) : Option Int := do
  let (negative, n) ← scanInteger s
  let value : Int := if negative then -n else n
  if -9223372036854775808 ≤ value ∧ value ≤ 9223372036854775807 then some value else none

theorem stoll_of_isNumeral {s : Bytes} (h : isNumeral s = true) :
    stoll s = if -9223372036854775808 ≤ numeralValue s ∧ numeralValue s ≤ 9223372036854775807
      then some (numeralValue s) else none := by
  rw [stoll, scanInteger_of_isNumeral h]
  rfl

theorem forall_mem_ne_of_isNumeral {s : Bytes} (h : isNumeral s = true) : ∀ b ∈ s, b ≠ 13 := by
  have hdigit : ∀ b : UInt8, isDigitByte b = true → b ≠ 13 := by decide +kernel
  simp only [isNumeral, Bool.and_eq_true, decide_eq_true_eq, all_eq_true] at h
  have hdigits := h.2
  unfold splitSign at hdigits
  split at hdigits
  · rintro b (_ | ⟨_, hb⟩)
    · decide
    · exact hdigit b (hdigits b hb)
  · rintro b (_ | ⟨_, hb⟩)
    · decide
    · exact hdigit b (hdigits b hb)
  · exact fun b hb => hdigit b (hdigits b hb)

/-! ## Printing -/

variable (n : Int)

/-- An integer as an output stream prints it. -/
def signedDecimal : Bytes := if n < 0 then 45 :: decimal n.natAbs else decimal n.natAbs

theorem splitSign_signedDecimal :
    splitSign (signedDecimal n) = (decide (n < 0), decimal n.natAbs) := by
  rw [signedDecimal]
  split_ifs with hneg
  · simp [splitSign, hneg]
  · rw [splitSign_decimal, decide_eq_false hneg]

theorem isNumeral_signedDecimal : isNumeral (signedDecimal n) = true := by
  rw [isNumeral, splitSign_signedDecimal]
  simp only [Bool.and_eq_true, decide_eq_true_eq, all_eq_true]
  exact ⟨decimal_ne_nil _, isDigitByte_of_mem_decimalFuel _ _⟩

theorem numeralValue_signedDecimal : numeralValue (signedDecimal n) = n := by
  have hvalue : digitsValue (decimal n.natAbs) = n.natAbs :=
    digitsValue_decimalFuel (Nat.lt_succ_self _)
  rw [numeralValue, splitSign_signedDecimal, hvalue]
  split
  · rename_i hneg
    have := of_decide_eq_true hneg
    omega
  rename_i hpos
  have : ¬ n < 0 := fun hneg => hpos (decide_eq_true hneg)
  omega

theorem signedDecimal_natCast (n : Nat) : signedDecimal n = decimal n := by
  rw [signedDecimal, if_neg (by omega), Int.natAbs_natCast]

theorem length_decimalFuel_le (fuel n k : Nat) (h : n < 10 ^ (k + 1)) :
    (decimalFuel fuel n).length ≤ k + 1 := by
  induction fuel generalizing n k with
  | zero => exact Nat.zero_le _
  | succ fuel ih =>
    rw [decimalFuel]
    split
    · simp
    rename_i hten
    cases k with
    | zero => omega
    | succ k =>
      have hdiv : n / 10 < 10 ^ (k + 1) := by
        rw [Nat.pow_succ] at h
        omega
      rw [length_append, length_singleton]
      exact Nat.succ_le_succ (ih (n / 10) k hdiv)

theorem length_signedDecimal_le {n : Int} (h : n.natAbs < 10 ^ 20) :
    (signedDecimal n).length ≤ 21 := by
  have hlen : (decimal n.natAbs).length ≤ 20 := length_decimalFuel_le _ _ 19 h
  rw [signedDecimal]
  split
  · rw [length_cons]
    omega
  · omega

/-! ## Padded numerals -/

theorem decimalFuel_congr {fuel fuel' n : Nat} (h : n < fuel) (h' : n < fuel') :
    decimalFuel fuel n = decimalFuel fuel' n := by
  induction fuel generalizing fuel' n with
  | zero => omega
  | succ fuel ih =>
    cases fuel' with
    | zero => omega
    | succ fuel' =>
      rw [decimalFuel, decimalFuel]
      split
      · rfl
      · rw [ih (show n / 10 < fuel by omega) (show n / 10 < fuel' by omega)]

theorem decimal_of_lt {n : Nat} (h : n < 10) : decimal n = [UInt8.ofNat (48 + n)] := by
  rw [decimal, decimalFuel, if_pos h]

theorem decimal_of_le {n : Nat} (h : 10 ≤ n) :
    decimal n = decimal (n / 10) ++ [UInt8.ofNat (48 + n % 10)] := by
  rw [decimal, decimalFuel, if_neg (by omega), decimal,
    decimalFuel_congr (show n / 10 < n by omega) (Nat.lt_succ_self (n / 10))]

variable (width n : Nat)

/-- The last `width` bytes of the numeral behind `width` zeros. -/
def padDecimal : Bytes :=
  let s := List.replicate width 48 ++ decimal n
  s.drop (s.length - width)

theorem length_padDecimal : (padDecimal width n).length = width := by
  simp [padDecimal]

theorem padDecimal_zero_right (width : Nat) : padDecimal width 0 = List.replicate width 48 := by
  have hzero : decimal 0 = [48] := rfl
  rw [padDecimal, hzero, ← replicate_succ']
  simp

theorem padDecimal_succ :
    padDecimal (width + 1) n = padDecimal width (n / 10) ++ [UInt8.ofNat (48 + n % 10)] := by
  by_cases hn : n < 10
  · rw [Nat.div_eq_of_lt hn, Nat.mod_eq_of_lt hn, padDecimal_zero_right, padDecimal,
      decimal_of_lt hn]
    simp [replicate_succ]
  have hlen : (List.replicate (width + 1) (48 : UInt8) ++ decimal n).length - (width + 1) =
      (List.replicate width (48 : UInt8) ++ decimal (n / 10)).length - width + 1 := by
    rw [decimal_of_le (not_lt.mp hn)]
    simp
  rw [padDecimal, hlen, decimal_of_le (not_lt.mp hn), replicate_succ, cons_append,
    drop_succ_cons, ← append_assoc, drop_append_of_le_length (Nat.sub_le _ _)]
  rfl

theorem append_singleton_lt {s t : Bytes} (x y : UInt8) (hlen : s.length = t.length) (h : s < t) :
    s ++ [x] < t ++ [y] := by
  induction s generalizing t with
  | nil =>
    rw [length_nil] at hlen
    rw [eq_nil_of_length_eq_zero hlen.symm] at h
    exact absurd h (lt_irrefl _)
  | cons a s ih =>
    cases t with
    | nil => simp at hlen
    | cons b t =>
      rw [cons_append, cons_append, cons_lt_cons_iff]
      rcases cons_lt_cons_iff.mp h with hab | ⟨hab, hst⟩
      · exact Or.inl hab
      · exact Or.inr ⟨hab, ih (by simpa using hlen) hst⟩

theorem padDecimal_lt {width m n : Nat} (hmn : m < n) (hn : n < 10 ^ width) :
    padDecimal width m < padDecimal width n := by
  induction width generalizing m n with
  | zero => omega
  | succ width ih =>
    rw [padDecimal_succ, padDecimal_succ]
    have hdiv : n / 10 < 10 ^ width := by
      rw [Nat.pow_succ] at hn
      omega
    by_cases hlt : m / 10 < n / 10
    · exact append_singleton_lt _ _ (by rw [length_padDecimal, length_padDecimal]) (ih hlt hdiv)
    have heq : m / 10 = n / 10 := by omega
    have hdigit : UInt8.ofNat (48 + m % 10) < UInt8.ofNat (48 + n % 10) := by
      rw [UInt8.lt_iff_toNat_lt, UInt8.toNat_ofNat', UInt8.toNat_ofNat']
      omega
    rw [heq]
    exact append_left_lt (by simpa [cons_lt_cons_iff] using hdigit)

end SpatialDb.Lib
