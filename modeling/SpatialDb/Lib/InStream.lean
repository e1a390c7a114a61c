import SpatialDb.Lib.Codec
import SpatialDb.Lib.Resp

/-!
# Input streams

A C++ `std::ifstream` as the bytes that are left and its end-of-file flag, the
input functions on it, and the conversions of `std::stoi` and `std::stoul`.
A line that the file ends without a newline is still returned, with the flag
set; every function then fails, even one that asks for no bytes.

`Consumes p w a` is the rule stream readers are verified with.  It composes
along `bind`, and a line may be put in front of it.
-/

namespace SpatialDb.Lib

open List

/-- The bytes that are left, and `eofbit`.  A stream that has failed is not
read any further and needs no state. -/
structure InStream where
  rest : Bytes
  eof : Bool
  deriving DecidableEq

/-- A function on a stream that can fail. -/
abbrev StreamReader (α : Type) := StateT InStream Option α

/-! ## Input functions -/

def fail {α : Type} : StreamReader α := fun _ => none

/-- `std::getline`: up to a newline, or to the end of a non-empty rest. -/
def getline : StreamReader Bytes := fun s =>
  if s.eof ∨ s.rest = [] then none
  else
    match s.rest.dropWhile (· ≠ 10) with
    | [] => some (s.rest, ⟨[], true⟩)
    | _ :: rest => some (s.rest.takeWhile (· ≠ 10), ⟨rest, false⟩)

theorem getline_append {l : Bytes} (hl : ∀ c ∈ l, c ≠ 10) (rest : Bytes) :
    getline ⟨l ++ [10] ++ rest, false⟩ = some (l, ⟨rest, false⟩) := by
  have hpos : ∀ c ∈ l, decide (c ≠ 10) = true := fun c hc => decide_eq_true (hl c hc)
  have hdrop : (l ++ [10] ++ rest).dropWhile (· ≠ 10) = 10 :: rest := by
    rw [append_assoc, dropWhile_append_of_pos hpos]
    rfl
  have htake : (l ++ [10] ++ rest).takeWhile (· ≠ 10) = l := by
    rw [append_assoc, takeWhile_append_of_pos hpos]
    exact append_nil l
  rw [getline]
  rw [if_neg (by simp), hdrop, htake]

/-- `istream::read` of `n` bytes. -/
def readExactly (n : Nat) : StreamReader Bytes := fun s =>
  if s.eof ∨ s.rest.length < n then none else some (s.rest.take n, ⟨s.rest.drop n, false⟩)

/-- `istream::get`, and a comparison with the expected byte. -/
def getByte (b : UInt8) : StreamReader Unit := fun s =>
  match s.eof, s.rest with
  | false, c :: rest => if c = b then some ((), ⟨rest, false⟩) else none
  | _, _ => none

/-! ## Numbers -/

/-- The white space that `strtol` skips. -/
def isSpaceByte (b : UInt8) : Bool := b = 32 || 9 ≤ b && b ≤ 13

variable (s : Bytes)

/-- What `strtol` reads: white space, a sign, and at least one digit; the rest
is ignored.  The sign, and the magnitude. -/
def scanInteger : Option (Bool × Nat) :=
  let s := s.dropWhile isSpaceByte
  let (negative, s) := match s with
    | 45 :: s => (true, s)
    | 43 :: s => (false, s)
    | s => (false, s)
  let digits := s.takeWhile isDigitByte
  if digits = [] then none else some (negative, digitsValue digits)

/-- `std::stoi`; nothing where it throws. -/
def stoi : Option Int := do
  let (negative, n) ← scanInteger s
  let value : Int := if negative then -n else n
  if -2147483648 ≤ value ∧ value ≤ 2147483647 then some value else none

/-- `std::stoul`: a sign is taken modulo the width. -/
def stoul : Option Nat := do
  let (negative, n) ← scanInteger s
  if n < 2 ^ 64 then some (if negative then (2 ^ 64 - n) % 2 ^ 64 else n) else none

variable (n : Nat)

theorem decimal_ne_nil : decimal n ≠ [] := by
  rw [decimal, decimalFuel]
  split <;> simp

theorem isDigitByte_cases : ∀ d : UInt8, isDigitByte d = true →
    isSpaceByte d = false ∧ d ≠ 45 ∧ d ≠ 43 := by
  decide +kernel

/-- The sign in front (`true` for a minus), and the rest. -/
def splitSign : Bytes → Bool × Bytes
  | 45 :: s => (true, s)
  | 43 :: s => (false, s)
  | s => (false, s)

/-- An optional sign, and at least one digit. -/
def isNumeral : Bool := (splitSign s).2 ≠ [] && (splitSign s).2.all isDigitByte

theorem scanInteger_eq :
    scanInteger s = if (splitSign (s.dropWhile isSpaceByte)).2.takeWhile isDigitByte = [] then none
      else some ((splitSign (s.dropWhile isSpaceByte)).1,
        digitsValue ((splitSign (s.dropWhile isSpaceByte)).2.takeWhile isDigitByte)) := rfl

/-- The first byte of a numeral is a sign or a digit. -/
theorem isSpaceByte_of_splitSign {c : UInt8} {s : Bytes}
    (h : ∀ b ∈ (splitSign (c :: s)).2, isDigitByte b = true) : isSpaceByte c = false := by
  unfold splitSign at h
  split at h
  · rename_i heq
    rw [(cons.inj heq).1]
    rfl
  · rename_i heq
    rw [(cons.inj heq).1]
    rfl
  · exact (isDigitByte_cases c (h c mem_cons_self)).1

theorem scanInteger_of_isNumeral {s : Bytes} (h : isNumeral s = true) :
    scanInteger s = some ((splitSign s).1, digitsValue (splitSign s).2) := by
  simp only [isNumeral, Bool.and_eq_true, decide_eq_true_eq, all_eq_true] at h
  obtain ⟨hne, hdigits⟩ := h
  have hskip : s.dropWhile isSpaceByte = s := by
    cases s with
    | nil => rfl
    | cons c s =>
      exact dropWhile_cons_of_neg (by simp [isSpaceByte_of_splitSign hdigits])
  rw [scanInteger_eq, hskip, takeWhile_eq_self_iff.mpr hdigits, if_neg hne]

theorem splitSign_decimal : splitSign (decimal n) = (false, decimal n) := by
  have hdigits : ∀ b ∈ decimal n, isDigitByte b = true := isDigitByte_of_mem_decimalFuel (n + 1) n
  unfold splitSign
  split
  · rename_i heq
    exact absurd (hdigits 45 (heq ▸ mem_cons_self)) (by decide)
  · rename_i heq
    exact absurd (hdigits 43 (heq ▸ mem_cons_self)) (by decide)
  · rfl

theorem isNumeral_decimal : isNumeral (decimal n) = true := by
  rw [isNumeral, splitSign_decimal]
  simp only [Bool.and_eq_true, decide_eq_true_eq, all_eq_true]
  exact ⟨decimal_ne_nil n, isDigitByte_of_mem_decimalFuel (n + 1) n⟩

theorem scanInteger_decimal : scanInteger (decimal n) = some (false, n) := by
  have hvalue : digitsValue (decimal n) = n := digitsValue_decimalFuel (Nat.lt_succ_self n)
  rw [scanInteger_of_isNumeral (isNumeral_decimal n), splitSign_decimal, hvalue]

theorem stoi_decimal {n : Nat} (h : n ≤ 2147483647) : stoi (decimal n) = some (n : Int) := by
  have hrange : -2147483648 ≤ (n : Int) ∧ (n : Int) ≤ 2147483647 := by omega
  rw [stoi, scanInteger_decimal]
  exact if_pos hrange

theorem stoul_decimal {n : Nat} (h : n < 2 ^ 64) : stoul (decimal n) = some n := by
  rw [stoul, scanInteger_decimal]
  exact if_pos h

/-! ## The rule for readers -/

variable {α β : Type}

/-- `p` reads the bytes `w` as `a`, whatever follows them, and fails on a proper
part of them at the end of a file. -/
structure Consumes (p : StreamReader α) (w : Bytes) (a : α) : Prop where
  full : ∀ rest, p ⟨w ++ rest, false⟩ = some (a, ⟨rest, false⟩)
  part : ∀ q, q <+: w → q ≠ w → p ⟨q, false⟩ = none

theorem bind_apply (p : StreamReader α) (f : α → StreamReader β) (s : InStream) :
    (p >>= f) s = (p s).bind fun r => f r.1 r.2 := rfl

theorem Consumes.pure (a : α) : Consumes (Pure.pure a : StreamReader α) [] a where
  full := fun _ => rfl
  part := fun _ hq hne => absurd (prefix_nil.mp hq) hne

theorem Consumes.bind {p : StreamReader α} {f : α → StreamReader β} {v w : Bytes} {a : α} {b : β}
    (hp : Consumes p v a) (hf : Consumes (f a) w b) : Consumes (p >>= f) (v ++ w) b where
  full := by
    intro rest
    rw [bind_apply, append_assoc, hp.full]
    exact hf.full rest
  part := by
    intro q hq hne
    rw [bind_apply]
    by_cases hlen : v.length ≤ q.length
    · -- all of the first part, and some of the second
      obtain ⟨u, rfl⟩ := prefix_of_prefix_length_le (prefix_append v w) hq hlen
      rw [hp.full]
      refine hf.part u ((prefix_append_right_inj v).mp hq) fun hu => hne ?_
      rw [hu]
    · have hqv := prefix_of_prefix_length_le hq (prefix_append v w) (by omega)
      rw [hp.part q hqv fun heq => hlen (by rw [heq])]
      rfl

/-- A line in front: on a part of it the rest of the reader meets the end of the
file. -/
theorem Consumes.line {f : Bytes → StreamReader β} {l w : Bytes} {b : β}
    (hl : ∀ c ∈ l, c ≠ 10) (heof : ∀ l', f l' ⟨[], true⟩ = none) (hf : Consumes (f l) w b) :
    Consumes (getline >>= f) (l ++ [10] ++ w) b where
  full := by
    intro rest
    rw [bind_apply, append_assoc, getline_append hl]
    exact hf.full rest
  part := by
    intro q hq hne
    rw [bind_apply]
    by_cases hlen : (l ++ [10]).length ≤ q.length
    · obtain ⟨u, rfl⟩ := prefix_of_prefix_length_le (prefix_append (l ++ [10]) w) hq hlen
      rw [getline_append hl]
      refine hf.part u ((prefix_append_right_inj (l ++ [10])).mp hq) fun hu => hne ?_
      rw [hu]
    -- the part has no newline: the line is the rest of the file
    have hql : q <+: l := by
      have hpart := prefix_of_prefix_length_le hq (prefix_append (l ++ [10]) w) (by omega)
      rcases prefix_concat_iff.mp hpart with heq | hpart
      · exact absurd (by rw [heq]) hlen
      · exact hpart
    have hdrop : q.dropWhile (fun c => decide (c ≠ 10)) = [] :=
      dropWhile_eq_nil_iff.mpr fun c hc => decide_eq_true (hl c (hql.subset hc))
    have hline : getline ⟨q, false⟩ = none ∨ getline ⟨q, false⟩ = some (q, ⟨[], true⟩) := by
      rw [getline]
      split
      · exact Or.inl rfl
      · rw [hdrop]
        exact Or.inr rfl
    rcases hline with hline | hline
    · rw [hline]
      rfl
    · rw [hline]
      exact heof q

theorem consumes_readExactly (w : Bytes) : Consumes (readExactly w.length) w w where
  full := fun rest => by simp [readExactly]
  part := by
    intro q hq hne
    have hlt : q.length < w.length := lt_of_le_of_ne hq.length_le fun h => hne (hq.eq_of_length h)
    rw [readExactly, if_pos (Or.inr hlt)]

theorem consumes_getByte (b : UInt8) : Consumes (getByte b) [b] () where
  full := fun rest => by simp [getByte]
  part := by
    intro q hq hne
    cases q with
    | nil => rfl
    | cons c q =>
      obtain ⟨hc, hnil⟩ := cons_prefix_cons.mp hq
      exact absurd (by rw [hc, prefix_nil.mp hnil]) hne

/-! ## The record loop -/

variable {γ : Type}

/-- `fuel` rounds of: read a record, stop at the first failure. -/
def readLoop (p : StreamReader γ) : Nat → InStream → List γ
  | 0, _ => []
  | fuel + 1, s =>
    match p s with
    | none => []
    | some (c, s) => c :: readLoop p fuel s

/-- Read records to the end of a file.  For a reader whose records take at least
one byte, the length bounds the rounds. -/
def readStream (p : StreamReader γ) (file : Bytes) : List γ := readLoop p file.length ⟨file, false⟩

variable {p : StreamReader γ} {enc : α → Bytes} {dec : α → γ}

theorem readLoop_take {as : List α} (hp : ∀ a ∈ as, Consumes p (enc a) (dec a))
    (hnil : p ⟨[], false⟩ = none) (n fuel : Nat) (hfuel : (wholeRecords enc n as).length ≤ fuel) :
    readLoop p fuel ⟨(as.flatMap enc).take n, false⟩ = (wholeRecords enc n as).map dec := by
  induction as generalizing n fuel with
  | nil =>
    rw [flatMap_nil, take_nil]
    cases fuel with
    | zero => rfl
    | succ fuel =>
      rw [readLoop, hnil]
      rfl
  | cons a as ih =>
    rw [wholeRecords] at hfuel ⊢
    rw [flatMap_cons, take_append]
    by_cases hle : (enc a).length ≤ n
    · rw [if_pos hle] at hfuel ⊢
      obtain ⟨fuel, rfl⟩ : ∃ f, fuel = f + 1 := ⟨fuel - 1, by rw [length_cons] at hfuel; omega⟩
      rw [take_of_length_le hle, readLoop, (hp a mem_cons_self).full, map_cons]
      refine congrArg (dec a :: ·) (ih (forall_mem_cons.mp hp).2 _ fuel ?_)
      simpa using hfuel
    -- the cut falls into this record
    rw [if_neg hle, Nat.sub_eq_zero_of_le (by omega), take_zero, append_nil]
    have hpart := (hp a mem_cons_self).part ((enc a).take n) ⟨_, take_append_drop _ _⟩ fun heq => by
      have hlen := congrArg List.length heq
      rw [length_take] at hlen
      omega
    cases fuel with
    | zero => rfl
    | succ fuel =>
      rw [readLoop, hpart]
      rfl

/-- **The record loop on a file that is cut at any byte returns the records
before the cut.** -/
theorem readStream_take {as : List α} (hp : ∀ a ∈ as, Consumes p (enc a) (dec a))
    (hne : ∀ a, enc a ≠ []) (hnil : p ⟨[], false⟩ = none) (n : Nat) :
    readStream p ((as.flatMap enc).take n) = (wholeRecords enc n as).map dec := by
  refine readLoop_take hp hnil n _ ?_
  rw [take_flatMap, length_append]
  have hlen := length_le_length_flatMap hne (wholeRecords enc n as)
  omega

end SpatialDb.Lib
