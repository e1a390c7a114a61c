import SpatialDb.Net.Server

/-!
# The lexer of queries (`query/parser.cpp`)

The lexer holds what is left of its input.  A backslash as the last byte of an
open string takes the position past the end, which reads as the end.
-/

namespace SpatialDb.Query

open Lib Net.Server List

inductive TokenType
  | keyword | identifier | number | string | comma | lparen | rparen | eofToken | unknown
  deriving DecidableEq

structure Token where
  type : TokenType
  value : Bytes
  line : Nat
  deriving DecidableEq

structure Lexer where
  input : Bytes
  line : Nat
  lookahead : Option Token
  deriving DecidableEq

namespace Lexer

def skipWhitespace : Bytes → Nat → Bytes × Nat
  | [], line => ([], line)
  | c :: input, line =>
    if c = 10 then skipWhitespace input (line + 1)
    else if isSpaceByte c then skipWhitespace input line
    else (c :: input, line)

def isKeywordChar (c : UInt8) : Bool :=
  isDigitByte c || 65 ≤ c && c ≤ 90 || 97 ≤ c && c ≤ 122 || c = 95 || c = 46

/-- The loop of `readNumber`: what it passes, and the rest. -/
def scanNumber : Bool → Bytes → Bytes × Bytes
  | _, [] => ([], [])
  | hasDot, c :: input =>
    if c = 46 ∧ hasDot then ([], c :: input)
    else if isDigitByte c || c = 46 then
      ((scanNumber (hasDot || c = 46) input).map (c :: ·) id)
    else ([], c :: input)

def readNumber (line : Nat) : Bytes → Token × Bytes
  | 45 :: input => (scanNumber false input).map (⟨.number, 45 :: ·, line⟩) id
  | input => (scanNumber false input).map (⟨.number, ·, line⟩) id

/-- The loop of `readString`. -/
def scanString : Bytes → Bytes × Bytes
  | [] => ([], [])
  | [c] => if c = 34 then ([], [c]) else ([c], [])
  | c :: d :: input =>
    if c = 34 then ([], c :: d :: input)
    else if c = 92 then (scanString input).map (c :: d :: ·) id
    else (scanString (d :: input)).map (c :: ·) id

/-- From behind the opening quote. -/
def readString (line : Nat) (input : Bytes) : Token × Bytes :=
  (scanString input).map (⟨.string, ·, line⟩) List.tail

def readKeyword (line : Nat) (input : Bytes) : Token × Bytes :=
  (⟨.keyword, toUpper (input.takeWhile isKeywordChar), line⟩, input.dropWhile isKeywordChar)

def readToken (lx : Lexer) : Token × Lexer :=
  let (input, line) := skipWhitespace lx.input lx.line
  let (token, input) :=
    match input with
    | [] => (⟨.eofToken, [], line⟩, [])
    | c :: rest =>
      if c = 45 || isDigitByte c then readNumber line (c :: rest)
      else if c = 34 then readString line rest
      else if c = 40 then (⟨.lparen, [c], line⟩, rest)
      else if c = 41 then (⟨.rparen, [c], line⟩, rest)
      else if c = 44 then (⟨.comma, [c], line⟩, rest)
      else if isKeywordChar c then readKeyword line (c :: rest)
      else (⟨.unknown, [c], line⟩, rest)
  (token, { lx with input := input, line := line })

def peek (lx : Lexer) : Token × Lexer :=
  match lx.lookahead with
  | some t => (t, lx)
  | none => (lx.readToken.1, { lx.readToken.2 with lookahead := some lx.readToken.1 })

def next (lx : Lexer) : Token × Lexer :=
  match lx.lookahead with
  | some t => (t, { lx with lookahead := none })
  | none => lx.readToken

/-! ## Strings -/

/-- Each quote and each backslash behind a backslash. -/
def escape (s : Bytes) : Bytes := s.flatMap fun c => if c = 34 ∨ c = 92 then [92, c] else [c]

theorem escape_cons (c : UInt8) (s : Bytes) :
    escape (c :: s) = (if c = 34 ∨ c = 92 then [92, c] else [c]) ++ escape s := rfl

theorem escape_eq_iff (s : Bytes) : escape s = s ↔ ∀ c ∈ s, c ≠ 34 ∧ c ≠ 92 := by
  have hlen : ∀ s, (escape s).length = s.length + s.countP fun c => c = 34 ∨ c = 92 := by
    intro s
    induction s with
    | nil => rfl
    | cons c s ih =>
      rw [escape_cons, length_append, ih, countP_cons]
      split <;> simp_all <;> omega
  constructor
  · intro h c hc
    have hnone : (s.countP fun c => c = 34 ∨ c = 92) = 0 := by
      have := hlen s
      rw [h] at this
      omega
    simpa using countP_eq_zero.mp hnone c hc
  · intro h
    induction s with
    | nil => rfl
    | cons c s ih =>
      rw [escape_cons, ih (forall_mem_cons.mp h).2]
      simp [h c mem_cons_self]

variable (s rest : Bytes)

theorem scanString_escape :
    scanString (escape s ++ 34 :: rest) = (escape s, 34 :: rest) := by
  induction s with
  | nil => cases rest <;> rfl
  | cons c s ih =>
    obtain ⟨d, l, hd⟩ : ∃ d l, escape s ++ 34 :: rest = d :: l := exists_cons_of_ne_nil (by simp)
    rw [escape_cons]
    split
    · rw [append_assoc, cons_append, cons_append, nil_append, scanString, ih]
      rfl
    rename_i hc
    rw [append_assoc, cons_append, nil_append, hd, scanString, ← hd, ih]
    simp_all

/-- The token ends at the closing quote; its value is the text as it was written. -/
theorem next_quoted (line : Nat) :
    next ⟨34 :: (escape s ++ 34 :: rest), line, none⟩ =
      (⟨.string, escape s, line⟩, ⟨rest, line, none⟩) := by
  have hskip : ∀ input, skipWhitespace (34 :: input) line = (34 :: input, line) := fun _ => rfl
  simp only [next, readToken, hskip]
  simp [readString, scanString_escape, isDigitByte]

theorem next_quoted_iff (line : Nat) :
    next ⟨34 :: (escape s ++ 34 :: rest), line, none⟩ =
        (⟨.string, s, line⟩, ⟨rest, line, none⟩) ↔ ∀ c ∈ s, c ≠ 34 ∧ c ≠ 92 := by
  rw [next_quoted, ← escape_eq_iff]
  simp

theorem next_keeps_backslash :
    (next ⟨34 :: (escape (lit "a\"b") ++ 34 :: lit " c"), 1, none⟩).1.value = lit "a\\\"b" := by
  decide +kernel

end Lexer

end SpatialDb.Query
