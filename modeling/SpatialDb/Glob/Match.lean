import SpatialDb.Lib.StarPattern
import SpatialDb.Lib.Utf8

/-!
# Matching a name with a pattern

Model of `internal/legacy/glob/match.go`.  The matcher works on bytes and
reads characters only for `?` and inside a class.  A chunk is the text
between two stars; it is matched byte by byte at one place, or not at all.

The documentation of `wildcardMatch` gives a grammar of patterns and says what
each term matches.  `Term` is that grammar, with `[^` always read as the start
of a negated class, and `Term.sign` is what a term matches.
-/

namespace SpatialDb.Glob

open Lib StarPattern List Except
open Lib.StarPattern (Sign Matches)

variable (inrange : Bool) (pattern : Bytes)

/-! ## The bytes with a meaning -/

/-- The byte of `*`. -/
abbrev star : UInt8 := 0x2A
/-- The byte of `-`. -/
abbrev dash : UInt8 := 0x2D
/-- The byte of `?`. -/
abbrev quest : UInt8 := 0x3F
/-- The byte of `[`. -/
abbrev opening : UInt8 := 0x5B
/-- The byte of the backslash. -/
abbrev escape : UInt8 := 0x5C
/-- The byte of `]`. -/
abbrev closing : UInt8 := 0x5D
/-- The byte of `^`. -/
abbrev caret : UInt8 := 0x5E

/-- `ErrBadPattern`, the only error of the matcher. -/
inductive BadPattern where
  | badPattern
  deriving DecidableEq

/-! ## The matcher -/

/-- The end of `getEsc`: the character at the front of a chunk, which must not
end there. -/
def takeRune (chunk : Bytes) : Except BadPattern (Nat × Bytes) :=
  let rest := chunk.drop (decodeRune chunk).2
  if (decodeRune chunk).1 = runeError ∧ (decodeRune chunk).2 = 1 then .error .badPattern
  else if rest.length = 0 then .error .badPattern
  else .ok ((decodeRune chunk).1, rest)

/-- `getEsc`: a possibly escaped character of a class. -/
def getEsc : Bytes → Except BadPattern (Nat × Bytes)
  | [] => .error .badPattern
  | c :: chunk =>
    if c = dash ∨ c = closing then .error .badPattern
    else if c = escape then
      if chunk.length = 0 then .error .badPattern else takeRune chunk
    else takeRune (c :: chunk)

variable {rest : Bytes} {r : Nat} {c : UInt8} {chunk : Bytes}

theorem takeRune_length (hne : 0 < chunk.length)
    (h : takeRune chunk = .ok (r, rest)) : rest.length < chunk.length := by
  cases chunk with
  | nil => cases hne
  | cons b s =>
    have hpos := decodeRune_width_pos b s
    simp only [takeRune] at h
    split at h
    · cases h
    split at h
    · cases h
    obtain ⟨-, rfl⟩ := Prod.mk.inj (ok.inj h)
    rw [length_drop]
    omega

theorem getEsc_length (h : getEsc chunk = .ok (r, rest)) : rest.length < chunk.length := by
  cases chunk with
  | nil => cases h
  | cons c chunk =>
    rw [getEsc] at h
    split at h
    · cases h
    split at h
    · split at h
      · cases h
      rename_i hlen
      have hlt := takeRune_length (by omega) h
      exact Nat.lt_succ_of_lt hlt
    · exact takeRune_length (Nat.succ_pos _) h

/-- `lo` and `hi` of the next range of a class, and what follows it. -/
def classRange (chunk : Bytes) : Except BadPattern (Nat × Nat × Bytes) := do
  let (lo, chunk) ← getEsc chunk
  match chunk with
  | c :: rest =>
    if c = dash then
      let (hi, chunk) ← getEsc rest
      return (lo, hi, chunk)
    else return (lo, lo, chunk)
  | [] => return (lo, lo, chunk)

theorem classRange_length {lo hi : Nat} (h : classRange chunk = .ok (lo, hi, rest)) :
    rest.length < chunk.length := by
  rw [classRange] at h
  cases hlo : getEsc chunk with
  | error e => rw [hlo] at h; cases h
  | ok out =>
    obtain ⟨lo', rest'⟩ := out
    have hlt := getEsc_length hlo
    rw [hlo] at h
    cases rest' with
    | nil =>
      obtain ⟨-, -, rfl⟩ : lo' = lo ∧ lo' = hi ∧ [] = rest := by
        simpa using ok.inj h
      exact hlt
    | cons c tail =>
      simp only [bind, Except.bind] at h
      split at h
      · cases hhi : getEsc tail with
        | error e => rw [hhi] at h; cases h
        | ok out =>
          obtain ⟨hi', rest'⟩ := out
          have hlt' := getEsc_length hhi
          rw [hhi] at h
          obtain ⟨-, -, rfl⟩ : lo' = lo ∧ hi' = hi ∧ rest' = rest := by
            simpa using ok.inj h
          rw [length_cons] at hlt
          omega
      · obtain ⟨-, -, rfl⟩ : lo' = lo ∧ lo' = hi ∧ c :: tail = rest := by
          simpa using ok.inj h
        exact hlt

/-- The loop over the ranges of a class, up to the closing bracket. -/
def classLoop (r : Nat) (chunk : Bytes) (nrange : Nat) (matched : Bool) :
    Except BadPattern (Bool × Bytes) :=
  if chunk.head? = some closing ∧ nrange > 0 then .ok (matched, chunk.tail)
  else
    match h : classRange chunk with
    | .error e => .error e
    | .ok (lo, hi, rest) => classLoop r rest (nrange + 1) (matched || (lo ≤ r && r ≤ hi))
  termination_by chunk.length
  decreasing_by exact classRange_length h

/-- The class after its opening bracket: whether `r` is in it. -/
def matchClass (r : Nat) (chunk : Bytes) : Except BadPattern (Bool × Bytes) :=
  if chunk.length = 0 then .error .badPattern
  else
    let negated := chunk.head? = some caret
    let chunk := if negated then chunk.tail else chunk
    match classLoop r chunk 0 false with
    | .error e => .error e
    | .ok (matched, rest) => .ok (matched != negated, rest)

theorem classLoop_length {nrange : Nat} {matched : Bool} {out : Bool × Bytes}
    (h : classLoop r chunk nrange matched = .ok out) :
    out.2.length ≤ chunk.length := by
  induction chunk, nrange, matched using classLoop.induct (r := r) with
  | case1 chunk nrange matched hend =>
    rw [classLoop, if_pos hend] at h
    obtain rfl := ok.inj h
    rw [length_tail]
    exact Nat.sub_le _ _
  | case2 chunk nrange matched hend e herr =>
    rw [classLoop, if_neg hend, herr] at h
    cases h
  | case3 chunk nrange matched hend lo hi rest hrange ih =>
    rw [classLoop, if_neg hend, hrange] at h
    exact (ih h).trans (classRange_length hrange).le

theorem matchClass_length {out : Bool × Bytes} (h : matchClass r chunk = .ok out) :
    out.2.length ≤ chunk.length := by
  rw [matchClass] at h
  split at h
  · cases h
  simp only at h
  split at h
  · cases h
  rename_i matched rest hloop
  obtain rfl := ok.inj h
  refine (classLoop_length hloop).trans ?_
  split
  · rw [length_tail]
    exact Nat.sub_le _ _
  · exact le_rfl

/-- `matchChunk`: what is left of `s` after a chunk that matches at its front,
nothing if it does not match. -/
def matchChunk (chunk s : Bytes) : Except BadPattern (Option Bytes) :=
  match chunk, s with
  | [], s => .ok (some s)
  | _ :: _, [] => .ok none
  | c :: chunk, b :: s =>
    if c = opening then
      match _h : matchClass (decodeRune (b :: s)).1 chunk with
      | .error e => .error e
      | .ok (false, _) => .ok none
      | .ok (true, rest) => matchChunk rest ((b :: s).drop (decodeRune (b :: s)).2)
    else if c = quest then matchChunk chunk ((b :: s).drop (decodeRune (b :: s)).2)
    else if c = escape then
      match chunk with
      | [] => .error .badPattern
      | c :: chunk => if c = b then matchChunk chunk s else .ok none
    else if c = b then matchChunk chunk s
    else .ok none
  termination_by chunk.length
  decreasing_by
    · exact Nat.lt_succ_of_le (matchClass_length _h)
    all_goals simp

theorem matchChunk_class (chunk : Bytes) (b : UInt8) (s : Bytes) :
    matchChunk (opening :: chunk) (b :: s) =
      match matchClass (decodeRune (b :: s)).1 chunk with
      | .error e => .error e
      | .ok (false, _) => .ok none
      | .ok (true, rest) => matchChunk rest ((b :: s).drop (decodeRune (b :: s)).2) := by
  rw [matchChunk.eq_def]
  simp only [if_true]
  split <;> simp_all

theorem matchChunk_quest (chunk : Bytes) (b : UInt8) (s : Bytes) :
    matchChunk (quest :: chunk) (b :: s) =
      matchChunk chunk ((b :: s).drop (decodeRune (b :: s)).2) := by
  rw [matchChunk.eq_def]
  simp only
  rw [if_neg (by decide), if_pos trivial]

theorem matchChunk_escape (c : UInt8) (chunk : Bytes) (b : UInt8) (s : Bytes) :
    matchChunk (escape :: c :: chunk) (b :: s) =
      if c = b then matchChunk chunk s else .ok none := by
  rw [matchChunk.eq_def]
  simp only
  rw [if_neg (by decide), if_neg (by decide), if_pos trivial]

theorem matchChunk_plain (hopen : c ≠ opening) (hquest : c ≠ quest) (hescape : c ≠ escape)
    (chunk : Bytes) (b : UInt8) (s : Bytes) :
    matchChunk (c :: chunk) (b :: s) = if c = b then matchChunk chunk s else .ok none := by
  rw [matchChunk.eq_def]
  simp only
  rw [if_neg hopen, if_neg hquest, if_neg hescape]

/-- The length of the chunk at the front of a pattern. -/
def chunkLength (inrange : Bool) : Bytes → Nat
  | [] => 0
  | c :: pattern =>
    if c = escape then
      match pattern with
      | [] => 1
      | _ :: pattern => chunkLength inrange pattern + 2
    else if c = opening then chunkLength true pattern + 1
    else if c = closing then chunkLength false pattern + 1
    else if c = star ∧ inrange = false then 0
    else chunkLength inrange pattern + 1

@[simp] theorem chunkLength_escape (c : UInt8) (pattern : Bytes) :
    chunkLength inrange (escape :: c :: pattern) = chunkLength inrange pattern + 2 := by
  rw [chunkLength, if_pos rfl]

@[simp] theorem chunkLength_opening :
    chunkLength inrange (opening :: pattern) = chunkLength true pattern + 1 := by
  rw [chunkLength.eq_def]
  rfl

@[simp] theorem chunkLength_closing :
    chunkLength inrange (closing :: pattern) = chunkLength false pattern + 1 := by
  rw [chunkLength.eq_def]
  rfl

theorem chunkLength_star : chunkLength false (star :: pattern) = 0 := by
  rw [chunkLength.eq_def]
  rfl

/-- Any other byte, and in a class a star too. -/
theorem chunkLength_plain {inrange : Bool} (hescape : c ≠ escape) (hclose : c ≠ closing)
    (hstar : inrange = false → c ≠ opening ∧ c ≠ star) (pattern : Bytes) :
    chunkLength inrange (c :: pattern) = chunkLength inrange pattern + 1 := by
  rw [chunkLength.eq_def]
  simp only
  rw [if_neg hescape, if_neg hclose]
  cases inrange with
  | false =>
    obtain ⟨hopen, hne⟩ := hstar rfl
    rw [if_neg hopen, if_neg fun h => hne h.1]
  | true =>
    rw [if_neg fun h : _ ∧ true = false => by cases h.2]
    split <;> rfl

/-- `scanChunk`: whether stars stand before the chunk, the chunk, and the rest
of the pattern. -/
def scanChunk (pattern : Bytes) : Bool × Bytes × Bytes :=
  let body := pattern.dropWhile (· = star)
  let n := chunkLength false body
  (pattern.head? = some star, body.take n, body.drop n)

/-- Look for a place where the chunk matches: at the front, and after a star
also further on.  The last chunk has to exhaust the name. -/
def findChunk (star last : Bool) (chunk : Bytes) : Bytes → Except BadPattern (Option Bytes)
  | [] => do
      match ← matchChunk chunk [] with
      | some t => return if t.isEmpty || !last then some t else none
      | none => return none
  | b :: name => do
      let next := if star then findChunk star last chunk name else .ok none
      match ← matchChunk chunk (b :: name) with
      | some t => if t.isEmpty || !last then return some t else next
      | none => next

theorem chunkLength_pos (hc : c ≠ star) : 0 < chunkLength false (c :: pattern) := by
  rw [chunkLength.eq_def]
  simp only [hc, false_and, if_false]
  split
  · split <;> omega
  split
  · omega
  · split <;> omega

theorem scanChunk_length {pattern : Bytes} :
    (scanChunk (c :: pattern)).2.2.length < (c :: pattern).length := by
  rw [scanChunk]
  simp only [length_drop]
  by_cases hc : c = star
  · have hle := (dropWhile_suffix (fun x => decide (x = star)) (l := pattern)).length_le
    rw [dropWhile_cons_of_pos (by simpa using hc), length_cons]
    omega
  have hpos := chunkLength_pos pattern hc
  rw [dropWhile_cons_of_neg (by simpa using hc), length_cons]
  omega

/-- `wildcardMatch`. -/
def wildcardMatch (pattern name : Bytes) : Except BadPattern Bool :=
  match pattern with
  | [] => .ok name.isEmpty
  | c :: cs =>
    let star := (scanChunk (c :: cs)).1
    let chunk := (scanChunk (c :: cs)).2.1
    let rest := (scanChunk (c :: cs)).2.2
    if star ∧ chunk.isEmpty then .ok true
    else
      match findChunk star rest.isEmpty chunk name with
      | .error e => .error e
      | .ok none => .ok false
      | .ok (some name) => wildcardMatch rest name
  termination_by pattern.length
  decreasing_by exact scanChunk_length

/-- One round of the loop of `wildcardMatch`. -/
theorem wildcardMatch_of_ne_nil {pattern : Bytes} (h : pattern ≠ []) (name : Bytes) :
    wildcardMatch pattern name =
      if (scanChunk pattern).1 ∧ (scanChunk pattern).2.1.isEmpty then .ok true
      else
        match findChunk (scanChunk pattern).1 (scanChunk pattern).2.2.isEmpty
          (scanChunk pattern).2.1 name with
        | .error e => .error e
        | .ok none => .ok false
        | .ok (some name) => wildcardMatch (scanChunk pattern).2.2 name := by
  obtain ⟨c, cs, rfl⟩ := exists_cons_of_ne_nil h
  rw [wildcardMatch]

/-! ## The documented patterns -/

/-- A character of a pattern: plain, or after a backslash. -/
structure PatChar where
  escaped : Bool
  byte : UInt8
  deriving DecidableEq

namespace PatChar

def render (c : PatChar) : Bytes := if c.escaped then [escape, c.byte] else [c.byte]

/-- A plain character avoids the bytes in `special`; all are ASCII. -/
def Ok (special : List UInt8) (c : PatChar) : Prop :=
  c.byte < 0x80 ∧ (c.escaped = false → c.byte ∉ special)

instance (special : List UInt8) (c : PatChar) : Decidable (c.Ok special) :=
  inferInstanceAs (Decidable (_ ∧ _))

end PatChar

/-- `character-range`. -/
inductive CharRange where
  | single (c : PatChar)
  | between (lo hi : PatChar)
  deriving DecidableEq

namespace CharRange

def lo : CharRange → PatChar
  | single c => c
  | between lo _ => lo

def hi : CharRange → PatChar
  | single c => c
  | between _ hi => hi

def render : CharRange → Bytes
  | single c => c.render
  | between lo hi => lo.render ++ dash :: hi.render

/-- The characters that stand for themselves in a class. -/
def Ok (range : CharRange) : Prop :=
  range.lo.Ok [escape, dash, closing] ∧ range.hi.Ok [escape, dash, closing]

instance (range : CharRange) : Decidable range.Ok := inferInstanceAs (Decidable (_ ∧ _))

def contains (range : CharRange) (b : UInt8) : Bool := range.lo.byte ≤ b && b ≤ range.hi.byte

end CharRange

/-- `term`. -/
inductive Term where
  | star
  | any
  | cls (negated : Bool) (ranges : List CharRange)
  | char (c : PatChar)
  deriving DecidableEq

namespace Term

def render : Term → Bytes
  | star => [Glob.star]
  | any => [quest]
  | cls negated ranges =>
    opening :: (if negated then [caret] else []) ++ ranges.flatMap CharRange.render ++ [closing]
  | char c => c.render

/-- A term of the grammar, in ASCII.  A class is not empty, and a caret right
after the bracket is the sign of negation. -/
def Ok : Term → Prop
  | star | any => True
  | cls negated ranges =>
    ranges ≠ [] ∧ (∀ range ∈ ranges, range.Ok) ∧
      (negated = false → (ranges.flatMap CharRange.render).head? ≠ some caret)
  | char c => c.Ok [Glob.star, quest, escape, opening]

instance (t : Term) : Decidable t.Ok := by
  cases t <;> unfold Ok <;> infer_instance

/-- What a term other than a star matches. -/
def accepts : Term → UInt8 → Bool
  | star, _ => false
  | any, _ => true
  | cls negated ranges, b => (ranges.any fun range => range.contains b) != negated
  | char c, b => c.byte = b

def sign : Term → Sign UInt8
  | star => .star
  | t => .one t.accepts

end Term

/-- The text of a pattern. -/
def render (terms : List Term) : Bytes := terms.flatMap Term.render

/-- The documented language of a pattern. -/
def Describes (terms : List Term) (name : Bytes) : Prop := Matches (terms.map Term.sign) name

variable {chunk terms : List Term} {range : CharRange} {ranges : List CharRange} {t : Term}

/-! ## Reading a class -/

theorem takeRune_ascii {b : UInt8} (h : b < 0x80) (hrest : rest ≠ []) :
    takeRune (b :: rest) = .ok (b.toNat, rest) := by
  have hlt : b.toNat < 128 := UInt8.lt_iff_toNat_lt.mp h
  have hrune : ¬ b.toNat = runeError := by
    rw [runeError]
    omega
  have hlen : ¬ rest.length = 0 := fun hzero => hrest (length_eq_zero_iff.mp hzero)
  simp only [takeRune, decodeRune_ascii h, drop_succ_cons, drop_zero, hrune, hlen,
    false_and, if_false]

variable {c : PatChar}

theorem getEsc_render (h : c.Ok [escape, dash, closing]) (hrest : rest ≠ []) :
    getEsc (c.render ++ rest) = .ok (c.byte.toNat, rest) := by
  obtain ⟨hascii, hplain⟩ := h
  cases hesc : c.escaped with
  | true =>
    simp only [PatChar.render, hesc, if_true, cons_append, nil_append, getEsc]
    rw [if_neg (by decide), if_neg (by simp)]
    exact takeRune_ascii hascii hrest
  | false =>
    have hnot := hplain hesc
    simp only [mem_cons, not_mem_nil, or_false, not_or] at hnot
    obtain ⟨hne, hdash, hclose⟩ := hnot
    simp only [PatChar.render, hesc, Bool.false_eq_true, if_false, cons_append,
      nil_append, getEsc, hne, hdash, hclose, or_self]
    exact takeRune_ascii hascii hrest

/-- The first byte of a character, or of a range, is not one of those with a
meaning in a class. -/
theorem PatChar.head_render (h : c.Ok [escape, dash, closing]) (rest : Bytes) :
    (c.render ++ rest).head? ≠ some dash ∧ (c.render ++ rest).head? ≠ some closing := by
  cases hesc : c.escaped with
  | true => simp [PatChar.render, hesc, escape, dash, closing]
  | false =>
    have hnot := h.2 hesc
    simp only [mem_cons, not_mem_nil, or_false, not_or] at hnot
    simp [PatChar.render, hesc, hnot]

theorem CharRange.head_render (h : range.Ok) (rest : Bytes) :
    (range.render ++ rest).head? ≠ some dash ∧ (range.render ++ rest).head? ≠ some closing := by
  cases range with
  | single c => exact PatChar.head_render h.1 rest
  | between lo hi =>
    rw [CharRange.render, append_assoc]
    exact PatChar.head_render h.1 _

theorem classRange_render (h : range.Ok) (hrest : rest ≠ []) (hdash : rest.head? ≠ some dash) :
    classRange (range.render ++ rest) = .ok (range.lo.byte.toNat, range.hi.byte.toNat, rest) := by
  cases range with
  | single c =>
    obtain ⟨b, tail, rfl⟩ := exists_cons_of_ne_nil hrest
    have hb : b ≠ dash := fun hb => hdash (congrArg some hb)
    rw [classRange, CharRange.render, getEsc_render (c := c) h.1 hrest]
    simp only [bind, Except.bind, hb, if_false]
    rfl
  | between lo hi =>
    rw [classRange, CharRange.render, append_assoc, getEsc_render (c := lo) h.1 (by simp)]
    simp only [bind, Except.bind, cons_append, if_true, getEsc_render (c := hi) h.2 hrest]
    rfl

/-- What comes after some ranges of a class does not start with a dash. -/
theorem head_ranges (h : ∀ range ∈ ranges, range.Ok) (rest : Bytes) :
    (ranges.flatMap CharRange.render ++ closing :: rest).head? ≠ some dash := by
  cases ranges with
  | nil => simp [closing, dash]
  | cons range ranges =>
    rw [flatMap_cons, append_assoc]
    exact (CharRange.head_render (h range mem_cons_self) _).1

theorem classLoop_render (h : ∀ range ∈ ranges, range.Ok) (b : UInt8) {nrange : Nat}
    (hsome : nrange > 0 ∨ ranges ≠ []) (matched : Bool) (rest : Bytes) :
    classLoop b.toNat (ranges.flatMap CharRange.render ++ closing :: rest) nrange matched =
      .ok (matched || ranges.any fun range => range.contains b, rest) := by
  induction ranges generalizing nrange matched with
  | nil =>
    have hpos : nrange > 0 := hsome.resolve_right fun hne => hne rfl
    rw [classLoop, if_pos ⟨rfl, hpos⟩]
    simp
  | cons range ranges ih =>
    have hrange : range.Ok := h range mem_cons_self
    have hranges : ∀ r ∈ ranges, r.Ok := (forall_mem_cons.mp h).2
    have hread : classRange (range.render ++
        (ranges.flatMap CharRange.render ++ closing :: rest)) = .ok _ :=
      classRange_render hrange (by simp) (head_ranges hranges rest)
    rw [flatMap_cons, append_assoc, classLoop,
      if_neg fun hend => (CharRange.head_render hrange _).2 hend.1, hread]
    simp only
    rw [ih hranges (Or.inl (Nat.succ_pos _)), any_cons, Bool.or_assoc]
    rfl

theorem matchClass_render {negated : Bool} (h : (Term.cls negated ranges).Ok) (b : UInt8)
    (rest : Bytes) :
    matchClass b.toNat ((if negated then [caret] else []) ++
        ranges.flatMap CharRange.render ++ closing :: rest) =
      .ok ((Term.cls negated ranges).accepts b, rest) := by
  obtain ⟨hne, hranges, hcaret⟩ := h
  have hloop : classLoop b.toNat _ 0 false = _ := classLoop_render hranges b (Or.inr hne) false rest
  rw [Bool.false_or] at hloop
  cases negated with
  | true =>
    simp only [matchClass, if_true, cons_append, nil_append, length_cons,
      Nat.succ_ne_zero, if_false, head?_cons, decide_true, tail_cons, hloop]
    rfl
  | false =>
    have hhead : (ranges.flatMap CharRange.render ++ closing :: rest).head? ≠ some caret := by
      cases hflat : ranges.flatMap CharRange.render with
      | nil => simp [closing, caret]
      | cons c cs =>
        have hc := hcaret rfl
        rw [hflat] at hc
        exact hc
    have hlen : ¬ (ranges.flatMap CharRange.render ++ closing :: rest).length = 0 := by simp
    simp only [matchClass, Bool.false_eq_true, if_false, nil_append, hlen, hhead,
      decide_false, hloop]
    rfl

/-! ## A chunk of terms -/

/-- The terms of a chunk: well-formed, and none of them a star. -/
def ChunkOk (chunk : List Term) : Prop := ∀ t ∈ chunk, t.Ok ∧ t ≠ .star

def Ascii (s : Bytes) : Prop := ∀ b ∈ s, b < 0x80

instance : DecidablePred Ascii := fun s => inferInstanceAs (Decidable (∀ b ∈ s, b < 0x80))

theorem ChunkOk.cons (h : ChunkOk (t :: chunk)) : (t.Ok ∧ t ≠ .star) ∧ ChunkOk chunk :=
  ⟨h t mem_cons_self, (forall_mem_cons.mp h).2⟩

theorem Ascii.cons {b : UInt8} {s : Bytes} (h : Ascii (b :: s)) : b < 0x80 ∧ Ascii s :=
  ⟨h b mem_cons_self, (forall_mem_cons.mp h).2⟩

theorem Ascii.of_suffix {s t : Bytes} (h : Ascii s) (ht : t <:+ s) : Ascii t :=
  fun b hb => h b (ht.subset hb)

theorem render_cons (t : Term) (terms : List Term) :
    render (t :: terms) = t.render ++ render terms := flatMap_cons

theorem render_append (terms more : List Term) :
    render (terms ++ more) = render terms ++ render more := flatMap_append

theorem Term.render_ne_nil (t : Term) : t.render ≠ [] := by
  cases t with
  | star | any | cls => simp [Term.render]
  | char c =>
    rw [Term.render, PatChar.render]
    split <;> simp

/-- One term at the front of a chunk, against one byte. -/
theorem matchChunk_term (h : t.Ok) (hstar : t ≠ .star) {b : UInt8} (hb : b < 0x80)
    (chunk s : Bytes) :
    matchChunk (t.render ++ chunk) (b :: s) =
      if t.accepts b then matchChunk chunk s else .ok none := by
  cases t with
  | star => exact absurd rfl hstar
  | any =>
    rw [Term.render, cons_append, nil_append, matchChunk_quest, decodeRune_ascii hb]
    rfl
  | cls negated ranges =>
    have hclass := matchClass_render h b chunk
    rw [Term.render, append_assoc, cons_append, cons_append, singleton_append,
      matchChunk_class, decodeRune_ascii hb, hclass]
    cases (Term.cls negated ranges).accepts b <;> rfl
  | char c =>
    obtain ⟨-, hplain⟩ := h
    cases hesc : c.escaped with
    | true =>
      simp only [Term.render, PatChar.render, hesc, if_true, cons_append,
        nil_append, Term.accepts, decide_eq_true_eq]
      exact matchChunk_escape c.byte chunk b s
    | false =>
      have hnot := hplain hesc
      simp only [mem_cons, not_mem_nil, or_false, not_or] at hnot
      obtain ⟨-, hquest, hescape, hopen⟩ := hnot
      simp only [Term.render, PatChar.render, hesc, Bool.false_eq_true, if_false,
        cons_append, nil_append, Term.accepts, decide_eq_true_eq]
      exact matchChunk_plain hopen hquest hescape chunk b s

theorem matchChunk_render (h : ChunkOk chunk) {s : Bytes} (hs : Ascii s) :
    matchChunk (render chunk) s = .ok (StarPattern.eat (chunk.map Term.accepts) s) := by
  induction chunk generalizing s with
  | nil => rw [show render [] = [] from rfl, matchChunk]; rfl
  | cons t chunk ih =>
    obtain ⟨⟨hok, hstar⟩, hchunk⟩ := h.cons
    cases s with
    | nil =>
      obtain ⟨c, cs, hrender⟩ := exists_cons_of_ne_nil (Term.render_ne_nil t)
      rw [render_cons, hrender, cons_append, matchChunk]
      rfl
    | cons b s =>
      obtain ⟨hb, hs⟩ := hs.cons
      rw [render_cons, matchChunk_term hok hstar hb, ih hchunk hs, map_cons, StarPattern.eat]
      split <;> rfl

theorem findChunk_render (h : ChunkOk chunk) (star last : Bool) {name : Bytes}
    (hname : Ascii name) :
    findChunk star last (render chunk) name =
      .ok (StarPattern.find star last (chunk.map Term.accepts) name) := by
  induction name with
  | nil =>
    rw [findChunk, matchChunk_render h hname, StarPattern.find]
    cases StarPattern.eat (chunk.map Term.accepts) [] <;> rfl
  | cons b name ih =>
    rw [findChunk, matchChunk_render h hname, StarPattern.find, ih hname.cons.2]
    simp only [bind, Except.bind]
    cases StarPattern.eat (chunk.map Term.accepts) (b :: name) with
    | none => cases star <;> rfl
    | some t =>
      simp only
      split
      · rfl
      · cases star <;> rfl

/-! ## Cutting the pattern -/

theorem chunkLength_patChar (h : c.Ok [escape, dash, closing]) (rest : Bytes) :
    chunkLength true (c.render ++ rest) = chunkLength true rest + c.render.length := by
  cases hesc : c.escaped with
  | true => simp [PatChar.render, hesc]
  | false =>
    have hnot := h.2 hesc
    simp only [mem_cons, not_mem_nil, or_false, not_or] at hnot
    have hplain := chunkLength_plain hnot.1 hnot.2.2 (fun h : true = false => by cases h) rest
    simpa [PatChar.render, hesc] using hplain

theorem chunkLength_range (h : range.Ok) (rest : Bytes) :
    chunkLength true (range.render ++ rest) = chunkLength true rest + range.render.length := by
  cases range with
  | single c => exact chunkLength_patChar h.1 rest
  | between lo hi =>
    have hdash : chunkLength true (dash :: (hi.render ++ rest)) =
        chunkLength true (hi.render ++ rest) + 1 :=
      chunkLength_plain (by decide) (by decide) (by decide) _
    rw [CharRange.render, append_assoc, chunkLength_patChar (c := lo) h.1,
      cons_append, hdash, chunkLength_patChar (c := hi) h.2]
    simp only [length_append, length_cons]
    omega

theorem chunkLength_ranges (h : ∀ range ∈ ranges, range.Ok) (rest : Bytes) :
    chunkLength true (ranges.flatMap CharRange.render ++ rest) =
      chunkLength true rest + (ranges.flatMap CharRange.render).length := by
  induction ranges with
  | nil => rfl
  | cons range ranges ih =>
    rw [flatMap_cons, append_assoc, chunkLength_range (h range mem_cons_self),
      ih (forall_mem_cons.mp h).2, length_append]
    omega

/-- The scan goes over a whole term, and is outside of a class again. -/
theorem chunkLength_term (h : t.Ok) (hstar : t ≠ .star) (rest : Bytes) :
    chunkLength false (t.render ++ rest) = chunkLength false rest + t.render.length := by
  cases t with
  | star => exact absurd rfl hstar
  | any => exact chunkLength_plain (by decide) (by decide) (by decide) rest
  | cls negated ranges =>
    obtain ⟨-, hranges, -⟩ := h
    have hcaret (s : Bytes) : chunkLength true (caret :: s) = chunkLength true s + 1 :=
      chunkLength_plain (by decide) (by decide) (by decide) s
    cases negated <;> simp [Term.render, hcaret, chunkLength_ranges hranges] <;> omega
  | char c =>
    cases hesc : c.escaped with
    | true => simp [Term.render, PatChar.render, hesc]
    | false =>
      have hnot := h.2 hesc
      simp only [mem_cons, not_mem_nil, or_false, not_or] at hnot
      obtain ⟨hne, -, hescape, hopen⟩ := hnot
      by_cases hclose : c.byte = closing
      · simp [Term.render, PatChar.render, hesc, hclose]
      · have hplain := chunkLength_plain hescape hclose (fun _ : false = false => ⟨hopen, hne⟩) rest
        simpa [Term.render, PatChar.render, hesc] using hplain

/-- The scan ends where the terms of the chunk end, at a star or at the end of
the pattern. -/
theorem chunkLength_render (h : ChunkOk chunk)
    (hterms : terms = [] ∨ ∃ more, terms = .star :: more) :
    chunkLength false (render chunk ++ render terms) = (render chunk).length := by
  induction chunk with
  | nil =>
    rcases hterms with rfl | ⟨more, rfl⟩
    · rfl
    · exact chunkLength_star _
  | cons t chunk ih =>
    obtain ⟨⟨hok, hstar⟩, hchunk⟩ := h.cons
    rw [render_cons, append_assoc, chunkLength_term hok hstar, ih hchunk, length_append]
    omega

theorem Term.head_render (h : t.Ok) (hstar : t ≠ .star) (rest : Bytes) :
    (t.render ++ rest).head? ≠ some Glob.star := by
  cases t with
  | star => exact absurd rfl hstar
  | any => simp [Term.render, quest, Glob.star]
  | cls negated ranges => simp [Term.render, opening, Glob.star]
  | char c =>
    cases hesc : c.escaped with
    | true => simp [Term.render, PatChar.render, hesc, escape, Glob.star]
    | false =>
      have hnot := h.2 hesc
      simp only [mem_cons, not_mem_nil, or_false, not_or] at hnot
      simp [Term.render, PatChar.render, hesc, hnot]

/-- The terms after the leading stars. -/
def body (terms : List Term) : List Term := terms.dropWhile fun t => t = .star

/-- The terms of the first chunk. -/
def firstChunk (terms : List Term) : List Term := (body terms).takeWhile fun t => t ≠ .star

/-- The terms after the first chunk. -/
def afterChunk (terms : List Term) : List Term := (body terms).dropWhile fun t => t ≠ .star

theorem firstChunk_append_afterChunk (terms : List Term) :
    firstChunk terms ++ afterChunk terms = body terms := takeWhile_append_dropWhile

theorem body_suffix (terms : List Term) : body terms <:+ terms := dropWhile_suffix _

theorem afterChunk_suffix (terms : List Term) : afterChunk terms <:+ terms :=
  (dropWhile_suffix _).trans (body_suffix terms)

theorem chunkOk_firstChunk (h : ∀ t ∈ terms, t.Ok) : ChunkOk (firstChunk terms) := by
  intro t ht
  have hbody : t ∈ body terms := (takeWhile_sublist _).subset ht
  have hstar := mem_takeWhile_imp ht
  exact ⟨h t ((body_suffix terms).subset hbody), by simpa using hstar⟩

theorem head_of_dropWhile {p : Term → Bool} {more : List Term} (h : terms.dropWhile p = t :: more) :
    p t = false := by
  have hhead := head?_dropWhile_not p terms
  rwa [h] at hhead

theorem afterChunk_cases (terms : List Term) :
    afterChunk terms = [] ∨ ∃ more, afterChunk terms = .star :: more := by
  cases hafter : afterChunk terms with
  | nil => exact Or.inl rfl
  | cons t more =>
    obtain rfl : t = .star := by simpa using head_of_dropWhile hafter
    exact Or.inr ⟨more, rfl⟩

theorem dropWhile_star_render (h : ∀ t ∈ terms, t.Ok) :
    (render terms).dropWhile (· = star) = render (body terms) := by
  induction terms with
  | nil => rfl
  | cons t terms ih =>
    by_cases hstar : t = .star
    · subst hstar
      rw [render_cons, Term.render, singleton_append, dropWhile_cons_of_pos (by simp),
        ih (forall_mem_cons.mp h).2, body, body, dropWhile_cons_of_pos (by simp)]
    have hhead := Term.head_render (h t mem_cons_self) hstar (render terms)
    rw [body, dropWhile_cons_of_neg (by simpa using hstar), render_cons]
    cases htext : t.render ++ render terms with
    | nil => rfl
    | cons c cs =>
      rw [htext] at hhead
      exact dropWhile_cons_of_neg (by simpa using hhead)

theorem scanChunk_render (h : ∀ t ∈ terms, t.Ok) :
    scanChunk (render terms) =
      (decide (terms.head? = some .star), render (firstChunk terms),
        render (afterChunk terms)) := by
  have hlen := chunkLength_render (chunkOk_firstChunk h) (afterChunk_cases terms)
  have hstar : (render terms).head? = some star ↔ terms.head? = some .star := by
    cases terms with
    | nil => exact ⟨nofun, nofun⟩
    | cons t terms =>
      by_cases hstar : t = .star
      · subst hstar
        exact ⟨fun _ => rfl, fun _ => rfl⟩
      have hhead := Term.head_render (h t mem_cons_self) hstar (render terms)
      rw [render_cons, head?_cons, Option.some.injEq]
      exact ⟨fun h => absurd h hhead, fun h => absurd h hstar⟩
  simp only [scanChunk, dropWhile_star_render h, hstar]
  rw [← firstChunk_append_afterChunk, render_append, hlen, take_left, drop_left]

/-- The leading stars are one star. -/
theorem describes_iff_body (terms : List Term) (name : Bytes) :
    Describes terms name ↔ Matches ((if terms.head? = some .star then [Sign.star] else []) ++
      (body terms).map Term.sign) name := by
  induction terms generalizing name with
  | nil => rfl
  | cons t terms ih =>
    by_cases hstar : t = .star
    · subst hstar
      have hbody : body (.star :: terms) = body terms := dropWhile_cons_of_pos (by simp)
      rw [hbody, head?_cons, if_pos rfl, singleton_append]
      have hmore : Describes (.star :: terms) name ↔
          Matches (.star :: ((if terms.head? = some .star then [Sign.star] else []) ++
            (body terms).map Term.sign)) name := by
        rw [Describes, map_cons, Term.sign, matches_star_iff, matches_star_iff]
        simp only [← ih]
        rfl
      rw [hmore]
      split
      · exact matches_star_star_iff
      · rfl
    · have hbody : body (t :: terms) = t :: terms := dropWhile_cons_of_neg (by simpa using hstar)
      rw [hbody, head?_cons, if_neg (by simpa using hstar)]
      rfl

theorem map_sign_of_chunkOk (h : ChunkOk chunk) :
    chunk.map Term.sign = (chunk.map Term.accepts).map Sign.one := by
  rw [map_map]
  apply map_congr_left
  intro t ht
  cases t with
  | star => exact absurd rfl (h _ ht).2
  | any | cls | char => rfl

theorem describes_iff_chunk (h : ∀ t ∈ terms, t.Ok) (name : Bytes) :
    Describes terms name ↔ Matches (StarPattern.chunkSigns (terms.head? = some .star)
      ((firstChunk terms).map Term.accepts) ++ (afterChunk terms).map Term.sign) name := by
  rw [describes_iff_body, ← firstChunk_append_afterChunk, map_append,
    map_sign_of_chunkOk (chunkOk_firstChunk h), StarPattern.chunkSigns, append_assoc]
  simp only [decide_eq_true_eq]

/-! ## The matcher decides the language -/

theorem render_isEmpty (terms : List Term) : (render terms).isEmpty = terms.isEmpty := by
  cases terms with
  | nil => rfl
  | cons t terms =>
    obtain ⟨c, cs, hrender⟩ := exists_cons_of_ne_nil (Term.render_ne_nil t)
    rw [render_cons, hrender]
    rfl

/-- A pattern that is not empty gets shorter by its first chunk. -/
theorem length_afterChunk (h : terms ≠ []) : (afterChunk terms).length < terms.length := by
  obtain ⟨t, terms, rfl⟩ := exists_cons_of_ne_nil h
  by_cases hstar : t = .star
  · have hafter : afterChunk (t :: terms) = afterChunk terms := by
      rw [afterChunk, afterChunk, body, body, dropWhile_cons_of_pos (by simpa using hstar)]
    rw [hafter]
    exact Nat.lt_succ_of_le (afterChunk_suffix terms).length_le
  · rw [afterChunk, body, dropWhile_cons_of_neg (by simpa using hstar),
      dropWhile_cons_of_pos (by simpa using hstar)]
    exact Nat.lt_succ_of_le (dropWhile_suffix _).length_le

/-- Only stars: every name is described. -/
theorem describes_of_firstChunk_nil (hstar : terms.head? = some .star) (h : firstChunk terms = [])
    (name : Bytes) : Describes terms name := by
  have hbody : body terms = [] := by
    cases hb : body terms with
    | nil => rfl
    | cons t more =>
      have hne : t ≠ .star := by simpa using head_of_dropWhile hb
      rw [firstChunk, hb, takeWhile_cons_of_pos (by simpa using hne)] at h
      cases h
  rw [describes_iff_body, if_pos hstar, hbody]
  exact matches_star_iff.mpr ⟨[], nil_suffix, .nil⟩

/-- `wildcardMatch` decides the documented language, for patterns of ASCII
terms and ASCII names. -/
theorem wildcardMatch_correct (terms : List Term) (h : ∀ t ∈ terms, t.Ok) (name : Bytes)
    (hname : Ascii name) :
    ∃ matched, wildcardMatch (render terms) name = .ok matched ∧
      (matched = true ↔ Describes terms name) := by
  -- by the number of terms; a round of the loop takes off a chunk
  induction hn : terms.length using Nat.strong_induction_on generalizing terms name with
  | _ n ih =>
    by_cases hnil : terms = []
    · subst hnil
      refine ⟨name.isEmpty, by rw [show render [] = [] from rfl, wildcardMatch], ?_⟩
      rw [List.isEmpty_iff]
      exact matches_nil_iff.symm
    have hrender : render terms ≠ [] := by
      rw [← isEmpty_eq_false_iff, render_isEmpty, isEmpty_eq_false_iff]
      exact hnil
    have hchunk := chunkOk_firstChunk h
    rw [wildcardMatch_of_ne_nil hrender, scanChunk_render h]
    simp only [render_isEmpty, findChunk_render hchunk _ _ hname, decide_eq_true_eq]
    split_ifs with hstars
    · exact ⟨true, rfl, fun _ =>
        describes_of_firstChunk_nil hstars.1 (isEmpty_iff.mp hstars.2) name, fun _ => rfl⟩
    have hsigns : (afterChunk terms).map Term.sign = [] ∨
        ∃ more, (afterChunk terms).map Term.sign = .star :: more := by
      rcases afterChunk_cases terms with hafter | ⟨more, hafter⟩
      · exact Or.inl (by rw [hafter]; rfl)
      · exact Or.inr ⟨_, by rw [hafter]; rfl⟩
    rw [describes_iff_chunk h, matches_chunk_iff hsigns, isEmpty_map]
    cases hfind : StarPattern.find (decide (terms.head? = some .star))
        (afterChunk terms).isEmpty ((firstChunk terms).map Term.accepts) name with
    | none => exact ⟨false, rfl, by simp⟩
    | some t =>
      obtain ⟨s, hs, -, heat⟩ := (find_place hfind).at_suffix
      have ht : Ascii t := by
        rw [eat_eq_drop heat]
        exact (hname.of_suffix hs).of_suffix (drop_suffix _ _)
      obtain ⟨matched, hrest, hiff⟩ := ih _ (hn ▸ length_afterChunk hnil)
        (afterChunk terms) (fun u hu => h u ((afterChunk_suffix terms).subset hu)) t ht rfl
      refine ⟨matched, hrest, hiff.trans ?_⟩
      simp [Describes]

/-- A class with a range, an escaped star, and two stars. -/
theorem wildcardMatch_correct_class :
    let terms : List Term := [.cls true [.between ⟨false, 97⟩ ⟨false, 99⟩], .char ⟨true, 42⟩,
      .star, .any, .char ⟨false, 120⟩, .star]
    render terms = lit "[^a-c]\\**?x*" ∧ (∀ t ∈ terms, t.Ok) ∧ Ascii (lit "d*yx") ∧
      Describes terms (lit "d*yx") := by
  refine ⟨by decide, by decide, by decide +kernel, ?_⟩
  obtain ⟨matched, hmatch, hiff⟩ := wildcardMatch_correct
    [.cls true [.between ⟨false, 97⟩ ⟨false, 99⟩], .char ⟨true, 42⟩, .star, .any,
      .char ⟨false, 120⟩, .star] (by decide) (lit "d*yx") (by decide +kernel)
  refine hiff.mp (ok.inj (hmatch.symm.trans ?_))
  decide +kernel

end SpatialDb.Glob
