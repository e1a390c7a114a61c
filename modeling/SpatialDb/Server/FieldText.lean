import SpatialDb.Lib.Resp
import SpatialDb.Server.Field

/-!
# The text of a value

`aofshrink` writes a field as the JSON of its value, and the load makes the
value again by `ValueOf`, which guesses the kind from the text: a float, JSON,
or a string, which may spell NaN or an infinity.  The printed form of each kind
is guessed back as that kind.
-/

namespace SpatialDb.Server

open Lib List

section

variable {N : Type*}

/-- What is known of the libraries: quoting and unquoting are inverse, a text
that begins with a double quote or a bracket is no float, and compacting keeps
JSON valid, does nothing twice and leaves the outer brackets. -/
structure FieldLib.JsonLaws (lib : FieldLib N) : Prop extends lib.ReadsSpecials where
  valid_quote : ∀ s, lib.valid (lib.quote s) = true
  parse_quote : ∀ s, lib.parse (lib.quote s) = (.string, s)
  quote_marks : ∀ s, ∃ inner, lib.quote s = 34 :: inner ++ [34]
  quote_special : ∀ s ∈ [lit "NaN", lit "+Inf", lit "-Inf"], lib.quote s = 34 :: s ++ [34]
  quote_not_float : ∀ s, (lib.parseFloat (34 :: s)).2 = false
  /-- The texts of null, true and false. -/
  word : ∀ d, lib.valid d = true → ∀ k w,
    (k, w) ∈ [(Kind.null, lit "null"), (.true, lit "true"), (.false, lit "false")] →
    (lib.parse d).1 = k →
    lib.valid w = true ∧ (lib.parse w).1 = k ∧ (lib.parseFloat w).2 = false
  valid_ugly : ∀ d, lib.valid d = true → lib.valid (lib.ugly d) = true
  ugly_ugly : ∀ d, lib.valid d = true → lib.ugly (lib.ugly d) = lib.ugly d
  ugly_brackets : ∀ d, lib.valid d = true → (lib.parse d).1 = .json →
    ∃ inner, lib.ugly d = 123 :: inner ++ [125] ∨ lib.ugly d = 91 :: inner ++ [93]
  bracket_not_float : ∀ b ∈ [123, 91], ∀ s, (lib.parseFloat (b :: s)).2 = false
  bracket_json : ∀ b ∈ [123, 91], ∀ s, lib.valid (b :: s) = true → (lib.parse (b :: s)).1 = .json

variable {d : Bytes}

variable [DecidableEq N] {lib : FieldLib N}

/-! ## One branch of `ValueOf` at a time -/

/-- The guess for JSON. -/
def jsonValue (lib : FieldLib N) (d : Bytes) : Value N :=
  match (lib.parse d).1 with
  | .null => ⟨.null, lit "null", .num lib.zero⟩
  | .json => ⟨.json, lib.ugly d, .num lib.zero⟩
  | .true => ⟨.true, lit "true", .num lib.zero⟩
  | .false => ⟨.false, lit "false", .num lib.zero⟩
  | .number => textValue lib (lib.parse d).2
  | .string => textValue lib (lib.parse d).2

theorem valueOf_eq (lib : FieldLib N) {s d : Bytes} (hd : trimSpace s = d) :
    valueOf lib s =
      if (lib.parseFloat d).2 = true then
        if (lib.parseFloat d).1 = .num lib.pinf then pinfValue lib
        else if (lib.parseFloat d).1 = .num lib.ninf then ninfValue lib
        else if (lib.parseFloat d).1 = .nan then nanValue
        else if lib.valid d = true then ⟨.number, d, (lib.parseFloat d).1⟩
        else textValue lib d
      else if lib.valid d = true then jsonValue lib d
      else textValue lib d := by
  subst hd
  unfold valueOf
  simp only [trimSpace_trimSpace]
  rfl

/-- A text that is no float and is JSON. -/
theorem valueOf_valid (htrim : trimSpace d = d) (hfloat : (lib.parseFloat d).2 = false)
    (hvalid : lib.valid d = true) : valueOf lib d = jsonValue lib d := by
  rw [valueOf_eq lib htrim, hfloat, if_neg Bool.false_ne_true, if_pos hvalid]

omit [DecidableEq N] in
theorem textValue_cases (lib : FieldLib N) (s : Bytes) :
    textValue lib s ∈ [nanValue, pinfValue lib, ninfValue lib] ∨
      textValue lib s = ⟨.string, s, .num lib.zero⟩ := by
  unfold textValue
  dsimp only
  repeat' split
  all_goals simp

/-- The values that `ValueOf` returns. -/
inductive Guessed (lib : FieldLib N) : Value N → Prop where
  | special {v : Value N} : v ∈ [nanValue, pinfValue lib, ninfValue lib] → Guessed lib v
  | number {d : Bytes} {n : F64 N} : trimSpace d = d → lib.parseFloat d = (n, true) →
      n ≠ .num lib.pinf → n ≠ .num lib.ninf → n ≠ .nan → lib.valid d = true →
      Guessed lib ⟨.number, d, n⟩
  | word {d : Bytes} {k : Kind} {w : Bytes} : lib.valid d = true → (lib.parse d).1 = k →
      (k, w) ∈ [(Kind.null, lit "null"), (.true, lit "true"), (.false, lit "false")] →
      Guessed lib ⟨k, w, .num lib.zero⟩
  | json {d : Bytes} : lib.valid d = true → (lib.parse d).1 = .json →
      Guessed lib ⟨.json, lib.ugly d, .num lib.zero⟩
  | text {s : Bytes} : textValue lib s = ⟨.string, s, .num lib.zero⟩ →
      Guessed lib ⟨.string, s, .num lib.zero⟩

omit [DecidableEq N] in
theorem guessed_textValue (lib : FieldLib N) (s : Bytes) : Guessed lib (textValue lib s) := by
  obtain hspecial | htext := textValue_cases lib s
  · exact .special hspecial
  · have h := Guessed.text htext
    rwa [← htext] at h

omit [DecidableEq N] in
theorem guessed_jsonValue (hvalid : lib.valid d = true) : Guessed lib (jsonValue lib d) := by
  unfold jsonValue
  cases hkind : (lib.parse d).1 with
  | null => exact .word hvalid hkind (by simp)
  | false => exact .word hvalid hkind (by simp)
  | number => exact guessed_textValue lib _
  | string => exact guessed_textValue lib _
  | true => exact .word hvalid hkind (by simp)
  | json => exact .json hvalid hkind

theorem guessed_valueOf (lib : FieldLib N) (s : Bytes) : Guessed lib (valueOf lib s) := by
  have htrim := trimSpace_trimSpace s
  generalize hd : trimSpace s = d at htrim
  rw [valueOf_eq lib hd]
  by_cases hok : (lib.parseFloat d).2 = true
  · rw [if_pos hok]
    by_cases hp : (lib.parseFloat d).1 = .num lib.pinf
    · rw [if_pos hp]
      exact .special (by simp)
    by_cases hn : (lib.parseFloat d).1 = .num lib.ninf
    · rw [if_neg hp, if_pos hn]
      exact .special (by simp)
    by_cases hnan : (lib.parseFloat d).1 = .nan
    · rw [if_neg hp, if_neg hn, if_pos hnan]
      exact .special (by simp)
    rw [if_neg hp, if_neg hn, if_neg hnan]
    split_ifs with hvalid
    · exact .number htrim (Prod.ext rfl hok) hp hn hnan hvalid
    · exact guessed_textValue lib d
  · rw [if_neg hok]
    split_ifs with hvalid
    · exact guessed_jsonValue hvalid
    · exact guessed_textValue lib d

/-! ## Back from the printed text -/

/-- A quoted text is guessed as the text, or as the special value it spells. -/
theorem FieldLib.JsonLaws.valueOf_quote (h : lib.JsonLaws) (s : Bytes) :
    valueOf lib (lib.quote s) = textValue lib s := by
  obtain ⟨inner, hinner⟩ := h.quote_marks s
  have htrim : trimSpace (lib.quote s) = lib.quote s := by
    rw [hinner]
    exact trimSpace_between (by decide) (by decide) inner
  have hfloat : (lib.parseFloat (lib.quote s)).2 = false := by
    rw [hinner]
    exact h.quote_not_float _
  rw [valueOf_valid htrim hfloat (h.valid_quote s), jsonValue, h.parse_quote]

omit [DecidableEq N] in
/-- The special values and their spellings. -/
theorem textValue_special (lib : FieldLib N) : textValue lib (lit "NaN") = nanValue ∧
    textValue lib (lit "+Inf") = pinfValue lib ∧ textValue lib (lit "-Inf") = ninfValue lib := by
  refine ⟨?_, ?_, ?_⟩
  · unfold textValue
    rw [if_pos (by decide +kernel), if_pos (by decide +kernel)]
  · unfold textValue
    rw [if_pos (by decide +kernel), if_neg (by decide +kernel), if_pos (by decide +kernel)]
  · unfold textValue
    rw [if_pos (by decide +kernel), if_neg (by decide +kernel), if_neg (by decide +kernel),
      if_pos (by decide +kernel)]

section

variable (h : lib.JsonLaws)
include h

theorem FieldLib.JsonLaws.valueOf_json_special {v : Value N}
    (hv : v ∈ [nanValue, pinfValue lib, ninfValue lib]) : valueOf lib (v.json lib) = v := by
  have hquote := h.quote_special
  simp only [mem_cons, not_mem_nil, or_false, forall_eq_or_imp, forall_eq] at hv hquote
  obtain ⟨hnan, hpinf, hninf⟩ := hquote
  obtain ⟨htnan, htpinf, htninf⟩ := textValue_special lib
  have hmarks : lit "\"NaN\"" = 34 :: lit "NaN" ++ [34] ∧
      lit "\"+Inf\"" = 34 :: lit "+Inf" ++ [34] ∧ lit "\"-Inf\"" = 34 :: lit "-Inf" ++ [34] := by
    decide +kernel
  rcases hv with rfl | rfl | rfl
  · have hjson : (nanValue : Value N).json lib = lib.quote (lit "NaN") := by
      unfold Value.json nanValue
      rw [if_pos rfl, hmarks.1, hnan]
    rw [hjson, h.valueOf_quote, htnan]
  · have hjson : (pinfValue lib).json lib = lib.quote (lit "+Inf") := by
      unfold Value.json pinfValue
      dsimp only
      rw [if_neg (by decide +kernel), if_pos rfl, hmarks.2.1, hpinf]
    rw [hjson, h.valueOf_quote, htpinf]
  · have hjson : (ninfValue lib).json lib = lib.quote (lit "-Inf") := by
      unfold Value.json ninfValue
      dsimp only
      rw [if_neg (by decide +kernel), if_neg (by decide +kernel), if_pos rfl, hmarks.2.2, hninf]
    rw [hjson, h.valueOf_quote, htninf]

/-- A finite number is printed as it was written. -/
theorem FieldLib.JsonLaws.json_number {n : F64 N}
    (hfloat : lib.parseFloat d = (n, true)) (hp : n ≠ .num lib.pinf) (hn : n ≠ .num lib.ninf)
    (hnan : n ≠ .nan) : (⟨.number, d, n⟩ : Value N).json lib = d := by
  have hnum : (lib.parseFloat d).1 = n := by rw [hfloat]
  unfold Value.json
  rw [if_neg, if_neg, if_neg]
  · rintro rfl
    exact hn (hnum.symm.trans h.ninf)
  · rintro rfl
    exact hp (hnum.symm.trans h.pinf)
  · rintro rfl
    exact hnan (hnum.symm.trans h.nan)

theorem FieldLib.JsonLaws.valueOf_word {k : Kind} {w : Bytes}
    (hvalid : lib.valid d = true) (hkind : (lib.parse d).1 = k)
    (hword : (k, w) ∈ [(Kind.null, lit "null"), (.true, lit "true"), (.false, lit "false")]) :
    valueOf lib ((⟨k, w, .num lib.zero⟩ : Value N).json lib) = ⟨k, w, .num lib.zero⟩ := by
  obtain ⟨hw, hkw, hfloat⟩ := h.word d hvalid k w hword hkind
  have htrim : ∀ w ∈ [lit "null", lit "true", lit "false"], trimSpace w = w := by decide
  simp only [mem_cons, not_mem_nil, or_false, Prod.mk.injEq] at hword
  rcases hword with ⟨rfl, rfl⟩ | ⟨rfl, rfl⟩ | ⟨rfl, rfl⟩
  · have hjson : (⟨.null, lit "null", .num lib.zero⟩ : Value N).json lib = lit "null" := by
      have hne : (⟨.null, lit "null", .num lib.zero⟩ : Value N) ≠ Value.blank lib := by
        intro hblank
        have hdata : lit "null" = [] := congrArg Value.data hblank
        exact absurd hdata (by decide)
      unfold Value.json
      rw [if_pos hne]
    rw [hjson, valueOf_valid (htrim _ (by simp)) hfloat hw, jsonValue, hkw]
  · show valueOf lib (lit "true") = _
    rw [valueOf_valid (htrim _ (by simp)) hfloat hw, jsonValue, hkw]
  · show valueOf lib (lit "false") = _
    rw [valueOf_valid (htrim _ (by simp)) hfloat hw, jsonValue, hkw]

theorem FieldLib.JsonLaws.valueOf_ugly
    (hvalid : lib.valid d = true) (hkind : (lib.parse d).1 = .json) :
    valueOf lib (lib.ugly d) = ⟨.json, lib.ugly d, .num lib.zero⟩ := by
  have hugly := h.valid_ugly d hvalid
  have hguess : trimSpace (lib.ugly d) = lib.ugly d ∧ (lib.parseFloat (lib.ugly d)).2 = false ∧
      (lib.parse (lib.ugly d)).1 = .json := by
    obtain ⟨inner, hb | hb⟩ := h.ugly_brackets d hvalid hkind
    · rw [hb] at hugly ⊢
      exact ⟨trimSpace_between (by decide) (by decide) inner, h.bracket_not_float 123 (by simp) _,
        h.bracket_json 123 (by simp) _ hugly⟩
    rw [hb] at hugly ⊢
    exact ⟨trimSpace_between (by decide) (by decide) inner, h.bracket_not_float 91 (by simp) _,
      h.bracket_json 91 (by simp) _ hugly⟩
  obtain ⟨htrim, hfloat, hjson⟩ := hguess
  rw [valueOf_valid htrim hfloat hugly, jsonValue, hjson, h.ugly_ugly d hvalid]

theorem Guessed.valueOf_printed {v : Value N} (hv : Guessed lib v) :
    valueOf lib (v.json lib) = v := by
  cases hv with
  | special hv => exact h.valueOf_json_special hv
  | @number d n htrim hfloat hp hn hnan hvalid =>
    rw [h.json_number hfloat hp hn hnan, valueOf_eq lib htrim, hfloat, if_pos rfl, if_neg hp,
      if_neg hn, if_neg hnan, if_pos hvalid]
  | word hvalid hkind hword => exact h.valueOf_word hvalid hkind hword
  | json hvalid hkind => exact h.valueOf_ugly hvalid hkind
  | @text s htext =>
    show valueOf lib (lib.quote s) = _
    rw [h.valueOf_quote, htext]

end

end

/-! ## A small instance

Whole numbers of up to five digits, strings without escapes, and brackets with
anything between them. -/

def between (b e : UInt8) (d : Bytes) : Bool :=
  2 ≤ d.length && d.head? = some b && d.getLast? = some e

theorem between_iff {b e : UInt8} : between b e d = true ↔ ∃ inner, d = b :: inner ++ [e] := by
  simp only [between, Bool.and_eq_true, decide_eq_true_eq]
  constructor
  · rintro ⟨⟨hlen, hhead⟩, hlast⟩
    obtain ⟨t, rfl⟩ := head?_eq_some_iff.mp hhead
    have hne : t ≠ [] := by
      rintro rfl
      exact absurd hlen (by simp)
    rw [getLast?_cons_of_ne_nil hne] at hlast
    obtain ⟨inner, rfl⟩ := getLast?_eq_some_iff.mp hlast
    exact ⟨inner, rfl⟩
  · rintro ⟨inner, rfl⟩
    refine ⟨⟨?_, rfl⟩, ?_⟩
    · simp
    · rw [getLast?_append]
      rfl

def allDigits (d : Bytes) : Bool := d ≠ [] && d.all isDigitByte

def smallLib : FieldLib ℤ where
  zero := 0
  pinf := 100000
  ninf := -100000
  parseFloat d :=
    if allDigits d && d.length ≤ 5 then (.num (digitsValue d), true)
    else if d = lit "NaN" then (.nan, true)
    else if d = lit "+Inf" then (.num 100000, true)
    else if d = lit "-Inf" then (.num (-100000), true)
    else (.num 0, false)
  valid d := allDigits d || d ∈ [lit "null", lit "true", lit "false"] || between 34 34 d ||
    between 123 125 d || between 91 93 d
  parse d :=
    if d.head? = some 34 then (.string, d.tail.dropLast)
    else if d = lit "null" then (.null, [])
    else if d = lit "true" then (.true, lit "true")
    else if d = lit "false" then (.false, lit "false")
    else if d.head? = some 123 ∨ d.head? = some 91 then (.json, d)
    else (.number, d)
  get d path :=
    if (123 :: 34 :: path ++ lit "\":").isPrefixOf d then
      some (.number, (d.drop (path.length + 4)).dropLast)
    else none
  quote s := 34 :: s ++ [34]
  ugly d := d

theorem smallLib_not_float {b : UInt8} (hb : b ∈ [34, 123, 91]) (s : Bytes) :
    (smallLib.parseFloat (b :: s)).2 = false := by
  simp only [mem_cons, not_mem_nil, or_false] at hb
  have hdigit : isDigitByte b = false := by rcases hb with rfl | rfl | rfl <;> rfl
  have hword : ∀ word ∈ [lit "NaN", lit "+Inf", lit "-Inf"], b :: s ≠ word := by
    have hhead : ∀ word ∈ [lit "NaN", lit "+Inf", lit "-Inf"], word.head? ≠ some b := by
      rcases hb with rfl | rfl | rfl <;> decide
    rintro word hmem rfl
    exact hhead _ hmem rfl
  simp only [mem_cons, not_mem_nil, or_false, forall_eq_or_imp, forall_eq] at hword
  obtain ⟨hnan, hpinf, hninf⟩ := hword
  have hall : allDigits (b :: s) = false := by simp [allDigits, hdigit]
  simp only [smallLib, hall, hnan, hpinf, hninf, Bool.false_and, Bool.false_eq_true, if_false]

/-- A text that begins with a bracket is JSON if it ends with the other one. -/
theorem smallLib_bracket {b e : UInt8} (hb : (b, e) ∈ [((123 : UInt8), (125 : UInt8)), (91, 93)])
    (s : Bytes) : (smallLib.parse (b :: s)).1 = .json ∧
      (smallLib.valid (b :: s) = true → between b e (b :: s) = true) := by
  simp only [mem_cons, not_mem_nil, or_false, Prod.mk.injEq] at hb
  have hword : ∀ word ∈ [lit "null", lit "true", lit "false"], b :: s ≠ word := by
    have hhead : ∀ word ∈ [lit "null", lit "true", lit "false"], word.head? ≠ some b := by
      rcases hb with ⟨rfl, -⟩ | ⟨rfl, -⟩ <;> decide
    rintro word hmem rfl
    exact hhead _ hmem rfl
  simp only [mem_cons, not_mem_nil, or_false, forall_eq_or_imp, forall_eq] at hword
  obtain ⟨hnull, htrue, hfalse⟩ := hword
  rcases hb with ⟨rfl, rfl⟩ | ⟨rfl, rfl⟩
  · refine ⟨by simp [smallLib, hnull, htrue, hfalse], ?_⟩
    simp [smallLib, allDigits, isDigitByte, hnull, htrue, hfalse, between]
  · refine ⟨by simp [smallLib, hnull, htrue, hfalse], ?_⟩
    simp [smallLib, allDigits, isDigitByte, hnull, htrue, hfalse, between]

theorem jsonLaws_small : smallLib.JsonLaws where
  nan := by decide
  pinf := by decide
  ninf := by decide
  valid_quote := by
    intro s
    have hbetween : between 34 34 (34 :: s ++ [34]) = true := between_iff.mpr ⟨s, rfl⟩
    show (_ || between 34 34 (34 :: s ++ [34]) || _ || _) = true
    rw [hbetween, Bool.or_true, Bool.true_or, Bool.true_or]
  parse_quote := by
    intro s
    simp [smallLib]
  quote_marks := fun s => ⟨s, rfl⟩
  quote_special := fun _ _ => rfl
  quote_not_float := smallLib_not_float (by simp)
  word := by
    have hwords : ∀ p ∈ [(Kind.null, lit "null"), (.true, lit "true"), (.false, lit "false")],
        smallLib.valid p.2 = true ∧ (smallLib.parse p.2).1 = p.1 ∧
          (smallLib.parseFloat p.2).2 = false := by decide
    exact fun _ _ k w hword _ => hwords (k, w) hword
  valid_ugly := fun _ h => h
  ugly_ugly := fun _ _ => rfl
  ugly_brackets := by
    intro d hvalid hkind
    obtain ⟨b, e, hb, s, rfl⟩ : ∃ b e, (b, e) ∈ [((123 : UInt8), (125 : UInt8)), (91, 93)] ∧
        ∃ s, d = b :: s := by
      simp only [smallLib] at hkind
      split_ifs at hkind with h1 h2 h3 h4 h5
      obtain hhead | hhead := h5
      · exact ⟨123, 125, by simp, head?_eq_some_iff.mp hhead⟩
      · exact ⟨91, 93, by simp, head?_eq_some_iff.mp hhead⟩
    obtain ⟨inner, hinner⟩ := between_iff.mp ((smallLib_bracket hb s).2 hvalid)
    refine ⟨inner, ?_⟩
    simp only [mem_cons, not_mem_nil, or_false, Prod.mk.injEq] at hb
    rcases hb with ⟨rfl, rfl⟩ | ⟨rfl, rfl⟩
    · exact .inl hinner
    · exact .inr hinner
  bracket_not_float := fun b hb => smallLib_not_float (mem_cons_of_mem 34 hb)
  bracket_json := by
    intro b hb s _
    simp only [mem_cons, not_mem_nil, or_false] at hb
    rcases hb with rfl | rfl
    · exact (smallLib_bracket (e := 125) (by simp) s).1
    · exact (smallLib_bracket (e := 93) (by simp) s).1

variable {N : Type*} [DecidableEq N] {lib : FieldLib N}

/-- The value of a string, printed as `aofshrink` prints it and parsed as the
load parses it, is the same: kind, data and number. -/
theorem valueOf_json (h : lib.JsonLaws) (s : Bytes) :
    valueOf lib ((valueOf lib s).json lib) = valueOf lib s :=
  (guessed_valueOf lib s).valueOf_printed h

theorem valueOf_json_small :
    smallLib.JsonLaws ∧ valueOf smallLib ((valueOf smallLib (lit " [1,2] ")).json smallLib) =
      ⟨.json, lit "[1,2]", .num 0⟩ :=
  ⟨jsonLaws_small, (valueOf_json jsonLaws_small (lit " [1,2] ")).trans (by decide +kernel)⟩

end SpatialDb.Server
