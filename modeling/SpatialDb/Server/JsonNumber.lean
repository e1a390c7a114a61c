import SpatialDb.Server.Args

/-!
# Numbers of JSON

`isJSONNumber` of `internal/legacy/server/json.go` against the grammar it cites.
The scanner takes as many digits as there are for the integer part, and goes on
when there are none: a fraction or an exponent alone is accepted.
-/

namespace SpatialDb.Server

open Lib List

variable (s : Bytes)

/-! ## The grammar -/

namespace Json

variable (s : Bytes)

/-- One or more digits. -/
def Digits : Prop := s ≠ [] ∧ ∀ c ∈ s, isDigit c = true

/-- Zero, or digits that do not begin with zero. -/
def IntPart : Prop := s = [48] ∨ Digits s ∧ s.head? ≠ some 48

/-- Nothing, or a point and digits. -/
def FracPart : Prop := s = [] ∨ ∃ ds, Digits ds ∧ s = 46 :: ds

/-- Nothing, or the letter e, perhaps a sign, and digits. -/
def ExpPart : Prop :=
  s = [] ∨ ∃ e sign ds, (e = 101 ∨ e = 69) ∧ sign ∈ [[], [43], [45]] ∧ Digits ds ∧
    s = e :: (sign ++ ds)

/-- A number: perhaps a minus, then an integer part, a fraction and an exponent. -/
def Number : Prop :=
  ∃ minus int frac exp, minus ∈ [[], [45]] ∧ IntPart int ∧ FracPart frac ∧ ExpPart exp ∧
    s = minus ++ (int ++ (frac ++ exp))

/-- A fraction or an exponent without an integer part before it. -/
def NoInteger : Prop :=
  ∃ minus frac exp, minus ∈ [[], [45]] ∧ FracPart frac ∧ ExpPart exp ∧ frac ++ exp ≠ [] ∧
    s = minus ++ (frac ++ exp)

/-- A value of JSON that is not a string and has no parts. -/
def Scalar : Prop :=
  Number s ∨ s = lit "true" ∨ s = lit "false" ∨ s = lit "null"

end Json

open Json

/-! ## The scanner -/

/-- What does not begin with a digit. -/
def NoDigit (s : Bytes) : Prop := ∀ c ∈ s.head?, isDigit c = false

theorem NoDigit.dropWhile {s : Bytes} (h : NoDigit s) : s.dropWhile isDigit = s := by
  cases s with
  | nil => rfl
  | cons c s => exact dropWhile_cons_of_neg (by simp [h c rfl])

theorem dropWhile_digits {ds rest : Bytes} (hds : ∀ c ∈ ds, isDigit c = true)
    (hrest : NoDigit rest) : (ds ++ rest).dropWhile isDigit = rest := by
  rw [dropWhile_append_of_pos hds, hrest.dropWhile]

theorem digits_cons_iff {c : UInt8} {s : Bytes} :
    Digits (c :: s) ↔ isDigit c = true ∧ (s.dropWhile isDigit).isEmpty = true := by
  simp [Digits, dropWhile_eq_nil_iff]

/-- Digits, then what is behind them. -/
theorem exists_digits {c : UInt8} (hc : isDigit c = true) (s : Bytes) :
    ∃ ds, Digits (c :: ds) ∧ s = ds ++ s.dropWhile isDigit := by
  refine ⟨s.takeWhile isDigit, ⟨by simp, ?_⟩, takeWhile_append_dropWhile.symm⟩
  rw [forall_mem_cons]
  exact ⟨hc, fun x hx => mem_takeWhile_imp hx⟩

/-- A fraction begins with a point, an exponent with the letter. -/
theorem head_frac_exp {frac exp : Bytes} (hfrac : FracPart frac) (hexp : ExpPart exp) :
    ∀ c ∈ (frac ++ exp).head?, c = 46 ∨ c = 101 ∨ c = 69 := by
  rcases hfrac with rfl | ⟨ds, -, rfl⟩
  · rcases hexp with rfl | ⟨e, sign, ds, he, -, -, rfl⟩
    · rintro c ⟨⟩
    · rintro c ⟨⟩
      exact .inr he
  · rintro c ⟨⟩
    exact .inl rfl

theorem noDigit_frac_exp {frac exp : Bytes} (hfrac : FracPart frac) (hexp : ExpPart exp) :
    NoDigit (frac ++ exp) := by
  intro c hc
  rcases head_frac_exp hfrac hexp c hc with rfl | rfl | rfl <;> decide

theorem Json.ExpPart.noDigit {s : Bytes} (h : ExpPart s) : NoDigit s :=
  noDigit_frac_exp (.inl rfl) h

theorem isJSONExp_iff : isJSONExp s = true ↔ ExpPart s := by
  constructor
  · intro h
    cases s with
    | nil => exact .inl rfl
    | cons e rest =>
      unfold isJSONExp at h
      dsimp only at h
      split at h
      · rename_i he
        -- the sign is taken off first
        obtain ⟨sign, ds, hsign, hrest, h⟩ : ∃ sign ds, sign ∈ [[], [43], [45]] ∧
            rest = sign ++ ds ∧ Digits ds := by
          cases rest with
          | nil => cases h
          | cons c rest =>
            by_cases hc : c = 43 ∨ c = 45
            · simp only [if_pos hc] at h
              cases rest with
              | nil => cases h
              | cons d rest =>
                refine ⟨[c], d :: rest, ?_, rfl, digits_cons_iff.mpr (by simpa using h)⟩
                rcases hc with rfl | rfl <;> simp
            · simp only [if_neg hc] at h
              exact ⟨[], c :: rest, by simp, rfl, digits_cons_iff.mpr (by simpa using h)⟩
        exact .inr ⟨e, sign, ds, he, hsign, h, by rw [hrest]⟩
      · cases h
  · rintro (rfl | ⟨e, sign, ds, he, hsign, hds, rfl⟩)
    · rfl
    · cases ds with
      | nil => exact absurd rfl hds.1
      | cons d ds =>
        have hd := digits_cons_iff.mp hds
        have hnot : ¬ (d = 43 ∨ d = 45) := by
          rintro (rfl | rfl) <;> exact absurd hd.1 (by decide)
        unfold isJSONExp
        dsimp only
        rw [if_pos he]
        simp only [mem_cons, not_mem_nil, or_false] at hsign
        rcases hsign with rfl | rfl | rfl
        · simp only [nil_append, if_neg hnot]
          simpa using hd
        · simpa using hd
        · simpa using hd

theorem isJSONFrac_iff :
    isJSONFrac s = true ↔ ∃ frac exp, FracPart frac ∧ ExpPart exp ∧ s = frac ++ exp := by
  constructor
  · intro h
    cases s with
    | nil => exact ⟨[], [], .inl rfl, .inl rfl, rfl⟩
    | cons b rest =>
      unfold isJSONFrac at h
      dsimp only at h
      split_ifs at h with hb
      · cases rest with
        | nil => cases h
        | cons c rest =>
          obtain ⟨hc, hexp⟩ : isDigit c = true ∧ isJSONExp (rest.dropWhile isDigit) = true := by
            simpa using h
          obtain ⟨ds, hds, hrest⟩ := exists_digits hc rest
          exact ⟨46 :: c :: ds, _, .inr ⟨_, hds, rfl⟩, (isJSONExp_iff _).mp hexp,
            by rw [hb, cons_append, cons_append, ← hrest]⟩
      · exact ⟨[], b :: rest, .inl rfl, (isJSONExp_iff _).mp h, rfl⟩
  · rintro ⟨frac, exp, rfl | ⟨ds, hds, rfl⟩, hexp, rfl⟩
    · rw [← isJSONExp_iff] at hexp
      rcases (isJSONExp_iff _).mp hexp with rfl | ⟨e, sign, ds, he, -, -, rfl⟩
      · rfl
      have hpoint : e ≠ 46 := by
        rcases he with rfl | rfl <;> decide
      unfold isJSONFrac
      exact (if_neg hpoint).trans hexp
    · cases ds with
      | nil => exact absurd rfl hds.1
      | cons d ds =>
        obtain ⟨hd, hall⟩ := forall_mem_cons.mp hds.2
        unfold isJSONFrac
        simp only [cons_append, if_true, hd, dropWhile_digits hall hexp.noDigit, Bool.true_and]
        exact (isJSONExp_iff exp).mpr hexp

/-- `isJSONNumber` behind the sign. -/
def isJSONUnsigned : Bytes → Bool
  | [] => false
  | c :: rest => if c = 48 then isJSONFrac rest else isJSONFrac ((c :: rest).dropWhile isDigit)

/-- An integer part, or none; then a fraction and an exponent. -/
theorem isJSONUnsigned_iff :
    isJSONUnsigned s = true ↔ s ≠ [] ∧ ∃ int frac exp, (IntPart int ∨ int = []) ∧ FracPart frac ∧
      ExpPart exp ∧ s = int ++ (frac ++ exp) := by
  cases s with
  | nil => simp [isJSONUnsigned]
  | cons c rest =>
    rw [isJSONUnsigned]
    constructor
    · intro h
      refine ⟨by simp, ?_⟩
      split_ifs at h with hc
      · obtain ⟨frac, exp, hfrac, hexp, rfl⟩ := (isJSONFrac_iff _).mp h
        exact ⟨[48], frac, exp, .inl (.inl rfl), hfrac, hexp, by rw [hc]; rfl⟩
      obtain ⟨frac, exp, hfrac, hexp, hdrop⟩ := (isJSONFrac_iff _).mp h
      by_cases hdigit : isDigit c = true
      · obtain ⟨ds, hds, hrest⟩ := exists_digits hdigit rest
        refine ⟨c :: ds, frac, exp, .inl (.inr ⟨hds, by simpa using hc⟩), hfrac, hexp, ?_⟩
        rw [dropWhile_cons_of_pos hdigit] at hdrop
        rw [← hdrop, cons_append, ← hrest]
      · rw [dropWhile_cons_of_neg hdigit] at hdrop
        exact ⟨[], frac, exp, .inr rfl, hfrac, hexp, hdrop⟩
    · rintro ⟨-, int, frac, exp, hint, hfrac, hexp, heq⟩
      have hparts := (isJSONFrac_iff _).mpr ⟨frac, exp, hfrac, hexp, rfl⟩
      have hnodigit := noDigit_frac_exp hfrac hexp
      rcases hint with (rfl | ⟨hds, hhead⟩) | rfl
      · cases heq
        rw [if_pos rfl]
        exact hparts
      · have hc : c ≠ 48 := by
          rintro rfl
          cases int with
          | nil => exact hds.1 rfl
          | cons d int =>
            cases heq
            exact hhead rfl
        rw [if_neg hc, heq, dropWhile_digits hds.2 hnodigit]
        exact hparts
      · rw [nil_append] at heq
        have hc : c ≠ 48 := by
          rintro rfl
          rw [← heq] at hnodigit
          exact absurd (hnodigit 48 rfl) (by decide)
        rw [if_neg hc, heq, hnodigit.dropWhile]
        exact hparts

theorem isJSONNumber_iff_unsigned :
    isJSONNumber s = true ↔ ∃ minus body, minus ∈ [[], [45]] ∧ isJSONUnsigned body = true ∧
      s = minus ++ body := by
  have hsigned : ∀ body, isJSONNumber (45 :: body) = isJSONUnsigned body := by
    intro body
    cases body <;> rfl
  -- without the minus the text stands for itself
  have hplain : ∀ body, isJSONUnsigned body = true → isJSONNumber body = true := by
    intro body h
    cases body with
    | nil => cases h
    | cons b rest =>
      have hb : b ≠ 45 := by
        rintro rfl
        cases h
      unfold isJSONNumber
      dsimp only
      rw [if_neg hb]
      exact h
  constructor
  · intro h
    cases s with
    | nil => cases h
    | cons b rest =>
      by_cases hb : b = 45
      · subst hb
        exact ⟨[45], rest, by simp, (hsigned rest).symm.trans h, rfl⟩
      unfold isJSONNumber at h
      dsimp only at h
      rw [if_neg hb] at h
      exact ⟨[], b :: rest, by simp, h, rfl⟩
  · rintro ⟨minus, body, hminus, hbody, rfl⟩
    simp only [mem_cons, not_mem_nil, or_false] at hminus
    rcases hminus with rfl | rfl
    · exact hplain body hbody
    · exact (hsigned body).trans hbody

/-- The texts that the scanner accepts: numbers, and numbers without an integer
part. -/
theorem isJSONNumber_iff_parts : isJSONNumber s = true ↔ Number s ∨ NoInteger s := by
  rw [isJSONNumber_iff_unsigned]
  constructor
  · rintro ⟨minus, body, hminus, hbody, rfl⟩
    obtain ⟨hne, int, frac, exp, hint | rfl, hfrac, hexp, rfl⟩ := (isJSONUnsigned_iff body).mp hbody
    · exact .inl ⟨minus, int, frac, exp, hminus, hint, hfrac, hexp, rfl⟩
    · exact .inr ⟨minus, frac, exp, hminus, hfrac, hexp, hne, rfl⟩
  · rintro (⟨minus, int, frac, exp, hminus, hint, hfrac, hexp, rfl⟩ |
      ⟨minus, frac, exp, hminus, hfrac, hexp, hne, rfl⟩)
    · refine ⟨minus, _, hminus, (isJSONUnsigned_iff _).mpr ⟨?_, int, frac, exp, .inl hint, hfrac,
        hexp,
        rfl⟩, rfl⟩
      rcases hint with rfl | ⟨hds, -⟩
      · simp
      · exact append_ne_nil_of_left_ne_nil hds.1 _
    · exact ⟨minus, _, hminus, (isJSONUnsigned_iff _).mpr ⟨hne, [], frac, exp, .inr rfl, hfrac,
        hexp,
        rfl⟩, rfl⟩

/-- The byte behind the minus tells the two apart. -/
theorem not_number_of_noInteger {s : Bytes} (h : NoInteger s) : ¬ Number s := by
  rintro ⟨minus', int, frac', exp', hminus', hint, -, -, heq⟩
  obtain ⟨minus, frac, exp, hminus, hfrac, hexp, hne, rfl⟩ := h
  obtain ⟨d, int', rfl, hd⟩ : ∃ d int', int = d :: int' ∧ isDigit d = true := by
    rcases hint with rfl | ⟨hds, -⟩
    · exact ⟨48, [], rfl, by decide⟩
    cases int with
    | nil => exact absurd rfl hds.1
    | cons d int' => exact ⟨d, int', rfl, hds.2 d mem_cons_self⟩
  have hhead := head_frac_exp hfrac hexp
  have hdigit : ¬ (d = 46 ∨ d = 101 ∨ d = 69) := by
    rintro (rfl | rfl | rfl) <;> exact absurd hd (by decide)
  simp only [mem_cons, not_mem_nil, or_false] at hminus hminus'
  rcases hminus with rfl | rfl <;> rcases hminus' with rfl | rfl
  · rw [nil_append] at heq
    rw [heq] at hhead
    exact hdigit (hhead d rfl)
  · rw [nil_append] at heq
    rw [heq] at hhead
    exact absurd (hhead 45 rfl) (by decide)
  · obtain ⟨rfl, -⟩ := cons.inj heq
    exact absurd hd (by decide)
  · have htail : frac ++ exp = d :: int' ++ (frac' ++ exp') := (cons.inj heq).2
    rw [htail] at hhead
    exact hdigit (hhead d rfl)

/-! ## JSET -/

/-- JSET without RAW stores the text as it is only if it is a value of JSON. -/
def RawOnlyScalars (s : Bytes) : Prop :=
  ∀ name key id path rest a, parseJSET (name :: key :: id :: path :: s :: rest) = .ok a →
    rest.map toLower ≠ [lit "raw"] → a.raw = true → Scalar s

theorem rawOnlyScalars_of_exact {s : Bytes} (h : isJSONNumber s = true → Number s) :
    RawOnlyScalars s := by
  intro name key id path rest a hparse hmode hraw
  cases rest with
  | nil =>
    cases hparse
    simp only [parseJSET.decided, Bool.or_eq_true, decide_eq_true_eq] at hraw
    rcases hraw with ((htrue | hfalse) | hnull) | hnumber
    · exact .inr (.inl htrue)
    · exact .inr (.inr (.inl hfalse))
    · exact .inr (.inr (.inr hnull))
    · exact .inl (h hnumber)
  | cons mode rest =>
    cases rest with
    | nil =>
      unfold parseJSET at hparse
      dsimp only at hparse
      rw [if_neg fun hraw => hmode (by rw [map_singleton, hraw])] at hparse
      split at hparse
      · cases hparse
        cases hraw
      · cases hparse
    | cons _ _ => cases hparse

/-- **For every text, `isJSONNumber` accepts exactly the numbers of JSON, and
JSET without RAW stores no other text as it is, if and only if the text is not a
fraction or an exponent without an integer part.** -/
theorem isJSONNumber_exact_iff (s : Bytes) :
    ((isJSONNumber s = true ↔ Number s) ∧ RawOnlyScalars s) ↔ ¬ NoInteger s := by
  constructor
  · rintro ⟨hexact, -⟩ hno
    exact not_number_of_noInteger hno (hexact.mp ((isJSONNumber_iff_parts s).mpr (.inr hno)))
  · intro hno
    have hexact : isJSONNumber s = true ↔ Number s := by
      rw [isJSONNumber_iff_parts, or_iff_left hno]
    exact ⟨hexact, rawOnlyScalars_of_exact hexact.mp⟩

/-- A fraction alone: JSET stores it as it is. -/
theorem isJSONNumber_point_five :
    isJSONNumber (lit ".5") = true ∧ ¬ Number (lit ".5") ∧
      (∃ a, parseJSET [lit "jset", lit "fleet", lit "truck", lit "speed", lit ".5"] = .ok a ∧
        a.val = lit ".5" ∧ a.raw = true) ∧
      ¬ RawOnlyScalars (lit ".5") := by
  have hdigits : Digits (lit "5") := ⟨by decide +kernel, by decide +kernel⟩
  have hno : NoInteger (lit ".5") :=
    ⟨[], 46 :: lit "5", [], by simp, .inr ⟨lit "5", hdigits, rfl⟩, .inl rfl, by simp,
      by decide +kernel⟩
  have hnumber := not_number_of_noInteger hno
  have hdecided : (parseJSET.decided (lit "fleet") (lit "truck") (lit "speed") (lit ".5")).raw =
      true := by decide +kernel
  refine ⟨by decide +kernel, hnumber, ⟨_, rfl, rfl, hdecided⟩, ?_⟩
  intro hraw
  rcases hraw (lit "jset") _ _ _ [] _ rfl (by simp) hdecided with hval | hval | hval | hval
  · exact hnumber hval
  · exact absurd hval (by decide +kernel)
  · exact absurd hval (by decide +kernel)
  · exact absurd hval (by decide +kernel)

end SpatialDb.Server
