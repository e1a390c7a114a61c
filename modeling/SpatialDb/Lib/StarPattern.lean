import SpatialDb.Lib.Bytes

/-!
# Patterns with stars

A pattern is a sequence of stars and of tests for one symbol each.  It is
matched chunk by chunk: the tests between two stars are tried at each place of
the text from the left, and the first place where they succeed is kept.  The
last chunk has to end where the text ends.

Keeping the first place loses nothing: what follows is empty, and then only
the end of the text counts, or starts with a star, and then a longer rest of
the text is matched whenever a shorter one is.
-/

namespace SpatialDb.Lib.StarPattern

open List Option

variable {α : Type*}

/-- One sign of a pattern. -/
inductive Sign (α : Type*) where
  | star
  | one (test : α → Bool)

/-- The texts that a pattern describes. -/
inductive Matches : List (Sign α) → List α → Prop
  | nil : Matches [] []
  | star (skipped : List α) {signs : List (Sign α)} {s : List α} (h : Matches signs s) :
      Matches (.star :: signs) (skipped ++ s)
  | one {test : α → Bool} {a : α} (ha : test a = true) {signs : List (Sign α)} {s : List α}
      (h : Matches signs s) : Matches (.one test :: signs) (a :: s)

/-- Run the tests of a chunk at the front of a text; the rest of the text. -/
def eat : List (α → Bool) → List α → Option (List α)
  | [], s => some s
  | _ :: _, [] => none
  | test :: chunk, a :: s => if test a then eat chunk s else none

/-- The rest of the text after the first place where the chunk succeeds, and
ends the text if it is the last; without a star only the front is tried. -/
def find (star last : Bool) (chunk : List (α → Bool)) : List α → Option (List α)
  | [] =>
    match eat chunk [] with
    | some t => if t.isEmpty || !last then some t else none
    | none => none
  | a :: s =>
    let next := if star then find star last chunk s else none
    match eat chunk (a :: s) with
    | some t => if t.isEmpty || !last then some t else next
    | none => next

variable {s t : List α} {signs : List (Sign α)} {chunk : List (α → Bool)} {last star : Bool}

theorem matches_nil_iff : Matches [] s ↔ s = [] := by
  constructor
  · rintro ⟨⟩
    rfl
  · rintro rfl
    exact .nil

theorem matches_star_iff : Matches (.star :: signs) s ↔ ∃ t, t <:+ s ∧ Matches signs t := by
  constructor
  · rintro (_ | ⟨skipped, h⟩)
    exact ⟨_, suffix_append skipped _, h⟩
  · rintro ⟨t, ⟨skipped, rfl⟩, h⟩
    exact .star skipped h

theorem matches_chunk_append_iff :
    Matches (chunk.map .one ++ signs) s ↔ ∃ t, eat chunk s = some t ∧ Matches signs t := by
  induction chunk generalizing s with
  | nil => simp [eat]
  | cons test chunk ih =>
    cases s with
    | nil =>
      simp only [eat, reduceCtorEq, false_and, exists_false, iff_false]
      rintro ⟨⟩
    | cons a s =>
      rw [eat]
      constructor
      · rintro (_ | _ | ⟨ha, h⟩)
        rw [if_pos ha]
        exact ih.mp h
      · split_ifs with ha
        · intro h
          exact .one ha (ih.mpr h)
        · rintro ⟨t, ht, -⟩
          cases ht

/-- A chunk takes as many symbols as it has tests. -/
theorem eat_eq_drop (h : eat chunk s = some t) : t = s.drop chunk.length := by
  induction chunk generalizing s with
  | nil => exact (some.inj h).symm
  | cons test chunk ih =>
    cases s with
    | nil => cases h
    | cons a s =>
      rw [eat] at h
      split at h
      · exact ih h
      · cases h

/-- At a later place the rest is shorter. -/
theorem eat_suffix {s' t' : List α} (hs : s' <:+ s) (h : eat chunk s = some t)
    (h' : eat chunk s' = some t') : t' <:+ t := by
  obtain ⟨u, rfl⟩ := hs
  rw [eat_eq_drop h, eat_eq_drop h', drop_append]
  exact (drop_suffix_drop_left s' (Nat.sub_le _ _)).trans (suffix_append _ _)

/-- After a star, a longer text is matched if a shorter one is. -/
theorem Matches.extend (h : Matches (.star :: signs) t) (hs : t <:+ s) :
    Matches (.star :: signs) s := by
  obtain ⟨u, hu, hmatch⟩ := matches_star_iff.mp h
  exact matches_star_iff.mpr ⟨u, hu.trans hs, hmatch⟩

theorem matches_star_star_iff :
    Matches (.star :: .star :: signs) s ↔ Matches (.star :: signs) s := by
  constructor
  · intro h
    obtain ⟨t, ht, hmatch⟩ := matches_star_iff.mp h
    exact hmatch.extend ht
  · exact fun h => .star [] h

/-! ## One chunk -/

/-- A place that `find` may keep: the chunk succeeds there and leaves `t`. -/
structure Place (star last : Bool) (chunk : List (α → Bool)) (s t : List α) : Prop where
  at_suffix : ∃ s', s' <:+ s ∧ (star = false → s' = s) ∧ eat chunk s' = some t
  ends : last = true → t = []

/-- `t` passes the check that `find` makes of the rest. -/
theorem ends_iff : (t.isEmpty || !last) = true ↔ (last = true → t = []) := by
  cases last <;> simp

theorem find_place (h : find star last chunk s = some t) : Place star last chunk s t := by
  induction s with
  | nil =>
    rw [find] at h
    split at h
    · rename_i u hu
      split at h
      · rename_i hends
        obtain rfl := some.inj h
        exact ⟨⟨[], suffix_refl _, fun _ => rfl, hu⟩, ends_iff.mp hends⟩
      · cases h
    · cases h
  | cons a s ih =>
    rw [find] at h
    have hnext : (if star then find star last chunk s else none) = some t →
        Place star last chunk (a :: s) t := by
      intro h
      split at h
      · rename_i hstar
        obtain ⟨⟨s', hs', -, heat⟩, hends⟩ := ih h
        refine ⟨⟨s', hs'.trans (suffix_cons a s), ?_, heat⟩, hends⟩
        intro hfalse
        rw [hstar] at hfalse
        cases hfalse
      · cases h
    split at h
    · rename_i u hu
      split at h
      · rename_i hends
        obtain rfl := some.inj h
        exact ⟨⟨a :: s, suffix_refl _, fun _ => rfl, hu⟩, ends_iff.mp hends⟩
      · exact hnext h
    · exact hnext h

/-- `find` keeps the first of all places. -/
theorem Place.suffix_find (h : Place star last chunk s t) :
    ∃ u, find star last chunk s = some u ∧ t <:+ u := by
  induction s with
  | nil =>
    obtain ⟨⟨s', hs', -, heat⟩, hends⟩ := h
    obtain rfl := suffix_nil.mp hs'
    refine ⟨t, ?_, suffix_refl t⟩
    rw [find, heat]
    exact if_pos (ends_iff.mpr hends)
  | cons a s ih =>
    obtain ⟨⟨s', hs', hfront, heat⟩, hends⟩ := h
    -- the front may do already; if not, the place is further to the right
    by_cases hkeep : ∃ u, eat chunk (a :: s) = some u ∧ (last = true → u = [])
    · obtain ⟨u, hu, huends⟩ := hkeep
      refine ⟨u, ?_, eat_suffix hs' hu heat⟩
      rw [find, hu]
      exact if_pos (ends_iff.mpr huends)
    have hne : s' ≠ a :: s := by
      rintro rfl
      exact hkeep ⟨t, heat, hends⟩
    have hstar : star = true := by
      cases star with
      | true => rfl
      | false => exact absurd (hfront rfl) hne
    have hs : s' <:+ s := (suffix_cons_iff.mp hs').resolve_left hne
    have hlater : star = false → s' = s := by
      intro hfalse
      rw [hstar] at hfalse
      cases hfalse
    obtain ⟨u, hu, htu⟩ := ih ⟨⟨s', hs, hlater, heat⟩, hends⟩
    refine ⟨u, ?_, htu⟩
    rw [find, hu, if_pos hstar]
    split
    · rename_i v hv
      exact if_neg fun hv' => hkeep ⟨v, hv, ends_iff.mp hv'⟩
    · rfl

/-- The signs of a chunk with or without a star before it. -/
def chunkSigns (star : Bool) (chunk : List (α → Bool)) : List (Sign α) :=
  (if star then [Sign.star] else []) ++ chunk.map Sign.one

theorem matches_chunkSigns_iff : Matches (chunkSigns star chunk ++ signs) s ↔
      ∃ s' t, s' <:+ s ∧ (star = false → s' = s) ∧ eat chunk s' = some t ∧ Matches signs t := by
  cases star with
  | true =>
    simp only [chunkSigns, if_true, cons_append, nil_append, matches_star_iff,
      matches_chunk_append_iff]
    constructor
    · rintro ⟨s', hs', t, heat, h⟩
      exact ⟨s', t, hs', nofun, heat, h⟩
    · rintro ⟨s', t, hs', -, heat, h⟩
      exact ⟨s', hs', t, heat, h⟩
  | false =>
    simp only [chunkSigns, Bool.false_eq_true, if_false, nil_append, matches_chunk_append_iff]
    constructor
    · rintro ⟨t, heat, h⟩
      exact ⟨s, t, suffix_refl s, fun _ => rfl, heat, h⟩
    · rintro ⟨s', t, -, hfront, heat, h⟩
      obtain rfl := hfront trivial
      exact ⟨t, heat, h⟩

/-- Matching a chunk and what follows it, at the place that `find` keeps. -/
theorem matches_chunk_iff (hsigns : signs = [] ∨ ∃ more, signs = .star :: more) :
    Matches (chunkSigns star chunk ++ signs) s ↔
      ∃ t, find star signs.isEmpty chunk s = some t ∧ Matches signs t := by
  rw [matches_chunkSigns_iff]
  constructor
  · rintro ⟨s', t, hs', hfront, heat, h⟩
    have hends : signs.isEmpty = true → t = [] := by
      intro hempty
      rw [isEmpty_iff.mp hempty] at h
      exact matches_nil_iff.mp h
    obtain ⟨u, hu, htu⟩ := Place.suffix_find ⟨⟨s', hs', hfront, heat⟩, hends⟩
    refine ⟨u, hu, ?_⟩
    rcases hsigns with rfl | ⟨more, rfl⟩
    · rw [(find_place hu).ends rfl]
      exact .nil
    · exact h.extend htu
  · rintro ⟨t, hfind, h⟩
    obtain ⟨⟨s', hs', hfront, heat⟩, -⟩ := find_place hfind
    exact ⟨s', t, hs', hfront, heat, h⟩

end SpatialDb.Lib.StarPattern
