import SpatialDb.Glob.Match
import SpatialDb.Lib.PrefixRange

/-!
# The range of a pattern

Model of `glob.Parse` of `internal/legacy/glob/glob.go`.  A command that looks
for a pattern visits only the entries between the two limits of the pattern:
the text before the first wildcard, with its last byte raised for the far end
and, descending, lowered for the near end.

The limits are taken from the bytes of the pattern as they stand.  The matcher
reads a backslash as an escape, so the two agree on patterns without one
before the first wildcard.
-/

namespace SpatialDb.Glob

open Lib List

/-- The bytes at which `Parse` stops reading literal text. -/
def isWild (c : UInt8) : Bool := c = opening || c = star || c = quest

/-- `pattern[:n]`: the text before the first wildcard. -/
def literalPart (pattern : Bytes) : Bytes := pattern.takeWhile fun c => !isWild c

/-- The limit above `a`: the last byte plus one, or a zero byte more. -/
def raise (a : Bytes) : Bytes :=
  if a.getLast? = some 0xFF then a ++ [0x00] else a.dropLast ++ [a.getLastD 0 + 1]

/-- The loop over trailing zero bytes, on the reversed text: a zero byte is
dropped as long as another one precedes it, and then borrows from the byte
before it. -/
def borrow : Bytes → Bytes
  | [] => []
  | [c] => if c = 0x00 then [] else [c]
  | c :: d :: rest =>
    if c = 0x00 then
      if d = 0x00 then borrow (d :: rest) else 0xFF :: (d - 1) :: rest
    else c :: d :: rest

/-- The limit below `b`. -/
def lower (b : Bytes) : Bytes :=
  if b.getLast? = some 0x00 then (borrow b.reverse).reverse
  else b.dropLast ++ [b.getLastD 0 - 1]

/-- `Glob`, what `Parse` returns. -/
structure ParsedGlob where
  pattern : Bytes
  desc : Bool
  limits : Bytes × Bytes
  isGlob : Bool
  deriving DecidableEq

/-- `Parse`. -/
def parse (pattern : Bytes) (desc : Bool) : ParsedGlob :=
  if pattern.head? = some star then ⟨pattern, desc, ([], []), true⟩
  else if pattern = [] then ⟨pattern, desc, ([], []), false⟩
  else
    let a := literalPart pattern
    let isGlob := a.length < pattern.length && (wildcardMatch pattern (lit "whatever")).isOk
    if a.length = 0 then ⟨pattern, desc, (pattern, pattern), false⟩
    else if desc then ⟨pattern, desc, (raise a, lower a), isGlob⟩
    else ⟨pattern, desc, (a, raise a), isGlob⟩

/-- How the callers use the limits; two empty ones are everything. -/
def ParsedGlob.InRange (g : ParsedGlob) (s : Bytes) : Prop :=
  g.limits = ([], []) ∨
    if g.desc then g.limits.2 < s ∧ s ≤ g.limits.1 else g.limits.1 ≤ s ∧ s < g.limits.2

instance (g : ParsedGlob) (s : Bytes) : Decidable (g.InRange s) := by
  unfold ParsedGlob.InRange
  infer_instance

example : (parse (lit "hello*") false).limits = (lit "hello", lit "hellp") := by decide +kernel

example : (parse [0x62, 0x00, star] true).limits = ([0x62, 0x01], [0x61, 0xFF]) := by
  decide +kernel

/-! ## The limits -/

theorem raise_concat_of_lt {x : UInt8} (hx : x < 0xFF) (q : Bytes) :
    raise (q ++ [x]) = q ++ [x + 1] := by
  have hne : x ≠ 0xFF := ne_of_lt hx
  simp [raise, hne]

theorem raise_concat_max (q : Bytes) : raise (q ++ [0xFF]) = q ++ [0xFF] ++ [0x00] := by
  simp [raise]

theorem lower_concat_of_ne {x : UInt8} (hx : x ≠ 0) (q : Bytes) :
    lower (q ++ [x]) = q ++ [x - 1] := by
  simp [lower, hx]

variable {p chunk s pattern : Bytes}

theorem raise_append_cons (hp : p ≠ []) (g : Bytes) (y : UInt8) :
    raise (g ++ y :: p) = g ++ y :: raise p := by
  obtain ⟨q, x, rfl⟩ := (eq_nil_or_concat' p).resolve_left hp
  have hassoc : g ++ y :: (q ++ [x]) = (g ++ y :: q) ++ [x] := by simp
  rw [hassoc]
  rcases lt_max_or_eq x with hx | rfl
  · rw [raise_concat_of_lt hx, raise_concat_of_lt hx]
    simp
  · rw [raise_concat_max, raise_concat_max]
    simp

/-- The zero bytes at the end of the text, reversed, are dropped down to one. -/
theorem borrow_replicate_append {k : Nat} {y : UInt8} (hy : y ≠ 0) (r : Bytes) :
    borrow (replicate (k + 1) 0 ++ y :: r) = 0xFF :: (y - 1) :: r := by
  induction k with
  | zero => simp [borrow, hy]
  | succ k ih =>
    rw [replicate_succ, replicate_succ, cons_append, cons_append, borrow,
      if_pos rfl, if_pos rfl, ← cons_append, ← replicate_succ, ih]

/-- The loop stays within the text up to its last byte other than zero. -/
theorem borrow_append {l : Bytes} (hl : ∃ c ∈ l, c ≠ 0) (r : Bytes) :
    borrow (l ++ r) = borrow l ++ r := by
  fun_induction borrow l with
  | case1 => simp at hl
  | case2 => simp_all
  | case3 c hc => cases r <;> simp [borrow, hc]
  | case4 rest ih =>
    rw [cons_append, cons_append, borrow, if_pos rfl, if_pos rfl, ← cons_append]
    exact ih (by simpa using hl)
  | case5 d rest hd => simp [borrow, hd]
  | case6 c d rest hc => simp [borrow, hc]

theorem lower_append_cons (hp : ∃ c ∈ p, c ≠ 0) (g : Bytes) (y : UInt8) :
    lower (g ++ y :: p) = g ++ y :: lower p := by
  have hne : p ≠ [] := by
    rintro rfl
    simp at hp
  obtain ⟨q, x, rfl⟩ := (eq_nil_or_concat' p).resolve_left hne
  have hassoc : g ++ y :: (q ++ [x]) = (g ++ y :: q) ++ [x] := by simp
  by_cases hx : x = 0
  · subst hx
    have hrev : ∃ c ∈ (q ++ [0]).reverse, c ≠ 0 := by simpa using hp
    have hlast : ((g ++ y :: q) ++ [0]).getLast? = some 0 := getLast?_concat
    rw [hassoc, lower, lower, if_pos hlast, if_pos (by simp), ← hassoc, reverse_append,
      reverse_cons, append_assoc, borrow_append hrev]
    simp
  · rw [hassoc, lower_concat_of_ne hx, lower_concat_of_ne hx]
    simp

theorem lower_append_zeros {y : UInt8} (hy : y ≠ 0) (g : Bytes) (k : Nat) :
    lower (g ++ y :: replicate (k + 1) 0) = g ++ [y - 1, 0xFF] := by
  have hlast : (g ++ y :: replicate (k + 1) (0 : UInt8)).getLast? = some 0 := by
    rw [replicate_succ', ← cons_append, ← append_assoc]
    exact getLast?_concat
  have hrev : (g ++ y :: replicate (k + 1) (0 : UInt8)).reverse =
      replicate (k + 1) 0 ++ y :: g.reverse := by
    simp [reverse_replicate]
  rw [lower, if_pos hlast, hrev, borrow_replicate_append hy]
  simp

theorem borrow_replicate (k : Nat) : borrow (replicate (k + 1) 0) = [] := by
  induction k with
  | zero => rfl
  | succ k ih =>
    rw [replicate_succ, replicate_succ, borrow, if_pos rfl, if_pos rfl, ← replicate_succ, ih]

theorem lower_replicate (k : Nat) : lower (replicate (k + 1) 0) = [] := by
  have hlast : (replicate (k + 1) (0 : UInt8)).getLast? = some 0 := by
    rw [replicate_succ']
    exact getLast?_concat
  rw [lower, if_pos hlast, reverse_replicate, borrow_replicate, reverse_nil]

theorem lower_lt (hp : p ≠ []) : lower p < p := by
  induction p with
  | nil => exact absurd rfl hp
  | cons a p ih =>
    by_cases hzero : ∃ c ∈ p, c ≠ 0
    · have hlower : lower (a :: p) = a :: lower p := lower_append_cons hzero [] a
      have hnil : p ≠ [] := by
        rintro rfl
        simp at hzero
      rw [hlower, byte_cons_lt_iff]
      exact Or.inr ⟨rfl, ih hnil⟩
    have hrep : p = replicate p.length 0 :=
      eq_replicate_of_mem fun c hc => not_not.mp fun h => hzero ⟨c, hc, h⟩
    generalize p.length = k at hrep
    subst hrep
    by_cases ha : a = 0
    · subst ha
      rw [← replicate_succ, lower_replicate]
      exact nil_lt_cons _ _
    have hlt := sub_one_lt_of_ne ha
    cases k with
    | zero =>
      have hlower : lower [a] = [a - 1] := lower_concat_of_ne ha []
      rw [replicate_zero, hlower]
      exact byte_cons_lt_iff.mpr (Or.inl hlt.1)
    | succ k =>
      have hlower : lower (a :: replicate (k + 1) 0) = [a - 1, 0xFF] := lower_append_zeros ha [] k
      rw [hlower]
      exact byte_cons_lt_iff.mpr (Or.inl hlt.1)

/-! ## What a matching name looks like -/

/-- A chunk that begins with `p` and matches, without a wildcard in `p`: each
byte of `p` other than an escape is a byte of the name. -/
theorem begins_of_matchChunk (hwild : ∀ c ∈ p, isWild c = false) (hesc : escape ∉ p) {t : Bytes}
    (h : matchChunk (p ++ chunk) s = .ok (some t)) : p <+: s := by
  induction p generalizing s with
  | nil => exact nil_prefix
  | cons c p ih =>
    cases s with
    | nil =>
      rw [cons_append, matchChunk] at h
      cases h
    | cons b s =>
      have hc := hwild c mem_cons_self
      simp only [isWild, Bool.or_eq_false_iff, decide_eq_false_iff_not] at hc
      obtain ⟨⟨hopen, -⟩, hquest⟩ := hc
      have hne : c ≠ escape := fun heq => hesc (heq ▸ mem_cons_self)
      rw [cons_append, matchChunk_plain hopen hquest hne] at h
      split_ifs at h with hcb
      · exact cons_prefix_cons.mpr ⟨hcb, ih (forall_mem_cons.mp hwild).2
          (fun hmem => hesc (mem_cons_of_mem c hmem)) h⟩
      · cases h

/-- The name has a byte of `p` where `p` has an escape. -/
structure Strays (p s : Bytes) : Prop where
  split : ∃ g c s' p', p = g ++ escape :: p' ∧ s = g ++ c :: s' ∧ c ≠ escape ∧ c ∈ p'

theorem Strays.cons (h : Strays p s) (a : UInt8) : Strays (a :: p) (a :: s) := by
  obtain ⟨g, c, s', p', rfl, rfl, hc, hmem⟩ := h
  exact ⟨a :: g, c, s', p', rfl, rfl, hc, hmem⟩

/-- An escape in `p`, or before it, makes a matching name stray from `p`: only
every other backslash of a run stands for itself. -/
theorem strays_of_matchChunk (hwild : ∀ c ∈ p, isWild c = false)
    (hlast : p.getLastD escape ≠ escape) {j : Nat} (hesc : 0 < j ∨ escape ∈ p) {t : Bytes}
    (h : matchChunk (p ++ chunk) s = .ok (some t)) :
    Strays (replicate j escape ++ p) s := by
  -- two bytes are taken at an escape, so the induction is on the length
  induction hn : p.length using Nat.strong_induction_on generalizing p j s with
  | _ n ih =>
    cases p with
    | nil => exact absurd rfl hlast
    | cons a p =>
      cases s with
      | nil =>
        rw [cons_append, matchChunk] at h
        cases h
      | cons b s =>
        have hwild' : ∀ c ∈ p, isWild c = false := (forall_mem_cons.mp hwild).2
        by_cases ha : a = escape
        · subst ha
          cases p with
          | nil => exact absurd rfl hlast
          | cons d p =>
            rw [cons_append, cons_append, matchChunk_escape] at h
            split_ifs at h with hdb
            · subst hdb
              have hswap (l : Bytes) : replicate j escape ++ escape :: l =
                  escape :: (replicate j escape ++ l) := by
                rw [append_cons, ← replicate_succ', replicate_succ]
                rfl
              rw [hswap]
              by_cases hd : d = escape
              · subst hd
                refine Strays.cons ?_ escape
                rw [hswap, ← cons_append, ← replicate_succ]
                exact ih p.length (by simp at hn; omega) (forall_mem_cons.mp hwild').2 (by
                    rwa [getLastD_cons, getLastD_cons] at hlast)
                  (Or.inl (Nat.succ_pos j)) h rfl
              · exact ⟨[], d, s, _, rfl, rfl, hd, by simp⟩
            · cases h
        · have hc := hwild a mem_cons_self
          simp only [isWild, Bool.or_eq_false_iff, decide_eq_false_iff_not] at hc
          obtain ⟨⟨hopen, -⟩, hquest⟩ := hc
          rw [cons_append, matchChunk_plain hopen hquest ha] at h
          split_ifs at h with hab
          · subst hab
            cases j with
            | succ j => exact ⟨[], a, s, replicate j escape ++ a :: p, rfl, rfl, ha, by simp⟩
            | zero =>
              have hmem : escape ∈ p := by
                simpa [Ne.symm ha] using hesc
              have hne : p ≠ [] := ne_nil_of_mem hmem
              have hlast' : p.getLastD escape ≠ escape := by
                obtain ⟨x, q, rfl⟩ := exists_cons_of_ne_nil hne
                exact hlast
              exact (ih p.length (by simp at hn; omega) hwild' hlast' (j := 0)
                (Or.inr hmem) h rfl).cons a
          · cases h

theorem isWild_literalPart (pattern : Bytes) : ∀ c ∈ literalPart pattern, isWild c = false := by
  intro c hc
  simpa using mem_takeWhile_imp hc

/-- The scan for the end of the first chunk goes over the literal text. -/
theorem length_le_chunkLength (hwild : ∀ c ∈ p, isWild c = false) (tail : Bytes) :
    p.length ≤ chunkLength false (p ++ tail) := by
  induction hn : p.length using Nat.strong_induction_on generalizing p with
  | _ n ih =>
    subst hn
    cases p with
    | nil => exact Nat.zero_le _
    | cons c p =>
      have hwild' : ∀ d ∈ p, isWild d = false := (forall_mem_cons.mp hwild).2
      have hrest := ih p.length (Nat.lt_succ_self _) hwild' rfl
      rw [length_cons, cons_append]
      by_cases hesc : c = escape
      · subst hesc
        cases p with
        | nil =>
          cases tail with
          | nil => exact le_rfl
          | cons d tail =>
            rw [nil_append, chunkLength_escape]
            exact Nat.succ_le_succ (Nat.zero_le _)
        | cons d p =>
          have hrest := ih p.length (by simp) (forall_mem_cons.mp hwild').2 rfl
          rw [cons_append, chunkLength_escape, length_cons]
          omega
      by_cases hclose : c = closing
      · subst hclose
        rw [chunkLength_closing]
        omega
      have hc := hwild c mem_cons_self
      simp only [isWild, Bool.or_eq_false_iff, decide_eq_false_iff_not] at hc
      obtain ⟨⟨hopen, hstar⟩, -⟩ := hc
      rw [chunkLength_plain hesc hclose (fun _ => ⟨hopen, hstar⟩)]
      omega

theorem matchChunk_of_findChunk {last : Bool} {t : Bytes}
    (h : findChunk false last chunk s = .ok (some t)) : matchChunk chunk s = .ok (some t) := by
  cases s with
  | nil =>
    rw [findChunk] at h
    cases hm : matchChunk chunk [] with
    | error e => rw [hm] at h; cases h
    | ok out =>
      rw [hm] at h
      cases out with
      | none => cases h
      | some u =>
        simp only [bind, Except.bind, pure, Except.pure, Except.ok.injEq] at h
        split at h
        · rw [h]
        · cases h
  | cons b s =>
    rw [findChunk] at h
    cases hm : matchChunk chunk (b :: s) with
    | error e => rw [hm] at h; cases h
    | ok out =>
      rw [hm] at h
      cases out with
      | none => cases h
      | some u =>
        simp only [bind, Except.bind, pure, Except.pure, Bool.false_eq_true, if_false] at h
        split at h
        · exact h
        · cases h

/-- The first chunk of a pattern that does not start with a star is matched at
the front of the name, and starts with the literal text. -/
theorem matchChunk_of_wildcardMatch (hne : pattern ≠ []) (hstar : pattern.head? ≠ some star)
    (h : wildcardMatch pattern s = .ok true) :
    ∃ chunk t, matchChunk (literalPart pattern ++ chunk) s = .ok (some t) := by
  have hbody : pattern.dropWhile (· = star) = pattern := by
    obtain ⟨c, cs, rfl⟩ := exists_cons_of_ne_nil hne
    exact dropWhile_cons_of_neg (by simpa using hstar)
  have hscan : scanChunk pattern = (false, pattern.take (chunkLength false pattern),
      pattern.drop (chunkLength false pattern)) := by
    simp only [scanChunk, hbody, hstar, decide_false]
  have hlong : (literalPart pattern).length ≤ chunkLength false pattern := by
    have hle := length_le_chunkLength (isWild_literalPart pattern)
      (pattern.dropWhile fun c => !isWild c)
    rwa [literalPart, takeWhile_append_dropWhile] at hle
  have hbegins : literalPart pattern <+: pattern.take (chunkLength false pattern) := by
    rw [prefix_take_iff]
    refine ⟨?_, hlong⟩
    exact takeWhile_prefix _
  obtain ⟨chunk, hchunk⟩ := hbegins
  rw [wildcardMatch_of_ne_nil hne, hscan] at h
  simp only [Bool.false_eq_true, false_and, if_false] at h
  split at h
  · cases h
  · cases h
  · rename_i t hfind
    exact ⟨chunk, t, hchunk ▸ matchChunk_of_findChunk hfind⟩

/-- A name that matches begins with the literal text, if that has no escape. -/
theorem begins_of_wildcardMatch (hne : pattern ≠ []) (hstar : pattern.head? ≠ some star)
    (hesc : escape ∉ literalPart pattern) (h : wildcardMatch pattern s = .ok true) :
    literalPart pattern <+: s := by
  obtain ⟨chunk, t, hmatch⟩ := matchChunk_of_wildcardMatch hne hstar h
  exact begins_of_matchChunk (isWild_literalPart pattern) hesc hmatch

/-! ## The names in the range -/

/-- The part of the range from `p` on. -/
theorem lt_raise_iff (hp : p ≠ []) (h : p <+: s) :
    s < raise p ↔ p.getLast? ≠ some 0xFF ∨ s = p := by
  obtain ⟨q, x, rfl⟩ := (eq_nil_or_concat' p).resolve_left hp
  rcases lt_max_or_eq x with hx | rfl
  · have hlt := ((le_and_lt_iff_begins hx).mpr h).2
    rw [raise_concat_of_lt hx]
    simp [hlt, ne_of_lt hx]
  rw [raise_concat_max, lt_append_zero_iff]
  simp only [getLast?_concat, ne_eq, not_true_eq_false, false_or]
  exact ⟨fun hle => le_antisymm hle (le_of_begins h), fun heq => heq.le⟩

theorem le_raise_iff (hp : p ≠ []) (h : p <+: s) :
    s ≤ raise p ↔ p.getLast? ≠ some 0xFF ∨ s = p ∨ s = p ++ [0] := by
  rw [le_iff_lt_or_eq, lt_raise_iff hp h, or_assoc]
  obtain ⟨q, x, rfl⟩ := (eq_nil_or_concat' p).resolve_left hp
  rcases lt_max_or_eq x with hx | rfl
  · simp [ne_of_lt hx]
  · rw [raise_concat_max]

/-- A name that strays from `p` is outside of both ranges. -/
theorem Strays.outside (h : Strays p s) :
    ¬ (p ≤ s ∧ s < raise p) ∧ ¬ (lower p < s ∧ s ≤ raise p) := by
  obtain ⟨g, c, s', p', rfl, rfl, hc, hmem⟩ := h
  have hne : p' ≠ [] := ne_nil_of_mem hmem
  rw [raise_append_cons hne]
  constructor
  · rintro ⟨hle, hlt⟩
    have hce : c < escape := (append_cons_lt_iff hc).mp hlt
    exact not_lt.mpr hle ((append_cons_lt_iff hc).mpr hce)
  · rintro ⟨hlow, hle⟩
    have hce : c < escape := by
      refine lt_of_le_of_ne ?_ hc
      exact not_lt.mp fun hlt => not_lt.mpr hle ((append_cons_lt_iff (Ne.symm hc)).mpr hlt)
    by_cases hzero : ∃ d ∈ p', d ≠ 0
    · rw [lower_append_cons hzero, append_cons_lt_iff (Ne.symm hc)] at hlow
      exact lt_asymm hce hlow
    have hrep : p' = replicate p'.length 0 :=
      eq_replicate_of_mem fun d hd => not_not.mp fun h => hzero ⟨d, hd, h⟩
    obtain ⟨k, hk⟩ : ∃ k, p'.length = k + 1 :=
      Nat.exists_eq_succ_of_ne_zero fun h => hne (length_eq_zero_iff.mp h)
    obtain rfl : c = 0 := not_not.mp fun h => hzero ⟨c, hmem, h⟩
    rw [hrep, hk, lower_append_zeros (by decide), append_cons_lt_iff (by decide)] at hlow
    exact absurd hlow (by decide)

theorem Strays.not_begins (h : Strays p s) : ¬ p <+: s := by
  obtain ⟨g, c, s', p', rfl, rfl, hc, -⟩ := h
  intro hpre
  rw [prefix_append_right_inj, cons_prefix_cons] at hpre
  exact hc hpre.1.symm

/-- The descending range of a text that ends with a backslash. -/
theorem between_escape_iff {q : Bytes} :
    lower (q ++ [escape]) < s ∧ s ≤ raise (q ++ [escape]) ↔
      q ++ [escape] <+: s ∨ (q ++ [opening] <+: s ∧ s ≠ q ++ [opening]) ∨ s = q ++ [closing] := by
  have hlower : lower (q ++ [escape]) = q ++ [opening] := lower_concat_of_ne (by decide) q
  have hraise : raise (q ++ [escape]) = q ++ [closing] := raise_concat_of_lt (by decide) q
  have hesc : q ++ [escape] ≤ s ∧ s < q ++ [closing] ↔ q ++ [escape] <+: s :=
    le_and_lt_iff_begins (by decide)
  have hopen : q ++ [opening] ≤ s ∧ s < q ++ [escape] ↔ q ++ [opening] <+: s :=
    le_and_lt_iff_begins (by decide)
  have horder : q ++ [opening] < q ++ [escape] ∧ q ++ [escape] < q ++ [closing] :=
    ⟨(append_cons_lt_iff (by decide)).mpr (by decide),
      (append_cons_lt_iff (by decide)).mpr (by decide)⟩
  rw [hlower, hraise, ← hesc, ← hopen]
  constructor
  · rintro ⟨hlow, hle⟩
    rcases lt_or_ge s (q ++ [escape]) with hlt | hge
    · exact Or.inr (Or.inl ⟨⟨hlow.le, hlt⟩, hlow.ne'⟩)
    rcases hle.lt_or_eq with hlt | heq
    · exact Or.inl ⟨hge, hlt⟩
    · exact Or.inr (Or.inr heq)
  · rintro (⟨hge, hlt⟩ | ⟨⟨hge, hlt⟩, hne⟩ | rfl)
    · exact ⟨horder.1.trans_le hge, hlt.le⟩
    · exact ⟨lt_of_le_of_ne hge (Ne.symm hne), (hlt.trans horder.2).le⟩
    · exact ⟨horder.1.trans horder.2, le_rfl⟩

/-- For which matching names the range is right.  Everything is visited for
the empty pattern and after a leading star.  Otherwise there must be some
literal text `p`.  Without an escape in it, the name has to be `p` itself, or
descending `p` and a zero byte, if the last byte of `p` is the largest one.
With an escape in it, the name has to begin with `p` all the same, escapes
included; descending it can also be right around a backslash that ends `p`. -/
def Covered (pattern : Bytes) (desc : Bool) (s : Bytes) : Prop :=
  let p := literalPart pattern
  pattern = [] ∨ pattern.head? = some star ∨ p ≠ [] ∧
    if escape ∈ p then
      p <+: s ∨ desc = true ∧ p.getLast? = some escape ∧
        ((p.dropLast ++ [opening] <+: s ∧ s ≠ p.dropLast ++ [opening]) ∨
          s = p.dropLast ++ [closing])
    else p.getLast? ≠ some 0xFF ∨ s = p ∨ desc = true ∧ s = p ++ [0]

theorem parse_of_literal (hne : pattern ≠ []) (hstar : pattern.head? ≠ some star)
    (hp : literalPart pattern ≠ []) (desc : Bool) (s : Bytes) :
    (parse pattern desc).InRange s ↔
      if desc then lower (literalPart pattern) < s ∧ s ≤ raise (literalPart pattern)
      else literalPart pattern ≤ s ∧ s < raise (literalPart pattern) := by
  have hlen : ¬ (literalPart pattern).length = 0 := fun h => hp (length_eq_zero_iff.mp h)
  have hraise : raise (literalPart pattern) ≠ [] := by
    rw [raise]
    split <;> simp
  cases desc <;> simp [parse, hstar, hne, hlen, ParsedGlob.InRange, hp, hraise]

/-- Which of the names that match a pattern are between its limits. -/
theorem inRange_iff (pattern : Bytes) (desc : Bool) (s : Bytes)
    (h : wildcardMatch pattern s = .ok true) :
    (parse pattern desc).InRange s ↔ Covered pattern desc s := by
  by_cases hne : pattern = []
  · subst hne
    exact ⟨fun _ => Or.inl rfl, fun _ => Or.inl rfl⟩
  by_cases hstar : pattern.head? = some star
  · refine ⟨fun _ => Or.inr (Or.inl hstar), fun _ => Or.inl ?_⟩
    rw [parse, if_pos hstar]
  simp only [Covered, hne, hstar, false_or]
  by_cases hp : literalPart pattern = []
  · -- the limits are the pattern twice
    have hrange : ¬ (parse pattern desc).InRange s := by
      rw [parse, if_neg hstar, if_neg hne]
      simp only [hp, length_nil, if_true, ParsedGlob.InRange, Prod.mk.injEq, hne, false_and,
        false_or]
      split
      · exact fun hs => not_lt.mpr hs.2 hs.1
      · exact fun hs => not_lt.mpr hs.1 hs.2
    exact ⟨fun hin => absurd hin hrange, fun hc => absurd hp hc.1⟩
  rw [parse_of_literal hne hstar hp]
  simp only [ne_eq, hp, not_false_eq_true, true_and]
  by_cases hesc : escape ∈ literalPart pattern
  · rw [if_pos hesc]
    obtain ⟨chunk, t, hmatch⟩ := matchChunk_of_wildcardMatch hne hstar h
    have hwild := isWild_literalPart pattern
    generalize literalPart pattern = p at hp hesc hmatch hwild ⊢
    obtain ⟨q, x, rfl⟩ := (eq_nil_or_concat' p).resolve_left hp
    by_cases hx : x = escape
    · subst hx
      cases desc with
      | true => simp [between_escape_iff]
      | false =>
        have hraise : raise (q ++ [escape]) = q ++ [escape + 1] := raise_concat_of_lt (by decide) q
        have hbegins := le_and_lt_iff_begins (q := q) (s := s) (show escape < 0xFF by decide)
        simp [hraise, hbegins]
    have hstrays : Strays (q ++ [x]) s :=
      strays_of_matchChunk hwild (by simpa using hx) (j := 0) (Or.inr hesc) hmatch
    have hout := hstrays.outside
    have hnot := hstrays.not_begins
    cases desc <;> simp [hout, hnot, hx]
  rw [if_neg hesc]
  have hbegins := begins_of_wildcardMatch hne hstar hesc h
  have hle := le_of_begins hbegins
  cases desc with
  | true =>
    have hlow := (lower_lt hp).trans_le hle
    simp [hlow, le_raise_iff hp hbegins]
  | false => simp [hle, lt_raise_iff hp hbegins]

theorem inRange_iff_hello :
    wildcardMatch (lit "hello*") (lit "hello world") = .ok true ∧
      (parse (lit "hello*") true).InRange (lit "hello world") :=
  ⟨by decide +kernel, (inRange_iff _ _ _ (by decide +kernel)).mpr (.inr (.inr (by decide +kernel)))⟩

/-- A leading class, an escaped star, and a star after the largest byte: each
pattern matches a name outside of its range. -/
theorem parse_misses :
    (wildcardMatch (lit "[ab]c") (lit "ac") = .ok true ∧
      ¬ (parse (lit "[ab]c") false).InRange (lit "ac") ∧
      ¬ (parse (lit "[ab]c") true).InRange (lit "ac")) ∧
    (wildcardMatch (lit "a\\*b") (lit "a*b") = .ok true ∧
      ¬ (parse (lit "a\\*b") false).InRange (lit "a*b")) ∧
    (wildcardMatch [0xFF, star] [0xFF, 0x61] = .ok true ∧
      ¬ (parse [0xFF, star] false).InRange [0xFF, 0x61]) := by
  decide +kernel

end SpatialDb.Glob
