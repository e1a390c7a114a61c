import SpatialDb.Lib.Bytes

/-!
# Functions of the Go `strings` package

`toLower` and `trimSpace` as the command handlers and the field package use
them.
-/

namespace SpatialDb.Server

open Lib List

/-! ## Lower case -/

/-- ASCII capitals to small letters. -/
def lowerByte (b : UInt8) : UInt8 := if 65 ≤ b ∧ b ≤ 90 then b + 32 else b

/-- `strings.ToLower`, as far as a comparison with an ASCII word can tell: the
capitals, and the two other characters whose lower case is an ASCII letter,
U+0130 and U+212A. -/
def toLower : Bytes → Bytes
  | b :: c :: d :: s =>
    if b = 0xE2 ∧ c = 0x84 ∧ d = 0xAA then 107 :: toLower s
    else if b = 0xC4 ∧ c = 0xB0 then 105 :: toLower (d :: s)
    else lowerByte b :: toLower (c :: d :: s)
  | [b, c] => if b = 0xC4 ∧ c = 0xB0 then [105] else [lowerByte b, lowerByte c]
  | [b] => [lowerByte b]
  | [] => []

/-! ## White space -/

/-- The encodings of the characters with `unicode.IsSpace`. -/
def spaceRunes : List Bytes :=
  [[0x09], [0x0A], [0x0B], [0x0C], [0x0D], [0x20], [0xC2, 0x85], [0xC2, 0xA0],
    [0xE1, 0x9A, 0x80], [0xE2, 0x80, 0x80], [0xE2, 0x80, 0x81], [0xE2, 0x80, 0x82],
    [0xE2, 0x80, 0x83], [0xE2, 0x80, 0x84], [0xE2, 0x80, 0x85], [0xE2, 0x80, 0x86],
    [0xE2, 0x80, 0x87], [0xE2, 0x80, 0x88], [0xE2, 0x80, 0x89], [0xE2, 0x80, 0x8A],
    [0xE2, 0x80, 0xA8], [0xE2, 0x80, 0xA9], [0xE2, 0x80, 0xAF], [0xE2, 0x81, 0x9F],
    [0xE3, 0x80, 0x80]]

/-- Drop words of `runes` from the front, `fuel` times at most. -/
def dropRunes (runes : List Bytes) : Nat → Bytes → Bytes
  | 0, s => s
  | fuel + 1, s =>
    match runes.find? fun r => r.isPrefixOf s with
    | some r => dropRunes runes fuel (s.drop r.length)
    | none => s

/-- `strings.TrimSpace`; every character takes at least one byte. -/
def trimSpace (s : Bytes) : Bytes :=
  let s := dropRunes spaceRunes s.length s
  (dropRunes (spaceRunes.map List.reverse) s.length s.reverse).reverse

section Runes

variable {runes : List Bytes}

/-- No word of `runes` stands at the front. -/
def Clean (runes : List Bytes) (s : Bytes) : Prop := ∀ r ∈ runes, ¬ r <+: s

theorem find?_eq_none_iff_clean {s : Bytes} :
    (runes.find? fun r => r.isPrefixOf s) = none ↔ Clean runes s := by
  simp [Clean, find?_eq_none]

theorem dropRunes_of_clean {s : Bytes} (h : Clean runes s) (fuel : Nat) :
    dropRunes runes fuel s = s := by
  cases fuel with
  | zero => rfl
  | succ fuel => rw [dropRunes, find?_eq_none_iff_clean.mpr h]

theorem dropRunes_clean (hne : [] ∉ runes) (fuel : Nat) (s : Bytes) (h : s.length ≤ fuel) :
    Clean runes (dropRunes runes fuel s) := by
  induction fuel generalizing s with
  | zero =>
    intro r hr hpre
    rw [length_eq_zero_iff.mp (Nat.le_zero.mp h)] at hpre
    exact hne (prefix_nil.mp hpre ▸ hr)
  | succ fuel ih =>
    rw [dropRunes]
    cases hfind : runes.find? fun r => r.isPrefixOf s with
    | none => exact find?_eq_none_iff_clean.mp hfind
    | some r =>
      have hr := mem_of_find?_eq_some hfind
      have hpos : 0 < r.length := length_pos_iff.mpr fun hnil => hne (hnil ▸ hr)
      refine ih _ ?_
      rw [length_drop]
      omega

theorem dropRunes_suffix (fuel : Nat) (s : Bytes) : dropRunes runes fuel s <:+ s := by
  induction fuel generalizing s with
  | zero => exact suffix_refl s
  | succ fuel ih =>
    rw [dropRunes]
    split
    · exact (ih _).trans (drop_suffix _ _)
    · exact suffix_refl s

theorem Clean.shorten {s t : Bytes} (h : Clean runes t) (hst : s <+: t) : Clean runes s :=
  fun r hr hpre => h r hr (hpre.trans hst)

end Runes

theorem nil_notMem_spaceRunes : [] ∉ spaceRunes := by decide

theorem nil_notMem_spaceRunes_reverse : [] ∉ spaceRunes.map List.reverse := by decide

theorem trimSpace_trimSpace (s : Bytes) : trimSpace (trimSpace s) = trimSpace s := by
  -- the front is clean after the first pass, and trimming the end only shortens it
  have hfront := dropRunes_clean nil_notMem_spaceRunes s.length s le_rfl
  generalize hs : dropRunes spaceRunes s.length s = t at hfront
  have hback := dropRunes_clean nil_notMem_spaceRunes_reverse t.length t.reverse
    (by rw [length_reverse])
  generalize hu : dropRunes (spaceRunes.map List.reverse) t.length t.reverse = u at hback
  have htrim : trimSpace s = u.reverse := by
    rw [trimSpace, hs, hu]
  have hpre : u.reverse <+: t := by
    rw [← reverse_suffix, reverse_reverse]
    exact hu ▸ dropRunes_suffix t.length t.reverse
  rw [htrim, trimSpace, dropRunes_of_clean (hfront.shorten hpre), reverse_reverse,
    dropRunes_of_clean hback]

theorem clean_of_head {runes : List Bytes} {b : UInt8}
    (h : ∀ r ∈ runes, r ≠ [] ∧ r.head? ≠ some b) (s : Bytes) : Clean runes (b :: s) := by
  intro r hr hpre
  obtain ⟨hne, hhead⟩ := h r hr
  cases r with
  | nil => exact hne rfl
  | cons c r =>
    obtain ⟨rfl, -⟩ := cons_prefix_cons.mp hpre
    exact hhead rfl

/-- Between two bytes that neither begin nor end a space nothing is trimmed. -/
theorem trimSpace_between {b e : UInt8} (hb : ∀ r ∈ spaceRunes, r ≠ [] ∧ r.head? ≠ some b)
    (he : ∀ r ∈ spaceRunes.map List.reverse, r ≠ [] ∧ r.head? ≠ some e) (s : Bytes) :
    trimSpace (b :: s ++ [e]) = b :: s ++ [e] := by
  have hfront : Clean spaceRunes (b :: s ++ [e]) := clean_of_head hb _
  have hback : Clean (spaceRunes.map List.reverse) (b :: s ++ [e]).reverse := by
    rw [reverse_append]
    exact clean_of_head he _
  rw [trimSpace, dropRunes_of_clean hfront, dropRunes_of_clean hback, reverse_reverse]

end SpatialDb.Server
