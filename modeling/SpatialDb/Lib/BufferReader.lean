import SpatialDb.Lib.Resp

/-!
# Readers of a buffer

A reader takes bytes off the front of a buffer, or fails and reads nothing.
`Frames p w a` is the rule such readers are verified with: `p` reads the
bytes `w` as `a` whatever follows them, and no shorter part of them as
anything.  It is `Reads` for a reader that does not tell a part from a
mistake, and it composes along `bind` in the same way.
-/

namespace SpatialDb.Lib

open List Option

/-- A reader of a buffer: the value, and the bytes behind it. -/
abbrev BufferReader (α : Type) := StateT Bytes Option α

namespace BufferReader

variable {α β : Type}

def fail : BufferReader α := fun _ => none

theorem bind_apply (p : BufferReader α) (f : α → BufferReader β) (buf : Bytes) :
    (p >>= f) buf = (p buf).bind fun r => f r.1 r.2 := rfl

variable {p : BufferReader α} {buf rest l : Bytes} {f : α → BufferReader β}

theorem bind_eq_some_iff {b : β} :
    (p >>= f) buf = some (b, rest) ↔
      ∃ a mid, p buf = some (a, mid) ∧ f a mid = some (b, rest) := by
  rw [bind_apply, Option.bind_eq_some_iff]
  constructor
  · rintro ⟨⟨a, mid⟩, hp, hf⟩
    exact ⟨a, mid, hp, hf⟩
  · rintro ⟨a, mid, hp, hf⟩
    exact ⟨(a, mid), hp, hf⟩

/-! ## The rule -/

/-- The scanner that asks for more wherever the reader fails. -/
def scanner (p : BufferReader α) : Scanner α := fun buf =>
  match p buf with
  | some (a, rest) => .done a rest
  | none => .more

theorem scanner_bind (p : BufferReader α) (f : α → BufferReader β) :
    scanner (p >>= f) = (scanner p).bind fun a => scanner (f a) := by
  funext buf
  rw [scanner, bind_apply, Scanner.bind, scanner]
  cases p buf with
  | none => rfl
  | some r => rfl

/-- `p` reads `w` as `a` with anything behind it, and no part of `w`. -/
def Frames (p : BufferReader α) (w : Bytes) (a : α) : Prop := Reads (scanner p) w a

theorem frames_iff {w : Bytes} {a : α} :
    Frames p w a ↔ (∀ rest, p (w ++ rest) = some (a, rest)) ∧
      ∀ q, q <+: w → q ≠ w → p q = none := by
  have hfull : ∀ buf rest, scanner p buf = .done a rest ↔ p buf = some (a, rest) := by
    intro buf rest
    rw [scanner]
    cases p buf with
    | none => simp
    | some r => simp [Prod.ext_iff]
  have hpart : ∀ buf, scanner p buf = .more ↔ p buf = none := by
    intro buf
    rw [scanner]
    cases p buf with
    | none => simp
    | some r => simp
  constructor
  · intro h
    exact ⟨fun rest => (hfull _ _).mp (h.full rest), fun q hq hne => (hpart q).mp (h.part q hq hne)⟩
  · rintro ⟨h, h'⟩
    exact ⟨fun rest => (hfull _ _).mpr (h rest), fun q hq hne => (hpart q).mpr (h' q hq hne)⟩

theorem Frames.bind {v w : Bytes} {a : α} {b : β} (hp : Frames p v a)
    (hf : Frames (f a) w b) : Frames (p >>= f) (v ++ w) b := by
  rw [Frames, scanner_bind]
  exact Reads.bind hp hf

theorem frames_pure (a : α) : Frames (pure a : BufferReader α) [] a := Reads.pure a

theorem Frames.map {w : Bytes} {a : α} (hp : Frames p w a) (f : α → β) :
    Frames (do let a ← p; pure (f a)) w (f a) := by
  have h : Frames (do let a ← p; pure (f a)) (w ++ []) (f a) := hp.bind (frames_pure (f a))
  rwa [append_nil] at h

/-! ## Bytes -/

def nextByte : BufferReader UInt8
  | [] => none
  | b :: rest => some (b, rest)

theorem frames_nextByte (b : UInt8) : Frames nextByte [b] b := by
  refine frames_iff.mpr ⟨fun _ => rfl, fun q hq hne => ?_⟩
  cases q with
  | nil => rfl
  | cons c q =>
    obtain ⟨hc, hnil⟩ := cons_prefix_cons.mp hq
    exact absurd (by rw [hc, prefix_nil.mp hnil]) hne

/-- The first `n` bytes, and `skip` more that are not looked at. -/
def takeSkip (n skip : Nat) : BufferReader Bytes := fun buf =>
  if buf.length < n + skip then none else some (buf.take n, buf.drop (n + skip))

theorem frames_takeSkip (w tail : Bytes) :
    Frames (takeSkip w.length tail.length) (w ++ tail) w := by
  refine frames_iff.mpr ⟨fun rest => ?_, fun q hq hne => ?_⟩
  · rw [takeSkip, if_neg (by simp), append_assoc, take_left, ← append_assoc]
    rw [drop_left' (by rw [length_append])]
  · have hlt : q.length < (w ++ tail).length :=
      lt_of_le_of_ne hq.length_le fun h => hne (hq.eq_of_length h)
    rw [takeSkip, if_pos (by rwa [length_append] at hlt)]

/-! ## Lines -/

/-- The bytes before the first `\r\n`, and those behind it. -/
def splitCrlf : Bytes → Option (Bytes × Bytes)
  | [] => none
  | c :: rest =>
    if c = 13 ∧ rest.head? = some 10 then some ([], rest.tail)
    else (splitCrlf rest).map fun r => (c :: r.1, r.2)

/-- No `\r\n` stands in `s`. -/
def NoCrlf (s : Bytes) : Prop := splitCrlf s = none

instance (s : Bytes) : Decidable (NoCrlf s) :=
  decidable_of_iff ((splitCrlf s).isNone = true) isNone_iff_eq_none

theorem noCrlf_of_forall_ne {s : Bytes} (h : ∀ b ∈ s, b ≠ 13) : NoCrlf s := by
  induction s with
  | nil => rfl
  | cons c s ih =>
    obtain ⟨hc, hs⟩ := forall_mem_cons.mp h
    rw [NoCrlf, splitCrlf, if_neg fun hcut => hc hcut.1, map_eq_none_iff]
    exact ih hs

theorem splitCrlf_append (h : NoCrlf l) (rest : Bytes) :
    splitCrlf (l ++ crlf ++ rest) = some (l, rest) := by
  induction l with
  | nil => rfl
  | cons c l ih =>
    rw [NoCrlf, splitCrlf] at h
    split at h
    · cases h
    rename_i hnot
    have hhead : ¬ (c = 13 ∧ (l ++ crlf ++ rest).head? = some 10) := by
      rintro ⟨hc, hhead⟩
      cases l with
      | nil => exact absurd hhead (by simp [crlf])
      | cons d l => exact hnot ⟨hc, hhead⟩
    rw [cons_append, cons_append, splitCrlf, if_neg hhead, ih (map_eq_none_iff.mp h)]
    rfl

theorem splitCrlf_eq_some_iff :
    splitCrlf buf = some (l, rest) ↔ buf = l ++ crlf ++ rest ∧ NoCrlf l := by
  constructor
  · intro h
    induction buf generalizing l with
    | nil => cases h
    | cons c buf ih =>
      rw [splitCrlf] at h
      split_ifs at h with hcut
      · cases h
        cases buf with
        | nil => cases hcut.2
        | cons d buf =>
          obtain ⟨rfl, hd⟩ := hcut
          cases hd
          exact ⟨rfl, rfl⟩
      obtain ⟨⟨l', rest'⟩, hrec, heq⟩ := map_eq_some_iff.mp h
      cases heq
      obtain ⟨rfl, hl'⟩ := ih hrec
      refine ⟨rfl, ?_⟩
      rw [NoCrlf, splitCrlf, if_neg, hl', map_none]
      rintro ⟨hc, hhead⟩
      refine hcut ⟨hc, ?_⟩
      cases l' with
      | nil => cases hhead
      | cons d l' => exact hhead
  · rintro ⟨rfl, hl⟩
    exact splitCrlf_append hl rest

/-- The line in front, if it has at most `limit` bytes. -/
def line (limit : Nat) : BufferReader Bytes := fun buf =>
  match splitCrlf buf with
  | none => none
  | some (l, rest) => if limit < l.length then none else some (l, rest)

theorem line_eq_some_iff {limit : Nat} :
    line limit buf = some (l, rest) ↔
      buf = l ++ crlf ++ rest ∧ NoCrlf l ∧ l.length ≤ limit := by
  rw [← and_assoc, ← splitCrlf_eq_some_iff, line]
  cases splitCrlf buf with
  | none => simp
  | some r =>
    obtain ⟨l', rest'⟩ := r
    simp only [some.injEq, Prod.mk.injEq]
    split_ifs with hlong
    · simp only [false_iff, not_and]
      rintro ⟨rfl, rfl⟩
      omega
    simp only [some.injEq, Prod.mk.injEq]
    constructor
    · rintro ⟨rfl, rfl⟩
      exact ⟨⟨rfl, rfl⟩, Nat.le_of_not_lt hlong⟩
    · exact fun h => h.1

theorem frames_line {limit : Nat} (hl : NoCrlf l) (hlen : l.length ≤ limit) :
    Frames (line limit) (l ++ crlf) l := by
  refine frames_iff.mpr ⟨fun rest => line_eq_some_iff.mpr ⟨rfl, hl, hlen⟩, fun q hq hne => ?_⟩
  cases hread : line limit q with
  | none => rfl
  | some r =>
    -- a line end in a part of the line would be an earlier one
    obtain ⟨l', rest⟩ := r
    obtain ⟨rfl, hl', -⟩ := line_eq_some_iff.mp hread
    obtain ⟨tail, htail⟩ := hq
    have hwhole := splitCrlf_append hl []
    rw [append_nil, ← htail, append_assoc, splitCrlf_append hl'] at hwhole
    injection hwhole with hpair
    injection hpair with _ hrest
    exact absurd (by rw [← htail, (append_eq_nil_iff.mp hrest).2, append_nil]) hne

/-! ## Repetition -/

/-- Read `n` values. -/
def times (p : BufferReader α) : Nat → BufferReader (List α)
  | 0 => pure []
  | n + 1 => do
      let a ← p
      let as ← times p n
      pure (a :: as)

theorem frames_times {ws : List Bytes} {as : List α} (h : List.Forall₂ (Frames p) ws as) :
    Frames (times p as.length) ws.flatten as := by
  induction h with
  | nil => exact frames_pure []
  | @cons w a ws as hw _ ih => exact hw.bind (ih.map (a :: ·))

/-- The reader never makes the buffer longer. -/
def Shrinks (p : BufferReader α) : Prop := ∀ buf a rest, p buf = some (a, rest) →
  rest.length ≤ buf.length

theorem times_congr {p' : BufferReader α} (hp : Shrinks p) {n : Nat}
    (h : ∀ buf', buf'.length ≤ buf.length → p buf' = p' buf') : times p n buf = times p' n buf := by
  induction n generalizing buf with
  | zero => rfl
  | succ n ih =>
    rw [times, times, bind_apply, bind_apply, ← h buf (Nat.le_refl _)]
    cases hread : p buf with
    | none => rfl
    | some r =>
      have hlen := hp buf r.1 r.2 hread
      have hrest : times p n r.2 = times p' n r.2 := ih fun buf' hbuf' => h buf' (hbuf'.trans hlen)
      show (times p n >>= _) r.2 = (times p' n >>= _) r.2
      rw [bind_apply, bind_apply, hrest]

theorem shrinks_times (hp : Shrinks p) (n : Nat) : Shrinks (times p n) := by
  induction n with
  | zero =>
    intro buf as rest h
    cases h
    exact Nat.le_refl _
  | succ n ih =>
    intro buf as rest h
    obtain ⟨a, mid, hread, h⟩ := bind_eq_some_iff.mp h
    obtain ⟨as', mid', htimes, h⟩ := bind_eq_some_iff.mp h
    cases h
    exact (ih mid as' rest htimes).trans (hp buf a mid hread)

end BufferReader

end SpatialDb.Lib
