import SpatialDb.Lib.Bytes

/-!
# Byte codecs

Little-endian integers, a reader over the remaining bytes of a file, and the
loop that reads records until one does not parse.
-/

namespace SpatialDb.Lib

open List Nat

variable (bs : Bytes) (width n : Nat)

/-! ## Little-endian integers -/

/-- The `width` low bytes of `n`, least significant first. -/
def encodeLE : Nat → Nat → Bytes
  | 0, _ => []
  | width + 1, n => UInt8.ofNat n :: encodeLE width (n / 256)

def decodeLE : Bytes → Nat
  | [] => 0
  | b :: bs => b.toNat + 256 * decodeLE bs

@[simp] theorem length_encodeLE : (encodeLE width n).length = width := by
  induction width generalizing n with
  | zero => rfl
  | succ width ih => simp [encodeLE, ih]

theorem decodeLE_encodeLE : decodeLE (encodeLE width n) = n % 256 ^ width := by
  induction width generalizing n with
  | zero => simp [encodeLE, decodeLE, mod_one]
  | succ width ih =>
    have hpow : 256 ^ (width + 1) = 256 * 256 ^ width := by
      rw [pow_succ, mul_comm]
    rw [encodeLE, decodeLE, ih, UInt8.toNat_ofNat', hpow, mod_mul]

theorem encodeLE_mod : encodeLE width (n % 256 ^ width) = encodeLE width n := by
  induction width generalizing n with
  | zero => rfl
  | succ width ih =>
    have hlow : UInt8.ofNat (n % 256 ^ (width + 1)) = UInt8.ofNat n := by
      apply UInt8.toNat_inj.mp
      rw [UInt8.toNat_ofNat', UInt8.toNat_ofNat', pow_succ]
      exact mod_mul_left_mod n (256 ^ width) 256
    have hhigh : n % 256 ^ (width + 1) / 256 = n / 256 % 256 ^ width := by
      rw [pow_succ, mul_comm, mod_mul_right_div_self]
    rw [encodeLE, encodeLE, hlow, hhigh, ih]

/-! ## Reading -/

/-- Take `n` bytes from the front; fails when fewer are left. -/
def readBytes (n : Nat) (bs : Bytes) : Option (Bytes × Bytes) :=
  if n ≤ bs.length then some (bs.take n, bs.drop n) else none

/-- Read a little-endian integer of `width` bytes. -/
def readLE (width : Nat) (bs : Bytes) : Option (Nat × Bytes) :=
  (readBytes width bs).map fun r => (decodeLE r.1, r.2)

theorem readBytes_append {n : Nat} {l : Bytes} (h : l.length = n) (rest : Bytes) :
    readBytes n (l ++ rest) = some (l, rest) := by
  subst h
  simp [readBytes]

theorem readLE_append (rest : Bytes) :
    readLE width (encodeLE width n ++ rest) = some (n % 256 ^ width, rest) := by
  rw [readLE, readBytes_append (length_encodeLE width n)]
  simp [decodeLE_encodeLE]

theorem readBytes_eq_some_iff {n : Nat} {bs l rest : Bytes} :
    readBytes n bs = some (l, rest) ↔ l.length = n ∧ bs = l ++ rest := by
  constructor
  · intro h
    rw [readBytes] at h
    split at h
    · rename_i hle
      cases h
      exact ⟨length_take_of_le hle, (take_append_drop n bs).symm⟩
    · cases h
  · rintro ⟨hlen, rfl⟩
    exact readBytes_append hlen rest

theorem encodeLE_decodeLE : encodeLE bs.length (decodeLE bs) = bs := by
  induction bs with
  | nil => rfl
  | cons b bs ih =>
    have hlow : UInt8.ofNat (b.toNat + 256 * decodeLE bs) = b := by
      apply UInt8.toNat_inj.mp
      rw [UInt8.toNat_ofNat']
      have := b.toNat_lt
      omega
    have hhigh : (b.toNat + 256 * decodeLE bs) / 256 = decodeLE bs := by
      have := b.toNat_lt
      omega
    show UInt8.ofNat (b.toNat + 256 * decodeLE bs) ::
      encodeLE bs.length ((b.toNat + 256 * decodeLE bs) / 256) = b :: bs
    rw [hlow, hhigh, ih]

theorem decodeLE_lt : decodeLE bs < 256 ^ bs.length := by
  induction bs with
  | nil => simp [decodeLE]
  | cons b bs ih =>
    have hb := b.toNat_lt
    show b.toNat + 256 * decodeLE bs < 256 ^ (bs.length + 1)
    rw [pow_succ]
    omega

/-- A little-endian integer is read exactly off its own bytes. -/
theorem readLE_eq_some_iff {width n : Nat} {bs rest : Bytes} :
    readLE width bs = some (n, rest) ↔ n < 256 ^ width ∧ bs = encodeLE width n ++ rest := by
  constructor
  · intro h
    obtain ⟨⟨l, rest'⟩, hread, heq⟩ := Option.map_eq_some_iff.mp h
    obtain ⟨hlen, rfl⟩ := readBytes_eq_some_iff.mp hread
    cases heq
    rw [← hlen]
    exact ⟨decodeLE_lt l, by rw [encodeLE_decodeLE]⟩
  · rintro ⟨hlt, rfl⟩
    rw [readLE_append, mod_eq_of_lt hlt]

/-! ## The record loop -/

section Records

variable {α β : Type*}

/-- `fuel` rounds of: read a record, stop at the first that does not parse. -/
def readAllFuel (read : Bytes → Option (β × Bytes)) : Nat → Bytes → List β
  | 0, _ => []
  | fuel + 1, bs =>
    match read bs with
    | none => []
    | some (b, rest) => b :: readAllFuel read fuel rest

/-- Read records to the end; every record takes at least one byte, so the
number of bytes bounds the rounds. -/
def readAll (read : Bytes → Option (β × Bytes)) (bs : Bytes) : List β :=
  readAllFuel read bs.length bs

/-- Map `dec` over the list, up to the first failure. -/
def decodeWhile (dec : α → Option β) : List α → List β
  | [] => []
  | a :: as =>
    match dec a with
    | none => []
    | some b => b :: decodeWhile dec as

variable {read : Bytes → Option (β × Bytes)} {enc : α → Bytes} {dec : α → Option β}

theorem readAllFuel_flatMap (hread : ∀ a rest, read (enc a ++ rest) =
    (dec a).map fun b => (b, rest)) (hnil : read [] = none) (as : List α) (fuel : Nat)
    (hfuel : as.length ≤ fuel) :
    readAllFuel read fuel (as.flatMap enc) = decodeWhile dec as := by
  induction as generalizing fuel with
  | nil => cases fuel <;> simp [readAllFuel, decodeWhile, hnil]
  | cons a as ih =>
    cases fuel with
    | zero => simp at hfuel
    | succ fuel =>
      have hrest := ih fuel (by simpa using hfuel)
      rw [flatMap_cons, readAllFuel, hread, decodeWhile]
      cases dec a with
      | none => rfl
      | some b => simp [hrest]

theorem length_le_length_flatMap (hne : ∀ a, enc a ≠ []) (as : List α) :
    as.length ≤ (as.flatMap enc).length := by
  induction as with
  | nil => simp
  | cons a as ih =>
    have hpos := length_pos_iff.mpr (hne a)
    rw [flatMap_cons, length_append, length_cons]
    omega

/-- The record loop on a concatenation of records. -/
theorem readAll_flatMap (hread : ∀ a rest, read (enc a ++ rest) =
    (dec a).map fun b => (b, rest)) (hnil : read [] = none) (hne : ∀ a, enc a ≠ [])
    (as : List α) :
    readAll read (as.flatMap enc) = decodeWhile dec as :=
  readAllFuel_flatMap hread hnil as _ (length_le_length_flatMap hne as)

/-- Nothing is lost, changed or cut off exactly when each record reads back as
itself. -/
theorem decodeWhile_eq_self_iff (dec : α → Option α) (as : List α) :
    decodeWhile dec as = as ↔ ∀ a ∈ as, dec a = some a := by
  induction as with
  | nil => simp [decodeWhile]
  | cons a as ih =>
    rw [decodeWhile, forall_mem_cons, ← ih]
    cases dec a with
    | none => simp
    | some b => simp

end Records

/-! ## Readers that accept nothing but encoded records -/

section Exactly

variable {β : Type*} {read : Bytes → Option (β × Bytes)} {enc : β → Bytes} {ok : β → Prop}

/-- `read` accepts the encodings of the `ok` records, with anything behind
them, and nothing else. -/
structure ReadsExactly (read : Bytes → Option (β × Bytes)) (enc : β → Bytes) (ok : β → Prop) :
    Prop where
  iff : ∀ bs b rest, read bs = some (b, rest) ↔ ok b ∧ bs = enc b ++ rest
  ne_nil : ∀ b, enc b ≠ []

section

variable (h : ReadsExactly read enc ok)
include h

theorem ReadsExactly.nil : read [] = none := by
  cases hread : read [] with
  | none => rfl
  | some r =>
    obtain ⟨-, hnil⟩ := (h.iff [] r.1 r.2).mp hread
    exact absurd (append_eq_nil_iff.mp hnil.symm).1 (h.ne_nil r.1)

/-- A proper part of a record is not accepted. -/
theorem ReadsExactly.part {b : β} (hb : ok b) {q : Bytes}
    (hq : q <+: enc b) (hne : q ≠ enc b) : read q = none := by
  cases hread : read q with
  | none => rfl
  | some r =>
    obtain ⟨b', rest⟩ := r
    obtain ⟨hb', rfl⟩ := (h.iff q b' rest).mp hread
    obtain ⟨tail, htail⟩ := hq
    rw [append_assoc] at htail
    -- the whole record reads as itself, and as the shorter record
    have hwhole : read (enc b) = some (b, []) := (h.iff _ _ _).mpr ⟨hb, (append_nil _).symm⟩
    have hshort : read (enc b) = some (b', rest ++ tail) := (h.iff _ _ _).mpr ⟨hb', htail.symm⟩
    rw [hwhole] at hshort
    injection hshort with hpair
    injection hpair with hbb hrest
    obtain ⟨hrest, -⟩ := append_eq_nil_iff.mp hrest.symm
    exact absurd (by rw [hbb, hrest, append_nil]) hne

/-- What `fuel` rounds return: at most `fuel` records, and if fewer, because
what is left does not begin with one. -/
theorem ReadsExactly.readAllFuel_eq_iff (fuel : Nat) (bs : Bytes) (as : List β) :
    readAllFuel read fuel bs = as ↔ (∀ a ∈ as, ok a) ∧ ∃ left, bs = as.flatMap enc ++ left ∧
      (as.length = fuel ∨ as.length < fuel ∧ read left = none) := by
  induction fuel generalizing bs as with
  | zero =>
    show [] = as ↔ _
    constructor
    · rintro rfl
      exact ⟨by simp, bs, rfl, Or.inl rfl⟩
    · rintro ⟨-, left, -, hlen | ⟨hlen, -⟩⟩
      · exact (length_eq_zero_iff.mp hlen).symm
      · exact absurd hlen (not_lt_zero _)
  | succ fuel ih =>
    rw [readAllFuel]
    cases hread : read bs with
    | none =>
      constructor
      · rintro rfl
        exact ⟨by simp, bs, rfl, Or.inr ⟨succ_pos _, hread⟩⟩
      · rintro ⟨hok, left, rfl, -⟩
        cases as with
        | nil => rfl
        | cons a as =>
          have hsome := (h.iff (enc a ++ (as.flatMap enc ++ left)) a _).mpr
            ⟨hok a mem_cons_self, rfl⟩
          rw [flatMap_cons, append_assoc, hsome] at hread
          cases hread
    | some r =>
      obtain ⟨b, rest⟩ := r
      obtain ⟨hb, rfl⟩ := (h.iff bs b rest).mp hread
      show b :: readAllFuel read fuel rest = as ↔ _
      cases as with
      | nil =>
        constructor
        · rintro ⟨⟩
        · rintro ⟨-, left, rfl, hlen | ⟨-, hnone⟩⟩
          · cases hlen
          · exact absurd (hnone.symm.trans hread) (by simp)
      | cons a as =>
        rw [cons.injEq, ih rest as]
        constructor
        · rintro ⟨rfl, hok, left, rfl, hend⟩
          refine ⟨forall_mem_cons.mpr ⟨hb, hok⟩, left, ?_, ?_⟩
          · rw [flatMap_cons, append_assoc]
          · simpa using hend
        · rintro ⟨hok, left, hbytes, hend⟩
          rw [flatMap_cons, append_assoc] at hbytes
          have hsame := (h.iff (enc b ++ rest) a _).mpr ⟨hok a mem_cons_self, hbytes⟩
          rw [hread] at hsame
          injection hsame with hpair
          injection hpair with hab hrest
          exact ⟨hab, (forall_mem_cons.mp hok).2, left, hrest, by simpa using hend⟩

/-- **What the record loop returns on any bytes**: the records `as` are what it
returns exactly when they stand in front and no further record begins behind
them. -/
theorem ReadsExactly.readAll_eq_iff (bs : Bytes) (as : List β) :
    readAll read bs = as ↔
      (∀ a ∈ as, ok a) ∧ ∃ left, bs = as.flatMap enc ++ left ∧ read left = none := by
  rw [readAll, h.readAllFuel_eq_iff]
  refine and_congr_right fun _ => exists_congr fun left => and_congr_right fun hbytes => ?_
  have hlen := length_le_length_flatMap h.ne_nil as
  have hbs : bs.length = (as.flatMap enc).length + left.length := by
    rw [hbytes, length_append]
  constructor
  · rintro (hfull | ⟨-, hnone⟩)
    · -- as many records as bytes: nothing is left
      have hleft : left = [] := length_eq_zero_iff.mp (by omega)
      rw [hleft]
      exact h.nil
    · exact hnone
  · intro hnone
    rcases lt_or_ge as.length bs.length with hlt | hge
    · exact Or.inr ⟨hlt, hnone⟩
    · exact Or.inl (by omega)

end

end Exactly

/-! ## A file cut at any byte -/

variable {α : Type*} (enc : α → Bytes)

/-- The records that lie wholly within the first `n` bytes. -/
def wholeRecords : Nat → List α → List α
  | _, [] => []
  | n, a :: as =>
    if (enc a).length ≤ n then a :: wholeRecords (n - (enc a).length) as else []

/-- The part of a record in front of the cut. -/
def tornBytes : Nat → List α → Bytes
  | _, [] => []
  | n, a :: as =>
    if (enc a).length ≤ n then tornBytes (n - (enc a).length) as else (enc a).take n

/-- A file cut after `n` bytes: whole records, and the rest of the cut one. -/
theorem take_flatMap (n : Nat) (as : List α) :
    (as.flatMap enc).take n = (wholeRecords enc n as).flatMap enc ++ tornBytes enc n as := by
  induction as generalizing n with
  | nil => simp [wholeRecords, tornBytes]
  | cons a as ih =>
    rw [flatMap_cons, take_append, wholeRecords, tornBytes]
    split_ifs with hle
    · rw [take_of_length_le hle, ih, flatMap_cons, append_assoc]
    · rw [Nat.sub_eq_zero_of_le (by omega)]
      simp

theorem wholeRecords_begins (n : Nat) (as : List α) : wholeRecords enc n as <+: as := by
  induction as generalizing n with
  | nil => exact prefix_refl []
  | cons a as ih =>
    rw [wholeRecords]
    split
    · exact cons_prefix_cons.mpr ⟨rfl, ih _⟩
    · exact nil_prefix

/-- What is torn is nothing, or a proper part of one of the records. -/
theorem tornBytes_eq_nil_or (n : Nat) (as : List α) :
    tornBytes enc n as = [] ∨
      ∃ a ∈ as, tornBytes enc n as <+: enc a ∧ tornBytes enc n as ≠ enc a := by
  induction as generalizing n with
  | nil => exact Or.inl rfl
  | cons a as ih =>
    rw [tornBytes]
    split
    · rcases ih (n - (enc a).length) with hnil | ⟨b, hb, hpart⟩
      · exact Or.inl hnil
      · exact Or.inr ⟨b, mem_cons_of_mem _ hb, hpart⟩
    rename_i hlt
    refine Or.inr ⟨a, mem_cons_self, take_prefix _ _, fun heq => ?_⟩
    have hlen := congrArg List.length heq
    rw [length_take] at hlen
    omega

variable {enc} {read : Bytes → Option (α × Bytes)} {ok : α → Prop}

theorem ReadsExactly.tornBytes (h : ReadsExactly read enc ok) {as : List α}
    (hok : ∀ a ∈ as, ok a) (n : Nat) : read (tornBytes enc n as) = none := by
  rcases tornBytes_eq_nil_or enc n as with hnil | ⟨a, ha, hpart, hne⟩
  · rw [hnil]
    exact h.nil
  · exact h.part (hok a ha) hpart hne

end SpatialDb.Lib
