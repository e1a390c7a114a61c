import SpatialDb.Lib.Bisect
import SpatialDb.Spatial.Geometry

/-!
# Geohashes

Model of `cpp/spatial/geohash.cpp`, over any numbers.  Longitude and latitude
are halved in turn, longitude first; the bits, one for each halving, are written
five at a time in base 32.  The laws are those of rational coordinates.
-/

namespace SpatialDb.Spatial.Geohash

open Lib List Nat Bool
open Lib.Bisect

variable (bs : List Bool)

/-! ## Model -/

/-- `Geohash::BASE32`. -/
def base32 : Bytes := lit "0123456789bcdefghjkmnpqrstuvwxyz"

/-- `charToIdx`, with the text of the exception. -/
def charToIdx (c : UInt8) : Except Bytes Nat :=
  match base32.idxOf? c with
  | some i => .ok i
  | none => .error (lit "invalid geohash char: " ++ [c])

section

variable {K : Type} [Add K] [Neg K] [Div K] [LE K] [DecidableLE K] [OfNat K 2] [OfNat K 90]
  [OfNat K 180]

/-- The intervals that `encode` and `decodeBBox` narrow down, and which of them
is next. -/
structure Halving (K : Type) where
  latMin : K
  latMax : K
  lonMin : K
  lonMax : K
  useLon : Bool
  deriving DecidableEq

namespace Halving

def world : Halving K := ⟨-90, 90, -180, 180, true⟩

variable (s : Halving K)

def mid : K :=
  if s.useLon then (s.lonMin + s.lonMax) / 2 else (s.latMin + s.latMax) / 2

/-- The bit of a point: whether it is in the upper half. -/
def upper (lat lon : K) : Bool :=
  if s.useLon then lon ≥ s.mid else lat ≥ s.mid

/-- The half that a bit selects. -/
def take (bit : Bool) : Halving K :=
  if s.useLon then
    if bit then { s with lonMin := s.mid, useLon := false }
    else { s with lonMax := s.mid, useLon := false }
  else
    if bit then { s with latMin := s.mid, useLon := true }
    else { s with latMax := s.mid, useLon := true }

def box : BBox K := ⟨s.latMin, s.lonMin, s.latMax, s.lonMax⟩

end Halving

/-- The variables of the loop in `encode`; `bits` counts the bits in `bit`. -/
structure EncodeState (K : Type) extends Halving K where
  result : Bytes
  bits : Nat
  bit : Nat
  bits_lt : bits < 5

/-- One round of `encode`. -/
def EncodeState.next (s : EncodeState K) (lat lon : K) : EncodeState K :=
  let b := s.upper lat lon
  let bit := s.bit <<< 1 ||| b.toNat
  if h : s.bits + 1 = 5 then
    { s.toHalving.take b with
      result := s.result ++ [base32.getD bit 0]
      bits := 0
      bit := 0
      bits_lt := by decide }
  else
    { s.toHalving.take b with
      result := s.result
      bits := s.bits + 1
      bit := bit
      bits_lt := by have := s.bits_lt; omega }

def encodeLoop (lat lon : K) (precision : Nat) (s : EncodeState K) : Bytes :=
  if s.result.length < precision then encodeLoop lat lon precision (s.next lat lon) else s.result
termination_by 5 * (precision - s.result.length) - s.bits
decreasing_by
  have hlt := s.bits_lt
  unfold EncodeState.next
  split
  · rw [List.length_append, List.length_singleton]
    omega
  · dsimp only
    omega

def encode (lat lon : K) (precision : Nat) : Bytes :=
  encodeLoop lat lon precision ⟨Halving.world, [], 0, 0, by decide⟩

/-- One round of the outer loop of `decodeBBox`. -/
def decodeChar (s : Halving K) (c : UInt8) : Except Bytes (Halving K) := do
  let val ← charToIdx c
  return [4, 3, 2, 1, 0].foldl (fun s i => s.take (val >>> i &&& 1 == 1)) s

def decodeBBox (hash : Bytes) : Except Bytes (BBox K) := do
  let s ← hash.foldlM decodeChar Halving.world
  return s.box

def decode (hash : Bytes) : Except Bytes (Point K) := do
  let box ← decodeBBox hash
  return ⟨(box.minLat + box.maxLat) / 2, (box.minLon + box.maxLon) / 2⟩

end

/-! ## Bits and characters -/

section

variable (k : Nat)

/-- The number that a run of bits stands for, leading bit first. -/
def pack (bs : List Bool) : Nat := bs.foldl (fun v b => 2 * v + b.toNat) 0

/-- The five bits of a character's number. -/
def charBits (val : Nat) : List Bool := [4, 3, 2, 1, 0].map fun i => val >>> i &&& 1 == 1

/-- Bits written five at a time. -/
def chars : List Bool → Bytes
  | b₀ :: b₁ :: b₂ :: b₃ :: b₄ :: bs => base32.getD (pack [b₀, b₁, b₂, b₃, b₄]) 0 :: chars bs
  | _ => []

def hashBits (h : Bytes) : List Bool := h.flatMap fun c => charBits (base32.idxOf c)

/-- The characters are all in the alphabet. -/
def Valid (h : Bytes) : Prop := ∀ c ∈ h, c ∈ base32

instance (h : Bytes) : Decidable (Valid h) :=
  decidable_of_iff (h.all fun c => base32.contains c) (by simp [Valid])

private theorem shift_or (v : Nat) (b : Bool) : v <<< 1 ||| b.toNat = 2 * v + b.toNat := by
  have hlt : b.toNat < 2 ^ 1 := toNat_lt b
  rw [shiftLeft_eq, mul_comm, ← two_pow_add_eq_or_of_lt hlt, pow_one]

private theorem pack_concat (b : Bool) : pack (bs ++ [b]) = 2 * pack bs + b.toNat := by
  simp [pack, foldl_append]

private theorem charBits_pack {bs : List Bool} (hlen : bs.length = 5) :
    pack bs < 32 ∧ charBits (pack bs) = bs := by
  match bs, hlen with
  | [b₀, b₁, b₂, b₃, b₄], _ =>
    revert b₀ b₁ b₂ b₃ b₄
    decide

private theorem pack_charBits : ∀ val < 32, pack (charBits val) = val := by
  decide

theorem base32_eq : base32 = [48, 49, 50, 51, 52, 53, 54, 55, 56, 57, 98, 99, 100, 101, 102, 103,
    104, 106, 107, 109, 110, 112, 113, 114, 115, 116, 117, 118, 119, 120, 121, 122] := by
  decide +kernel

private theorem idxOf_base32 : ∀ val < 32,
    base32.getD val 0 ∈ base32 ∧ base32.idxOf (base32.getD val 0) = val := by
  rw [base32_eq]
  decide +kernel

/-- Every character has a number, and the number its character. -/
theorem base32_idxOf : ∀ c ∈ base32, base32.idxOf? c = some (base32.idxOf c) ∧
    base32.idxOf c < 32 ∧ base32.getD (base32.idxOf c) 0 = c := by
  -- over the characters of the list, not over all bytes
  have hall : (base32.all fun c => decide (base32.idxOf? c = some (base32.idxOf c) ∧
      base32.idxOf c < 32 ∧ base32.getD (base32.idxOf c) 0 = c)) = true := by
    rw [base32_eq]
    decide +kernel
  exact fun c hc => of_decide_eq_true (all_eq_true.mp hall c hc)

theorem length_hashBits (h : Bytes) : (hashBits h).length = 5 * h.length := by
  induction h with
  | nil => rfl
  | cons c h ih =>
    rw [hashBits, flatMap_cons, length_append, ← hashBits, ih, length_cons]
    simp only [charBits, length_map, length_cons, length_nil]
    omega

private theorem exists_five (hlen : 5 ≤ bs.length) : ∃ hd rest, bs = hd ++ rest ∧ hd.length = 5 :=
  ⟨bs.take 5, bs.drop 5, (take_append_drop 5 bs).symm, length_take_of_le hlen⟩

/-- Five bits in front are one character. -/
theorem chars_append {bs : List Bool} (hlen : bs.length = 5) (bs' : List Bool) :
    chars (bs ++ bs') = base32.getD (pack bs) 0 :: chars bs' := by
  match bs, hlen with
  | [_, _, _, _, _], _ => rfl

private theorem chars_append_of_dvd : ∀ bs : List Bool, bs.length = 5 * k → ∀ bs' : List Bool,
    chars (bs ++ bs') = chars bs ++ chars bs' := by
  induction k with
  | zero =>
    intro bs hlen bs'
    rw [length_eq_zero_iff.mp hlen]
    rfl
  | succ k ih =>
    intro bs hlen bs'
    obtain ⟨hd, rest, rfl, hhd⟩ := exists_five bs (by omega)
    rw [length_append] at hlen
    rw [append_assoc, chars_append hhd, chars_append hhd, ih rest (by omega), cons_append]

private theorem chars_hashBits {h : Bytes} (hvalid : Valid h) : chars (hashBits h) = h := by
  induction h with
  | nil => rfl
  | cons c h ih =>
    obtain ⟨hc, hvalid⟩ := forall_mem_cons.mp hvalid
    obtain ⟨-, hlt, heq⟩ := base32_idxOf c hc
    show chars (charBits (base32.idxOf c) ++ hashBits h) = c :: h
    rw [chars_append rfl, pack_charBits _ hlt, heq, ih hvalid]

/-- Whole characters lose no bits. -/
theorem chars_spec : ∀ bs : List Bool, bs.length = 5 * k →
    Valid (chars bs) ∧ (chars bs).length = k ∧ hashBits (chars bs) = bs := by
  induction k with
  | zero =>
    intro bs hlen
    rw [length_eq_zero_iff.mp hlen]
    exact ⟨forall_mem_nil _, rfl, rfl⟩
  | succ k ih =>
    intro bs hlen
    obtain ⟨hd, rest, rfl, hhd⟩ := exists_five bs (by omega)
    rw [length_append] at hlen
    obtain ⟨hvalid, hlength, hbits⟩ := ih rest (by omega)
    obtain ⟨hlt, hpack⟩ := charBits_pack hhd
    obtain ⟨hmem, hidx⟩ := idxOf_base32 _ hlt
    rw [chars_append hhd]
    refine ⟨forall_mem_cons.mpr ⟨hmem, hvalid⟩, by rw [length_cons, hlength], ?_⟩
    rw [hashBits, flatMap_cons, ← hashBits, hidx, hpack, hbits]

end

/-! ## The stream of bits -/

theorem charToIdx_of_mem {c : UInt8} (hc : c ∈ base32) : charToIdx c = .ok (base32.idxOf c) := by
  rw [charToIdx, (base32_idxOf c hc).1]

private theorem charToIdx_of_not_mem {c : UInt8} (hc : c ∉ base32) :
    charToIdx c = .error (lit "invalid geohash char: " ++ [c]) := by
  rw [charToIdx, idxOf?_eq_none_iff.mpr hc]

section

variable {K : Type} [Add K] [Div K] [OfNat K 2]

private theorem decodeChar_of_mem {c : UInt8} (hc : c ∈ base32) (s : Halving K) :
    decodeChar s c = .ok ((charBits (base32.idxOf c)).foldl Halving.take s) := by
  rw [decodeChar, charToIdx_of_mem hc, charBits, foldl_map]
  rfl

private theorem foldlM_decodeChar {h : Bytes} (hvalid : Valid h) (s : Halving K) :
    h.foldlM decodeChar s = .ok ((hashBits h).foldl Halving.take s) := by
  induction h generalizing s with
  | nil => rfl
  | cons c h ih =>
    obtain ⟨hc, hvalid⟩ := forall_mem_cons.mp hvalid
    rw [foldlM_cons, decodeChar_of_mem hc, hashBits, flatMap_cons, ← hashBits, foldl_append]
    exact ih hvalid _

private theorem valid_of_foldlM {h : Bytes} : ∀ {s s' : Halving K}, h.foldlM decodeChar s = .ok s' →
    Valid h := by
  induction h with
  | nil => exact fun _ => forall_mem_nil _
  | cons c h ih =>
    intro s s' hs
    rw [foldlM_cons] at hs
    by_cases hc : c ∈ base32
    · rw [decodeChar_of_mem hc] at hs
      exact forall_mem_cons.mpr ⟨hc, ih hs⟩
    · rw [decodeChar, charToIdx_of_not_mem hc] at hs
      cases hs

section

variable [Neg K] [OfNat K 90] [OfNat K 180]

theorem valid_of_decodeBBox {h : Bytes} {box : BBox K} (hbox : decodeBBox h = .ok box) :
    Valid h := by
  rw [decodeBBox] at hbox
  cases hs : h.foldlM decodeChar (Halving.world : Halving K) with
  | error e =>
    rw [hs] at hbox
    cases hbox
  | ok s => exact valid_of_foldlM hs

theorem decodeBBox_eq {h : Bytes} (hvalid : Valid h) :
    decodeBBox (K := K) h = .ok ((hashBits h).foldl Halving.take Halving.world).box := by
  rw [decodeBBox, foldlM_decodeChar hvalid]
  rfl

end

variable [LE K] [DecidableLE K] (lat lon : K) (n : Nat) (k : Nat)

/-- The bits of a point for the next `n` halvings. -/
def path (lat lon : K) : Nat → Halving K → List Bool
  | 0, _ => []
  | n + 1, s => s.upper lat lon :: path lat lon n (s.take (s.upper lat lon))

private theorem length_path (s : Halving K) : (path lat lon n s).length = n := by
  induction n generalizing s with
  | zero => rfl
  | succ n ih => rw [path, length_cons, ih]

private theorem path_prefix (n m : Nat) (s : Halving K) :
    ∃ bs, path lat lon (n + m) s = path lat lon n s ++ bs := by
  induction n generalizing s with
  | zero => exact ⟨path lat lon m s, by rw [zero_add, path, nil_append]⟩
  | succ n ih =>
    obtain ⟨bs, hbs⟩ := ih (s.take (s.upper lat lon))
    refine ⟨bs, ?_⟩
    rw [add_right_comm, path, path, hbs, cons_append]

/-- The loop from any state: `ps` are the bits not yet written. -/
theorem encodeLoop_eq (precision : Nat) (n : Nat) :
    ∀ (s : EncodeState K) (ps : List Bool), ps.length = s.bits → pack ps = s.bit →
      5 * (precision - s.result.length) = s.bits + n →
      encodeLoop lat lon precision s = s.result ++ chars (ps ++ path lat lon n s.toHalving) := by
  induction n with
  | zero =>
    intro s ps hlen _ hn
    have hlt := s.bits_lt
    have hps : ps = [] := length_eq_zero_iff.mp (by omega)
    rw [encodeLoop, if_neg (by omega), hps]
    simp [path, chars]
  | succ n ih =>
    intro s ps hlen hpack hn
    have hbit : s.bit <<< 1 ||| (s.upper lat lon).toNat = pack (ps ++ [s.upper lat lon]) := by
      rw [shift_or, pack_concat, hpack]
    rw [encodeLoop, if_pos (by omega), path, append_cons]
    unfold EncodeState.next
    dsimp only
    rw [hbit]
    have hlength : (ps ++ [s.upper lat lon]).length = s.bits + 1 := by
      rw [length_append, length_singleton, hlen]
    generalize ps ++ [s.upper lat lon] = qs at hlength
    by_cases hfull : s.bits + 1 = 5
    · -- the fifth bit completes a character
      rw [dif_pos hfull, chars_append (hlength.trans hfull)]
      refine (ih _ [] rfl rfl ?_).trans ?_
      · show 5 * (precision - (s.result ++ [_]).length) = 0 + n
        rw [length_append, length_singleton]
        omega
      · simp
    · rw [dif_neg hfull]
      exact ih _ qs hlength rfl (by dsimp only; omega)

variable [Neg K] [OfNat K 90] [OfNat K 180]

theorem encode_eq : encode lat lon k = chars (path lat lon (5 * k) Halving.world) := by
  rw [encode, encodeLoop_eq lat lon k (5 * k) _ [] rfl rfl (by simp)]
  rfl

end

variable (lat lon : ℚ) (n : Nat) (k : Nat)

/-! ## The grid -/

/-- A cell after `level` halvings: the column and the row, counted from the
south-west. -/
@[ext]
structure Cell where
  level : Nat
  lon : Nat
  lat : Nat
  lon_lt : lon < 2 ^ ((level + 1) / 2)
  lat_lt : lat < 2 ^ (level / 2)
  deriving DecidableEq

namespace Cell

def root : Cell := ⟨0, 0, 0, by decide, by decide⟩

/-- The half of a cell that a bit selects. -/
def child (c : Cell) (b : Bool) : Cell :=
  if h : c.level % 2 = 0 then
    ⟨c.level + 1, 2 * c.lon + b.toNat, c.lat, by
      have hlevel : (c.level + 1 + 1) / 2 = (c.level + 1) / 2 + 1 := by omega
      have hlt := c.lon_lt
      have hb := b.toNat_le
      rw [hlevel, pow_succ]
      omega, by
      have hlevel : (c.level + 1) / 2 = c.level / 2 := by omega
      rw [hlevel]
      exact c.lat_lt⟩
  else
    ⟨c.level + 1, c.lon, 2 * c.lat + b.toNat, by
      have hlevel : (c.level + 1 + 1) / 2 = (c.level + 1) / 2 := by omega
      rw [hlevel]
      exact c.lon_lt, by
      have hlevel : (c.level + 1) / 2 = c.level / 2 + 1 := by omega
      have hlt := c.lat_lt
      have hb := b.toNat_le
      rw [hlevel, pow_succ]
      omega⟩

variable (level : Nat)

/-- The longitude at a coordinate of the grid. -/
abbrev lonAt (t : ℚ) : ℚ := pos (-180) 180 ((level + 1) / 2) t

/-- The latitude at a coordinate of the grid. -/
abbrev latAt (t : ℚ) : ℚ := pos (-90) 90 (level / 2) t

/-- The intervals of a cell. -/
def halving (c : Cell) : Halving ℚ where
  latMin := latAt c.level c.lat
  latMax := latAt c.level (c.lat + 1)
  lonMin := lonAt c.level c.lon
  lonMax := lonAt c.level (c.lon + 1)
  useLon := c.level % 2 = 0

/-- The cell of a point. -/
def locate (lat lon : ℚ) : Cell where
  level := level
  lon := slot (-180) 180 ((level + 1) / 2) lon
  lat := slot (-90) 90 (level / 2) lat
  lon_lt := slot_lt _ _ _ _
  lat_lt := slot_lt _ _ _ _

theorem halving_root : root.halving = Halving.world := by
  decide +kernel

/-! ### One halving -/

section Even

variable {c : Cell} (h : c.level % 2 = 0)
include h

theorem child_even (b : Bool) :
    (c.child b).level = c.level + 1 ∧ (c.child b).lon = 2 * c.lon + b.toNat ∧
      (c.child b).lat = c.lat := by
  rw [child, dif_pos h]
  exact ⟨rfl, rfl, rfl⟩

private theorem useLon_even : c.halving.useLon = true := decide_eq_true h

private theorem mid_even : c.halving.mid = lonAt c.level (c.lon + 1 / 2) := by
  simp only [Halving.mid, halving, h, decide_true, if_true, midpoint_pos]
  congr 1
  ring

private theorem lonAt_even (t : ℚ) : lonAt (c.level + 1) (2 * t) = lonAt c.level t := by
  have hlevel : (c.level + 1 + 1) / 2 = (c.level + 1) / 2 + 1 := by omega
  rw [lonAt, hlevel, pos_succ]

private theorem latAt_even (t : ℚ) : latAt (c.level + 1) t = latAt c.level t := by
  have hlevel : (c.level + 1) / 2 = c.level / 2 := by omega
  rw [latAt, hlevel]

end Even

section Odd

variable {c : Cell} (h : c.level % 2 ≠ 0)
include h

theorem child_odd (b : Bool) :
    (c.child b).level = c.level + 1 ∧ (c.child b).lon = c.lon ∧
      (c.child b).lat = 2 * c.lat + b.toNat := by
  rw [child, dif_neg h]
  exact ⟨rfl, rfl, rfl⟩

private theorem useLon_odd : c.halving.useLon = false := decide_eq_false h

private theorem mid_odd : c.halving.mid = latAt c.level (c.lat + 1 / 2) := by
  simp only [Halving.mid, halving, h, decide_false, false_eq_true, if_false, midpoint_pos]
  congr 1
  ring

private theorem lonAt_odd (t : ℚ) : lonAt (c.level + 1) t = lonAt c.level t := by
  have hlevel : (c.level + 1 + 1) / 2 = (c.level + 1) / 2 := by omega
  rw [lonAt, hlevel]

private theorem latAt_odd (t : ℚ) : latAt (c.level + 1) (2 * t) = latAt c.level t := by
  have hlevel : (c.level + 1) / 2 = c.level / 2 + 1 := by omega
  rw [latAt, hlevel, pos_succ]

end Odd

variable (c : Cell)

/-- Halving the intervals of a cell gives those of its child. -/
theorem take_halving (b : Bool) : c.halving.take b = (c.child b).halving := by
  by_cases h : c.level % 2 = 0
  · obtain ⟨hlevel, hlon, hlat⟩ := child_even h b
    have hodd : (c.level + 1) % 2 ≠ 0 := by omega
    have hmid : lonAt (c.level + 1) (2 * c.lon + 1) = c.halving.mid := by
      rw [mid_even h, ← lonAt_even h]
      congr 1
      ring
    have hmax : lonAt (c.level + 1) (2 * c.lon + 1 + 1) = lonAt c.level (c.lon + 1) := by
      rw [← lonAt_even h]
      congr 1
      ring
    rw [Halving.take, if_pos (useLon_even h), ← hmid]
    cases b with
    | false => simp [halving, hlevel, hlon, hlat, latAt_even h, lonAt_even h, hodd]
    | true => simp [halving, hlevel, hlon, hlat, latAt_even h, hodd, hmax]
  obtain ⟨hlevel, hlon, hlat⟩ := child_odd h b
  have heven : (c.level + 1) % 2 = 0 := by omega
  have hmid : latAt (c.level + 1) (2 * c.lat + 1) = c.halving.mid := by
    rw [mid_odd h, ← latAt_odd h]
    congr 1
    ring
  have hmax : latAt (c.level + 1) (2 * c.lat + 1 + 1) = latAt c.level (c.lat + 1) := by
    rw [← latAt_odd h]
    congr 1
    ring
  rw [Halving.take, if_neg (eq_false_iff.mp (useLon_odd h)), ← hmid]
  cases b with
  | false => simp [halving, hlevel, hlon, hlat, lonAt_odd h, latAt_odd h, heven]
  | true => simp [halving, hlevel, hlon, hlat, lonAt_odd h, heven, hmax]

theorem foldl_take_halving : bs.foldl Halving.take c.halving = (bs.foldl child c).halving := by
  induction bs generalizing c with
  | nil => rfl
  | cons b bs ih => rw [foldl_cons, foldl_cons, take_halving, ih]

theorem level_child (b : Bool) : (c.child b).level = c.level + 1 := by
  by_cases h : c.level % 2 = 0
  · exact (child_even h b).1
  · exact (child_odd h b).1

private theorem level_foldl_child : (bs.foldl child c).level = c.level + bs.length := by
  induction bs generalizing c with
  | nil => rfl
  | cons b bs ih =>
    rw [foldl_cons, ih, level_child, length_cons]
    omega

private theorem child_injective {c c' : Cell} {b b' : Bool} (hlevel : c.level = c'.level)
    (h : c.child b = c'.child b') : c = c' ∧ b = b' := by
  have hb := b.toNat_le
  have hb' := b'.toNat_le
  have hlon := congrArg lon h
  have hlat := congrArg lat h
  have hbit : b.toNat = b'.toNat → b = b' := by
    cases b <;> cases b' <;> decide
  by_cases heven : c.level % 2 = 0
  · have heven' : c'.level % 2 = 0 := hlevel ▸ heven
    rw [(child_even heven b).2.1, (child_even heven' b').2.1] at hlon
    rw [(child_even heven b).2.2, (child_even heven' b').2.2] at hlat
    exact ⟨Cell.ext hlevel (by omega) hlat, hbit (by omega)⟩
  have hodd' : c'.level % 2 ≠ 0 := hlevel ▸ heven
  rw [(child_odd heven b).2.1, (child_odd hodd' b').2.1] at hlon
  rw [(child_odd heven b).2.2, (child_odd hodd' b').2.2] at hlat
  exact ⟨Cell.ext hlevel hlon (by omega), hbit (by omega)⟩

private theorem foldl_child_injective : ∀ bs' : List Bool, bs.length = bs'.length →
    bs.foldl child root = bs'.foldl child root → bs = bs' := by
  -- the last bit can be read off, so the induction takes bits from the end
  induction bs using List.reverseRecOn with
  | nil => exact fun bs' hlen _ => (length_eq_zero_iff.mp hlen.symm).symm
  | append_singleton bs b ih =>
    intro bs' hlen hcell
    rw [length_append, length_singleton] at hlen
    obtain ⟨init, b', rfl⟩ : ∃ init b', bs' = init ++ [b'] :=
      (eq_nil_or_concat' bs').resolve_left fun hnil => by
        rw [hnil, length_nil] at hlen
        omega
    rw [length_append, length_singleton] at hlen
    rw [foldl_append, foldl_append] at hcell
    have hlevel : (bs.foldl child root).level = (init.foldl child root).level := by
      rw [level_foldl_child, level_foldl_child, succ.inj hlen]
    obtain ⟨hinit, rfl⟩ := child_injective hlevel hcell
    rw [ih init (succ.inj hlen) hinit]

/-! ### The cell of a point -/

/-- The bit of a point selects the half that it lies in. -/
theorem child_locate (level : Nat) (lat lon : ℚ) :
    (locate level lat lon).child ((locate level lat lon).halving.upper lat lon) =
      locate (level + 1) lat lon := by
  generalize hc : locate level lat lon = c
  have hclevel : c.level = level := by rw [← hc]; rfl
  have hclon : c.lon = slot (-180) 180 ((level + 1) / 2) lon := by rw [← hc]; rfl
  have hclat : c.lat = slot (-90) 90 (level / 2) lat := by rw [← hc]; rfl
  clear hc
  subst hclevel
  by_cases h : c.level % 2 = 0
  · obtain ⟨hlevel, hlon, hlat⟩ := child_even h (c.halving.upper lat lon)
    have hlonBits : (c.level + 1 + 1) / 2 = (c.level + 1) / 2 + 1 := by omega
    have hlatBits : (c.level + 1) / 2 = c.level / 2 := by omega
    refine Cell.ext hlevel (hlon.trans ?_) (hlat.trans ?_)
    · show _ = slot (-180) 180 ((c.level + 1 + 1) / 2) lon
      rw [hlonBits, slot_succ (by norm_num), ← hclon, Halving.upper, if_pos (useLon_even h),
        mid_even h]
    · show _ = slot (-90) 90 ((c.level + 1) / 2) lat
      rw [hlatBits, hclat]
  obtain ⟨hlevel, hlon, hlat⟩ := child_odd h (c.halving.upper lat lon)
  have hlonBits : (c.level + 1 + 1) / 2 = (c.level + 1) / 2 := by omega
  have hlatBits : (c.level + 1) / 2 = c.level / 2 + 1 := by omega
  refine Cell.ext hlevel (hlon.trans ?_) (hlat.trans ?_)
  · show _ = slot (-180) 180 ((c.level + 1 + 1) / 2) lon
    rw [hlonBits, hclon]
  · show _ = slot (-90) 90 ((c.level + 1) / 2) lat
    rw [hlatBits, slot_succ (by norm_num), ← hclat, Halving.upper,
      if_neg (eq_false_iff.mp (useLon_odd h)), mid_odd h]

private theorem foldl_child_path : ∀ level : Nat,
    (path lat lon n (locate level lat lon).halving).foldl child (locate level lat lon) =
      locate (level + n) lat lon := by
  induction n with
  | zero => exact fun _ => rfl
  | succ n ih =>
    intro level
    rw [path, foldl_cons, take_halving, child_locate, ih, add_right_comm, add_assoc]

private theorem locate_zero : locate 0 lat lon = root :=
  Cell.ext rfl (slot_zero _ _ _) (slot_zero _ _ _)

/-- The point in the middle of a cell. -/
def centre : Point ℚ := ⟨latAt c.level (c.lat + 1 / 2), lonAt c.level (c.lon + 1 / 2)⟩

theorem locate_centre : locate c.level c.centre.lat c.centre.lon = c :=
  Cell.ext rfl (slot_centre (by norm_num) c.lon_lt) (slot_centre (by norm_num) c.lat_lt)

end Cell

/-! ## Hashes and cells -/

/-- The cell of a hash. -/
def cell (h : Bytes) : Cell := (hashBits h).foldl Cell.child Cell.root

theorem level_cell (h : Bytes) : (cell h).level = 5 * h.length := by
  rw [cell, Cell.level_foldl_child, length_hashBits]
  exact zero_add _

theorem encode_spec :
    Valid (encode lat lon k) ∧ (encode lat lon k).length = k ∧
      hashBits (encode lat lon k) = path lat lon (5 * k) Halving.world := by
  rw [encode_eq]
  exact chars_spec k _ (length_path lat lon (5 * k) Halving.world)

theorem cell_encode : cell (encode lat lon k) = Cell.locate (5 * k) lat lon := by
  have hpath := Cell.foldl_child_path lat lon (5 * k) 0
  rw [Cell.locate_zero, Cell.halving_root, zero_add] at hpath
  rw [cell, (encode_spec lat lon k).2.2, hpath]

theorem cell_injective {h h' : Bytes} (hvalid : Valid h) (hvalid' : Valid h')
    (hlen : h.length = h'.length) (hcell : cell h = cell h') : h = h' := by
  have hbits : hashBits h = hashBits h' := by
    refine Cell.foldl_child_injective _ _ ?_ hcell
    rw [length_hashBits, length_hashBits, hlen]
  rw [← chars_hashBits hvalid, hbits, chars_hashBits hvalid']

theorem decodeBBox_cell {h : Bytes} (hvalid : Valid h) :
    decodeBBox h = .ok (cell h).halving.box := by
  rw [decodeBBox_eq hvalid, ← Cell.halving_root, Cell.foldl_take_halving]
  rfl

theorem Cell.midpoint_box (c : Cell) :
    (c.halving.box.minLat + c.halving.box.maxLat) / 2 = c.centre.lat ∧
      (c.halving.box.minLon + c.halving.box.maxLon) / 2 = c.centre.lon := by
  constructor
  · show (latAt c.level c.lat + latAt c.level (c.lat + 1)) / 2 = latAt c.level (c.lat + 1 / 2)
    rw [midpoint_pos]
    congr 1
    ring
  · show (lonAt c.level c.lon + lonAt c.level (c.lon + 1)) / 2 = lonAt c.level (c.lon + 1 / 2)
    rw [midpoint_pos]
    congr 1
    ring

theorem decode_cell {h : Bytes} (hvalid : Valid h) : decode h = .ok (cell h).centre := by
  obtain ⟨hlat, hlon⟩ := (cell h).midpoint_box
  rw [decode, decodeBBox_cell hvalid]
  show Except.ok (Point.mk _ _) = _
  rw [hlat, hlon]

/-- A point of the world lies in the box of its cell. -/
theorem Cell.locate_contains {p : Point ℚ} (hp : Halving.world.box.contains p = true)
    (level : Nat) : (Cell.locate level p.lat p.lon).halving.box.contains p = true := by
  obtain ⟨⟨hlat, hlat'⟩, hlon, hlon'⟩ := BBox.contains_iff.mp hp
  exact BBox.contains_iff.mpr
    ⟨⟨pos_slot_le (by norm_num) hlat, le_pos_slot (by norm_num) hlat'⟩,
      pos_slot_le (by norm_num) hlon, le_pos_slot (by norm_num) hlon'⟩

theorem encode_decode {h : Bytes} (hvalid : Valid h) :
    encode (cell h).centre.lat (cell h).centre.lon h.length = h := by
  obtain ⟨hvalid', hlen, -⟩ := encode_spec (cell h).centre.lat (cell h).centre.lon h.length
  refine cell_injective hvalid' hvalid hlen ?_
  rw [cell_encode, ← level_cell, Cell.locate_centre]

theorem encode_append (k m : Nat) : ∃ rest, encode lat lon (k + m) = encode lat lon k ++ rest := by
  obtain ⟨bs, hbs⟩ := path_prefix lat lon (5 * k) (5 * m) Halving.world
  refine ⟨chars bs, ?_⟩
  rw [encode_eq, encode_eq, mul_add, hbs]
  exact chars_append_of_dvd k _ (length_path lat lon (5 * k) Halving.world) bs

/-- Column `i` and row `j` of the grid whose cells have hashes of length `k`. -/
def InCell (k i j : Nat) (p : Point ℚ) : Prop :=
  InPart (-180) 180 ((5 * k + 1) / 2) i p.lon ∧ InPart (-90) 90 (5 * k / 2) j p.lat

theorem inCell_iff {k i j : Nat} {p : Point ℚ} (hp : Halving.world.box.contains p = true) :
    InCell k i j p ↔
      (Cell.locate (5 * k) p.lat p.lon).lon = i ∧ (Cell.locate (5 * k) p.lat p.lon).lat = j := by
  obtain ⟨⟨hlat, hlat'⟩, hlon, hlon'⟩ := BBox.contains_iff.mp hp
  exact and_congr (inPart_iff (by norm_num) hlon hlon') (inPart_iff (by norm_num) hlat hlat')

theorem encode_eq_iff {p q : Point ℚ} (hp : Halving.world.box.contains p = true)
    (hq : Halving.world.box.contains q = true) (k : Nat) :
    encode p.lat p.lon k = encode q.lat q.lon k ↔ ∃ i j, InCell k i j p ∧ InCell k i j q := by
  constructor
  · intro h
    have hcell := congrArg cell h
    rw [cell_encode, cell_encode] at hcell
    refine ⟨_, _, (inCell_iff hp).mpr ⟨rfl, rfl⟩, (inCell_iff hq).mpr ?_⟩
    rw [hcell]
    exact ⟨rfl, rfl⟩
  · rintro ⟨i, j, hinp, hinq⟩
    obtain ⟨hlon, hlat⟩ := (inCell_iff hp).mp hinp
    obtain ⟨hlon', hlat'⟩ := (inCell_iff hq).mp hinq
    obtain ⟨hvalid, hlen, -⟩ := encode_spec p.lat p.lon k
    obtain ⟨hvalid', hlen', -⟩ := encode_spec q.lat q.lon k
    refine cell_injective hvalid hvalid' (hlen.trans hlen'.symm) ?_
    rw [cell_encode, cell_encode]
    exact Cell.ext rfl (hlon.trans hlon'.symm) (hlat.trans hlat'.symm)

/-- **A hash's box contains the point, the centre of the box has the same hash,
longer hashes extend shorter ones, and two points share a hash exactly if they
lie in the same cell of the grid.** -/
theorem geohash_laws :
    (∀ p : Point ℚ, Halving.world.box.contains p = true → ∀ k, ∃ box,
      decodeBBox (encode p.lat p.lon k) = .ok box ∧ box.contains p = true) ∧
    (∀ h, Valid h → ∃ p : Point ℚ, decode h = .ok p ∧ encode p.lat p.lon h.length = h) ∧
    (∀ (lat lon : ℚ) (k m : Nat), encode lat lon k <+: encode lat lon (k + m)) ∧
    (∀ p q : Point ℚ, Halving.world.box.contains p = true →
      Halving.world.box.contains q = true → ∀ k,
      (encode p.lat p.lon k = encode q.lat q.lon k ↔
        ∃ i j, InCell k i j p ∧ InCell k i j q)) := by
  refine ⟨fun p hp k => ?_, fun h hvalid => ⟨_, decode_cell hvalid, encode_decode hvalid⟩,
    fun lat lon k m => ?_, fun p q hp hq k => encode_eq_iff hp hq k⟩
  · refine ⟨_, decodeBBox_cell (encode_spec p.lat p.lon k).1, ?_⟩
    rw [cell_encode]
    exact Cell.locate_contains hp (5 * k)
  · obtain ⟨rest, hrest⟩ := encode_append lat lon k m
    exact ⟨rest, hrest.symm⟩

/-- The corner of the world is in the box of its hash. -/
theorem geohash_laws_corner :
    ∃ box : BBox ℚ, decodeBBox (encode (90 : ℚ) 180 1) = .ok box ∧ box.contains ⟨90, 180⟩ = true :=
  geohash_laws.1 ⟨90, 180⟩ (by decide +kernel) 1

end SpatialDb.Spatial.Geohash
