import SpatialDb.Lib.BufferReader
import SpatialDb.Lib.Numeral

/-!
# The RESP protocol

Model of `cpp/net/protocol.cpp`: the encoder, and the decoder as a reader of
the bytes from its position on.  `decodeOne` calls itself for the elements of
an array; `fuel` bounds the depth of these calls.  Each of them has consumed
a byte, so with more fuel than bytes the bound is never met (`decodeOne_fuel`).
-/

namespace SpatialDb.Net.Resp

open Lib Lib.BufferReader List Nat

/-- `RespValue`. -/
inductive RespValue where
  | simpleString (s : Bytes)
  | error (s : Bytes)
  | integer (n : Int64)
  | bulkString (s : Bytes)
  | array (vs : List RespValue)
  | nullBulk

/-! ## Encoder -/

mutual

/-- `RespEncoder::encode`. -/
def encode : RespValue → Bytes
  | .simpleString s => 43 :: s ++ crlf
  | .error s => 45 :: s ++ crlf
  | .integer n => 58 :: signedDecimal n.toInt ++ crlf
  | .bulkString s => 36 :: decimal s.length ++ crlf ++ (s ++ crlf)
  | .nullBulk => lit "$-1" ++ crlf
  | .array vs => 42 :: decimal vs.length ++ crlf ++ encodeAll vs

/-- The loop over the elements of an array. -/
def encodeAll : List RespValue → Bytes
  | [] => []
  | v :: vs => encode v ++ encodeAll vs

end

theorem encodeAll_eq (vs : List RespValue) : encodeAll vs = (vs.map encode).flatten := by
  induction vs with
  | nil => rw [encodeAll, map_nil, flatten_nil]
  | cons v vs ih => rw [encodeAll, ih, map_cons, flatten_cons]

/-! ## Decoder -/

/-- `MAX_BULK_STRING_SIZE`. -/
def maxBulkStringSize : Nat := 512 * 1024 * 1024

/-- `MAX_ARRAY_SIZE`. -/
def maxArraySize : Nat := 1024 * 1024

/-- `MAX_LINE_LENGTH`. -/
def maxLineLength : Nat := 8192

def readLine : BufferReader Bytes := line maxLineLength

/-- `decodeBulkString`; the two bytes behind the payload are skipped. -/
def decodeBulkString (len : Int) : BufferReader RespValue :=
  if len < 0 then pure .nullBulk
  else if maxBulkStringSize < len.toNat then fail
  else do
    let s ← takeSkip len.toNat 2
    pure (.bulkString s)

def decodeArray (decodeOne : BufferReader RespValue) (count : Int) : BufferReader RespValue :=
  if count < 0 then fail
  else if maxArraySize < count.toNat then fail
  else do
    let vs ← times decodeOne count.toNat
    pure (.array vs)

/-- `std::stoll` in a `try`: an exception is no value. -/
def withNumber (line : Bytes) (f : Int → BufferReader RespValue) : BufferReader RespValue :=
  match stoll line with
  | some n => f n
  | none => fail

/-- The `switch` of `decodeOne`. -/
def decodeTagged (decodeOne : BufferReader RespValue) (tag : UInt8) (line : Bytes) :
    BufferReader RespValue :=
  if tag = 43 then pure (.simpleString line)
  else if tag = 45 then pure (.error line)
  else if tag = 58 then withNumber line fun n => pure (.integer (Int64.ofInt n))
  else if tag = 36 then withNumber line decodeBulkString
  else if tag = 42 then withNumber line (decodeArray decodeOne)
  else fail

variable (p : BufferReader RespValue) (line : Bytes)

theorem decodeTagged_integer :
    decodeTagged p 58 line = withNumber line fun n => pure (.integer (Int64.ofInt n)) := rfl

theorem decodeTagged_bulk :
    decodeTagged p 36 line = withNumber line decodeBulkString := rfl

theorem decodeTagged_array :
    decodeTagged p 42 line = withNumber line (decodeArray p) := rfl

def decodeOne : Nat → BufferReader RespValue
  | 0 => fail
  | fuel + 1 => do
      let tag ← nextByte
      let line ← readLine
      decodeTagged (decodeOne fuel) tag line

/-- `RespDecoder(buf).decode()`: the value, and `pos_` after it. -/
def decode (buf : Bytes) : Option (RespValue × Nat) :=
  (decodeOne (buf.length + 1) buf).map fun r => (r.1, buf.length - r.2.length)

/-! ## What the decoder accepts -/

/-- The ways in which `decodeTagged` returns a value and the bytes behind it. -/
inductive Branch (p : BufferReader RespValue) (line buf : Bytes) : UInt8 → RespValue → Bytes → Prop
  | simpleString : Branch p line buf 43 (.simpleString line) buf
  | error : Branch p line buf 45 (.error line) buf
  | integer {n : Int} (hn : stoll line = some n) :
      Branch p line buf 58 (.integer (Int64.ofInt n)) buf
  | nullBulk {len : Int} (hlen : stoll line = some len) (hneg : len < 0) :
      Branch p line buf 36 .nullBulk buf
  | bulkString {len : Nat} (hlen : stoll line = some (len : Int)) (hsize : len + 2 ≤ buf.length) :
      Branch p line buf 36 (.bulkString (buf.take len)) (buf.drop (len + 2))
  | array {count : Nat} {vs : List RespValue} {rest : Bytes}
      (hcount : stoll line = some (count : Int)) (hvs : times p count buf = some (vs, rest)) :
      Branch p line buf 42 (.array vs) rest

variable {line buf rest w : Bytes} {v : RespValue} {p : BufferReader RespValue} {tag : UInt8}
  {fuel : Nat}

theorem withNumber_of_eq {n : Int} (h : stoll line = some n) (f : Int → BufferReader RespValue) :
    withNumber line f = f n := by
  rw [withNumber, h]

theorem withNumber_eq_some {f : Int → BufferReader RespValue}
    (h : withNumber line f buf = some (v, rest)) :
    ∃ n, stoll line = some n ∧ f n buf = some (v, rest) := by
  unfold withNumber at h
  cases hn : stoll line with
  | none =>
    rw [hn] at h
    cases h
  | some n =>
    rw [hn] at h
    exact ⟨n, rfl, h⟩

theorem branch_of_decodeBulkString {len : Int} (hlen : stoll line = some len)
    (h : decodeBulkString len buf = some (v, rest)) : Branch p line buf 36 v rest := by
  unfold decodeBulkString at h
  split at h
  · rename_i hneg
    cases h
    exact .nullBulk hlen hneg
  rename_i hpos
  obtain ⟨n, rfl⟩ := Int.eq_ofNat_of_zero_le (not_lt.mp hpos)
  split at h
  · cases h
  obtain ⟨s, mid, htake, h⟩ := bind_eq_some_iff.mp h
  cases h
  unfold takeSkip at htake
  split at htake
  · cases htake
  rename_i hsize
  cases htake
  exact .bulkString hlen (Nat.le_of_not_lt hsize)

theorem branch_of_decodeArray {count : Int} (hcount : stoll line = some count)
    (h : decodeArray p count buf = some (v, rest)) : Branch p line buf 42 v rest := by
  unfold decodeArray at h
  split at h
  · cases h
  rename_i hpos
  obtain ⟨n, rfl⟩ := Int.eq_ofNat_of_zero_le (not_lt.mp hpos)
  split at h
  · cases h
  obtain ⟨vs, mid, hvs, h⟩ := bind_eq_some_iff.mp h
  cases h
  exact .array hcount hvs

theorem branch_of_decodeTagged (h : decodeTagged p tag line buf = some (v, rest)) :
    Branch p line buf tag v rest := by
  unfold decodeTagged at h
  split at h
  · rename_i htag
    cases h
    exact htag ▸ .simpleString
  split at h
  · rename_i htag
    cases h
    exact htag ▸ .error
  split at h
  · rename_i htag
    obtain ⟨n, hn, h⟩ := withNumber_eq_some h
    cases h
    exact htag ▸ .integer hn
  split at h
  · rename_i htag
    obtain ⟨len, hlen, h⟩ := withNumber_eq_some h
    exact htag ▸ branch_of_decodeBulkString hlen h
  split_ifs at h with htag
  · obtain ⟨count, hcount, h⟩ := withNumber_eq_some h
    exact htag ▸ branch_of_decodeArray hcount h
  · cases h

/-- A value is decoded from a tag, a line, and what the tag asks for. -/
theorem decodeOne_eq_some (h : decodeOne (fuel + 1) buf = some (v, rest)) :
    ∃ tag line mid, buf = tag :: line ++ crlf ++ mid ∧ NoCrlf line ∧
      readLine (line ++ crlf ++ mid) = some (line, mid) ∧
      Branch (decodeOne fuel) line mid tag v rest := by
  obtain ⟨tag, buf', htag, hrest⟩ := bind_eq_some_iff.mp h
  obtain ⟨line, mid, hline, hvalue⟩ := bind_eq_some_iff.mp hrest
  cases buf with
  | nil => cases htag
  | cons c buf =>
    cases htag
    obtain ⟨rfl, hcrlf, -⟩ := line_eq_some_iff.mp hline
    exact ⟨tag, line, mid, rfl, hcrlf, hline, branch_of_decodeTagged hvalue⟩

/-! ## Fuel -/

theorem shrinks_decodeOne (fuel : Nat) : Shrinks (decodeOne fuel) := by
  induction fuel with
  | zero =>
    intro buf v rest h
    cases h
  | succ fuel ih =>
    intro buf v rest h
    obtain ⟨tag, line, mid, rfl, -, -, hbranch⟩ := decodeOne_eq_some h
    have hmid : mid.length ≤ (tag :: line ++ crlf ++ mid).length := by
      rw [length_append]
      omega
    refine le_trans ?_ hmid
    cases hbranch with
    | simpleString => exact le_refl _
    | error => exact le_refl _
    | integer _ => exact le_refl _
    | nullBulk _ _ => exact le_refl _
    | bulkString _ _ =>
      rw [length_drop]
      omega
    | array _ hvs => exact shrinks_times ih _ mid _ rest hvs

theorem decodeTagged_congr {p' : BufferReader RespValue} (h : ∀ n, times p n buf = times p' n buf)
    (tag : UInt8) (line : Bytes) :
    decodeTagged p tag line buf = decodeTagged p' tag line buf := by
  have harray : ∀ count, decodeArray p count buf = decodeArray p' count buf := by
    intro count
    unfold decodeArray
    split
    · rfl
    split
    · rfl
    · rw [BufferReader.bind_apply, BufferReader.bind_apply, h]
  have hnumber : withNumber line (decodeArray p) buf = withNumber line (decodeArray p') buf := by
    unfold withNumber
    cases stoll line with
    | none => rfl
    | some count => exact harray count
  unfold decodeTagged
  split
  · rfl
  split
  · rfl
  split
  · rfl
  split
  · rfl
  split
  · exact hnumber
  · rfl

/-- With more fuel than bytes, the amount makes no difference. -/
theorem decodeOne_fuel {fuel' : Nat} (h : buf.length < fuel) (h' : buf.length < fuel') :
    decodeOne fuel buf = decodeOne fuel' buf := by
  induction fuel generalizing fuel' buf with
  | zero => exact absurd h (not_lt_zero _)
  | succ fuel ih =>
    obtain ⟨fuel', rfl⟩ : ∃ n, fuel' = n + 1 := exists_eq_succ_of_ne_zero (by omega)
    rw [decodeOne, decodeOne, BufferReader.bind_apply, BufferReader.bind_apply]
    cases buf with
    | nil => rfl
    | cons tag buf =>
      show (readLine >>= _) buf = (readLine >>= _) buf
      rw [BufferReader.bind_apply, BufferReader.bind_apply]
      cases hline : readLine buf with
      | none => rfl
      | some r =>
        obtain ⟨line, mid⟩ := r
        have hmid : mid.length ≤ buf.length := by
          obtain ⟨rfl, -⟩ := line_eq_some_iff.mp hline
          rw [length_append]
          omega
        rw [length_cons] at h h'
        refine decodeTagged_congr (fun n => ?_) tag line
        refine times_congr (shrinks_decodeOne fuel) fun buf' hbuf' => ?_
        have hlen : buf'.length ≤ buf.length := hbuf'.trans hmid
        exact ih (by omega) (by omega)

/-! ## The round trip -/

/-- Values within the limits of the decoder, whose strings have no line end
where the encoding has no length. -/
inductive Within : RespValue → Prop
  | simpleString {s : Bytes} (hs : NoCrlf s) (hlen : s.length ≤ maxLineLength) :
      Within (.simpleString s)
  | error {s : Bytes} (hs : NoCrlf s) (hlen : s.length ≤ maxLineLength) : Within (.error s)
  | integer (n : Int64) : Within (.integer n)
  | bulkString {s : Bytes} (hlen : s.length ≤ maxBulkStringSize) : Within (.bulkString s)
  | array {vs : List RespValue} (hlen : vs.length ≤ maxArraySize) (hvs : ∀ v ∈ vs, Within v) :
      Within (.array vs)
  | nullBulk : Within .nullBulk

/-- The rule for a tagged line and what follows it. -/
theorem frames_tagged (hline : NoCrlf line) (hlen : line.length ≤ maxLineLength)
    (h : Frames (decodeTagged (decodeOne fuel) tag line) w v) :
    Frames (decodeOne (fuel + 1)) (tag :: line ++ crlf ++ w) v := by
  have hrest : Frames (readLine >>= decodeTagged (decodeOne fuel) tag) (line ++ crlf ++ w) v :=
    (frames_line hline hlen).bind h
  exact (frames_nextByte tag).bind hrest

theorem noCrlf_signedDecimal (n : Int) : NoCrlf (signedDecimal n) :=
  noCrlf_of_forall_ne (forall_mem_ne_of_isNumeral (isNumeral_signedDecimal n))

/-- The line of a number, for the numbers of the protocol. -/
theorem frames_number {n : Int} (hn : -9223372036854775808 ≤ n ∧ n ≤ 9223372036854775807)
    (h : stoll (signedDecimal n) = some n →
      Frames (decodeTagged (decodeOne fuel) tag (signedDecimal n)) w v) :
    Frames (decodeOne (fuel + 1)) (tag :: signedDecimal n ++ crlf ++ w) v := by
  have hlen : (signedDecimal n).length ≤ 21 :=
    length_signedDecimal_le (by rw [show 10 ^ 20 = 100000000000000000000 by norm_num]; omega)
  refine frames_tagged (noCrlf_signedDecimal n) (hlen.trans (by decide)) (h ?_)
  rw [stoll_of_isNumeral (isNumeral_signedDecimal n), numeralValue_signedDecimal, if_pos hn]

/-- The length of a payload or of an array, behind its tag. -/
theorem frames_length {n : Nat} (hn : n ≤ maxBulkStringSize)
    (h : stoll (decimal n) = some (n : Int) →
      Frames (decodeTagged (decodeOne fuel) tag (decimal n)) w v) :
    Frames (decodeOne (fuel + 1)) (tag :: decimal n ++ crlf ++ w) v := by
  have hmax : maxBulkStringSize = 536870912 := rfl
  rw [← signedDecimal_natCast] at h ⊢
  exact frames_number (by omega) h

/-- A payload, with any two bytes behind it. -/
theorem frames_decodeBulkString {s tail : Bytes} (hlen : s.length ≤ maxBulkStringSize)
    (htail : tail.length = 2) :
    Frames (decodeBulkString s.length) (s ++ tail) (.bulkString s) := by
  have hpos : ¬ (s.length : Int) < 0 := by omega
  have hsize : ¬ maxBulkStringSize < (s.length : Int).toNat := by
    rw [Int.toNat_natCast]
    omega
  rw [decodeBulkString, if_neg hpos, if_neg hsize, Int.toNat_natCast, ← htail]
  exact (frames_takeSkip s tail).map RespValue.bulkString

theorem frames_bulkString {s tail : Bytes} (hlen : s.length ≤ maxBulkStringSize)
    (htail : tail.length = 2) :
    Frames (decodeOne (fuel + 1)) (36 :: decimal s.length ++ crlf ++ (s ++ tail))
      (.bulkString s) := by
  refine frames_length hlen fun hstoll => ?_
  rw [decodeTagged_bulk, withNumber_of_eq hstoll]
  exact frames_decodeBulkString hlen htail

/-- Any negative length reads as a null string. -/
theorem frames_nullBulk {len : Int} (hneg : len < 0) (hlen : -9223372036854775808 ≤ len) :
    Frames (decodeOne (fuel + 1)) (36 :: signedDecimal len ++ crlf) .nullBulk := by
  have hframes : Frames (decodeOne (fuel + 1)) (36 :: signedDecimal len ++ crlf ++ [])
      .nullBulk := by
    refine frames_number (by omega) fun hstoll => ?_
    rw [decodeTagged_bulk, withNumber_of_eq hstoll, decodeBulkString, if_pos hneg]
    exact frames_pure _
  rwa [append_nil] at hframes

theorem frames_decodeArray {vs : List RespValue} (hlen : vs.length ≤ maxArraySize)
    (h : ∀ v ∈ vs, Frames p (encode v) v) :
    Frames (decodeArray p vs.length) (encodeAll vs) (.array vs) := by
  have hpos : ¬ (vs.length : Int) < 0 := by omega
  have hsize : ¬ maxArraySize < (vs.length : Int).toNat := by
    rw [Int.toNat_natCast]
    omega
  have hall : List.Forall₂ (Frames p) (vs.map encode) vs := by
    rw [forall₂_map_left_iff, forall₂_same]
    exact h
  rw [decodeArray, if_neg hpos, if_neg hsize, Int.toNat_natCast, encodeAll_eq]
  exact (frames_times hall).map RespValue.array

theorem length_encode_le {vs : List RespValue} (h : v ∈ vs) :
    (encode v).length ≤ (encodeAll vs).length := by
  rw [encodeAll_eq]
  exact (sublist_flatten_of_mem (mem_map_of_mem h)).length_le

theorem encode_ne_nil (v : RespValue) : encode v ≠ [] := by
  cases v <;> simp [encode, lit]

theorem frames_decodeOne (hv : Within v) (hfuel : (encode v).length ≤ fuel + 1) :
    Frames (decodeOne (fuel + 1)) (encode v) v := by
  -- by the structure of the value; an element is shorter than its array
  induction hv generalizing fuel with
  | @simpleString s hs hlen =>
    have h : Frames (decodeTagged (decodeOne fuel) 43 s) [] (.simpleString s) := frames_pure _
    have hframes := frames_tagged hs hlen h
    rwa [append_nil] at hframes
  | @error s hs hlen =>
    have h : Frames (decodeTagged (decodeOne fuel) 45 s) [] (.error s) := frames_pure _
    have hframes := frames_tagged hs hlen h
    rwa [append_nil] at hframes
  | integer n =>
    have hrange : -9223372036854775808 ≤ n.toInt ∧ n.toInt ≤ 9223372036854775807 :=
      ⟨n.le_toInt, Int.le_of_lt_add_one n.toInt_lt⟩
    have hframes : Frames (decodeOne (fuel + 1)) (58 :: signedDecimal n.toInt ++ crlf ++ [])
        (.integer n) := by
      refine frames_number hrange fun hstoll => ?_
      rw [decodeTagged_integer, withNumber_of_eq hstoll, Int64.ofInt_toInt]
      exact frames_pure _
    rwa [append_nil] at hframes
  | bulkString hlen => exact frames_bulkString hlen rfl
  | nullBulk =>
    have hneg : (-1 : Int) < 0 := by decide
    exact frames_nullBulk hneg (by decide)
  | @array vs hlen hvs ih =>
    refine frames_length (hlen.trans (by decide)) fun hstoll => ?_
    rw [decodeTagged_array, withNumber_of_eq hstoll]
    refine frames_decodeArray hlen fun v hv => ?_
    have hv' := length_encode_le hv
    have hpos := length_pos_of_ne_nil (encode_ne_nil v)
    rw [encode] at hfuel
    simp only [length_append, length_cons] at hfuel
    obtain ⟨fuel, rfl⟩ : ∃ n, fuel = n + 1 := exists_eq_succ_of_ne_zero (by omega)
    exact ih v hv (by omega)

theorem decode_of_frames (h : Frames (decodeOne ((w ++ rest).length + 1)) w v) :
    decode (w ++ rest) = some (v, w.length) := by
  rw [decode, (frames_iff.mp h).1 rest]
  simp

/-- Decoding an encoded value gives the value and stops behind it, and no
proper part of its encoding decodes. -/
theorem decode_encode (v : RespValue) (hv : Within v) (rest : Bytes) :
    decode (encode v ++ rest) = some (v, (encode v).length) ∧
    ∀ q, q <+: encode v → q ≠ encode v → decode q = none := by
  constructor
  · refine decode_of_frames (frames_decodeOne hv ?_)
    rw [length_append]
    omega
  · intro q hq hne
    have hpart := (frames_iff.mp (frames_decodeOne hv (le_succ _))).2 q hq hne
    rw [decode, decodeOne_fuel (lt_succ_self _) (lt_succ_of_le hq.length_le), hpart]
    rfl

theorem decode_encode_nested :
    Within (.array [.integer (-5), .bulkString (lit "a\r\nb"), .array [.nullBulk]]) ∧
    decode (encode (.array [.integer (-5), .bulkString (lit "a\r\nb"), .array [.nullBulk]]) ++
        lit "+OK") =
      some (.array [.integer (-5), .bulkString (lit "a\r\nb"), .array [.nullBulk]], 28) := by
  have hv : Within (.array [.integer (-5), .bulkString (lit "a\r\nb"), .array [.nullBulk]]) := by
    refine .array (by decide) ?_
    rintro v (_ | ⟨_, _ | ⟨_, _ | ⟨_, hnil⟩⟩⟩)
    · exact .integer _
    · exact .bulkString (by decide)
    · refine .array (by decide) ?_
      rintro v (_ | ⟨_, hnil⟩)
      · exact .nullBulk
      · cases hnil
    · cases hnil
  exact ⟨hv, (decode_encode _ hv (lit "+OK")).1⟩

end SpatialDb.Net.Resp
