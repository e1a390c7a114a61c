import SpatialDb.Spatial.Geometry
import SpatialDb.Storage.Wal

/-!
# Snapshot files

Model of `cpp/storage/snapshot.cpp`: a 32-byte header followed by the entries.
The writer works on a temporary file and renames it on commit.  A failing
`fwrite` leaves a prefix of its record in the file, and `writeEntry` reports
it only through its result.
-/

namespace SpatialDb.Storage.Snapshot

open Lib Nat List UInt32
open Storage.Wal (len16 length_take_len16 len16_mod len16_of_short)

/-- `index::IndexEntry`, coordinates as bit patterns. -/
abbrev IndexEntry := Spatial.IndexEntry UInt64

/-! ## Checksum -/

/-- One bit of `initCRC`'s inner loop. -/
def crcBit (c : UInt32) : UInt32 :=
  if c &&& 1 ≠ 0 then (0xEDB88320 : UInt32) ^^^ (c >>> 1) else c >>> 1

/-- `CRC_TABLE[i]`. -/
def crcTable (i : UInt32) : UInt32 :=
  (List.range 8).foldl (fun c _ => crcBit c) i

variable (crc : UInt32) (data : Bytes)

def updateCRC : UInt32 :=
  ~~~ data.foldl (fun crc b => crcTable ((crc ^^^ b.toUInt32) &&& 0xFF) ^^^ (crc >>> 8)) (~~~ crc)

theorem updateCRC_append (data more : Bytes) :
    updateCRC crc (data ++ more) = updateCRC (updateCRC crc data) more := by
  simp [updateCRC]

private theorem foldl_updateCRC (parts : List Bytes) :
    parts.foldl updateCRC crc = updateCRC crc parts.flatten := by
  induction parts generalizing crc with
  | nil => simp [updateCRC]
  | cons part parts ih => rw [foldl_cons, ih, flatten_cons, updateCRC_append]

/-- One bit of CRC-32: the register moves down, and where a one falls out the
reflected polynomial is added. -/
def crcStep (r : UInt32) : UInt32 :=
  ⟨(if r.toBitVec.getLsbD 0 then 0xEDB88320#32 else 0#32) ^^^ (r.toBitVec >>> 1)⟩

/-- CRC-32 a bit at a time: a byte is added at the low end of the register,
which then takes eight steps. -/
def crc32 : UInt32 :=
  data.foldl (fun r b => crcStep^[8] (r ^^^ b.toUInt32)) 0xFFFFFFFF ^^^ 0xFFFFFFFF

theorem crcBit_eq (c : UInt32) : crcBit c = crcStep c := by
  have hlow : c &&& 1 = 0 ↔ c.toBitVec.getLsbD 0 = false := by
    rw [← UInt32.toBitVec_inj, UInt32.toBitVec_and]
    show c.toBitVec &&& 1#32 = 0#32 ↔ _
    rw [BitVec.and_one_eq_setWidth_ofBool_getLsbD]
    cases c.toBitVec.getLsbD 0 <;> decide
  rw [crcBit, crcStep, ← UInt32.toBitVec_inj]
  cases hbit : c.toBitVec.getLsbD 0 with
  | false => simp [hlow.mpr hbit]
  | true => simp [hlow, hbit]

private theorem crcBit_xor (a b : UInt32) : crcBit (a ^^^ b) = crcBit a ^^^ crcBit b := by
  rw [crcBit_eq, crcBit_eq, crcBit_eq, ← UInt32.toBitVec_inj, UInt32.toBitVec_xor, crcStep, crcStep,
    crcStep, UInt32.toBitVec_xor, BitVec.getLsbD_xor, BitVec.ushiftRight_xor_distrib]
  ext i
  simp only [BitVec.getElem_xor]
  cases a.toBitVec.getLsbD 0 <;> cases b.toBitVec.getLsbD 0 <;> simp <;> grind

private theorem crcBit_iterate_xor (k : Nat) (a b : UInt32) :
    crcBit^[k] (a ^^^ b) = crcBit^[k] a ^^^ crcBit^[k] b := by
  induction k generalizing a b with
  | zero => rfl
  | succ k ih => simp only [Function.iterate_succ_apply, crcBit_xor, ih]

private theorem crcBit_even {n : Nat} (hn : 2 * n < 2 ^ 32) :
    crcBit (UInt32.ofNat (2 * n)) = UInt32.ofNat n := by
  have hval : (UInt32.ofNat (2 * n)).toNat = 2 * n := toNat_ofNat_of_lt' hn
  have hlow : UInt32.ofNat (2 * n) &&& 1 = 0 := by
    rw [← UInt32.toNat_inj, UInt32.toNat_and, hval]
    simp
  rw [crcBit, if_neg (not_not.mpr hlow), ← UInt32.toNat_inj, UInt32.toNat_shiftRight, hval,
    toNat_ofNat_of_lt' (lt_of_le_of_lt (Nat.le_mul_of_pos_left n two_pos) hn)]
  simp [shiftRight_eq_div_pow]

/-- Steps that meet no bit only move the register down. -/
theorem crcBit_iterate_high {k n : Nat} (hn : 2 ^ k * n < 2 ^ 32) :
    crcBit^[k] (UInt32.ofNat (2 ^ k * n)) = UInt32.ofNat n := by
  induction k with
  | zero => simp
  | succ k ih =>
    rw [pow_succ', mul_assoc] at hn ⊢
    rw [Function.iterate_succ_apply, crcBit_even hn, ih (by omega)]

private theorem low_xor_high (x : UInt32) :
    x = (x &&& 0xFF) ^^^ UInt32.ofNat (2 ^ 8 * (x.toNat / 2 ^ 8)) := by
  have hhigh : 2 ^ 8 * (x.toNat / 2 ^ 8) < 2 ^ 32 := lt_of_le_of_lt (mul_div_le _ _) x.toNat_lt
  have hmask : (0xFF : UInt32).toNat = 2 ^ 8 - 1 := rfl
  rw [← UInt32.toNat_inj, UInt32.toNat_xor, UInt32.toNat_and, UInt32.toNat_ofNat_of_lt' hhigh,
    hmask, and_two_pow_sub_one_eq_mod]
  apply Nat.eq_of_testBit_eq
  intro i
  rw [testBit_xor, testBit_mod_two_pow, testBit_two_pow_mul, testBit_div_two_pow]
  rcases lt_or_ge i 8 with h | h
  · simp [h, not_le.mpr h]
  · simp [h, not_lt.mpr h]

/-- **The table holds eight steps of each byte.** -/
theorem crcTable_xor_shiftRight (b : UInt8) :
    crcTable ((crc ^^^ b.toUInt32) &&& 0xFF) ^^^ (crc >>> 8) =
      crcStep^[8] (crc ^^^ b.toUInt32) := by
  have hhigh : UInt32.ofNat ((crc ^^^ b.toUInt32).toNat / 2 ^ 8) = crc >>> 8 := by
    have hb : b.toNat / 2 ^ 8 = 0 := div_eq_of_lt b.toNat_lt
    rw [← UInt32.toNat_inj, UInt32.toNat_ofNat_of_lt' (lt_of_le_of_lt (div_le_self _ _)
      (UInt32.toNat_lt _)), UInt32.toNat_xor, ← shiftRight_eq_div_pow,
      shiftRight_xor_distrib, UInt8.toNat_toUInt32, shiftRight_eq_div_pow b.toNat, hb]
    simp
  rw [← funext crcBit_eq]
  conv_rhs => rw [low_xor_high (crc ^^^ b.toUInt32)]
  rw [crcBit_iterate_xor, crcBit_iterate_high (lt_of_le_of_lt (mul_div_le _ _) (toNat_lt _)), hhigh]
  rfl

private theorem updateCRC_zero : updateCRC 0 data = crc32 data := by
  simp only [updateCRC, crc32, crcTable_xor_shiftRight]
  exact xor_neg_one.symm

/-! ## Header -/

/-- `SnapshotHeader`. -/
structure SnapshotHeader where
  magic : Nat := 0x53504442
  version : Nat := 1
  timestamp : UInt64
  entryCount : Nat
  checksum : UInt32
  deriving DecidableEq

/-- The struct in memory order; the last four bytes are padding. -/
def SnapshotHeader.encode (h : SnapshotHeader) : Bytes :=
  encodeLE 4 h.magic ++ (encodeLE 4 h.version ++ (encodeLE 8 h.timestamp.toNat ++
    (encodeLE 8 h.entryCount ++ (encodeLE 4 h.checksum.toNat ++ encodeLE 4 0))))

def readHeader (bs : Bytes) : Option (SnapshotHeader × Bytes) := do
  let (magic, bs) ← readLE 4 bs
  let (version, bs) ← readLE 4 bs
  let (timestamp, bs) ← readLE 8 bs
  let (entryCount, bs) ← readLE 8 bs
  let (checksum, bs) ← readLE 4 bs
  let (_, bs) ← readLE 4 bs
  some ({ magic, version, timestamp := UInt64.ofNat timestamp, entryCount,
          checksum := UInt32.ofNat checksum }, bs)

/-! ## Entries -/

variable (e : IndexEntry)

/-- The arguments of the `fwrite` and `updateCRC` calls of `writeEntry`. -/
def fields : List Bytes :=
  [encodeLE 2 (len16 e.id), e.id.take (len16 e.id),
    encodeLE 2 (len16 e.collection), e.collection.take (len16 e.collection),
    encodeLE 8 e.point.lat.toNat, encodeLE 8 e.point.lon.toNat, encodeLE 8 e.timestamp.toNat]

/-- The bytes `writeEntry` sends to the file. -/
def encode : Bytes := (fields e).flatten

/-- `SnapshotReader::readEntry`. -/
def readEntry (bs : Bytes) : Option (IndexEntry × Bytes) := do
  let (idLen, bs) ← readLE 2 bs
  if idLen > 1024 then none else
  let (id, bs) ← readBytes idLen bs
  let (colLen, bs) ← readLE 2 bs
  if colLen > 1024 then none else
  let (collection, bs) ← readBytes colLen bs
  let (lat, bs) ← readLE 8 bs
  let (lon, bs) ← readLE 8 bs
  let (timestamp, bs) ← readLE 8 bs
  some ({ id
          point := ⟨UInt64.ofNat lat, UInt64.ofNat lon⟩
          collection
          timestamp := UInt64.ofNat timestamp }, bs)

/-- What comes back for one written entry. -/
def reread : Option IndexEntry :=
  if len16 e.id > 1024 then none
  else if len16 e.collection > 1024 then none
  else some { e with
    id := e.id.take (len16 e.id)
    collection := e.collection.take (len16 e.collection) }

/-- Both strings fit the limit of the readers. -/
def Short : Prop :=
  e.id.length ≤ 1024 ∧ e.collection.length ≤ 1024

theorem readEntry_encode (rest : Bytes) :
    readEntry (encode e ++ rest) = (reread e).map fun e' => (e', rest) := by
  unfold readEntry encode fields reread
  simp only [flatten_cons, append_assoc, readLE_append, Option.bind_eq_bind,
    Option.bind_some, len16_mod]
  split
  · rfl
  simp only [readBytes_append (length_take_len16 _), readLE_append, Option.bind_some, len16_mod]
  split
  · rfl
  · simp

variable {e : IndexEntry} {entries : List IndexEntry}

private theorem reread_of_short (h : Short e) : reread e = some e := by
  simp [reread, len16_of_short h.1, len16_of_short h.2, not_lt.mpr h.1, not_lt.mpr h.2]

theorem encode_ne_nil (e : IndexEntry) : encode e ≠ [] := by
  simp [encode, fields, encodeLE]

/-- The bytes of a short entry: no length is cut. -/
theorem encode_of_short (h : Short e) : encode e = encodeLE 2 e.id.length ++ (e.id ++
      (encodeLE 2 e.collection.length ++ (e.collection ++
      (encodeLE 8 e.point.lat.toNat ++ (encodeLE 8 e.point.lon.toNat ++
        encodeLE 8 e.timestamp.toNat))))) := by
  simp [encode, fields, len16_of_short h.1, len16_of_short h.2]

theorem readEntry_eq_some {bs rest : Bytes} (h : readEntry bs = some (e, rest)) :
    Short e ∧ bs = encode e ++ rest := by
  unfold readEntry at h
  simp only [Option.bind_eq_bind, Option.bind_eq_some_iff, Prod.exists] at h
  obtain ⟨n, bs1, hn, h⟩ := h
  split at h
  · cases h
  rename_i hid
  simp only [Option.bind_eq_some_iff, Prod.exists] at h
  obtain ⟨id, bs2, hi, m, bs3, hm, h⟩ := h
  split at h
  · cases h
  rename_i hcol
  simp only [Option.bind_eq_some_iff, Prod.exists, Option.some.injEq, Prod.mk.injEq] at h
  obtain ⟨col, bs4, hc, lat, bs5, hlat, lon, bs6, hlon, ts, bs7, hts, rfl, rfl⟩ := h
  rw [readLE_eq_some_iff] at hn hm hlat hlon hts
  rw [readBytes_eq_some_iff] at hi hc
  obtain ⟨rfl, rfl⟩ := hi
  obtain ⟨rfl, rfl⟩ := hc
  have hshort : Short ⟨id, ⟨UInt64.ofNat lat, UInt64.ofNat lon⟩, col, UInt64.ofNat ts⟩ :=
    ⟨not_lt.mp hid, not_lt.mp hcol⟩
  have hword : ∀ {n : Nat}, n < 256 ^ 8 → (UInt64.ofNat n).toNat = n := fun hlt =>
    UInt64.toNat_ofNat_of_lt' hlt
  refine ⟨hshort, ?_⟩
  rw [encode_of_short hshort, hword hlat.1, hword hlon.1, hword hts.1, hn.2, hm.2, hlat.2,
    hlon.2, hts.2]
  simp only [append_assoc]

/-- The reader accepts the bytes of short entries and nothing else. -/
theorem readEntry_exactly : ReadsExactly readEntry encode Short where
  iff bs e rest := by
    refine ⟨readEntry_eq_some, ?_⟩
    rintro ⟨hshort, rfl⟩
    rw [readEntry_encode, reread_of_short hshort]
    rfl
  ne_nil := encode_ne_nil

/-! ## Writer -/

/-- `SnapshotWriter` with an open temporary file: what follows the header. -/
structure SnapshotWriter where
  body : Bytes
  written : Nat
  ts : UInt64
  crc : UInt32
  deriving DecidableEq

namespace SnapshotWriter

/-- `begin`: open the temporary file and write an empty header. -/
def «begin» (timestamp : UInt64) : SnapshotWriter := ⟨[], 0, timestamp, 0⟩

/-- Write one entry; `cut` is the number of bytes that reached the file when
one of the `fwrite` calls failed. -/
def writeEntry (w : SnapshotWriter) (cut : Option Nat) (e : IndexEntry) : Bool × SnapshotWriter :=
  match cut with
  | some n => (false, { w with body := w.body ++ (encode e).take n })
  | none =>
    (true, { w with
      body := w.body ++ encode e
      crc := (fields e).foldl updateCRC w.crc
      written := w.written + 1 })

/-- The file that `commit` renames into place. -/
def commit (w : SnapshotWriter) : Bytes :=
  SnapshotHeader.encode
    { timestamp := w.ts, entryCount := w.written, checksum := w.crc } ++ w.body

end SnapshotWriter

variable {w : SnapshotWriter}

/-- `SnapshotReader::load`: the entries handed to the handler, or `none` when
it returns false.  The checksum is read and not compared. -/
def load (file : Bytes) : Option (List IndexEntry) := do
  let (header, body) ← readHeader file
  if header.magic ≠ 0x53504442 then none
  else some (readAllFuel readEntry header.entryCount body)

/-! ## Loading what was committed -/

private theorem readHeader_encode (h : SnapshotHeader) (hmagic : h.magic < 2 ^ 32)
    (hversion : h.version < 2 ^ 32) (hcount : h.entryCount < 2 ^ 64) (rest : Bytes) :
    readHeader (h.encode ++ rest) = some (h, rest) := by
  have h4 : (256 : Nat) ^ 4 = 2 ^ 32 := rfl
  have h8 : (256 : Nat) ^ 8 = 2 ^ 64 := rfl
  have hts : h.timestamp.toNat % 2 ^ 64 = h.timestamp.toNat := mod_eq_of_lt h.timestamp.toNat_lt
  have hsum : h.checksum.toNat % 2 ^ 32 = h.checksum.toNat := mod_eq_of_lt h.checksum.toNat_lt
  unfold readHeader SnapshotHeader.encode
  simp only [append_assoc, readLE_append, Option.bind_eq_bind, Option.bind_some, h4, h8,
    mod_eq_of_lt hmagic, mod_eq_of_lt hversion, mod_eq_of_lt hcount, hts, hsum]
  simp

/-- The writer after `entries` have been written without a failure. -/
structure Wrote (w : SnapshotWriter) (entries : List IndexEntry) : Prop where
  body : w.body = entries.flatMap encode
  written : w.written = entries.length

variable (timestamp : UInt64)

theorem Wrote.begin : Wrote (SnapshotWriter.begin timestamp) [] :=
  ⟨rfl, rfl⟩

theorem Wrote.writeEntry (h : Wrote w entries) (e : IndexEntry) :
    Wrote (w.writeEntry none e).2 (entries ++ [e]) where
  body := by simp [SnapshotWriter.writeEntry, h.body]
  written := by simp [SnapshotWriter.writeEntry, h.written]

/-- Loading a committed file delivers the written entries as the reader sees
them, up to the first one it refuses. -/
theorem load_commit (h : Wrote w entries) (hlen : entries.length < 2 ^ 64) :
    load w.commit = some (decodeWhile reread entries) := by
  have hcount : w.written < 2 ^ 64 := h.written ▸ hlen
  rw [load, SnapshotWriter.commit, readHeader_encode _ (by simp) (by simp) hcount]
  simp only [Option.bind_eq_bind, Option.bind_some, ne_eq, not_true_eq_false, if_false]
  rw [h.body, readAllFuel_flatMap readEntry_encode rfl _ _ (le_of_eq h.written.symm)]

theorem load_commit_of_short (h : Wrote w entries) (hlen : entries.length < 2 ^ 64)
    (hshort : ∀ e ∈ entries, Short e) : load w.commit = some entries := by
  rw [load_commit h hlen,
    (decodeWhile_eq_self_iff _ _).mpr fun e he => reread_of_short (hshort e he)]

/-! ## Every entry comes back -/

/-- A sequence of `writeEntry` calls, each with the number of bytes after which
it fails, and their results. -/
def writeAll (w : SnapshotWriter) : List (IndexEntry × Option Nat) → List Bool × SnapshotWriter
  | [] => ([], w)
  | (e, cut) :: calls =>
    let (ok, w) := w.writeEntry cut e
    let (oks, w) := writeAll w calls
    (ok :: oks, w)

variable (calls : List (IndexEntry × Option Nat))

/-- Successful calls write exactly their entries, count them and keep the
running checksum of their bytes. -/
theorem writeAll_spec (w : SnapshotWriter)
    (hok : ∀ ok ∈ (writeAll w calls).1, ok = true) :
    (writeAll w calls).2 =
      { w with
        body := w.body ++ (calls.map Prod.fst).flatMap encode
        written := w.written + calls.length
        crc := updateCRC w.crc ((calls.map Prod.fst).flatMap encode) } := by
  induction calls generalizing w with
  | nil => simp [writeAll, updateCRC]
  | cons call calls ih =>
    obtain ⟨e, cut⟩ := call
    cases cut with
    | some n => exact absurd (hok false mem_cons_self) (by simp)
    | none =>
      have hrest := ih (w.writeEntry none e).2 fun ok hmem =>
        hok ok (mem_cons_of_mem _ hmem)
      refine hrest.trans ?_
      simp [SnapshotWriter.writeEntry, foldl_updateCRC, updateCRC_append, encode,
        add_assoc, add_comm 1]

variable (entries : List IndexEntry)

private theorem crc_writeEntry (w : SnapshotWriter) :
    (entries.foldl (fun w e => (w.writeEntry none e).2) w).crc =
      updateCRC w.crc (entries.flatMap encode) := by
  induction entries generalizing w with
  | nil => simp [updateCRC]
  | cons e entries ih =>
    rw [foldl_cons, ih, flatMap_cons, updateCRC_append]
    simp [SnapshotWriter.writeEntry, foldl_updateCRC, encode]

/-- **The running checksum is the CRC-32 of the bytes of the entries.** -/
theorem checksum_eq_crc32 :
    (entries.foldl (fun w e => (w.writeEntry none e).2) (SnapshotWriter.begin timestamp)).crc =
        crc32 (entries.flatMap encode) ∧
      (∀ (crc : UInt32) (b : UInt8), crcTable ((crc ^^^ b.toUInt32) &&& 0xFF) ^^^ (crc >>> 8) =
        crcStep^[8] (crc ^^^ b.toUInt32)) ∧
      ∀ (crc : UInt32) (a b : Bytes), updateCRC crc (a ++ b) = updateCRC (updateCRC crc a) b :=
  ⟨(crc_writeEntry entries _).trans (updateCRC_zero _), crcTable_xor_shiftRight, updateCRC_append⟩

/-- The header as the reader gets it back: the count modulo its width. -/
theorem readHeader_commit (w : SnapshotWriter) :
    readHeader w.commit =
      some ({ timestamp := w.ts, entryCount := w.written % 2 ^ 64, checksum := w.crc },
        w.body) := by
  have h8 : (256 : Nat) ^ 8 = 2 ^ 64 := rfl
  have hheader : SnapshotHeader.encode
      { timestamp := w.ts, entryCount := w.written, checksum := w.crc } = SnapshotHeader.encode
          { timestamp := w.ts, entryCount := w.written % 2 ^ 64, checksum := w.crc } := by
    simp only [SnapshotHeader.encode, ← h8, encodeLE_mod]
  rw [SnapshotWriter.commit, hheader,
    readHeader_encode _ (by simp) (by simp) (mod_lt _ (by decide))]

/-- An id of 1025 bytes is written and committed; the load reports success and
hands back nothing. -/
theorem load_drops_long_id :
    let e : IndexEntry := ⟨List.replicate 1025 97, ⟨0, 0⟩, lit "fleet", 7⟩
    (writeAll (SnapshotWriter.begin 5) [(e, none)]).1 = [true] ∧
      load (writeAll (SnapshotWriter.begin 5) [(e, none)]).2.commit = some [] := by
  intro e
  have hwrote : Wrote (writeAll (SnapshotWriter.begin 5) [(e, none)]).2 [e] :=
    (Wrote.begin 5).writeEntry e
  refine ⟨rfl, ?_⟩
  rw [load_commit hwrote (by simp)]
  decide +kernel

/-- **When every call has returned true, loading the committed snapshot hands
back the written entries exactly when no id and no collection is longer than
1024 bytes and the count fits its field.** -/
theorem load_commit_iff
    (hok : ∀ ok ∈ (writeAll (SnapshotWriter.begin timestamp) calls).1, ok = true) :
    load (writeAll (SnapshotWriter.begin timestamp) calls).2.commit = some (calls.map Prod.fst) ↔
      (∀ call ∈ calls, call.1.id.length ≤ 1024 ∧ call.1.collection.length ≤ 1024) ∧
        calls.length < 2 ^ 64 := by
  rw [load, readHeader_commit, writeAll_spec calls _ hok]
  simp only [Option.bind_eq_bind, Option.bind_some, ne_eq, not_true_eq_false, if_false,
    Option.some.injEq, SnapshotWriter.begin, nil_append, zero_add]
  rw [readEntry_exactly.readAllFuel_eq_iff, forall_mem_map]
  refine and_congr_right fun _ => ?_
  rw [length_map]
  constructor
  · rintro ⟨left, -, hcount | ⟨hcount, -⟩⟩
    · omega
    · omega
  · intro hlt
    exact ⟨[], (append_nil _).symm, Or.inl (mod_eq_of_lt hlt).symm⟩

/-- Two entries, one of them without an id. -/
theorem load_commit_iff_two : let calls : List (IndexEntry × Option Nat) :=
      [(⟨lit "a", ⟨1, 2⟩, lit "fleet", 3⟩, none), (⟨[], ⟨0, 0⟩, lit "fleet", 4⟩, none)]
    load (writeAll (SnapshotWriter.begin 5) calls).2.commit = some (calls.map Prod.fst) := by
  intro calls
  refine (load_commit_iff 5 calls ?_).mpr ⟨?_, ?_⟩
  · intro ok hok
    simpa [calls, writeAll, SnapshotWriter.writeEntry] using hok
  · decide
  · decide

/-! ## What a successful load says about the file -/

/-- The file is no snapshot, or behind its header stand the entries that the
header announces, with the announced checksum. -/
def Intact (file : Bytes) : Prop :=
  ∀ header body, readHeader file = some (header, body) → header.magic = 0x53504442 →
    ∃ (entries : List IndexEntry) (left : Bytes), (∀ e ∈ entries, Short e) ∧
      body = entries.flatMap encode ++ left ∧ entries.length = header.entryCount ∧
      updateCRC 0 (entries.flatMap encode) = header.checksum

/-- A snapshot of one entry cut behind its header, and one with a changed byte:
both loads report success. -/
theorem load_accepts_damage :
    let e : IndexEntry := ⟨lit "a", ⟨0, 0⟩, lit "fleet", 7⟩
    let file := (writeAll (SnapshotWriter.begin 5) [(e, none)]).2.commit
    (readHeader (file.take 40)).map (fun r => r.1.entryCount) = some 1 ∧
      load (file.take 40) = some [] ∧
      load (file.set 34 98) = some [{ e with id := lit "b" }] ∧
      (readHeader (file.set 34 98)).map (fun r => r.1.checksum) ≠
        some (updateCRC 0 (encode { e with id := lit "b" })) := by
  decide +kernel

/-- **A load that reports success has handed over as many entries as the header
announces, with the announced checksum, exactly when the file is intact.** -/
theorem load_verified_iff (file : Bytes) :
    (∀ entries, load file = some entries → ∃ header body, readHeader file = some (header, body) ∧
        entries.length = header.entryCount ∧
        updateCRC 0 (entries.flatMap encode) = header.checksum) ↔ Intact file := by
  unfold load Intact
  cases hread : readHeader file with
  | none => simp
  | some r =>
    obtain ⟨header, body⟩ := r
    simp only [Option.bind_eq_bind, Option.bind_some, Option.some.injEq, Prod.mk.injEq]
    by_cases hmagic : header.magic = 0x53504442
    · -- the loop returns `entries` when these stand in front of the body
      have hloop := readEntry_exactly.readAllFuel_eq_iff header.entryCount body
      constructor
      · intro h header' body' hsame _
        obtain ⟨rfl, rfl⟩ := hsame
        obtain ⟨_, _, ⟨rfl, rfl⟩, hcount, hsum⟩ := h _ (by rw [if_neg (not_not.mpr hmagic)])
        obtain ⟨hshort, left, hbody, -⟩ := (hloop _).mp rfl
        exact ⟨_, left, hshort, hbody, hcount, hsum⟩
      · intro h entries hload
        rw [if_neg (not_not.mpr hmagic)] at hload
        obtain ⟨stored, left, hshort, hbody, hcount, hsum⟩ := h header body ⟨rfl, rfl⟩ hmagic
        have hstored := (hloop stored).mpr ⟨hshort, left, hbody, Or.inl hcount⟩
        rw [hstored] at hload
        cases hload
        exact ⟨header, body, ⟨rfl, rfl⟩, hcount, hsum⟩
    constructor
    · intro _ header' body' hsame hmagic'
      obtain ⟨rfl, rfl⟩ := hsame
      exact absurd hmagic' hmagic
    · intro _ entries hload
      rw [if_pos hmagic] at hload
      cases hload

end SpatialDb.Storage.Snapshot
