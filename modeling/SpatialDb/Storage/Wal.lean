import SpatialDb.Lib.Codec

/-!
# The write-ahead log

Model of `cpp/storage/wal.cpp`.  The log file is a list of bytes; the output
stream adds a buffer and a `good` flag.  What the operating system answers to
each call is an argument (`Io`), so every pattern of failures is covered.
Doubles are their 64-bit patterns; the machine is little-endian.  The counter
of unsynced appends is a `Nat`: only `2 ^ 64` failed syncs would wrap it.
-/

namespace SpatialDb.Storage.Wal

open Lib List

/-- `enum class WalOpType : uint8_t`: any byte is a value of the type. -/
structure WalOpType where
  code : UInt8
  deriving DecidableEq

namespace WalOpType

def set : WalOpType := ⟨1⟩
def delete : WalOpType := ⟨2⟩
def flush : WalOpType := ⟨3⟩

end WalOpType

/-- `WalEntry`. -/
structure WalEntry where
  op : WalOpType
  collection : Bytes
  id : Bytes
  lat : UInt64
  lon : UInt64
  timestamp : UInt64
  deriving DecidableEq

/-! ## Record format -/

/-- A length as the writer stores it: a cast to `uint16_t`. -/
def len16 (s : Bytes) : Nat := s.length % 2 ^ 16

variable (e : WalEntry)

/-- The bytes `writeEntry` sends to the stream. -/
def WalEntry.encode : Bytes :=
  encodeLE 1 e.op.code.toNat ++
  (encodeLE 2 (len16 e.collection) ++ (e.collection.take (len16 e.collection) ++
  (encodeLE 2 (len16 e.id) ++ (e.id.take (len16 e.id) ++
  (encodeLE 8 e.lat.toNat ++ (encodeLE 8 e.lon.toNat ++ encodeLE 8 e.timestamp.toNat))))))

/-- `readEntry`, on the bytes that are left. -/
def readEntry (bs : Bytes) : Option (WalEntry × Bytes) := do
  let (op, bs) ← readLE 1 bs
  let (colLen, bs) ← readLE 2 bs
  if colLen > 1024 then none else
  let (collection, bs) ← readBytes colLen bs
  let (idLen, bs) ← readLE 2 bs
  if idLen > 1024 then none else
  let (id, bs) ← readBytes idLen bs
  let (lat, bs) ← readLE 8 bs
  let (lon, bs) ← readLE 8 bs
  let (timestamp, bs) ← readLE 8 bs
  some ({ op := ⟨UInt8.ofNat op⟩
          collection
          id
          lat := UInt64.ofNat lat
          lon := UInt64.ofNat lon
          timestamp := UInt64.ofNat timestamp }, bs)

/-- The entries `replay` hands to its handler. -/
def replay (disk : Bytes) : List WalEntry := readAll readEntry disk

/-- What comes back for one written entry. -/
def WalEntry.reread : Option WalEntry :=
  if len16 e.collection > 1024 then none
  else if len16 e.id > 1024 then none
  else some { e with
    collection := e.collection.take (len16 e.collection)
    id := e.id.take (len16 e.id) }

theorem length_take_len16 (s : Bytes) : (s.take (len16 s)).length = len16 s := by
  rw [length_take]
  exact Nat.min_eq_left (Nat.mod_le _ _)

theorem len16_mod (s : Bytes) : len16 s % 256 ^ 2 = len16 s :=
  Nat.mod_eq_of_lt (Nat.mod_lt _ (by decide))

theorem len16_of_short {s : Bytes} (h : s.length ≤ 1024) : len16 s = s.length :=
  Nat.mod_eq_of_lt (by omega)

/-- The writer and the reader on one record, whatever follows it. -/
theorem readEntry_encode (rest : Bytes) :
    readEntry (e.encode ++ rest) = e.reread.map fun e' => (e', rest) := by
  unfold readEntry WalEntry.encode WalEntry.reread
  simp only [append_assoc, readLE_append, Option.bind_eq_bind, Option.bind_some, len16_mod]
  split
  · rfl
  simp only [readBytes_append (length_take_len16 _), readLE_append, Option.bind_some, len16_mod]
  split
  · rfl
  · simp

theorem reread_eq_self_iff :
    e.reread = some e ↔ e.collection.length ≤ 1024 ∧ e.id.length ≤ 1024 := by
  have hlen : ∀ s : Bytes, ¬ len16 s > 1024 → s.take (len16 s) = s → s.length ≤ 1024 := by
    intro s hle htake
    have := length_take_len16 s
    rw [htake] at this
    omega
  unfold WalEntry.reread
  constructor
  · intro h
    split at h
    · cases h
    rename_i hcol
    split at h
    · cases h
    rename_i hid
    injection h with h
    exact ⟨hlen _ hcol (congrArg WalEntry.collection h), hlen _ hid (congrArg WalEntry.id h)⟩
  · rintro ⟨hcol, hid⟩
    simp [len16_of_short hcol, len16_of_short hid, not_lt.mpr hcol, not_lt.mpr hid]

theorem encode_ne_nil : e.encode ≠ [] := by
  simp [WalEntry.encode, encodeLE]

/-- Both strings fit the limit of the reader. -/
def WalEntry.Short : Prop := e.collection.length ≤ 1024 ∧ e.id.length ≤ 1024

/-- The bytes of a short entry: no length is cut. -/
theorem encode_of_short {e : WalEntry} (h : e.Short) : e.encode = encodeLE 1 e.op.code.toNat ++
      (encodeLE 2 e.collection.length ++ (e.collection ++
      (encodeLE 2 e.id.length ++ (e.id ++
      (encodeLE 8 e.lat.toNat ++ (encodeLE 8 e.lon.toNat ++ encodeLE 8 e.timestamp.toNat)))))) := by
  rw [WalEntry.encode, len16_of_short h.1, len16_of_short h.2, take_length, take_length]

theorem readEntry_eq_some {bs rest : Bytes} {e : WalEntry} (h : readEntry bs = some (e, rest)) :
    e.Short ∧ bs = e.encode ++ rest := by
  unfold readEntry at h
  simp only [Option.bind_eq_bind, Option.bind_eq_some_iff, Prod.exists] at h
  obtain ⟨op, bs1, hop, n, bs2, hn, h⟩ := h
  split at h
  · cases h
  rename_i hcol
  simp only [Option.bind_eq_some_iff, Prod.exists] at h
  obtain ⟨col, bs3, hc, m, bs4, hm, h⟩ := h
  split at h
  · cases h
  rename_i hid
  simp only [Option.bind_eq_some_iff, Prod.exists, Option.some.injEq, Prod.mk.injEq] at h
  obtain ⟨id, bs5, hi, lat, bs6, hlat, lon, bs7, hlon, ts, bs8, hts, rfl, rfl⟩ := h
  rw [readLE_eq_some_iff] at hop hn hm hlat hlon hts
  rw [readBytes_eq_some_iff] at hc hi
  obtain ⟨rfl, rfl⟩ := hc
  obtain ⟨rfl, rfl⟩ := hi
  have hshort : (⟨⟨UInt8.ofNat op⟩, col, id, UInt64.ofNat lat, UInt64.ofNat lon,
      UInt64.ofNat ts⟩ : WalEntry).Short := ⟨not_lt.mp hcol, not_lt.mp hid⟩
  refine ⟨hshort, ?_⟩
  have hop8 : (UInt8.ofNat op).toNat = op := UInt8.toNat_ofNat_of_lt' hop.1
  have hword : ∀ {n : Nat}, n < 256 ^ 8 → (UInt64.ofNat n).toNat = n := fun hlt =>
    UInt64.toNat_ofNat_of_lt' hlt
  rw [encode_of_short hshort, hop8, hword hlat.1, hword hlon.1, hword hts.1, hop.2, hn.2, hm.2,
    hlat.2, hlon.2, hts.2]
  simp only [append_assoc]

/-- The reader accepts the bytes of short entries and nothing else. -/
theorem readEntry_exactly : ReadsExactly readEntry WalEntry.encode WalEntry.Short where
  iff bs e rest := by
    refine ⟨readEntry_eq_some, ?_⟩
    rintro ⟨hshort, rfl⟩
    rw [readEntry_encode, (reread_eq_self_iff e).mpr hshort]
    rfl
  ne_nil := encode_ne_nil

/-- Replay of a log of whole records. -/
theorem replay_flatMap_encode (es : List WalEntry) :
    replay (es.flatMap WalEntry.encode) = decodeWhile WalEntry.reread es :=
  readAll_flatMap readEntry_encode rfl encode_ne_nil es

theorem replay_flatMap_encode_eq_self_iff (es : List WalEntry) :
    replay (es.flatMap WalEntry.encode) = es ↔
      ∀ e ∈ es, e.collection.length ≤ 1024 ∧ e.id.length ≤ 1024 := by
  rw [replay_flatMap_encode, decodeWhile_eq_self_iff]
  simp only [reread_eq_self_iff]

/-! ## The log object -/

/-- The answers of the operating system during one call: to the writes, to the
flush of the stream buffer, and to `open` and `fsync` in `syncToDisk`. -/
structure Io where
  writeOk : Bool := true
  flushOk : Bool := true
  syncOk : Bool := true
  deriving DecidableEq

/-- `WAL`: the file behind `path_`, the stream buffer and state, the counter. -/
structure WAL where
  disk : Bytes
  buf : Bytes
  good : Bool
  isOpen : Bool
  pending : Nat
  syncEvery : Nat
  deriving DecidableEq

namespace WAL

/-- The constructor, on a file with the given contents (`ios::app`). -/
def new (disk : Bytes) (syncEvery : Nat) : WAL :=
  { disk, buf := [], good := true, isOpen := true, pending := 0, syncEvery }

variable (w : WAL) (io : Io)

/-- `file_.flush()`: a failure sets the stream's error state. -/
def flushStream : WAL :=
  if !w.good then w
  else if io.flushOk then { w with disk := w.disk ++ w.buf, buf := [] }
  else { w with good := false }

def writeEntry (e : WalEntry) : Bool × WAL :=
  if !w.good then (false, w)
  else if io.writeOk then (true, { w with buf := w.buf ++ e.encode })
  else (false, { w with good := false })

def syncToDisk : Bool × WAL :=
  if !w.isOpen then (false, w) else (io.syncOk, w.flushStream io)

def append (e : WalEntry) : Bool × WAL :=
  let (ok, w) := w.writeEntry io e
  if !ok then (false, w)
  else
    let w := { w with pending := w.pending + 1 }
    if w.pending ≥ w.syncEvery then
      let (ok, w) := (w.flushStream io).syncToDisk io
      if !ok then (false, w) else (true, { w with pending := 0 })
    else (true, w)

def flush : Bool × WAL :=
  let (ok, w) := (w.flushStream io).syncToDisk io
  (ok && w.good, { w with pending := 0 })

/-- Close and reopen with `ios::trunc`; `openOk` is whether that succeeds. -/
def truncate (openOk : Bool) : Bool × WAL :=
  let w := w.flushStream io
  if openOk then (true, { w with disk := [], buf := [], good := true, isOpen := true })
  else (false, { w with good := false, isOpen := false })

/-- The destructor. -/
def close : WAL :=
  if w.isOpen then { ((w.flushStream io).syncToDisk io).2 with isOpen := false } else w

end WAL

/-- A sequence of appends, with the answer to each. -/
def appendAll (w : WAL) : List (WalEntry × Io) → List Bool × WAL
  | [] => ([], w)
  | (e, io) :: ops =>
    let (ok, w) := w.append io e
    let (oks, w) := appendAll w ops
    (ok :: oks, w)

/-! ## Acknowledged appends -/

section Append

variable {w : WAL} {io : Io} {e : WalEntry}

/-- Flushing moves bytes from the buffer to the file, in order. -/
@[simp] theorem flushStream_bytes (w : WAL) (io : Io) :
    (w.flushStream io).disk ++ (w.flushStream io).buf = w.disk ++ w.buf := by
  unfold WAL.flushStream
  split
  · rfl
  · split <;> simp

@[simp] theorem flushStream_good (w : WAL) (io : Io) (hio : io.flushOk = true) :
    (w.flushStream io).good = w.good := by
  rw [WAL.flushStream, hio]
  split <;> rfl

@[simp] theorem flushStream_isOpen (w : WAL) (io : Io) : (w.flushStream io).isOpen = w.isOpen := by
  unfold WAL.flushStream
  split
  · rfl
  · split <;> rfl

section

variable (h : (w.append io e).1 = true)
include h

/-- An acknowledged append found the stream in a good state and wrote the
record; then either nothing more happened, or the stream was flushed twice. -/
theorem append_eq_true :
    w.good = true ∧ ∃ p, (w.append io e).2 =
      (let w' := { w with buf := w.buf ++ e.encode, pending := w.pending + 1 }
       if w.pending + 1 ≥ w.syncEvery then
         { (w'.flushStream io).flushStream io with pending := p }
       else { w' with pending := p }) := by
  unfold WAL.append WAL.writeEntry at h ⊢
  cases hgood : w.good with
  | false => simp [hgood] at h
  | true =>
    cases hwrite : io.writeOk with
    | false => simp [hgood, hwrite] at h
    | true =>
      simp only [hgood, hwrite, Bool.not_true, Bool.false_eq_true, if_false, if_true,
        WAL.syncToDisk, flushStream_isOpen] at h ⊢
      refine ⟨trivial, ?_⟩
      by_cases hdue : w.pending + 1 ≥ w.syncEvery
      · rw [if_pos hdue] at h ⊢
        cases hopen : w.isOpen with
        | false => simp [hopen] at h
        | true =>
          cases hsync : io.syncOk with
          | false => simp [hopen, hsync] at h
          | true => exact ⟨0, by simp [hdue]⟩
      · rw [if_neg hdue]
        exact ⟨_, by rw [if_neg hdue]⟩

/-- An acknowledged append adds exactly its record to the log. -/
theorem disk_append_buf_append :
    (w.append io e).2.disk ++ (w.append io e).2.buf = w.disk ++ w.buf ++ e.encode := by
  obtain ⟨_, p, hw⟩ := append_eq_true h
  rw [hw]
  split <;> simp

theorem append_good (hio : io.flushOk = true) : (w.append io e).2.good = true := by
  obtain ⟨hgood, p, hw⟩ := append_eq_true h
  rw [hw]
  split <;> simp [hio, hgood]

theorem append_isOpen : (w.append io e).2.isOpen = w.isOpen := by
  obtain ⟨_, p, hw⟩ := append_eq_true h
  rw [hw]
  split <;> simp

end

end Append

/-- Acknowledged appends add exactly their records, in order, and leave the
stream good as long as no flush fails. -/
theorem appendAll_spec (ops : List (WalEntry × Io)) (w : WAL) (hgood : w.good = true)
    (hack : ∀ ok ∈ (appendAll w ops).1, ok = true)
    (hio : ∀ op ∈ ops, op.2.flushOk = true) :
    (appendAll w ops).2.good = true ∧ (appendAll w ops).2.isOpen = w.isOpen ∧
      (appendAll w ops).2.disk ++ (appendAll w ops).2.buf =
        w.disk ++ w.buf ++ (ops.map Prod.fst).flatMap WalEntry.encode := by
  induction ops generalizing w with
  | nil => simp [appendAll, hgood]
  | cons op ops ih =>
    obtain ⟨e, io⟩ := op
    have hok : (w.append io e).1 = true := hack _ mem_cons_self
    have hacks : ∀ ok ∈ (appendAll (w.append io e).2 ops).1, ok = true := fun ok hmem =>
      hack ok (mem_cons_of_mem _ hmem)
    have hflush : io.flushOk = true := hio (e, io) mem_cons_self
    obtain ⟨h1, h2, h3⟩ := ih (w.append io e).2 (append_good hok hflush) hacks
      (forall_mem_cons.mp hio).2
    rw [append_isOpen hok] at h2
    rw [disk_append_buf_append hok] at h3
    refine ⟨h1, h2, h3.trans ?_⟩
    simp

/-- Closing a good stream leaves every byte in the file. -/
theorem close_disk {w : WAL} {io : Io} (hgood : w.good = true) (hopen : w.isOpen = true)
    (hio : io.flushOk = true) : (w.close io).disk = w.disk ++ w.buf := by
  simp [WAL.close, WAL.syncToDisk, WAL.flushStream, hgood, hopen, hio]

/-- An id of 1025 bytes is acknowledged, and replay stops in front of it. -/
theorem replay_stops_at_long_id :
    let e : WalEntry := ⟨.set, lit "fleet", List.replicate 1025 97, 0, 0, 7⟩
    let r := appendAll (WAL.new [] 100) [(e, {})]
    r.1 = [true] ∧ replay (r.2.close {}).disk = [] := by
  decide +kernel

/-- **A log of acknowledged appends is replayed unchanged exactly when no
collection name and no id is longer than 1024 bytes**, provided the operating
system takes the flushed bytes. -/
theorem replay_close_iff (syncEvery : Nat) (ops : List (WalEntry × Io)) (closeIo : Io)
    (hack : ∀ ok ∈ (appendAll (WAL.new [] syncEvery) ops).1, ok = true)
    (hio : ∀ op ∈ ops, op.2.flushOk = true) (hclose : closeIo.flushOk = true) :
    replay ((appendAll (WAL.new [] syncEvery) ops).2.close closeIo).disk =
        ops.map Prod.fst ↔
      ∀ op ∈ ops, op.1.collection.length ≤ 1024 ∧ op.1.id.length ≤ 1024 := by
  obtain ⟨hgood, hopen, hbytes⟩ := appendAll_spec ops (WAL.new [] syncEvery) rfl hack hio
  rw [close_disk hgood hopen hclose, hbytes]
  simp only [WAL.new, nil_append]
  rw [replay_flatMap_encode_eq_self_iff, forall_mem_map]

/-- A log with a record of each kind. -/
theorem replay_close_iff_three_kinds : let ops : List (WalEntry × Io) :=
      [(⟨.set, lit "fleet", lit "a", 1, 2, 3⟩, {}), (⟨.delete, lit "fleet", lit "a", 0, 0, 4⟩, {}),
        (⟨.flush, [], [], 0, 0, 5⟩, {})]
    replay ((appendAll (WAL.new [] 2) ops).2.close {}).disk = ops.map Prod.fst := by
  refine (replay_close_iff 2 _ {} ?_ ?_ rfl).mpr ?_
  · decide
  · decide
  · decide

/-! ## A log that is reopened after a crash -/

/-- New records behind torn bytes are found as they are: nothing is torn,
nothing is appended, or by coincidence the torn bytes and the new records
together begin with the new records, and no record begins behind these. -/
def Resumes (torn : Bytes) (es : List WalEntry) : Prop :=
  torn = [] ∨ es = [] ∨ ∃ left, torn ++ es.flatMap WalEntry.encode =
    es.flatMap WalEntry.encode ++ left ∧ readEntry left = none

theorem resumes_iff {torn : Bytes} (htorn : readEntry torn = none) (es : List WalEntry) :
    Resumes torn es ↔ ∃ left, torn ++ es.flatMap WalEntry.encode =
      es.flatMap WalEntry.encode ++ left ∧ readEntry left = none := by
  constructor
  · rintro (rfl | rfl | h)
    · exact ⟨[], by simp, htorn⟩
    · exact ⟨torn, by simp, htorn⟩
    · exact h
  · exact fun h => Or.inr (Or.inr h)

/-- A crash cuts the log inside its only record; the record appended after the
restart is read as the missing bytes of the old one, and never delivered. -/
theorem reopen_misreads :
    let old : WalEntry := ⟨.set, lit "fleet", lit "a", 0, 0, 7⟩
    let new : WalEntry := ⟨.set, lit "fleet", lit "b", 0, 0, 8⟩
    let r := appendAll (WAL.new (old.encode.take 10) 1) [(new, {})]
    r.1 = [true] ∧ wholeRecords WalEntry.encode 10 [old] = [] ∧
      (replay (r.2.close {}).disk).map WalEntry.id = [[1]] := by
  decide +kernel

/-- **A log is cut at any byte and reopened: replay delivers the entries before
the cut and then the appended ones exactly when the appended records resume
the torn bytes.** -/
theorem replay_reopen_iff (before : List WalEntry) (cut syncEvery : Nat)
    (ops : List (WalEntry × Io)) (closeIo : Io)
    (hbefore : ∀ e ∈ before, e.collection.length ≤ 1024 ∧ e.id.length ≤ 1024)
    (hops : ∀ op ∈ ops, op.1.collection.length ≤ 1024 ∧ op.1.id.length ≤ 1024)
    (hack : ∀ ok ∈ (appendAll
      (WAL.new ((before.flatMap WalEntry.encode).take cut) syncEvery) ops).1, ok = true)
    (hio : ∀ op ∈ ops, op.2.flushOk = true) (hclose : closeIo.flushOk = true) :
    replay ((appendAll (WAL.new ((before.flatMap WalEntry.encode).take cut) syncEvery) ops).2.close
        closeIo).disk = wholeRecords WalEntry.encode cut before ++ ops.map Prod.fst ↔
      Resumes (tornBytes WalEntry.encode cut before) (ops.map Prod.fst) := by
  obtain ⟨hgood, hopen, hbytes⟩ := appendAll_spec ops
    (WAL.new ((before.flatMap WalEntry.encode).take cut) syncEvery) rfl hack hio
  have htorn := readEntry_exactly.tornBytes hbefore cut
  have hshort : ∀ e ∈ wholeRecords WalEntry.encode cut before ++ ops.map Prod.fst, e.Short := by
    intro e he
    rcases mem_append.mp he with he | he
    · exact hbefore e ((wholeRecords_begins _ cut before).subset he)
    · obtain ⟨op, hop, rfl⟩ := mem_map.mp he
      exact hops op hop
  rw [close_disk hgood hopen hclose, hbytes, replay, readEntry_exactly.readAll_eq_iff,
    and_iff_right hshort, resumes_iff htorn]
  refine exists_congr fun left => and_congr_left fun _ => ?_
  -- the whole records stand in front on both sides
  show (before.flatMap WalEntry.encode).take cut ++ [] ++ _ = _ ↔ _
  rw [append_nil, take_flatMap, flatMap_append, append_assoc, append_assoc, append_cancel_left_eq]

/-- A cut between two records, and an append after it. -/
theorem replay_reopen_iff_boundary :
    let old : WalEntry := ⟨.set, lit "fleet", lit "a", 0, 0, 7⟩
    let new : WalEntry := ⟨.delete, lit "fleet", lit "a", 0, 0, 8⟩
    replay ((appendAll (WAL.new (([old, old].flatMap WalEntry.encode).take 35) 1)
      [(new, {})]).2.close {}).disk = [old, new] := by
  intro old new
  refine (replay_reopen_iff [old, old] 35 1 [(new, {})] {} ?_ ?_ ?_ ?_ rfl).mpr (Or.inl ?_)
  · decide
  · decide
  · decide +kernel
  · decide
  · decide +kernel

end SpatialDb.Storage.Wal
