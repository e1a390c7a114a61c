import SpatialDb.Lib.InStream

/-!
# The append-only file of the C++ server

Model of `cpp/storage/aof.cpp`.  Records are written as RESP arrays of bulk
strings.  The reader mixes line reads with counted reads on one stream, so that
the end of the file can fall between a header line and what it announces.

As in the write-ahead log, the output stream is a file, a buffer and a `good`
flag, and the answers of the operating system are arguments.
-/

namespace SpatialDb.Storage.Aof

open Lib List

inductive AOFSync where
  | always
  | everySecond
  | no
  deriving DecidableEq

/-- `AOFRecord`. -/
structure AOFRecord where
  command : Bytes
  args : List Bytes
  timestamp : UInt64
  deriving DecidableEq

/-- `serialize`; the timestamp is not written. -/
def serialize (r : AOFRecord) : Bytes :=
  lit "*" ++ decimal (1 + r.args.length) ++ crlf ++
    (encodeBulk r.command ++ r.args.flatMap encodeBulk)

/-! ## Reader -/

/-- `pop_back` of a carriage return. -/
def popCR (line : Bytes) : Bytes := if line.getLast? = some 13 then line.dropLast else line

/-- The part of `readBulk` behind its header line. -/
def bulkBody (line : Bytes) : StreamReader Bytes :=
  let header := popCR line
  if header.head? ≠ some 36 then fail
  else
    match stoul header.tail with
    | none => fail
    | some len =>
      if len > 1048576 then fail
      else do
        let val ← readExactly len
        getByte 13
        getByte 10
        pure val

def readBulk : StreamReader Bytes := getline >>= bulkBody

def readBulks : Nat → StreamReader (List Bytes)
  | 0 => pure []
  | n + 1 => do
      let arg ← readBulk
      let args ← readBulks n
      pure (arg :: args)

/-- The part of `parseRecord` behind its first line; `next` is the recursive
call on a line with nothing but a carriage return. -/
def recordBody (next : StreamReader AOFRecord) (line : Bytes) : StreamReader AOFRecord :=
  if line = [] then fail
  else if line = [13] then next
  else if line.head? ≠ some 42 then fail
  else
    match stoi (popCR line).tail with
    | none => fail
    | some count =>
      if count < 1 ∨ count > 10000 then fail
      else do
        let command ← readBulk
        let args ← readBulks (count.toNat - 1)
        pure { command, args, timestamp := 0 }

/-- `parseRecord`, with a bound on the lines it skips. -/
def parseLines : Nat → StreamReader AOFRecord
  | 0 => fail
  | fuel + 1 => getline >>= recordBody (parseLines fuel)

/-- `parseRecord`: every skipped line takes at least one byte. -/
def parseRecord : StreamReader AOFRecord := fun s => parseLines (s.rest.length + 1) s

/-- The records that `AOFReader::replay` hands to its handler. -/
def replay (file : Bytes) : List AOFRecord := readStream parseRecord file

/-! ## Writer -/

/-- The answers of the operating system during one call. -/
structure Io where
  writeOk : Bool := true
  flushOk : Bool := true
  openOk : Bool := true
  renameOk : Bool := true
  reopenOk : Bool := true
  deriving DecidableEq

/-- `AOFWriter`: the file behind `path_`, the stream's buffer and state. -/
structure AOFWriter where
  disk : Bytes
  buf : Bytes
  good : Bool
  sync : AOFSync
  deriving DecidableEq

namespace AOFWriter

/-- The constructor, on a new file. -/
def new (sync : AOFSync) : AOFWriter := { disk := [], buf := [], good := true, sync }

variable (w : AOFWriter) (io : Io)

/-- `file_.flush()`: a failure sets the stream's error state. -/
def flush : AOFWriter :=
  if !w.good then w
  else if io.flushOk then { w with disk := w.disk ++ w.buf, buf := [] }
  else { w with good := false }

def write (r : AOFRecord) : Bool × AOFWriter :=
  if !w.good then (false, w)
  else if !io.writeOk then (false, { w with good := false })
  else
    let w := { w with buf := w.buf ++ serialize r }
    if w.sync = .always then
      let w := w.flush io
      (w.good, w)
    else (true, w)

/-- `rewrite`: a temporary file takes the place of the old one.  What the stream
still had in its buffer goes to the old file. -/
def rewrite (records : List AOFRecord) : Bool × AOFWriter :=
  if !io.openOk then (false, w)
  else if records ≠ [] ∧ !io.writeOk then (false, w)
  else if !io.flushOk then (false, w)
  else if !io.renameOk then (false, w)
  else
    (io.reopenOk, { w with disk := records.flatMap serialize, buf := [], good := io.reopenOk })

/-- The destructor. -/
def close : AOFWriter := w.flush io

end AOFWriter

inductive Op where
  | write (r : AOFRecord)
  | rewrite (records : List AOFRecord)
  deriving DecidableEq

def step (w : AOFWriter) (io : Io) : Op → Bool × AOFWriter
  | .write r => w.write io r
  | .rewrite records => w.rewrite io records

/-- A sequence of calls, with the answer to each. -/
def run (w : AOFWriter) : List (Op × Io) → List Bool × AOFWriter
  | [] => ([], w)
  | (op, io) :: ops =>
    let (ok, w) := step w io op
    let (oks, w) := run w ops
    (ok :: oks, w)

/-- The records in the file: a rewrite replaces them, a write adds one. -/
def logged (records : List AOFRecord) : List Op → List AOFRecord
  | [] => records
  | .write r :: ops => logged (records ++ [r]) ops
  | .rewrite records :: ops => logged records ops

/-! ## The reader on one record -/

theorem popCR_append (l : Bytes) : popCR (l ++ [13]) = l := by
  simp [popCR]

theorem ne_newline_of_mem_header {tag : UInt8} (htag : tag ≠ 10) (n : Nat) :
    ∀ c ∈ tag :: decimal n ++ [13], c ≠ 10 := by
  intro c hc
  rcases mem_append.mp hc with hc | hc
  · rcases mem_cons.mp hc with rfl | hc
    · exact htag
    rintro rfl
    have hdigit := isDigitByte_of_mem_decimalFuel (n + 1) n 10 hc
    revert hdigit
    decide
  · rw [mem_singleton.mp hc]
    decide

theorem bulkBody_eof (line : Bytes) : bulkBody line ⟨[], true⟩ = none := by
  unfold bulkBody
  split
  · rfl
  cases stoul (popCR line).tail with
  | none => rfl
  | some len =>
    dsimp only
    split <;> rfl

theorem consumes_readBulk {arg : Bytes} (h : arg.length ≤ 1048576) :
    Consumes readBulk (encodeBulk arg) arg := by
  have hbody : bulkBody (36 :: decimal arg.length ++ [13]) = (do
      let val ← readExactly arg.length
      getByte 13
      getByte 10
      pure val) := by
    have hlen : stoul (decimal arg.length) = some arg.length := stoul_decimal (by omega)
    unfold bulkBody
    rw [popCR_append]
    simp [hlen, not_lt.mpr h]
  have hend : Consumes (do getByte 13; getByte 10; pure arg) crlf arg :=
    (consumes_getByte 13).bind (f := fun _ => do getByte 10; pure arg)
      ((consumes_getByte 10).bind (f := fun _ => pure arg) (Consumes.pure arg))
  have hrest : Consumes (bulkBody (36 :: decimal arg.length ++ [13])) (arg ++ crlf) arg := by
    rw [hbody]
    exact (consumes_readExactly arg).bind (f := fun val => do getByte 13; getByte 10; pure val) hend
  have hline := Consumes.line (ne_newline_of_mem_header (by decide) arg.length) bulkBody_eof hrest
  simpa [readBulk, encodeBulk, crlf] using hline

theorem consumes_readBulks {args : List Bytes} (h : ∀ arg ∈ args, arg.length ≤ 1048576) :
    Consumes (readBulks args.length) (args.flatMap encodeBulk) args := by
  induction args with
  | nil => exact Consumes.pure []
  | cons arg args ih =>
    have hrest := (ih (forall_mem_cons.mp h).2).bind
      (f := fun args => pure (arg :: args)) (Consumes.pure (arg :: args))
    rw [append_nil] at hrest
    exact (consumes_readBulk (h arg mem_cons_self)).bind (f := fun arg => do
        let args ← readBulks args.length
        pure (arg :: args)) hrest

/-- A record that the reader takes. -/
structure Small (r : AOFRecord) : Prop where
  count : r.args.length ≤ 9999
  command : r.command.length ≤ 1048576
  args : ∀ arg ∈ r.args, arg.length ≤ 1048576

theorem recordBody_eof (fuel : Nat) (line : Bytes) :
    recordBody (parseLines fuel) line ⟨[], true⟩ = none := by
  unfold recordBody
  split
  · rfl
  split
  · cases fuel <;> rfl
  split
  · rfl
  cases stoi (popCR line).tail with
  | none => rfl
  | some count =>
    dsimp only
    split <;> rfl

variable {r : AOFRecord}

theorem consumes_parseLines (h : Small r) (fuel : Nat) :
    Consumes (parseLines (fuel + 1)) (serialize r) { r with timestamp := 0 } := by
  have hcount : r.args.length ≤ 9999 := h.count
  have hbody : recordBody (parseLines fuel) (42 :: decimal (1 + r.args.length) ++ [13]) = (do
      let command ← readBulk
      let args ← readBulks r.args.length
      pure { command, args, timestamp := 0 }) := by
    have hstoi : stoi (decimal (1 + r.args.length)) = some ((1 + r.args.length : Nat) : Int) :=
      stoi_decimal (by omega)
    have hrange : ¬ (((1 + r.args.length : Nat) : Int) < 1 ∨
        ((1 + r.args.length : Nat) : Int) > 10000) := by omega
    unfold recordBody
    rw [popCR_append, cons_append, tail_cons, hstoi, if_neg (by simp), if_neg (by simp),
      if_neg (by simp)]
    dsimp only
    rw [if_neg hrange, Int.toNat_natCast, Nat.add_sub_cancel_left]
  have hrecord : Consumes (do
      let command ← readBulk
      let args ← readBulks r.args.length
      pure { command, args, timestamp := 0 }) (encodeBulk r.command ++ r.args.flatMap encodeBulk)
      ({ r with timestamp := 0 } : AOFRecord) := by
    have hargs := (consumes_readBulks h.args).bind
      (f := fun args => pure (⟨r.command, args, 0⟩ : AOFRecord))
      (Consumes.pure ({ r with timestamp := 0 } : AOFRecord))
    rw [append_nil] at hargs
    exact (consumes_readBulk h.command).bind (f := fun command => do
        let args ← readBulks r.args.length
        pure (⟨command, args, 0⟩ : AOFRecord)) hargs
  rw [← hbody] at hrecord
  have hline := Consumes.line (ne_newline_of_mem_header (by decide) (1 + r.args.length))
    (recordBody_eof fuel) hrecord
  simpa [parseLines, serialize, crlf, lit] using hline

theorem consumes_parseRecord (h : Small r) :
    Consumes parseRecord (serialize r) { r with timestamp := 0 } where
  full rest := (consumes_parseLines h _).full rest
  part q hq hne := (consumes_parseLines h _).part q hq hne

theorem serialize_ne_nil (r : AOFRecord) : serialize r ≠ [] := by
  simp [serialize, lit]

/-! ## The file of a run -/

section Run

variable {w : AOFWriter} {io : Io}

theorem flush_of_good (hgood : (w.flush io).good = true) :
    w.good = true ∧ (w.flush io).disk ++ (w.flush io).buf = w.disk ++ w.buf := by
  revert hgood
  unfold AOFWriter.flush
  cases hw : w.good with
  | false => simp [hw]
  | true => cases io.flushOk <;> simp

/-- An acknowledged write adds its record. -/
theorem write_spec (h : (w.write io r).1 = true) :
    (w.write io r).2.good = true ∧
      (w.write io r).2.disk ++ (w.write io r).2.buf = w.disk ++ w.buf ++ serialize r := by
  revert h
  unfold AOFWriter.write
  cases hgood : w.good with
  | false => simp
  | true =>
    cases io.writeOk with
    | false => simp
    | true =>
      simp only [Bool.not_true, Bool.false_eq_true, if_false]
      split
      · intro hflush
        exact ⟨hflush, by rw [(flush_of_good hflush).2, append_assoc]⟩
      · exact fun _ => ⟨rfl, by rw [append_assoc]⟩

/-- An acknowledged rewrite leaves its records and nothing else. -/
theorem rewrite_spec {records : List AOFRecord} (h : (w.rewrite io records).1 = true) :
    (w.rewrite io records).2.good = true ∧
      (w.rewrite io records).2.disk ++ (w.rewrite io records).2.buf =
        records.flatMap serialize := by
  revert h
  unfold AOFWriter.rewrite
  repeat' split
  all_goals first | rintro ⟨⟩ | exact fun h => ⟨h, append_nil _⟩

/-- After acknowledged calls the file and the buffer hold the logged records. -/
theorem run_spec (ops : List (Op × Io)) {records : List AOFRecord} (hgood : w.good = true)
    (hbytes : w.disk ++ w.buf = records.flatMap serialize)
    (hack : ∀ ok ∈ (run w ops).1, ok = true) :
    (run w ops).2.good = true ∧ (run w ops).2.disk ++ (run w ops).2.buf =
      (logged records (ops.map Prod.fst)).flatMap serialize := by
  induction ops generalizing w records with
  | nil => exact ⟨hgood, hbytes⟩
  | cons op ops ih =>
    obtain ⟨op, io⟩ := op
    have hok : (step w io op).1 = true := hack _ mem_cons_self
    have hacks : ∀ ok ∈ (run (step w io op).2 ops).1, ok = true := fun ok hmem =>
      hack ok (mem_cons_of_mem _ hmem)
    cases op with
    | write r =>
      obtain ⟨hgood', hbytes'⟩ := write_spec hok
      rw [hbytes] at hbytes'
      exact ih hgood' (hbytes'.trans (by simp)) hacks
    | rewrite records =>
      obtain ⟨hgood', hbytes'⟩ := rewrite_spec hok
      exact ih hgood' hbytes' hacks

end Run

/-- **The file of any run of acknowledged writes and rewrites, cut at any byte:
replay delivers exactly the records before the cut, with their commands and
arguments, and stops.** -/
theorem replay_take (sync : AOFSync) (ops : List (Op × Io)) (closeIo : Io)
    (hack : ∀ ok ∈ (run (AOFWriter.new sync) ops).1, ok = true) (hclose : closeIo.flushOk = true)
    (hsmall : ∀ r ∈ logged [] (ops.map Prod.fst), r.args.length ≤ 9999 ∧
      r.command.length ≤ 1048576 ∧ ∀ arg ∈ r.args, arg.length ≤ 1048576) (cut : Nat) :
    replay (((run (AOFWriter.new sync) ops).2.close closeIo).disk.take cut) =
      (wholeRecords serialize cut (logged [] (ops.map Prod.fst))).map
        fun r => { r with timestamp := 0 } := by
  have hnew : (AOFWriter.new sync).disk ++ (AOFWriter.new sync).buf =
      ([] : List AOFRecord).flatMap serialize := rfl
  obtain ⟨hgood, hbytes⟩ := run_spec ops rfl hnew hack
  have hdisk : ((run (AOFWriter.new sync) ops).2.close closeIo).disk =
      (logged [] (ops.map Prod.fst)).flatMap serialize := by
    rw [← hbytes]
    simp [AOFWriter.close, AOFWriter.flush, hgood, hclose]
  rw [hdisk]
  refine readStream_take (fun r hr => ?_) serialize_ne_nil rfl cut
  obtain ⟨hcount, hcommand, hargs⟩ := hsmall r hr
  exact consumes_parseRecord ⟨hcount, hcommand, hargs⟩

/-- A record with line ends and tags in its argument, and a cut in the next. -/
theorem replay_take_second :
    let r : AOFRecord := ⟨lit "SET", [lit "a", lit "\r\n*1\r\n$1\r\n"], 7⟩
    let ops : List (Op × Io) := [(.rewrite [], {}), (.write r, {}), (.write r, {})]
    replay (((run (AOFWriter.new .always) ops).2.close {}).disk.take 60) =
      [{ r with timestamp := 0 }] := by
  intro r ops
  refine (replay_take .always ops {} ?_ rfl ?_ 60).trans ?_
  · decide +kernel
  · decide +kernel
  · decide +kernel

end SpatialDb.Storage.Aof
