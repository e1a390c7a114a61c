import SpatialDb.Lib.InStream

/-!
# The request loop of the TCP server

Model of `TCPServer::handleClient` and `TCPServer::processRequest` of
`cpp/net/server.cpp`.  What `recv` returns is a list of results.  The handler
is known by whether it has the connection closed after the calls it was given
so far; its responses are not modelled.

The loop appends each chunk to `read_buf`, hands the buffer to
`processRequest`, which looks at the first line only, and clears the buffer.
So there is one call for each chunk, whatever lines the chunk holds.
-/

namespace SpatialDb.Net.Server

open Lib List

/-- The arguments of a call of the handler. -/
structure Call where
  cmd : Bytes
  args : List Bytes
  deriving DecidableEq

/-! ## One request -/

/-- `::toupper`, byte by byte. -/
def toUpper (s : Bytes) : Bytes := s.map fun c => if 97 ≤ c ∧ c ≤ 122 then c - 32 else c

/-- `in >> word`: skip white space, and read up to the next. -/
def extract (s : Bytes) : Option (Bytes × Bytes) :=
  match s.dropWhile isSpaceByte with
  | [] => none
  | c :: s => some ((c :: s).takeWhile (!isSpaceByte ·), (c :: s).dropWhile (!isSpaceByte ·))

/-- `while (in >> word)`; each word takes a byte. -/
def extractAll : Nat → Bytes → List Bytes
  | 0, _ => []
  | fuel + 1, s => match extract s with
      | none => []
      | some (word, s) => word :: extractAll fuel s

/-- The call for a line: a carriage return at the end is dropped, the first
word is the command. -/
def parseLine (line : Bytes) : Call :=
  let line := if line.getLast? = some 13 then line.dropLast else line
  match extractAll line.length line with
  | [] => { cmd := [], args := [] }
  | cmd :: args => { cmd := toUpper cmd, args := args }

/-- `std::getline`: the bytes before the first newline, or all of them. -/
def firstLine (raw : Bytes) : Bytes := raw.takeWhile (· ≠ 10)

/-- The call that `processRequest` makes, if it gets a line. -/
def processRequest (raw : Bytes) : Option Call :=
  if raw = [] then none else some (parseLine (firstLine raw))

/-! ## The loop -/

/-- What one `recv` returns: `n` bytes, `EINTR` or `EAGAIN`, or the end. -/
inductive RecvResult where
  | data (bytes : Bytes) (ne_nil : bytes ≠ []) (length_le : bytes.length ≤ 4095)
  | again
  | done

/-- The loop of `handleClient`, with the calls made so far. -/
def handleLoop (closes : List Call → Bool) (made : List Call) (readBuf : Bytes) :
    List RecvResult → List Call
  | [] => made
  | .again :: results => handleLoop closes made readBuf results
  | .done :: _ => made
  | .data bytes _ _ :: results =>
    match processRequest (readBuf ++ bytes) with
    | none => handleLoop closes made [] results
    | some call =>
      if closes (made ++ [call]) then made ++ [call]
      else handleLoop closes (made ++ [call]) [] results

variable (closes : List Call → Bool) (results : List RecvResult)

/-- The calls for one connection. -/
def handleClient : List Call :=
  handleLoop closes [] [] results

/-- The chunks that are received. -/
def received : List RecvResult → List Bytes
  | [] => []
  | .again :: results => received results
  | .done :: _ => []
  | .data bytes _ _ :: results => bytes :: received results

/-! ## One call for each line -/

/-- The complete lines of a stream, without their newlines. -/
def completeLines : Bytes → List Bytes
  | [] => []
  | c :: s =>
    if c = 10 then [] :: completeLines s
    else match completeLines s with
      | [] => []
      | l :: ls => (c :: l) :: ls

/-- The calls that a handler is given until it has the connection closed. -/
def callsUntil (closes : List Call → Bool) (made : List Call) : List Call → List Call
  | [] => made
  | call :: calls =>
    if closes (made ++ [call]) then made ++ [call]
    else callsUntil closes (made ++ [call]) calls

/-- What the loop should do with a stream. -/
def handleLines (stream : Bytes) : List Call :=
  callsUntil closes [] ((completeLines stream).map parseLine)

private theorem processRequest_of_ne_nil {raw : Bytes} (h : raw ≠ []) :
    processRequest raw = some (parseLine (firstLine raw)) := if_neg h

theorem handleLoop_eq (closes : List Call → Bool) (made : List Call) (results : List RecvResult) :
    handleLoop closes made [] results =
      callsUntil closes made ((received results).map fun chunk => parseLine (firstLine chunk)) := by
  induction results generalizing made with
  | nil => rfl
  | cons result results ih =>
    cases result with
    | again => exact ih made
    | done => rfl
    | data bytes ne_nil length_le =>
      rw [handleLoop, received, nil_append, processRequest_of_ne_nil ne_nil, map_cons, callsUntil]
      simp only [ih]

/-- The calls of the loop are those of the first lines of its chunks. -/
theorem handleClient_eq :
    handleClient closes results =
      callsUntil closes [] ((received results).map fun chunk => parseLine (firstLine chunk)) :=
  handleLoop_eq closes [] results

private theorem callsUntil_never (made calls : List Call) :
    callsUntil (fun _ => false) made calls = made ++ calls := by
  induction calls generalizing made with
  | nil => exact (append_nil made).symm
  | cons call calls ih =>
    rw [callsUntil, if_neg Bool.false_ne_true, ih, append_assoc, singleton_append]

/-! ## Chunks that are lines -/

theorem firstLine_line {line : Bytes} (h : 10 ∉ line) : firstLine (line ++ [10]) = line := by
  have hall : ∀ c ∈ line, decide (c ≠ 10) = true := by
    intro c hc
    exact decide_eq_true fun heq => h (heq ▸ hc)
  rw [firstLine, takeWhile_append_of_pos hall]
  exact append_nil line

private theorem completeLines_line {line : Bytes} (h : 10 ∉ line) (s : Bytes) :
    completeLines (line ++ 10 :: s) = line :: completeLines s := by
  induction line with
  | nil => rfl
  | cons c line ih =>
    rw [mem_cons, not_or] at h
    rw [cons_append, completeLines, if_neg (Ne.symm h.1), ih h.2]

private theorem completeLines_flatten {chunks : List Bytes}
    (h : ∀ chunk ∈ chunks, ∃ line, 10 ∉ line ∧ chunk = line ++ [10]) :
    completeLines chunks.flatten = chunks.map firstLine := by
  induction chunks with
  | nil => rfl
  | cons chunk chunks ih =>
    obtain ⟨line, hline, rfl⟩ := h chunk mem_cons_self
    rw [flatten_cons, append_assoc, singleton_append, completeLines_line hline,
      map_cons, firstLine_line hline, ih (forall_mem_cons.mp h).2]

/-! ## All chunkings of a stream -/

variable {results : List RecvResult}

/-- A handler that never closes counts the chunks; it should count the lines. -/
theorem length_received {stream : Bytes}
    (h : ∀ closes, handleClient closes results = handleLines closes stream) :
    (received results).length = (completeLines stream).length := by
  have hcalls := congrArg length (h fun _ => false)
  rw [handleClient_eq, handleLines, callsUntil_never, callsUntil_never] at hcalls
  simpa using hcalls

/-- Each byte arrives alone. -/
def bytewise (s : Bytes) : List RecvResult :=
  s.map fun b => .data [b] (cons_ne_nil b []) (by simp)

theorem received_bytewise (s : Bytes) : received (bytewise s) = s.map fun b => [b] := by
  induction s with
  | nil => rfl
  | cons b s ih => exact congrArg ([b] :: ·) ih

private theorem flatten_received_bytewise (s : Bytes) : (received (bytewise s)).flatten = s := by
  rw [received_bytewise, ← flatMap_def, flatMap_singleton']

/-- A stream of two or more bytes can be cut into one chunk more and one chunk
less than it has lines, or the other way round. -/
theorem length_lt_two {stream : Bytes}
    (h : ∀ results, (received results).flatten = stream →
      ∀ closes, handleClient closes results = handleLines closes stream) :
    stream.length < 2 := by
  cases stream with
  | nil => exact Nat.two_pos
  | cons b s =>
  cases s with
  | nil => exact Nat.one_lt_two
  | cons c s =>
    have hbytes := length_received (h _ (flatten_received_bytewise _))
    have hpair := length_received
      (h (.data [b, c] (cons_ne_nil b [c]) (by simp) :: bytewise s) (by
        rw [received, flatten_cons, flatten_received_bytewise]
        rfl))
    rw [received_bytewise, length_map] at hbytes
    rw [received, received_bytewise, length_cons, length_map] at hpair
    simp only [length_cons] at hbytes
    omega

private theorem ne_nil_of_mem_received {chunk : Bytes}
    (h : chunk ∈ received results) : chunk ≠ [] := by
  induction results with
  | nil => cases h
  | cons result results ih =>
    cases result with
    | again => exact ih h
    | done => cases h
    | data bytes ne_nil _ =>
      rw [received, mem_cons] at h
      exact h.elim (fun heq => heq ▸ ne_nil) ih

private theorem handleClient_of_lines
    (h : ∀ chunk ∈ received results, ∃ line, 10 ∉ line ∧ chunk = line ++ [10])
    (closes : List Call → Bool) :
    handleClient closes results = handleLines closes (received results).flatten := by
  rw [handleClient_eq, handleLines, completeLines_flatten h, map_map]
  rfl

/-- **If each chunk is one line with its newline, then every handler is given
one call for each line, in order.  Only the empty stream and a single newline
are handled so however they arrive.** -/
theorem handleClient_iff (stream : Bytes) :
    (∀ results, (received results).flatten = stream →
      (∀ chunk ∈ received results, ∃ line, 10 ∉ line ∧ chunk = line ++ [10]) →
      ∀ closes, handleClient closes results = handleLines closes stream) ∧
    ((∀ results, (received results).flatten = stream →
      ∀ closes, handleClient closes results = handleLines closes stream) ↔
        stream = [] ∨ stream = [10]) := by
  refine ⟨fun _ hflat h => hflat ▸ handleClient_of_lines h, fun h => ?_, fun hstream => ?_⟩
  · have hlength := length_lt_two h
    have hcount := length_received (h _ (flatten_received_bytewise stream))
    rw [received_bytewise, length_map] at hcount
    by_contra hne
    rw [not_or] at hne
    obtain ⟨b, rfl⟩ := length_eq_one_iff.mp
      (Nat.le_antisymm (Nat.le_of_lt_succ hlength) (length_pos_of_ne_nil hne.1))
    have hb : b ≠ 10 := fun heq => hne.2 (heq ▸ rfl)
    rw [completeLines, if_neg hb] at hcount
    cases hcount
  · intro results hflat closes
    rw [← hflat]
    refine handleClient_of_lines (fun chunk hchunk => ⟨[], not_mem_nil, ?_⟩) closes
    -- a chunk is not empty and stands within the stream
    have hne := ne_nil_of_mem_received hchunk
    have hsub : chunk.Sublist [10] := by
      have := sublist_flatten_of_mem hchunk
      rw [hflat] at this
      obtain rfl | rfl := hstream
      · exact this.trans (nil_sublist [10])
      · exact this
    exact (sublist_singleton.mp hsub).resolve_left hne

theorem handleClient_lines :
    handleClient (fun _ => false) [.data (lit "PING\n") (by decide) (by decide), .again,
      .data (lit "SET fleet truck1\r\n") (by decide) (by decide), .done] =
      [⟨lit "PING", []⟩, ⟨lit "SET", [lit "fleet", lit "truck1"]⟩] := by
  have hchunks : ∀ chunk ∈ [lit "PING\n", lit "SET fleet truck1\r\n"],
      10 ∉ chunk.dropLast ∧ chunk = chunk.dropLast ++ [10] := by decide
  refine ((handleClient_iff _).1 _ rfl ?_ _).trans ?_
  · intro chunk h
    exact ⟨chunk.dropLast, hchunks chunk h⟩
  · decide

/-- Two commands in one chunk: the second is lost.  One command in two
chunks: both parts are taken for commands. -/
theorem chunks_drop_and_cut :
    handleClient (fun _ => false) [.data (lit "PING\nPING\n") (by decide) (by decide)] =
      [⟨lit "PING", []⟩] ∧
    handleLines (fun _ => false) (lit "PING\nPING\n") = [⟨lit "PING", []⟩, ⟨lit "PING", []⟩] ∧
    handleClient (fun _ => false) [.data (lit "PI") (by decide) (by decide),
      .data (lit "NG\n") (by decide) (by decide)] = [⟨lit "PI", []⟩, ⟨lit "NG", []⟩] := by
  decide

end SpatialDb.Net.Server
