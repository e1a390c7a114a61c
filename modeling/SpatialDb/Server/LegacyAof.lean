import SpatialDb.Lib.Codec
import SpatialDb.Lib.Slices

/-!
# The reader of the old file format

Model of `LegacyAOFReader` of `internal/legacy/server/aofmigrate.go`.  A record
is a length, a payload, the length again and a zero byte.  The reader keeps what
it has read in `buf`: the bytes from `p` on, `l` of them, are still to be used.
Before it reads on it moves them to the front, and what comes in goes behind
them, over old bytes and then behind the end of `buf`.
-/

namespace SpatialDb.Server

open Lib List

inductive ReadErr where
  | eof
  | unexpectedEOF
  | corruptedAOF
  | other (text : Bytes)
  deriving DecidableEq

/-- `LegacyAOFReader`; `r` lists what its `Read` will return, and then returns
EOF.  The unread bytes are inside of `buf`. -/
structure LegacyAOFReader where
  r : List (Bytes × Option ReadErr)
  rerr : Option ReadErr := none
  buf : Bytes := []
  l : Nat := 0
  p : Nat := 0
  inside : p + l ≤ buf.length := by simp

namespace LegacyAOFReader

/-! ## Model -/

/-- `rd.r.Read(rd.chunk)`. -/
def read : List (Bytes × Option ReadErr) → Bytes × Option ReadErr × List (Bytes × Option ReadErr)
  | [] => ([], some .eof, [])
  | (chunk, err) :: r => (chunk, err, r)

/-- `binary.LittleEndian.Uint32`. -/
def uint32 (b : Bytes) : Nat := decodeLE (b.take 4)

variable (rd : LegacyAOFReader)

/-- The first part of `ReadCommand`: a record in front, if it is complete. -/
def takeRecord : Option (Except ReadErr Bytes × LegacyAOFReader) :=
  if 4 ≤ rd.l then
    let sz1 := uint32 (rd.buf.drop rd.p)
    if h : sz1 + 9 ≤ rd.l then
      let sz2 := uint32 (rd.buf.drop (rd.p + 4 + sz1))
      if sz2 ≠ sz1 ∨ rd.buf[rd.p + 4 + sz1 + 4]? ≠ some 0 then some (.error .corruptedAOF, rd)
      else
        some (.ok ((rd.buf.drop (rd.p + 4)).take sz1),
          { rd with
            p := rd.p + (sz1 + 9)
            l := rd.l - (sz1 + 9)
            inside := by
              have := rd.inside
              omega })
    else none
  else none

/-- `copy(rd.buf, rd.buf[rd.p:rd.p+rd.l])`. -/
def moved : Bytes :=
  if rd.p ≠ 0 then copyAt rd.buf 0 ((rd.buf.drop rd.p).take rd.l) else rd.buf

/-- The buffer once the chunk is behind its first `l` bytes. -/
def grow (buf : Bytes) (l : Nat) (cbuf : Bytes) : Bytes :=
  if buf.length - l < cbuf.length then
    if buf.length = 0 then cbuf
    else
      let room := buf.length - l
      copyAt buf l (cbuf.take room) ++ cbuf.drop room
  else copyAt buf l cbuf

theorem length_moved : rd.moved.length = rd.buf.length := by
  unfold moved
  split
  · exact length_copyAt (Nat.zero_le _) _
  · rfl

theorem take_grow {buf : Bytes} {l : Nat} (h : l ≤ buf.length) (cbuf : Bytes) :
    (grow buf l cbuf).take (l + cbuf.length) = buf.take l ++ cbuf := by
  unfold grow
  by_cases hroom : buf.length - l < cbuf.length
  · rw [if_pos hroom]
    by_cases hempty : buf.length = 0
    · have hnil := length_eq_zero_iff.mp hempty
      rw [if_pos hempty, hnil, take_nil, nil_append]
      exact take_of_length_le (by omega)
    rw [if_neg hempty]
    have hfull : (cbuf.take (buf.length - l)).length = buf.length - l := length_take_of_le hroom.le
    have hinside : l + (cbuf.take (buf.length - l)).length ≤ buf.length := by omega
    have hcopy := take_copyAt hinside
    have hlen := length_copyAt h (cbuf.take (buf.length - l))
    rw [take_of_length_le (by rw [hlen, hfull]; omega)] at hcopy
    dsimp only
    rw [hcopy, append_assoc, take_append_drop]
    apply take_of_length_le
    rw [length_append, length_take_of_le h]
  · rw [if_neg hroom]
    exact take_copyAt (by omega)

theorem le_length_grow {buf : Bytes} {l : Nat} (h : l ≤ buf.length) (cbuf : Bytes) :
    l + cbuf.length ≤ (grow buf l cbuf).length := by
  have hlen := congrArg List.length (take_grow h cbuf)
  rw [length_take, length_append, length_take_of_le h] at hlen
  omega

/-- The rest of `ReadCommand`, up to the call of itself. -/
def readMore : LegacyAOFReader :=
  let (cbuf, rerr, r) := read rd.r
  have hl : rd.l ≤ rd.moved.length := by
    have := rd.inside
    rw [length_moved]
    omega
  if 0 < cbuf.length then
    { r, rerr, buf := grow rd.moved rd.l cbuf, l := rd.l + cbuf.length, p := 0
      inside := by
        have := le_length_grow hl cbuf
        omega }
  else { r, rerr, buf := rd.moved, l := rd.l, p := 0, inside := by omega }

theorem r_readMore : rd.readMore.r = (read rd.r).2.2 := by
  unfold readMore
  dsimp only
  split <;> rfl

theorem rerr_readMore : rd.readMore.rerr = (read rd.r).2.1 := by
  unfold readMore
  dsimp only
  split <;> rfl

/-- The reads that are still to come; the last one is EOF. -/
def readsLeft : Nat :=
  match rd.rerr with
  | some _ => 0
  | none => rd.r.length + 1

theorem readsLeft_readMore {rd : LegacyAOFReader} (h : rd.rerr = none) :
    rd.readMore.readsLeft < rd.readsLeft := by
  unfold readsLeft
  rw [rerr_readMore, r_readMore, h]
  obtain _ | ⟨⟨chunk, err⟩, r⟩ := rd.r
  · exact Nat.zero_lt_one
  cases err with
  | none => exact Nat.lt_succ_self _
  | some err => exact Nat.succ_pos _

def readCommand (rd : LegacyAOFReader) : Except ReadErr Bytes × LegacyAOFReader :=
  match rd.takeRecord with
  | some result => result
  | none =>
    match h : rd.rerr with
    | some .eof =>
      (.error (if rd.l ≠ 0 then .unexpectedEOF else .eof), { rd with rerr := none })
    | some err => (.error err, rd)
    | none =>
      have := readsLeft_readMore h
      readCommand rd.readMore
termination_by rd.readsLeft

/-- The results of `n` calls. -/
def readCommands : Nat → LegacyAOFReader → List (Except ReadErr Bytes)
  | 0, _ => []
  | n + 1, rd => rd.readCommand.1 :: readCommands n rd.readCommand.2

/-! ## What is unread -/

def unread : Bytes := (rd.buf.drop rd.p).take rd.l

@[simp] theorem length_unread : rd.unread.length = rd.l := by
  have := rd.inside
  rw [unread, length_take, length_drop]
  omega

theorem drop_buf : rd.buf.drop rd.p = rd.unread ++ rd.buf.drop (rd.p + rd.l) := by
  rw [unread, ← drop_drop, take_append_drop]

/-- Moving keeps what is unread, now at the front. -/
theorem take_moved : rd.moved.take rd.l = rd.unread := by
  unfold moved
  by_cases hp : rd.p = 0
  · rw [if_neg (not_not.mpr hp), unread, hp, drop_zero]
  have hlen := rd.length_unread
  have hinside := rd.inside
  have hfits : 0 + rd.unread.length ≤ rd.buf.length := by omega
  have hcopy := take_copyAt hfits
  rw [Nat.zero_add, hlen, take_zero, nil_append] at hcopy
  rw [if_pos hp]
  exact hcopy

theorem unread_readMore : rd.readMore.unread = rd.unread ++ (read rd.r).1 := by
  have hl : rd.l ≤ rd.moved.length := by
    have := rd.inside
    rw [length_moved]
    omega
  rw [← rd.take_moved]
  by_cases hc : 0 < (read rd.r).1.length
  · have hmore : rd.readMore.unread =
        (grow rd.moved rd.l (read rd.r).1).take (rd.l + (read rd.r).1.length) := by
      simp only [readMore, if_pos hc, unread, drop_zero]
    rw [hmore, take_grow hl]
  · have hnil : (read rd.r).1 = [] := length_eq_zero_iff.mp (by omega)
    simp only [readMore, if_neg hc, unread, drop_zero]
    rw [hnil, append_nil]

end LegacyAOFReader

/-! ## Records -/

/-- A record of the old format. -/
def frame (payload : Bytes) : Bytes :=
  encodeLE 4 payload.length ++ (payload ++ (encodeLE 4 payload.length ++ [0]))

theorem length_frame (payload : Bytes) : (frame payload).length = payload.length + 9 := by
  simp only [frame, length_append, length_encodeLE, length_singleton]
  omega

variable {r : List (Bytes × Option ReadErr)} {part : Bytes}

namespace LegacyAOFReader

theorem uint32_encodeLE {n : Nat} (hn : n < 2 ^ 32) (rest : Bytes) :
    uint32 (encodeLE 4 n ++ rest) = n := by
  rw [uint32, take_left' (length_encodeLE 4 n), decodeLE_encodeLE]
  exact Nat.mod_eq_of_lt hn

variable {rd : LegacyAOFReader} {payload : Bytes}

/-- A whole record in front is taken. -/
theorem takeRecord_frame (hn : payload.length < 2 ^ 32) {rest : Bytes}
    (h : rd.unread = frame payload ++ rest) :
    ∃ rd', rd.takeRecord = some (.ok payload, rd') ∧ rd'.unread = rest ∧
      rd'.r = rd.r ∧ rd'.rerr = rd.rerr := by
  have hl : rd.l = payload.length + 9 + rest.length := by
    rw [← rd.length_unread, h, length_append, length_frame]
  obtain ⟨more, hbuf⟩ : ∃ more, rd.buf.drop rd.p = encodeLE 4 payload.length ++ (payload ++
      (encodeLE 4 payload.length ++ (0 :: (rest ++ more)))) := by
    rw [rd.drop_buf, h, frame]
    simp only [append_assoc, cons_append, nil_append]
    exact ⟨_, rfl⟩
  have hpay : rd.buf.drop (rd.p + 4) = payload ++ (encodeLE 4 payload.length ++
      (0 :: (rest ++ more))) := by
    rw [← drop_drop, hbuf]
    exact drop_left' (length_encodeLE 4 _)
  have hend : rd.buf.drop (rd.p + 4 + payload.length) =
      encodeLE 4 payload.length ++ (0 :: (rest ++ more)) := by
    rw [← drop_drop, hpay, drop_left]
  have hlast : rd.buf.drop (rd.p + 4 + payload.length + 4) = 0 :: (rest ++ more) := by
    rw [← drop_drop, hend]
    exact drop_left' (length_encodeLE 4 _)
  have hzero : rd.buf[rd.p + 4 + payload.length + 4]? = some 0 := by
    rw [← head?_drop, hlast, head?_cons]
  have h4 : 4 ≤ rd.l := by omega
  have h9 : payload.length + 9 ≤ rd.l := by omega
  have hrest : (rd.buf.drop (rd.p + (payload.length + 9))).take (rd.l - (payload.length + 9)) =
      rest := by
    have hp : rd.p + (payload.length + 9) = rd.p + 4 + payload.length + 4 + 1 := by omega
    have hrl : rd.l - (payload.length + 9) = rest.length := by omega
    rw [hp, ← drop_drop, hlast, hrl, drop_succ_cons, drop_zero, take_left]
  simp only [takeRecord, if_pos h4, hbuf, hend, uint32_encodeLE hn, dif_pos h9, hzero, hpay,
    take_left, ne_eq, not_true_eq_false, or_self, if_false]
  exact ⟨_, rfl, hrest, rfl, rfl⟩

/-- Less than the record is not. -/
theorem takeRecord_part (hn : payload.length < 2 ^ 32) {missing : Bytes} (hne : missing ≠ [])
    (h : rd.unread ++ missing = frame payload) : rd.takeRecord = none := by
  have hlen := congrArg List.length h
  rw [length_append, length_unread, length_frame] at hlen
  have hpos := length_pos_iff.mpr hne
  unfold takeRecord
  by_cases h4 : 4 ≤ rd.l
  · have hsz1 : uint32 (rd.buf.drop rd.p) = payload.length := by
      have hfront : (rd.buf.drop rd.p).take 4 = (frame payload).take 4 := by
        have hlen4 : 4 ≤ rd.unread.length := by rwa [length_unread]
        rw [rd.drop_buf, ← h, take_append_of_le_length hlen4, take_append_of_le_length hlen4]
      rw [uint32, hfront]
      exact uint32_encodeLE hn _
    have h9 : ¬ payload.length + 9 ≤ rd.l := by omega
    simp only [if_pos h4, hsz1, dif_neg h9]
  · rw [if_neg h4]

/-! ## What a reader will deliver -/

/-- The reads that make up `data`; EOF comes alone or with the last bytes. -/
inductive Splits : List (Bytes × Option ReadErr) → Bytes → Prop where
  | done : Splits [] []
  | last (chunk : Bytes) : Splits [(chunk, some .eof)] chunk
  | more (chunk : Bytes) {r : List (Bytes × Option ReadErr)} {data : Bytes} :
      Splits r data → Splits ((chunk, none) :: r) (chunk ++ data)

/-- What is to come after an earlier read's error. -/
inductive Coming : Option ReadErr → List (Bytes × Option ReadErr) → Bytes → Prop where
  | reading {r : List (Bytes × Option ReadErr)} {data : Bytes} : Splits r data → Coming none r data
  | ended : Coming (some .eof) [] []

theorem Coming.rerr {e : Option ReadErr} {later : Bytes}
    (h : Coming e r later) (hne : later ≠ []) : e = none := by
  cases h with
  | reading _ => rfl
  | ended => exact absurd rfl hne

/-- The bytes the reader holds and those it will read, together. -/
def Offers (rd : LegacyAOFReader) (data : Bytes) : Prop :=
  ∃ later, rd.unread ++ later = data ∧ Coming rd.rerr rd.r later

/-- A read takes its chunk from what is to come. -/
theorem Splits.read {data : Bytes} (h : Splits r data) :
    ∃ later, (read r).1 ++ later = data ∧ Coming (read r).2.1 (read r).2.2 later := by
  cases h with
  | done => exact ⟨[], rfl, .ended⟩
  | last chunk => exact ⟨[], append_nil _, .ended⟩
  | more chunk hs => exact ⟨_, rfl, .reading hs⟩

/-- Reading on changes nothing in what is offered. -/
theorem Offers.readMore {data : Bytes} (h : rd.Offers data) (hr : rd.rerr = none) :
    rd.readMore.Offers data := by
  obtain ⟨later, rfl, hc⟩ := h
  rw [hr] at hc
  cases hc with
  | reading hs =>
    obtain ⟨rest, rfl, hrest⟩ := hs.read
    refine ⟨rest, ?_, ?_⟩
    · rw [unread_readMore, append_assoc]
    · rwa [rerr_readMore, r_readMore]

/-- A record in front is taken, unless the reader has to read on for it. -/
theorem Offers.takeRecord {rest : Bytes} (hn : payload.length < 2 ^ 32)
    (h : rd.Offers (frame payload ++ rest)) :
    (rd.takeRecord = none ∧ rd.rerr = none) ∨
      ∃ rd', rd.takeRecord = some (.ok payload, rd') ∧ rd'.Offers rest := by
  obtain ⟨later, hdata, hc⟩ := h
  have hwhole : ∀ more, rd.unread = frame payload ++ more → rest = more ++ later →
      ∃ rd', rd.takeRecord = some (.ok payload, rd') ∧ rd'.Offers rest := by
    intro more hu hrest
    obtain ⟨rd', htake, hu', hr', he'⟩ := takeRecord_frame hn hu
    refine ⟨rd', htake, later, ?_, ?_⟩
    · rw [hu', hrest]
    · rwa [he', hr']
  obtain ⟨missing, hframe, hlater⟩ | ⟨more, hu, hrest⟩ := append_eq_append_iff.mp hdata
  · by_cases hm : missing = []
    · subst hm
      rw [append_nil] at hframe
      exact .inr (hwhole [] (by rw [hframe, append_nil]) hlater.symm)
    · refine .inl ⟨takeRecord_part hn hm hframe.symm, ?_⟩
      exact hc.rerr (by simp [hlater, hm])
  · exact .inr (hwhole more hu hrest)

/-! ## Calls -/

theorem readCommand_of_some {result : Except ReadErr Bytes × LegacyAOFReader}
    (h : rd.takeRecord = some result) : rd.readCommand = result := by
  rw [readCommand, h]

theorem readCommand_of_none (h : rd.takeRecord = none) (hr : rd.rerr = none) :
    rd.readCommand = rd.readMore.readCommand := by
  rw [readCommand, h]
  dsimp only
  split
  case h_3 => rfl
  all_goals
    next he =>
      rw [hr] at he
      cases he

theorem readCommand_of_eof (h : rd.takeRecord = none) (hr : rd.rerr = some .eof) :
    rd.readCommand =
      (.error (if rd.l ≠ 0 then .unexpectedEOF else .eof), { rd with rerr := none }) := by
  rw [readCommand, h]
  dsimp only
  split
  case h_1 => rfl
  case h_2 _ hne he =>
    rw [hr] at he
    cases he
    exact absurd rfl hne
  case h_3 he =>
    rw [hr] at he
    cases he

/-- A call gives the record in front of what is offered. -/
theorem readCommand_record (rd : LegacyAOFReader) {payload rest : Bytes}
    (hn : payload.length < 2 ^ 32) (h : rd.Offers (frame payload ++ rest)) :
    ∃ rd', rd.readCommand = (.ok payload, rd') ∧ rd'.Offers rest := by
  -- on the reads to come: each call of itself has made one of them
  induction hk : rd.readsLeft using Nat.strong_induction_on generalizing rd with
  | _ k ih =>
    obtain ⟨hnone, hr⟩ | ⟨rd', htake, hrest⟩ := h.takeRecord hn
    · rw [readCommand_of_none hnone hr]
      have hless := readsLeft_readMore hr
      exact ih _ (by omega) _ (h.readMore hr) rfl
    · exact ⟨rd', readCommand_of_some htake, hrest⟩

/-- Too little for a record. -/
def Torn (part : Bytes) : Prop :=
  part = [] ∨ ∃ payload missing, payload.length < 2 ^ 32 ∧ missing ≠ [] ∧
    part ++ missing = frame payload

theorem Torn.takeRecord {later : Bytes} (h : Torn (rd.unread ++ later)) : rd.takeRecord = none := by
  obtain hnil | ⟨payload, missing, hn, hne, hframe⟩ := h
  · have hl : ¬ 4 ≤ rd.l := by
      rw [← rd.length_unread, (append_eq_nil_iff.mp hnil).1]
      decide
    rw [LegacyAOFReader.takeRecord, if_neg hl]
  · rw [append_assoc] at hframe
    exact takeRecord_part hn (by simp [hne]) hframe

/-- With less than a record left it is the end, now and in later calls. -/
theorem readCommand_end (rd : LegacyAOFReader) (hpart : Torn part) (h : rd.Offers part) :
    ∃ rd', rd.readCommand = (.error (if part = [] then .eof else .unexpectedEOF), rd') ∧
      rd'.Offers part := by
  induction hk : rd.readsLeft using Nat.strong_induction_on generalizing rd with
  | _ k ih =>
    obtain ⟨later, hdata, hc⟩ := id h
    have hnone : rd.takeRecord = none := Torn.takeRecord (hdata ▸ hpart)
    generalize he : rd.rerr = e at hc
    generalize hsrc : rd.r = r at hc
    cases hc with
    | reading hs =>
      rw [readCommand_of_none hnone he]
      have hless := readsLeft_readMore he
      exact ih _ (by omega) _ (h.readMore he) rfl
    | ended =>
      rw [append_nil] at hdata
      have hl : rd.l ≠ 0 ↔ part ≠ [] := by
        rw [← hdata, ← rd.length_unread, ne_eq, length_eq_zero_iff]
      refine ⟨{ rd with rerr := none }, ?_, [], ?_, ?_⟩
      · rw [readCommand_of_eof hnone he]
        simp only [hl, ne_eq, ite_not]
      · exact (append_nil _).trans hdata
      · rw [hsrc]
        exact .reading .done

theorem readCommands_succ (n : Nat) {result : Except ReadErr Bytes} {rd' : LegacyAOFReader}
    (h : rd.readCommand = (result, rd')) :
    readCommands (n + 1) rd = result :: readCommands n rd' := by
  rw [readCommands, h]

theorem readCommands_end (n : Nat) (rd : LegacyAOFReader) (hpart : Torn part) (h : rd.Offers part) :
    readCommands n rd = List.replicate n (.error (if part = [] then .eof else .unexpectedEOF)) := by
  induction n generalizing rd with
  | zero => rfl
  | succ n ih =>
    obtain ⟨rd', hcall, hrest⟩ := readCommand_end rd hpart h
    rw [readCommands_succ n hcall, ih rd' hrest, replicate_succ]

theorem readCommands_records (n : Nat) (rd : LegacyAOFReader) {payloads : List Bytes}
    (hn : ∀ payload ∈ payloads, payload.length < 2 ^ 32) (hpart : Torn part)
    (h : rd.Offers (payloads.flatMap frame ++ part)) :
    readCommands (payloads.length + n) rd = payloads.map .ok ++
      List.replicate n (.error (if part = [] then .eof else .unexpectedEOF)) := by
  induction payloads generalizing rd with
  | nil =>
    rw [length_nil, Nat.zero_add]
    exact readCommands_end n rd hpart h
  | cons payload payloads ih =>
    obtain ⟨hp, hps⟩ := forall_mem_cons.mp hn
    rw [flatMap_cons, append_assoc] at h
    obtain ⟨rd', hcall, hrest⟩ := readCommand_record rd hp h
    rw [length_cons, Nat.add_right_comm, readCommands_succ _ hcall, ih rd' hps hrest]
    rfl

end LegacyAOFReader

open LegacyAOFReader

/-- `NewLegacyAOFReader`. -/
def newLegacyAOFReader (r : List (Bytes × Option ReadErr)) : LegacyAOFReader := { r }

/-- However the reads cut a file of framed payloads, which may stop inside of a
record: the calls return the payloads in order and then, as often as they are
made, the end. -/
theorem readCommands_framed (payloads : List Bytes) (part : Bytes)
    (r : List (Bytes × Option ReadErr)) (n : Nat)
    (hn : ∀ payload ∈ payloads, payload.length < 2 ^ 32) (hpart : Torn part)
    (hr : Splits r (payloads.flatMap frame ++ part)) :
    readCommands (payloads.length + n) (newLegacyAOFReader r) = payloads.map .ok ++
      List.replicate n (.error (if part = [] then .eof else .unexpectedEOF)) := by
  apply readCommands_records n _ hn hpart
  exact ⟨_, nil_append _, .reading hr⟩

theorem readCommands_framed_cut :
    readCommands 4 (newLegacyAOFReader [([2, 0, 0], none), ([0, 97], none), ([], none),
      ([98, 2, 0, 0, 0, 0, 0, 0, 0, 0, 0, 0, 0, 0, 0, 1, 0], some .eof)]) =
      [.ok [97, 98], .ok [], .error .unexpectedEOF, .error .unexpectedEOF] :=
  readCommands_framed [[97, 98], []] [1, 0] _ 2 (by decide)
    (.inr ⟨[97], [0, 0, 97, 1, 0, 0, 0, 0], by decide, by decide, by decide⟩)
    (.more [2, 0, 0] (.more [0, 97] (.more [] (.last _))))

end SpatialDb.Server
