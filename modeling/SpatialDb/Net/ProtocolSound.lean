import SpatialDb.Net.Protocol

/-!
# What the RESP decoder lets through

The decoder of `cpp/net/protocol.cpp` against a grammar of well-formed
frames.  It reads its numbers with `std::stoll`, which skips white space and
ignores what follows the digits; it takes any negative length for a null
string; and it skips the two bytes behind a payload without looking at them.
But a buffer that begins with a well-formed frame is read as that frame.
-/

namespace SpatialDb.Net.Resp

open Lib Lib.BufferReader List

/-! ## Well-formed frames -/

/-- `Frame w v`: the bytes `w` are a well-formed frame for `v`. -/
inductive Frame : Bytes → RespValue → Prop
  | simpleString {s : Bytes} (hs : NoCrlf s) : Frame (43 :: s ++ crlf) (.simpleString s)
  | error {s : Bytes} (hs : NoCrlf s) : Frame (45 :: s ++ crlf) (.error s)
  | integer {l : Bytes} {n : Int64} (hl : isNumeral l = true) (hn : numeralValue l = n.toInt) :
      Frame (58 :: l ++ crlf) (.integer n)
  | nullBulk {l : Bytes} (hl : isNumeral l = true) (hn : numeralValue l = -1) :
      Frame (36 :: l ++ crlf) .nullBulk
  | bulkString {l s : Bytes} (hl : isNumeral l = true) (hn : numeralValue l = s.length) :
      Frame (36 :: l ++ crlf ++ (s ++ crlf)) (.bulkString s)
  | array {l : Bytes} {ws : List Bytes} {vs : List RespValue} (hl : isNumeral l = true)
      (hn : numeralValue l = vs.length) (hlen : ws.length = vs.length)
      (hvs : ∀ w v, (w, v) ∈ ws.zip vs → Frame w v) :
      Frame (42 :: l ++ crlf ++ ws.flatten) (.array vs)

variable {fuel : Nat} {mid l buf rest : Bytes} {vs : List RespValue} {v : RespValue}

/-! ## Frames are read to their end -/

theorem noCrlf_of_isNumeral (h : isNumeral l = true) : NoCrlf l :=
  noCrlf_of_forall_ne (forall_mem_ne_of_isNumeral h)

/-- The first line of a buffer is determined. -/
theorem crlf_inj {l' mid' : Bytes} (hl : NoCrlf l) (hl' : NoCrlf l')
    (h : l ++ crlf ++ mid = l' ++ crlf ++ mid') : l = l' ∧ mid = mid' := by
  have hsplit := splitCrlf_append hl mid
  rw [h, splitCrlf_append hl'] at hsplit
  injection hsplit with hpair
  injection hpair with hline hmid
  exact ⟨hline.symm, hmid.symm⟩

theorem stoll_isNumeral_eq {n : Int} (hl : isNumeral l = true) (h : stoll l = some n) :
    numeralValue l = n := by
  rw [stoll_of_isNumeral hl] at h
  split at h
  · exact Option.some.inj h
  · cases h

/-- Frames that are read one by one to their values and their ends are read so
in a row. -/
theorem times_eq {p : BufferReader RespValue} {ws : List Bytes} {vs' : List RespValue}
    (h : List.Forall₂ (fun w v => ∀ t v' r, p (w ++ t) = some (v', r) → v' = v ∧ r = t) ws vs)
    {t r : Bytes} (htimes : times p vs.length (ws.flatten ++ t) = some (vs', r)) :
    vs' = vs ∧ r = t := by
  induction h generalizing vs' with
  | nil =>
    cases htimes
    exact ⟨rfl, rfl⟩
  | @cons w v ws vs hw _ ih =>
    obtain ⟨v', mid, hread, htimes⟩ := bind_eq_some_iff.mp htimes
    obtain ⟨vs', mid', htail, htimes⟩ := bind_eq_some_iff.mp htimes
    cases htimes
    rw [flatten_cons, append_assoc] at hread
    have hfirst := hw _ _ _ hread
    rw [hfirst.2] at htail
    have hothers := ih htail
    rw [hfirst.1, hothers.1]
    exact ⟨rfl, hothers.2⟩

/-- What the decoder does with a tag and a given first line. -/
theorem branch_of_line {tag : UInt8} {body r : Bytes} (hl : NoCrlf l)
    (h : decodeOne fuel (tag :: l ++ crlf ++ body) = some (v, r)) :
    ∃ fuel', Branch (decodeOne fuel') l body tag v r := by
  cases fuel with
  | zero => cases h
  | succ fuel =>
    obtain ⟨tag', line, mid, heq, hline, -, hbranch⟩ := decodeOne_eq_some h
    rw [cons_append, cons_append, cons_append, cons_append, cons.injEq] at heq
    obtain ⟨rfl, rfl⟩ := crlf_inj hl hline heq.2
    rw [heq.1]
    exact ⟨fuel, hbranch⟩

/-- If the decoder accepts a buffer that begins with a frame, then it reads the
frame: its value, up to its end. -/
theorem Frame.read_eq {w : Bytes} {v' : RespValue} (h : Frame w v') {t r : Bytes}
    (hread : decodeOne fuel (w ++ t) = some (v, r)) : v = v' ∧ r = t := by
  -- the tag is generalised so that the branches of other tags can be told apart
  induction h generalizing fuel t v r with
  | simpleString hs =>
    obtain ⟨fuel', hbranch⟩ := branch_of_line hs hread
    generalize htag : (43 : UInt8) = tag at hbranch
    cases hbranch with
    | simpleString => exact ⟨rfl, rfl⟩
    | _ => exact absurd htag (by decide)
  | error hs =>
    obtain ⟨fuel', hbranch⟩ := branch_of_line hs hread
    generalize htag : (45 : UInt8) = tag at hbranch
    cases hbranch with
    | error => exact ⟨rfl, rfl⟩
    | _ => exact absurd htag (by decide)
  | integer hl hn =>
    obtain ⟨fuel', hbranch⟩ := branch_of_line (noCrlf_of_isNumeral hl) hread
    generalize htag : (58 : UInt8) = tag at hbranch
    cases hbranch with
    | integer hvalue =>
      rw [← stoll_isNumeral_eq hl hvalue, hn, Int64.ofInt_toInt]
      exact ⟨rfl, rfl⟩
    | _ => exact absurd htag (by decide)
  | nullBulk hl hn =>
    obtain ⟨fuel', hbranch⟩ := branch_of_line (noCrlf_of_isNumeral hl) hread
    generalize htag : (36 : UInt8) = tag at hbranch
    cases hbranch with
    | nullBulk => exact ⟨rfl, rfl⟩
    | bulkString hlen _ =>
      have := stoll_isNumeral_eq hl hlen
      omega
    | _ => exact absurd htag (by decide)
  | @bulkString l s hl hn =>
    rw [append_assoc] at hread
    obtain ⟨fuel', hbranch⟩ := branch_of_line (noCrlf_of_isNumeral hl) hread
    generalize htag : (36 : UInt8) = tag at hbranch
    cases hbranch with
    | nullBulk hlen hneg =>
      have := stoll_isNumeral_eq hl hlen
      omega
    | @bulkString len hlen hsize =>
      have hs : len = s.length := by
        have := stoll_isNumeral_eq hl hlen
        omega
      rw [hs, append_assoc, take_left, ← append_assoc, drop_left' (by simp [crlf])]
      exact ⟨rfl, rfl⟩
    | _ => exact absurd htag (by decide)
  | @array l ws vs hl hn hlen hvs ih =>
    rw [append_assoc] at hread
    obtain ⟨fuel', hbranch⟩ := branch_of_line (noCrlf_of_isNumeral hl) hread
    generalize htag : (42 : UInt8) = tag at hbranch
    cases hbranch with
    | @array count vs' _ hcount htimes =>
      have hcount : count = vs.length := by
        have := stoll_isNumeral_eq hl hcount
        omega
      rw [hcount] at htimes
      have hall : vs' = vs ∧ r = t := by
        refine times_eq (forall₂_iff_zip.mpr ⟨hlen, fun hmem t v' r => ?_⟩) htimes
        exact ih _ _ hmem
      rw [hall.1]
      exact ⟨rfl, hall.2⟩
    | _ => exact absurd htag (by decide)

/-! ## Buffers that begin with a frame -/

/-- The bytes that were consumed are a frame of the decoded value exactly if
some beginning of the buffer is a frame at all. -/
theorem decode_frame_iff {buf : Bytes} {v : RespValue} {pos : Nat}
    (h : decode buf = some (v, pos)) :
    Frame (buf.take pos) v ↔ ∃ w v', w <+: buf ∧ Frame w v' := by
  constructor
  · intro hframe
    exact ⟨buf.take pos, v, take_prefix pos buf, hframe⟩
  · intro hbegin
    obtain ⟨w, v', ⟨t, rfl⟩, hframe⟩ := hbegin
    obtain ⟨⟨u, r⟩, hread, heq⟩ := Option.map_eq_some_iff.mp h
    cases heq
    obtain ⟨rfl, rfl⟩ := hframe.read_eq hread
    have hpos : (w ++ r).length - r.length = w.length := by
      rw [length_append]
      omega
    rw [hpos, take_left]
    exact hframe

theorem decode_frame_iff_array :
    decode (lit "*2\r\n:-7\r\n$-1\r\n") = some (.array [.integer (-7), .nullBulk], 14) ∧
    Frame ((lit "*2\r\n:-7\r\n$-1\r\n").take 14) (.array [.integer (-7), .nullBulk]) := by
  have hwithin : Within (.array [.integer (-7), .nullBulk]) := by
    refine .array (by decide) ?_
    rintro v (_ | ⟨_, _ | ⟨_, hnil⟩⟩)
    · exact .integer _
    · exact .nullBulk
    · cases hnil
  have hdecode : decode (encode (.array [.integer (-7), .nullBulk]) ++ []) =
      some (.array [.integer (-7), .nullBulk], 14) :=
    decode_of_frames (frames_decodeOne hwithin (by simp))
  have hbytes : encode (.array [.integer (-7), .nullBulk]) ++ [] =
      lit "*2\r\n:-7\r\n$-1\r\n" := by decide +kernel
  rw [hbytes] at hdecode
  have hitems : ∀ w v, (w, v) ∈ [lit ":-7\r\n", lit "$-1\r\n"].zip
      [RespValue.integer (-7), .nullBulk] → Frame w v := by
    simp only [zip_cons_cons, zip_nil_right, mem_cons, Prod.mk.injEq, not_mem_nil, or_false]
    intro w v hitem
    obtain ⟨rfl, rfl⟩ | ⟨rfl, rfl⟩ := hitem
    · exact .integer (l := lit "-7") (by decide) (by decide)
    · exact .nullBulk (l := lit "-1") (by decide) (by decide)
  have hframe : Frame (lit "*2\r\n:-7\r\n$-1\r\n") (.array [.integer (-7), .nullBulk]) :=
    .array (l := lit "2") (by decide) (by decide) rfl hitems
  exact ⟨hdecode, (decode_frame_iff hdecode).mpr ⟨_, _, prefix_rfl, hframe⟩⟩

/-- A length of -5 gives a null string, and a payload may end with any two
bytes. -/
theorem decode_accepts_malformed :
    (decode (lit "$-5\r\n") = some (.nullBulk, 5) ∧ ¬ Frame (lit "$-5\r\n") .nullBulk) ∧
    decode (lit "$1\r\naXY") = some (.bulkString (lit "a"), 7) ∧
      ¬ Frame (lit "$1\r\naXY") (.bulkString (lit "a")) := by
  have hnegative : 36 :: signedDecimal (-5) ++ crlf ++ [] = lit "$-5\r\n" := by decide +kernel
  have hpayload : 36 :: decimal (lit "a").length ++ crlf ++ (lit "a" ++ lit "XY") ++ [] =
      lit "$1\r\naXY" := by decide +kernel
  refine ⟨⟨?_, fun h => ?_⟩, ?_, fun h => ?_⟩
  · rw [← hnegative]
    exact decode_of_frames (frames_nullBulk (by decide) (by decide))
  · generalize hw : lit "$-5\r\n" = w at h
    cases h with
    | @nullBulk l _ hn =>
      have hline : 36 :: lit "-5" = 36 :: l := append_cancel_right hw
      rw [← (cons.inj hline).2] at hn
      exact absurd hn (by decide)
  · have hshort : (lit "a").length ≤ maxBulkStringSize := by decide
    rw [← hpayload]
    exact decode_of_frames (frames_bulkString hshort rfl)
  · generalize hw : lit "$1\r\naXY" = w at h
    generalize hv : RespValue.bulkString (lit "a") = v at h
    cases h with
    | @bulkString l s _ _ =>
      have hlast : (lit "$1\r\naXY").getLast? = some 10 := by
        rw [hw, ← append_assoc, getLast?_append]
        rfl
      exact absurd hlast (by decide)
    | _ => cases hv

end SpatialDb.Net.Resp
