import SpatialDb.Lib.Bytes

/-!
# Commands as RESP arrays

The encoding of a list of byte strings as a RESP array of bulk strings, and
readers of a growing buffer: a reader finds a complete command in front, or
asks for more bytes, or rejects the buffer.

`Reads p w a` is the rule such readers are verified with.  It composes along
`Scanner.bind`.
-/

namespace SpatialDb.Lib

open List

variable (n : Nat) (args : List Bytes)

/-! ## Encoding -/

/-- The decimal digits of `n < fuel`. -/
def decimalFuel : Nat → Nat → Bytes
  | 0, _ => []
  | fuel + 1, n =>
    if n < 10 then [UInt8.ofNat (48 + n)]
    else decimalFuel fuel (n / 10) ++ [UInt8.ofNat (48 + n % 10)]

def decimal (n : Nat) : Bytes := decimalFuel (n + 1) n

def crlf : Bytes := [13, 10]

/-- `$<length>\r\n<bytes>\r\n`. -/
def encodeBulk (arg : Bytes) : Bytes := 36 :: decimal arg.length ++ crlf ++ (arg ++ crlf)

/-- `*<count>\r\n` and the bulk strings. -/
def encodeCommand (args : List Bytes) : Bytes :=
  42 :: decimal args.length ++ crlf ++ args.flatMap encodeBulk

theorem encodeCommand_eq_cons : ∃ rest, encodeCommand args = 42 :: rest := ⟨_, rfl⟩

/-! ## Readers -/

/-- What a reader finds in front of a buffer. -/
inductive Scan (α : Type) where
  | done (a : α) (rest : Bytes)
  | more
  | bad
  deriving DecidableEq

abbrev Scanner (α : Type) := Bytes → Scan α

def Scanner.bind {α β : Type} (p : Scanner α) (f : α → Scanner β) : Scanner β := fun buf =>
  match p buf with
  | .done a rest => f a rest
  | .more => .more
  | .bad => .bad

/-- `p` reads the bytes `w` as `a`: with anything behind them it returns what
is behind, and on a part of them it asks for more. -/
structure Reads {α : Type} (p : Scanner α) (w : Bytes) (a : α) : Prop where
  full : ∀ rest, p (w ++ rest) = .done a rest
  part : ∀ q, q <+: w → q ≠ w → p q = .more

theorem Reads.bind {α β : Type} {p : Scanner α} {f : α → Scanner β} {v w : Bytes} {a : α} {b : β}
    (hp : Reads p v a) (hf : Reads (f a) w b) : Reads (p.bind f) (v ++ w) b where
  full := by
    intro rest
    rw [Scanner.bind, append_assoc, hp.full]
    exact hf.full rest
  part := by
    intro q hq hne
    rcases le_total v.length q.length with hlen | hlen
    · obtain ⟨u, rfl⟩ := prefix_of_prefix_length_le (prefix_append v w) hq hlen
      rw [Scanner.bind, hp.full]
      refine hf.part u ((prefix_append_right_inj v).mp hq) fun h => hne ?_
      rw [h]
    have hqv := prefix_of_prefix_length_le hq (prefix_append v w) hlen
    by_cases hv : q = v
    · -- all of the first part and nothing of the second
      have hw : w ≠ [] := by
        rintro rfl
        exact hne (by rw [hv, append_nil])
      have hfull := hp.full []
      rw [append_nil] at hfull
      rw [Scanner.bind, hv, hfull]
      exact hf.part [] ⟨w, rfl⟩ (Ne.symm hw)
    · rw [Scanner.bind, hp.part q hqv hv]

variable {α : Type}

/-- Return a value without reading. -/
def Scanner.pure (a : α) : Scanner α := fun buf => .done a buf

theorem Reads.pure (a : α) : Reads (Scanner.pure a) [] a where
  full := fun _ => rfl
  part := fun _ hq hne => absurd (prefix_nil.mp hq) hne

variable (b : UInt8)

/-- Read one given byte. -/
def expect : Scanner Unit
  | [] => .more
  | c :: rest => if c = b then .done () rest else .bad

theorem reads_expect : Reads (expect b) [b] () where
  full := fun rest => by simp [expect]
  part := by
    intro q hq hne
    cases q with
    | nil => rfl
    | cons c q =>
      obtain ⟨hc, hnil⟩ := cons_prefix_cons.mp hq
      exact absurd (by rw [hc, prefix_nil.mp hnil]) hne

/-- Read `n` bytes. -/
def takeBytes (n : Nat) : Scanner Bytes := fun buf =>
  if buf.length < n then .more else .done (buf.take n) (buf.drop n)

theorem reads_takeBytes (w : Bytes) : Reads (takeBytes w.length) w w where
  full := fun rest => by simp [takeBytes]
  part := by
    intro q hq hne
    have hlt : q.length < w.length := by
      refine lt_of_le_of_ne hq.length_le fun h => hne (hq.eq_of_length h)
    rw [takeBytes, if_pos hlt]

/-! ### Numbers -/

def isDigitByte : Bool := 48 ≤ b && b ≤ 57

/-- The number a list of digits spells. -/
def digitsValue (ds : Bytes) : Nat := ds.foldl (fun acc b => 10 * acc + (b.toNat - 48)) 0

/-- Read digits up to a carriage return. -/
def numberCR : Scanner Nat := fun buf =>
  match buf.dropWhile isDigitByte with
  | [] => .more
  | c :: rest => if c = 13 then .done (digitsValue (buf.takeWhile isDigitByte)) rest else .bad

private theorem toNat_digit {d : Nat} (h : d < 10) : (UInt8.ofNat (48 + d)).toNat = 48 + d := by
  rw [UInt8.toNat_ofNat']
  omega

private theorem isDigitByte_digit {d : Nat} (h : d < 10) :
    isDigitByte (UInt8.ofNat (48 + d)) = true := by
  have hval := toNat_digit h
  have h48 : (48 : UInt8).toNat = 48 := rfl
  have h57 : (57 : UInt8).toNat = 57 := rfl
  simp only [isDigitByte, Bool.and_eq_true, decide_eq_true_eq, UInt8.le_iff_toNat_le, hval, h48,
    h57]
  omega

theorem isDigitByte_of_mem_decimalFuel (fuel n : Nat) :
    ∀ b ∈ decimalFuel fuel n, isDigitByte b = true := by
  induction fuel generalizing n with
  | zero =>
    intro b hb
    cases hb
  | succ fuel ih =>
    intro b hb
    rw [decimalFuel] at hb
    split_ifs at hb with hlt
    · rw [mem_singleton] at hb
      rw [hb]
      exact isDigitByte_digit hlt
    rcases mem_append.mp hb with hb | hb
    · exact ih _ b hb
    rw [mem_singleton] at hb
    rw [hb]
    exact isDigitByte_digit (Nat.mod_lt _ (by omega))

theorem digitsValue_decimalFuel {fuel n : Nat} (h : n < fuel) :
    digitsValue (decimalFuel fuel n) = n := by
  induction fuel generalizing n with
  | zero => omega
  | succ fuel ih =>
    rw [decimalFuel]
    split_ifs with hlt
    · show 10 * 0 + ((UInt8.ofNat (48 + n)).toNat - 48) = n
      rw [toNat_digit hlt]
      omega
    have hdiv : digitsValue (decimalFuel fuel (n / 10)) = n / 10 := ih (by omega)
    rw [digitsValue, foldl_append]
    show 10 * digitsValue (decimalFuel fuel (n / 10)) + ((UInt8.ofNat (48 + n % 10)).toNat - 48) = n
    rw [hdiv, toNat_digit (Nat.mod_lt n (by omega))]
    omega

theorem reads_digitsCR {ds : Bytes} (hds : ∀ b ∈ ds, isDigitByte b = true) :
    Reads numberCR (ds ++ [13]) (digitsValue ds) where
  full := by
    intro rest
    have hcr : isDigitByte 13 = false := rfl
    rw [numberCR, append_assoc, dropWhile_append_of_pos hds, takeWhile_append_of_pos hds]
    simp only [cons_append, nil_append, dropWhile_cons, takeWhile_cons, hcr,
      if_true, Bool.false_eq_true, if_false, append_nil]
  part := by
    intro q hq hne
    -- without the carriage return the buffer has nothing but digits
    have hsub : q <+: ds := by
      rcases prefix_concat_iff.mp hq with h | h
      · exact absurd h hne
      · exact h
    have hall : q.dropWhile isDigitByte = [] :=
      dropWhile_eq_nil_iff.mpr fun b hb => hds b (hsub.subset hb)
    rw [numberCR, hall]

theorem reads_numberCR : Reads numberCR (decimal n ++ [13]) n := by
  have h := reads_digitsCR (isDigitByte_of_mem_decimalFuel (n + 1) n)
  rwa [digitsValue_decimalFuel (Nat.lt_succ_self n)] at h

variable (tag : UInt8)

/-- A tag byte, a number and the end of the line. -/
def header : Scanner Nat :=
  (expect tag).bind fun _ => numberCR.bind fun n => (expect 10).bind fun _ => Scanner.pure n

theorem reads_header (n : Nat) : Reads (header tag) (tag :: decimal n ++ crlf) n := by
  have h := (reads_expect tag).bind (f := fun _ => numberCR.bind fun n =>
    (expect 10).bind fun _ => Scanner.pure n) ((reads_numberCR n).bind
      (f := fun n => (expect 10).bind fun _ => Scanner.pure n)
      ((reads_expect 10).bind (f := fun _ => Scanner.pure n) (Reads.pure n)))
  simpa [header, crlf] using h

/-! ### Commands -/

def bulk : Scanner Bytes :=
  (header 36).bind fun n => (takeBytes n).bind fun arg =>
    (expect 13).bind fun _ => (expect 10).bind fun _ => Scanner.pure arg

theorem reads_bulk (arg : Bytes) : Reads bulk (encodeBulk arg) arg := by
  have hend : Reads ((expect 13).bind fun _ => (expect 10).bind fun _ => Scanner.pure arg)
      crlf arg :=
    (reads_expect 13).bind (f := fun _ => (expect 10).bind fun _ => Scanner.pure arg)
      ((reads_expect 10).bind (f := fun _ => Scanner.pure arg) (Reads.pure arg))
  exact (reads_header 36 arg.length).bind ((reads_takeBytes arg).bind hend)

def bulks : Nat → Scanner (List Bytes)
  | 0 => Scanner.pure []
  | n + 1 => bulk.bind fun arg => (bulks n).bind fun args => Scanner.pure (arg :: args)

theorem reads_bulks : Reads (bulks args.length) (args.flatMap encodeBulk) args := by
  induction args with
  | nil => exact Reads.pure []
  | cons arg args ih =>
    have htail := ih.bind (f := fun args => Scanner.pure (arg :: args)) (Reads.pure _)
    rw [append_nil] at htail
    exact (reads_bulk arg).bind (f := fun arg => (bulks args.length).bind fun args =>
      Scanner.pure (arg :: args)) htail

def command : Scanner (List Bytes) := (header 42).bind bulks

/-- The reader reads every encoded command. -/
theorem reads_command : Reads command (encodeCommand args) args :=
  (reads_header 42 args.length).bind (reads_bulks args)

/-- No encoded command begins another. -/
theorem encodeCommand_append_inj {a b : List Bytes} {s t : Bytes}
    (h : encodeCommand a ++ s = encodeCommand b ++ t) : a = b ∧ s = t := by
  have hread := (reads_command a).full s
  rw [h, (reads_command b).full t] at hread
  injection hread with hargs hrest
  exact ⟨hargs.symm, hrest.symm⟩

/-- An encoded log that begins another is the encoding of its beginning. -/
theorem prefix_of_flatMap_encodeCommand {log log' : List (List Bytes)}
    (h : log.flatMap encodeCommand <+: log'.flatMap encodeCommand) : log <+: log' := by
  induction log generalizing log' with
  | nil => exact ⟨log', rfl⟩
  | cons args log ih =>
    obtain ⟨tail, htail⟩ := h
    rw [flatMap_cons, append_assoc] at htail
    cases log' with
    | nil =>
      obtain ⟨rest, hrest⟩ := encodeCommand_eq_cons args
      rw [hrest] at htail
      cases htail
    | cons args' log' =>
      rw [flatMap_cons] at htail
      obtain ⟨rfl, hlog⟩ := encodeCommand_append_inj htail
      exact cons_prefix_cons.mpr ⟨rfl, ih ⟨tail, hlog⟩⟩

/-- A reader of commands that understands what `encodeCommand` writes. -/
structure CommandReader where
  read : Scanner (List Bytes)
  reads : ∀ args, args ≠ [] → Reads read (encodeCommand args) args

theorem CommandReader.read_nil (rd : CommandReader) : rd.read [] = .more := by
  obtain ⟨rest, hrest⟩ := encodeCommand_eq_cons [[]]
  exact (rd.reads [[]] (by simp)).part [] nil_prefix (by rw [hrest]; simp)

def respReader : CommandReader := ⟨command, fun args _ => reads_command args⟩

/-! ## Readers that do not depend on what follows -/

/-- Whatever `p` completes it reads: identically with other bytes behind, and
not before all of it is there. -/
def ReadsWhatItCompletes (p : Scanner α) : Prop :=
  ∀ data a rest, p data = .done a rest → ∃ used, data = used ++ rest ∧ Reads p used a

theorem ReadsWhatItCompletes.bind {α β : Type} {p : Scanner α} {f : α → Scanner β}
    (hp : ReadsWhatItCompletes p) (hf : ∀ a, ReadsWhatItCompletes (f a)) :
    ReadsWhatItCompletes (p.bind f) := by
  intro data b rest hread
  rw [Scanner.bind] at hread
  cases hscan : p data with
  | more => rw [hscan] at hread; cases hread
  | bad => rw [hscan] at hread; cases hread
  | done a mid =>
    rw [hscan] at hread
    obtain ⟨v, rfl, hv⟩ := hp data a mid hscan
    obtain ⟨w, rfl, hw⟩ := hf a mid b rest hread
    exact ⟨v ++ w, (append_assoc v w rest).symm, hv.bind hw⟩

theorem readsWhatItCompletes_pure (a : α) : ReadsWhatItCompletes (Scanner.pure a) := by
  intro data b rest hread
  injection hread with hab hrest
  subst hab hrest
  exact ⟨[], rfl, Reads.pure a⟩

theorem readsWhatItCompletes_expect : ReadsWhatItCompletes (expect b) := by
  intro data _ rest hread
  cases data with
  | nil => cases hread
  | cons c data =>
    rw [expect] at hread
    split at hread
    · rename_i hc
      injection hread with _ hrest
      subst hc hrest
      exact ⟨[c], rfl, reads_expect c⟩
    · cases hread

theorem readsWhatItCompletes_takeBytes : ReadsWhatItCompletes (takeBytes n) := by
  intro data w rest hread
  rw [takeBytes] at hread
  split at hread
  · cases hread
  rename_i hlen
  injection hread with hw hrest
  subst hw hrest
  refine ⟨data.take n, (take_append_drop n data).symm, ?_⟩
  have h := reads_takeBytes (data.take n)
  rwa [length_take_of_le (by omega)] at h

theorem readsWhatItCompletes_numberCR : ReadsWhatItCompletes numberCR := by
  intro data n rest hread
  rw [numberCR] at hread
  split at hread
  · cases hread
  rename_i c tail htail
  split at hread
  · rename_i hc
    injection hread with hn hrest
    subst hn hc hrest
    refine ⟨data.takeWhile isDigitByte ++ [13], ?_, ?_⟩
    · rw [append_assoc, singleton_append, ← htail, takeWhile_append_dropWhile]
    · exact reads_digitsCR fun b hb => mem_takeWhile_imp hb
  · cases hread

theorem readsWhatItCompletes_header : ReadsWhatItCompletes (header tag) :=
  (readsWhatItCompletes_expect tag).bind fun _ => readsWhatItCompletes_numberCR.bind fun n =>
    (readsWhatItCompletes_expect 10).bind fun _ => readsWhatItCompletes_pure n

theorem readsWhatItCompletes_bulk : ReadsWhatItCompletes bulk :=
  (readsWhatItCompletes_header 36).bind fun n => (readsWhatItCompletes_takeBytes n).bind fun arg =>
    (readsWhatItCompletes_expect 13).bind fun _ => (readsWhatItCompletes_expect 10).bind fun _ =>
      readsWhatItCompletes_pure arg

theorem readsWhatItCompletes_bulks : ReadsWhatItCompletes (bulks n) := by
  induction n with
  | zero => exact readsWhatItCompletes_pure []
  | succ n ih =>
    exact readsWhatItCompletes_bulk.bind fun arg => ih.bind fun args =>
      readsWhatItCompletes_pure (arg :: args)

/-- A reader of a growing buffer on which nothing depends on how far the buffer
has grown. -/
structure PrefixConsistent {α : Type} (p : Scanner α) : Prop where
  nil : p [] = .more
  done : ReadsWhatItCompletes p

theorem prefixConsistent_command : PrefixConsistent command where
  nil := rfl
  done := (readsWhatItCompletes_header 42).bind readsWhatItCompletes_bulks

variable {α : Type} {p : Scanner α} {data rest : Bytes} {a : α}

theorem PrefixConsistent.append (hp : PrefixConsistent p) (h : p data = .done a rest)
    (more : Bytes) : p (data ++ more) = .done a (rest ++ more) := by
  obtain ⟨used, rfl, hused⟩ := hp.done data a rest h
  rw [append_assoc]
  exact hused.full _

/-- A completed command takes bytes. -/
theorem PrefixConsistent.length_lt (hp : PrefixConsistent p) (h : p data = .done a rest) :
    rest.length < data.length := by
  obtain ⟨used, rfl, hused⟩ := hp.done data a rest h
  have hne : used ≠ [] := by
    rintro rfl
    have hnil := hused.full []
    rw [append_nil, hp.nil] at hnil
    cases hnil
  have hpos := length_pos_iff.mpr hne
  rw [length_append]
  omega

/-- What is rejected does not become a command later. -/
theorem PrefixConsistent.bad_append (hp : PrefixConsistent p) (h : p data = .bad) (more : Bytes) :
    p (data ++ more) ≠ .done a rest := by
  intro hdone
  obtain ⟨used, hsplit, hused⟩ := hp.done _ a rest hdone
  obtain ⟨missing, hmissing, -⟩ | ⟨left, hleft, -⟩ := append_eq_append_iff.mp hsplit
  · -- the command would have begun with the rejected bytes
    by_cases heq : data = used
    · have hfull := hused.full []
      rw [append_nil, ← heq, h] at hfull
      cases hfull
    · rw [hused.part data ⟨missing, hmissing.symm⟩ heq] at h
      cases h
  · rw [hleft, hused.full] at h
    cases h

end SpatialDb.Lib
