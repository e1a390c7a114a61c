import SpatialDb.Lib.Slices
import SpatialDb.Lib.Uvarint
import SpatialDb.Server.FieldGet

/-!
# Field lists as bytes

Model of `list_binary.go`.  A list is a pointer to a byte slice: the size of
what follows, then the entries in the order of their names, each with the number
of its shared name, a kind, and for some kinds the size of the data and the
data.  `Set` finds by a walk over the entries the bytes that it has to replace,
and copies what is before and behind them into a new slice.

Memory is the list of the slices allocated so far; an index or slice expression
that is out of range is a panic, `none` here.  The walk over the entries, which
the source writes out in each function, is `walk` with the function's own body.
-/

namespace SpatialDb.Server.FieldBytes

open Lib List OrdMap Option

/-- The shared strings: the number of a string that is stored, and the string of
a number. -/
structure Names where
  num : Bytes → Nat
  load : Nat → Bytes

/-- `sstring.Load` and the numbers, once `strs` are stored. -/
def sharedNames (strs : List Bytes) : Names := ⟨strs.idxOf, fun num => strs.getD num []⟩

abbrev Heap := List Bytes

/-- `List`: a pointer to the first byte of a slice, or nil. -/
abbrev Ptr := Option Nat

/-! ## Reading -/

def kindByte (kind : Kind) : UInt8 := UInt8.ofNat kind.code

def kindOf (b : UInt8) : Option Kind :=
  [Kind.null, .false, .number, .string, .true, .json].find? fun kind => kindByte kind = b

theorem kindOf_kindByte (kind : Kind) : kindOf (kindByte kind) = some kind := by
  cases kind <;> decide

/-- `ptob`.  It reads ten bytes at the pointer, be the slice shorter or not;
`beyond` is what lies behind it. -/
def ptob (heap : Heap) (beyond : Nat → Bytes) : Ptr → Bytes
  | none => []
  | some a =>
    let mem := heap.getD a [] ++ beyond a
    let (x, n) := uvarint (mem.take 10)
    (mem.take (n + x)).drop n

/-- The name, kind and data from `i` on, and where they end; nothing more if
there is no number. -/
def readEntry (names : Names) (b : Bytes) (i : Nat) : Option (Option (Bytes × StoredValue × Nat)) :=
  let (x, n) := uvarint (b.drop i)
  if n = 0 then some none
  else
    match (b[i + n]?).bind kindOf with
    | none => none
    | some kind =>
      let j := i + n + 1
      if datakind kind then
        let (y, m) := uvarint (b.drop j)
        if j + m + y ≤ b.length then
          some (some (names.load x, ⟨kind, (b.drop (j + m)).take y⟩, j + m + y))
        else none
      else some (some (names.load x, ⟨kind, []⟩, j))

/-- What the body of a loop does with an entry. -/
inductive Step (σ ρ : Type*) where
  | next (st : σ)
  | stop (result : ρ)

section Walk

variable {σ ρ : Type*}

/-- The loop over the entries.  `body` gets where the entry begins, the entry,
and where it ends; `done` where the bytes end. -/
def walk (names : Names) (body : σ → Nat → Bytes × StoredValue → Nat → Step σ ρ)
    (done : σ → Nat → ρ)
    (b : Bytes) : Nat → Nat → σ → Option ρ
  | 0, _, _ => none
  | fuel + 1, i, st =>
    match readEntry names b i with
    | none => none
    | some none => some (done st i)
    | some (some (name, v, j)) =>
      match body st i (name, v) j with
      | .stop result => some result
      | .next st => walk names body done b fuel j st

end Walk

/-! ## The functions of a list -/

section

variable {N : Type*} [LinearOrder N] (lib : FieldLib N) (names : Names)

/-- What `Set` looks for: the entry of the name, or the place for it. -/
inductive Found where
  | entry (s e : Nat) (v : StoredValue)
  | place (i : Nat)

def findBody (name : Bytes) (_ : Unit) (s : Nat) (e : Bytes × StoredValue) (j : Nat) :
    Step Unit Found :=
  if name < e.1 then .stop (.place s)
  else if e.1 = name then .stop (.entry s j e.2)
  else .next ()

def find (b name : Bytes) : Option Found :=
  walk names (findBody name) (fun _ i => .place i) b (b.length + 1) 0 ()

variable (heap : Heap)

def alloc (p : Bytes) : Heap × Ptr := (heap ++ [p], some heap.length)

def delfield (b : Bytes) (s e : Nat) : Heap × Ptr :=
  let totallen := s + (b.length - e)
  if totallen = 0 then (heap, none)
  else
    let psz := putUvarint totallen
    let p := List.replicate (psz.length + totallen) 0
    let p := copyAt p 0 psz
    let p := copyAt p psz.length (b.take s)
    let p := copyAt p (psz.length + s) (b.drop e)
    alloc heap p

def putfield (b : Bytes) (f : Field N) (s e : Nat) : Heap × Ptr :=
  let namesz := putUvarint (names.num f.name)
  let isdatakind := datakind f.value.kind
  let data := if isdatakind then f.value.data else []
  let datasz := if isdatakind then putUvarint data.length else []
  let totallen := s + namesz.length + 1 + (b.length - e)
  let totallen := if isdatakind then totallen + (datasz.length + data.length) else totallen
  let psz := putUvarint totallen
  let p := List.replicate (psz.length + totallen) 0
  let p := copyAt p 0 psz
  let p := copyAt p psz.length (b.take s)
  let p := copyAt p (psz.length + s) namesz
  let i := psz.length + s + namesz.length
  let p := p.set i (kindByte f.value.kind)
  let i := i + 1
  let p := if isdatakind then copyAt (copyAt p i datasz) (i + datasz.length) data else p
  let i := if isdatakind then i + datasz.length + data.length else i
  alloc heap (copyAt p i (b.drop e))

def set (beyond : Nat → Bytes) (p : Ptr) (f : Field N) : Option (Heap × Ptr) :=
  let b := ptob heap beyond p
  match find names b f.name with
  | none => none
  | some (.entry s e v) =>
    if f.value.isZero lib then some (delfield heap b s e)
    else if (bfield lib v).equals f.value then some (heap, p)
    else some (putfield names heap b f s e)
  | some (.place i) =>
    if f.value.isZero lib then some (heap, p) else some (putfield names heap b f i i)

/-- The callback of `Scan` returns whether to go on. -/
def scanBody {σ : Type*} (iter : Field N → σ → Bool × σ) (st : σ) (_ : Nat)
    (e : Bytes × StoredValue) (_ : Nat) : Step σ σ :=
  match iter ⟨e.1, bfield lib e.2⟩ st with
  | (false, st) => .stop st
  | (true, st) => .next st

def scan {σ : Type*} (iter : Field N → σ → Bool × σ) (heap : Heap) (beyond : Nat → Bytes) (p : Ptr)
    (st : σ) : Option σ :=
  let b := ptob heap beyond p
  walk names (scanBody lib iter) (fun st _ => st) b (b.length + 1) 0 st

/-- The loop of `Len`, which does not load the names. -/
def lenLoop (b : Bytes) : Nat → Nat → Nat → Option Nat
  | 0, _, _ => none
  | fuel + 1, i, count =>
    if b.length < i then none
    else
      let (_, n) := uvarint (b.drop i)
      if n = 0 then some count
      else
        match b[i + n]? with
        | none => none
        | some k =>
          let j := i + n + 1
          if (kindOf k).any datakind then
            let (y, m) := uvarint (b.drop j)
            lenLoop b fuel (j + (m + y)) (count + 1)
          else lenLoop b fuel j (count + 1)

def len (beyond : Nat → Bytes) (p : Ptr) : Option Nat :=
  let b := ptob heap beyond p
  lenLoop b (b.length + 1) 0 0

/-- What a format reader makes of the bytes. -/
def decode (b : Bytes) : Option (List (Bytes × StoredValue)) :=
  walk names (fun (l : List (Bytes × StoredValue)) _ e _ => .next (l ++ [e])) (fun l _ => l) b
    (b.length + 1) 0 []

/-- A callback that is given fields until it stops. -/
def visit {σ : Type*} (iter : Field N → σ → Bool × σ) : List (Field N) → σ → σ
  | [], st => st
  | f :: fs, st =>
    match iter f st with
    | (false, st) => st
    | (true, st) => visit iter fs st

/-! ## Encoded entries -/

def encodeEntry (e : Bytes × StoredValue) : Bytes :=
  putUvarint (names.num e.1) ++ (kindByte e.2.kind ::
    (if datakind e.2.kind then putUvarint e.2.data.length ++ e.2.data else []))

def encode (l : List (Bytes × StoredValue)) : Bytes := l.flatMap (encodeEntry names)

/-- The entry is one that comes back: its name is found under its number, its
numbers are words, and it has data only where data is written. -/
structure Fits (e : Bytes × StoredValue) : Prop where
  load : names.load (names.num e.1) = e.1
  num : names.num e.1 < 2 ^ 64
  size : e.2.data.length < 2 ^ 64
  data : datakind e.2.kind = false → e.2.data = []

variable {names} {e : Bytes × StoredValue}

theorem length_encodeEntry_pos (names : Names) (e : Bytes × StoredValue) :
    0 < (encodeEntry names e).length := by
  rw [encodeEntry, length_append, length_cons]
  omega

theorem getElem?_append_length {α : Type*} (a : List α) (x : α) (rest : List α) :
    (a ++ x :: rest)[a.length]? = some x := by
  rw [getElem?_append_right le_rfl, Nat.sub_self]
  rfl

theorem readEntry_encode (hfit : Fits names e) (before after : Bytes) :
    readEntry names (before ++ (encodeEntry names e ++ after)) before.length =
      some (some (e.1, e.2, before.length + (encodeEntry names e).length)) := by
  obtain ⟨name, kind, data⟩ := e
  obtain ⟨hload, hnum, hsize, hdata⟩ := hfit
  dsimp only at hload hnum hsize hdata
  have hne : (putUvarint (names.num name)).length ≠ 0 := (length_putUvarint_pos _).ne'
  cases hkind : datakind kind with
  | false =>
    simp [readEntry, encodeEntry, hkind, uvarint_putUvarint hnum, hne, kindOf_kindByte, hload,
      hdata hkind, Nat.add_assoc]
  | true =>
    simp [readEntry, encodeEntry, hkind, uvarint_putUvarint hnum, uvarint_putUvarint hsize, hne,
      kindOf_kindByte, hload, Nat.add_assoc]
    refine ⟨by omega, ?_, by omega⟩
    rw [Nat.add_comm 1, drop_succ_cons, drop_left, take_left]

theorem readEntry_end (b : Bytes) : readEntry names b b.length = some none := by
  rw [readEntry, drop_length]
  rfl

theorem encode_cons (e : Bytes × StoredValue) (l : List (Bytes × StoredValue)) :
    encode names (e :: l) = encodeEntry names e ++ encode names l := flatMap_cons

theorem encode_append (l l' : List (Bytes × StoredValue)) :
    encode names (l ++ l') = encode names l ++ encode names l' := flatMap_append

theorem length_le_length_encode (names : Names) (l : List (Bytes × StoredValue)) :
    l.length ≤ (encode names l).length := by
  induction l with
  | nil => exact Nat.zero_le _
  | cons e l ih =>
    have hpos := length_encodeEntry_pos names e
    rw [encode_cons, length_append, length_cons]
    omega

end

/-! ## Walks over encoded entries -/

section Walks

variable {σ ρ : Type*} {names : Names} (body : σ → Nat → Bytes × StoredValue → Nat → Step σ ρ)
  (done : σ → Nat → ρ)

variable (names) in
/-- The walk, over the entries. -/
def walkEntries : List (Bytes × StoredValue) → Nat → σ → ρ
  | [], i, st => done st i
  | e :: l, i, st =>
    match body st i e (i + (encodeEntry names e).length) with
    | .stop result => result
    | .next st => walkEntries l (i + (encodeEntry names e).length) st

variable {l : List (Bytes × StoredValue)}

theorem walk_encode (hfit : ∀ e ∈ l, Fits names e)
    (before : Bytes) {fuel : Nat} (hfuel : l.length < fuel) (st : σ) :
    walk names body done (before ++ encode names l) fuel before.length st =
      some (walkEntries names body done l before.length st) := by
  induction l generalizing before fuel st with
  | nil =>
    obtain ⟨fuel, rfl⟩ : ∃ f, fuel = f + 1 := ⟨fuel - 1, by omega⟩
    have hend : before ++ encode names [] = before := append_nil before
    rw [walk, hend, readEntry_end]
    rfl
  | cons e l ih =>
    obtain ⟨fuel, rfl⟩ : ∃ f, fuel = f + 1 := ⟨fuel - 1, by omega⟩
    obtain ⟨he, hl⟩ := forall_mem_cons.mp hfit
    rw [length_cons] at hfuel
    rw [encode_cons, walk, readEntry_encode he, walkEntries]
    dsimp only
    cases body st before.length e (before.length + (encodeEntry names e).length) with
    | stop result => rfl
    | next st =>
      rw [← append_assoc, ← length_append]
      exact ih hl (before ++ encodeEntry names e) (by omega) st

theorem walk_encode_all (hfit : ∀ e ∈ l, Fits names e) (st : σ) :
    walk names body done (encode names l) ((encode names l).length + 1) 0 st =
      some (walkEntries names body done l 0 st) :=
  walk_encode body done hfit [] (Nat.lt_succ_of_le (length_le_length_encode names l)) st

variable {body}

/-- Entries that the body passes over. -/
theorem walkEntries_append {before : List (Bytes × StoredValue)} {st : σ}
    (h : ∀ e ∈ before, ∀ i j, body st i e j = .next st) (l : List (Bytes × StoredValue)) (i : Nat) :
    walkEntries names body done (before ++ l) i st =
      walkEntries names body done l (i + (encode names before).length) st := by
  induction before generalizing i with
  | nil => rfl
  | cons e before ih =>
    obtain ⟨he, hbefore⟩ := forall_mem_cons.mp h
    rw [cons_append, walkEntries, he]
    dsimp only
    rw [ih hbefore, encode_cons, length_append, Nat.add_assoc]

end Walks

section

variable {names : Names} {l before after : List (Bytes × StoredValue)} {name : Bytes}

theorem findBody_of_lt (h : ∀ e ∈ before, e.1 < name) :
    ∀ e ∈ before, ∀ i j, findBody name () i e j = .next () := by
  intro e he i j
  rw [findBody, if_neg (not_lt_of_gt (h e he)), if_neg (ne_of_lt (h e he))]

/-- `Set` finds the entry of the name, after those with smaller names. -/
theorem find_entry {v : StoredValue} (hfit : ∀ e ∈ before ++ (name, v) :: after, Fits names e)
    (hbefore : ∀ e ∈ before, e.1 < name) :
    find names (encode names (before ++ (name, v) :: after)) name =
      some (.entry (encode names before).length
        ((encode names before).length + (encodeEntry names (name, v)).length) v) := by
  rw [find, walk_encode_all _ _ hfit, walkEntries_append _ (findBody_of_lt hbefore), walkEntries,
    findBody, if_neg (lt_irrefl _), if_pos rfl, Nat.zero_add]

/-- Or the place for it, before those with greater names. -/
theorem find_place (hfit : ∀ e ∈ before ++ after, Fits names e)
    (hbefore : ∀ e ∈ before, e.1 < name) (hafter : ∀ e ∈ after, name < e.1) :
    find names (encode names (before ++ after)) name =
      some (.place (encode names before).length) := by
  rw [find, walk_encode_all _ _ hfit, walkEntries_append _ (findBody_of_lt hbefore), Nat.zero_add]
  cases after with
  | nil => rfl
  | cons e after => rw [walkEntries, findBody, if_pos (hafter e mem_cons_self)]

/-! ## Writing -/

variable {N : Type*} (heap : Heap) (pre mid post : Bytes)

/-- The size, and what it is the size of. -/
def sized (body : Bytes) : Bytes := putUvarint body.length ++ body

/-- A new slice for some pieces and their size. -/
theorem fill_sized {n : Nat} {body : Bytes} (pieces : List Bytes) (hbody : pieces.flatten = body)
    (hn : body.length = n) :
    fill (putUvarint n :: pieces) (List.replicate ((putUvarint n).length + n) 0) 0 =
      sized body := by
  subst hbody hn
  have hfill := fill_replicate 0 (putUvarint pieces.flatten.length :: pieces) []
  rwa [flatten_cons, length_append, nil_append, nil_append, length_nil] at hfill

/-- What is behind the bytes to replace. -/
theorem drop_end : (pre ++ (mid ++ post)).drop (pre.length + mid.length) = post := by
  rw [← append_assoc, ← length_append, drop_left]

theorem length_sub_end :
    (pre ++ (mid ++ post)).length - (pre.length + mid.length) = post.length := by
  simp only [length_append]
  omega

theorem delfield_nil : delfield heap mid 0 mid.length = (heap, none) := by
  rw [delfield]
  simp only [Nat.sub_self, Nat.add_zero, if_true]

theorem delfield_eq (h : pre ++ post ≠ []) :
    delfield heap (pre ++ (mid ++ post)) pre.length (pre.length + mid.length) =
      alloc heap (sized (pre ++ post)) := by
  have hne : pre.length + post.length ≠ 0 := by
    rw [← length_append]
    exact fun hzero => h (length_eq_zero_iff.mp hzero)
  unfold delfield
  simp only [length_sub_end, if_neg hne, drop_end, take_left]
  congr 1
  simpa only [fill, Nat.zero_add] using fill_sized [pre, post] (by simp) length_append

theorem putfield_eq (f : Field N) :
    putfield names heap (pre ++ (mid ++ post)) f pre.length (pre.length + mid.length) =
      alloc heap (sized (pre ++ (encodeEntry names (f.name, f.value.stored) ++ post))) := by
  unfold putfield
  simp only [length_sub_end, drop_end, take_left, set_eq_copyAt]
  congr 1
  have hkindOf : f.value.stored.kind = f.value.kind := rfl
  cases hkind : datakind f.value.kind with
  | false =>
    simp only [Bool.false_eq_true, if_false]
    simpa only [fill, Nat.zero_add, length_singleton] using
      fill_sized [pre, putUvarint (names.num f.name), [kindByte f.value.kind], post]
        (by simp [encodeEntry, hkindOf, hkind]) (by simp [encodeEntry, hkindOf, hkind]; omega)
  | true =>
    have hdata : f.value.stored.data = f.value.data := by
      simp only [Value.stored, hkind, if_true]
    simp only [if_true]
    simpa only [fill, Nat.zero_add, length_singleton] using
      fill_sized [pre, putUvarint (names.num f.name), [kindByte f.value.kind],
          putUvarint f.value.data.length, f.value.data, post]
        (by simp [encodeEntry, hkindOf, hdata, hkind])
        (by simp [encodeEntry, hkindOf, hdata, hkind]; omega)

end

/-! ## Lists and what they stand for -/

section

variable {N : Type*} [LinearOrder N] {lib : FieldLib N} {names : Names} {heap heap' : Heap}
  {p : Ptr} {m : FieldList} {f : Field N}

/-- The pointer leads to the encoded entries; nil is the empty list. -/
structure Represents (names : Names) (heap : Heap) (p : Ptr) (m : FieldList) : Prop where
  fits : ∀ e ∈ m.entries, Fits names e
  size : (encode names m.entries).length < 2 ^ 64
  nil : p = none → m.entries = []
  slice : ∀ a, p = some a → heap[a]? = some (sized (encode names m.entries))

theorem represents_empty (names : Names) (heap : Heap) :
    Represents names heap none (empty : FieldList) where
  fits := by simp
  size := by simp [encode]
  nil := fun _ => rfl
  slice := fun _ h => nomatch h

/-- What lies behind the slice does not matter. -/
theorem Represents.ptob (h : Represents names heap p m) (beyond : Nat → Bytes) :
    ptob heap beyond p = encode names m.entries := by
  cases p with
  | none => rw [h.nil rfl]; rfl
  | some a =>
    have hsize := h.size
    have hslice := h.slice a rfl
    generalize encode names m.entries = body at hsize hslice
    have hget : heap.getD a [] = sized body := by rw [getD_eq_getElem?_getD, hslice]; rfl
    have hten := length_putUvarint_le body.length
    have hhead : uvarint ((sized body ++ beyond a).take 10) =
        (body.length, (putUvarint body.length).length) := by
      rw [sized, append_assoc, take_append, take_of_length_le hten, uvarint_putUvarint hsize]
    have hwhole : (sized body ++ beyond a).take ((putUvarint body.length).length + body.length) =
        sized body := by
      apply take_left'
      rw [sized, length_append]
    rw [FieldBytes.ptob, hget]
    simp only [hhead, hwhole]
    rw [sized, drop_left]

theorem Represents.mono (h : Represents names heap p m) (hheap : heap <+: heap') :
    Represents names heap' p m where
  fits := h.fits
  size := h.size
  nil := h.nil
  slice := by
    intro a ha
    obtain ⟨more, rfl⟩ := hheap
    have hslice := h.slice a ha
    obtain ⟨hlt, -⟩ := List.getElem?_eq_some_iff.mp hslice
    rw [getElem?_append_left hlt, hslice]

theorem represents_alloc (hfits : ∀ e ∈ m.entries, Fits names e)
    (hsize : (encode names m.entries).length < 2 ^ 64) :
    Represents names (alloc heap (sized (encode names m.entries))).1
      (alloc heap (sized (encode names m.entries))).2 m where
  fits := hfits
  size := hsize
  nil := fun h => nomatch h
  slice := by
    intro a ha
    cases ha
    exact getElem?_append_length heap _ []

theorem prefix_alloc (heap : Heap) (slice : Bytes) : heap <+: (alloc heap slice).1 :=
  prefix_append heap [slice]

/-- The size of what `Set` may add. -/
def fieldSize (names : Names) (f : Field N) : Nat :=
  (encodeEntry names (f.name, f.value.stored)).length

/-- A field that can be written. -/
structure Storable (names : Names) (f : Field N) : Prop where
  load : names.load (names.num f.name) = f.name
  num : names.num f.name < 2 ^ 63

omit [LinearOrder N] in
theorem Storable.fits (h : Storable names f) (hsize : fieldSize names f < 2 ^ 63) :
    Fits names (f.name, f.value.stored) where
  load := h.load
  num := lt_trans h.num (by decide)
  size := by
    have hlen : f.value.stored.data.length ≤ fieldSize names f := by
      simp only [fieldSize, encodeEntry, Value.stored, length_append, length_cons]
      split
      · rw [length_append]
        omega
      · exact Nat.zero_le _
    exact lt_of_le_of_lt hlen (lt_trans hsize (by decide))
  data := by
    intro hkind
    have hkind : datakind f.value.kind = false := hkind
    simp only [Value.stored, hkind, Bool.false_eq_true, if_false]

/-- The call returns a list with the entries of `m`, of `n` bytes at most, and
leaves every slice. -/
def Returns (names : Names) (heap : Heap) (n : Nat) (m : FieldList) (r : Option (Heap × Ptr)) :
    Prop :=
  ∃ heap' p', r = some (heap', p') ∧ heap <+: heap' ∧ Represents names heap' p' m ∧
    (encode names m.entries).length ≤ n

variable {n : Nat} {before after : List (Bytes × StoredValue)}

omit [LinearOrder N] in
/-- An entry written in place of `mid`. -/
theorem put_returns (heap : Heap) (mid : List (Bytes × StoredValue))
    (hentries : m.entries = before ++ (f.name, f.value.stored) :: after)
    (hfits : ∀ e ∈ before ++ after, Fits names e) (hf : Fits names (f.name, f.value.stored))
    (hsize : (encode names (before ++ after)).length + fieldSize names f ≤ n) (hn : n < 2 ^ 64) :
    Returns names heap n m (some (putfield names heap (encode names (before ++ (mid ++ after))) f
      (encode names before).length
        ((encode names before).length + (encode names mid).length))) := by
  have hbytes : encode names before ++ (encodeEntry names (f.name, f.value.stored) ++
      encode names after) = encode names m.entries := by
    rw [hentries, encode_append, encode_cons]
  have hlen : (encode names m.entries).length ≤ n := by
    rw [← hbytes]
    rw [encode_append] at hsize
    simp only [length_append, fieldSize] at hsize ⊢
    omega
  rw [encode_append, encode_append, putfield_eq, hbytes]
  refine ⟨_, _, rfl, prefix_alloc heap _, represents_alloc ?_ (hlen.trans_lt hn), hlen⟩
  rw [hentries]
  rw [forall_mem_append] at hfits ⊢
  exact ⟨hfits.1, forall_mem_cons.mpr ⟨hf, hfits.2⟩⟩

/-- The entries `mid` cut out. -/
theorem del_returns (heap : Heap) (mid : List (Bytes × StoredValue))
    (hentries : m.entries = before ++ after) (hfits : ∀ e ∈ before ++ after, Fits names e)
    (hsize : (encode names (before ++ after)).length ≤ n) (hn : n < 2 ^ 64) :
    Returns names heap n m (some (delfield heap (encode names (before ++ (mid ++ after)))
      (encode names before).length
        ((encode names before).length + (encode names mid).length))) := by
  rw [← hentries] at hfits hsize
  by_cases hnil : before ++ after = []
  · obtain ⟨rfl, rfl⟩ := append_eq_nil_iff.mp hnil
    have hstart : (encode names []).length = 0 := rfl
    rw [nil_append, append_nil, hstart, Nat.zero_add, delfield_nil]
    exact ⟨heap, none, rfl, prefix_rfl,
      ⟨hfits, hsize.trans_lt hn, fun _ => hentries, fun _ h => nomatch h⟩, hsize⟩
  have hne : encode names before ++ encode names after ≠ [] := by
    intro hempty
    have hlen := length_le_length_encode names (before ++ after)
    rw [encode_append, hempty] at hlen
    exact hnil (length_eq_zero_iff.mp (Nat.le_zero.mp hlen))
  rw [encode_append, encode_append, delfield_eq heap _ _ _ hne, ← encode_append, ← hentries]
  exact ⟨_, _, rfl, prefix_alloc heap _, represents_alloc hfits (hsize.trans_lt hn), hsize⟩

variable (lib) in
/-- `Set` does to the entries what `setField` does. -/
theorem set_returns (h : Represents names heap p m) (hf : Fits names (f.name, f.value.stored))
    (hsize : (encode names m.entries).length + fieldSize names f < 2 ^ 64) (beyond : Nat → Bytes) :
    Returns names heap ((encode names m.entries).length + fieldSize names f)
      (FieldList.setField lib m f) (set lib names heap beyond p f) := by
  have hptob := h.ptob beyond
  have hfits := h.fits
  have hsame : Returns names heap ((encode names m.entries).length + fieldSize names f) m
      (some (heap, p)) := ⟨heap, p, rfl, prefix_rfl, h, Nat.le_add_right _ _⟩
  unfold set FieldList.setField
  cases hget : m.get? f.name with
  | some v =>
    obtain ⟨before, after, hentries, hbefore, hafter⟩ := exists_entries_eq hget
    rw [hentries] at hptob hfits hsize hsame ⊢
    have hothers : ∀ e ∈ before ++ after, Fits names e := by
      rw [forall_mem_append, forall_mem_cons] at hfits
      exact forall_mem_append.mpr ⟨hfits.1, hfits.2.2⟩
    have hshort : (encode names (before ++ after)).length ≤
        (encode names (before ++ (f.name, v) :: after)).length := by
      simp only [encode_append, encode_cons, length_append]
      omega
    have hmid : encodeEntry names (f.name, v) = encode names [(f.name, v)] := (append_nil _).symm
    simp only [hptob, find_entry hfits hbefore, hmid]
    split_ifs with hzero heq
    · exact del_returns heap [(f.name, v)]
        (entries_delete_of_entry hentries hbefore hafter) hothers (by omega) hsize
    · exact hsame
    · exact put_returns heap [(f.name, v)]
        (entries_set_of_entry f.value.stored hentries hbefore) hothers hf (by omega) hsize
  | none =>
    obtain ⟨before, after, hentries, hbefore, hafter⟩ := exists_entries_split hget
    rw [hentries] at hptob hfits hsize hsame ⊢
    simp only [hptob, find_place hfits hbefore hafter]
    split_ifs with hzero
    · exact hsame
    · exact put_returns heap []
        (entries_set_of_split f.value.stored hentries hbefore hafter) hfits hf le_rfl hsize

/-! ## Reading a list -/

theorem Represents.decode (h : Represents names heap p m) (beyond : Nat → Bytes) :
    decode names (FieldBytes.ptob heap beyond p) = some m.entries := by
  have hwalk : ∀ (l acc : List (Bytes × StoredValue)) (i : Nat),
      walkEntries names (fun (l : List (Bytes × StoredValue)) _ e _ => .next (l ++ [e]))
        (fun l _ => l) l i acc = acc ++ l := by
    intro l
    induction l with
    | nil => exact fun acc i => (append_nil acc).symm
    | cons e l ih =>
      intro acc i
      rw [walkEntries]
      dsimp only
      rw [ih, append_assoc]
      rfl
  rw [h.ptob, FieldBytes.decode, walk_encode_all _ _ h.fits, hwalk, nil_append]

omit [LinearOrder N] in
theorem Represents.scan {σ : Type*} (h : Represents names heap p m) (beyond : Nat → Bytes)
    (iter : Field N → σ → Bool × σ) (st : σ) :
    scan lib names iter heap beyond p st =
      some (visit iter (m.entries.map fun e => ⟨e.1, bfield lib e.2⟩) st) := by
  have hwalk : ∀ (l : List (Bytes × StoredValue)) (i : Nat) (st : σ),
      walkEntries names (scanBody lib iter) (fun st _ => st) l i st =
        visit iter (l.map fun e => ⟨e.1, bfield lib e.2⟩) st := by
    intro l
    induction l with
    | nil => exact fun i st => rfl
    | cons e l ih =>
      intro i st
      rw [walkEntries, map_cons, visit, scanBody]
      obtain ⟨more, st'⟩ := iter ⟨e.1, bfield lib e.2⟩ st
      cases more with
      | false => rfl
      | true => exact ih _ st'
  simp only [FieldBytes.scan, h.ptob, walk_encode_all _ _ h.fits, hwalk]

/-- A round of `Len` goes as far as reading an entry does. -/
theorem lenLoop_of_readEntry {b name : Bytes} {i j : Nat} {v : StoredValue}
    (h : readEntry names b i = some (some (name, v, j))) (hi : i ≤ b.length) (fuel count : Nat) :
    lenLoop b (fuel + 1) i count = lenLoop b fuel j (count + 1) := by
  rw [readEntry] at h
  rw [lenLoop, if_neg (not_lt.mpr hi)]
  dsimp only at h ⊢
  by_cases hn : (uvarint (b.drop i)).2 = 0
  · rw [if_pos hn] at h
    cases h
  rw [if_neg hn] at h ⊢
  cases hk : b[i + (uvarint (b.drop i)).2]? with
  | none =>
    rw [hk] at h
    cases h
  | some k =>
    rw [hk, bind_some] at h
    cases hkind : kindOf k with
    | none =>
      rw [hkind] at h
      cases h
    | some kind =>
      rw [hkind] at h
      simp only [hkind, any_some]
      dsimp only at h
      split_ifs at h ⊢
      · cases h
        rw [← Nat.add_assoc]
      · cases h
        rfl

theorem lenLoop_encode {l : List (Bytes × StoredValue)} (hfit : ∀ e ∈ l, Fits names e)
    (before : Bytes) {fuel : Nat} (hfuel : l.length < fuel) (count : Nat) :
    lenLoop (before ++ encode names l) fuel before.length count = some (count + l.length) := by
  induction l generalizing before fuel count with
  | nil =>
    obtain ⟨fuel, rfl⟩ : ∃ f, fuel = f + 1 := ⟨fuel - 1, by omega⟩
    have hend : before ++ encode names [] = before := append_nil before
    rw [hend, lenLoop, if_neg (lt_irrefl _), drop_length]
    rfl
  | cons e l ih =>
    obtain ⟨fuel, rfl⟩ : ∃ f, fuel = f + 1 := ⟨fuel - 1, by omega⟩
    obtain ⟨he, hl⟩ := forall_mem_cons.mp hfit
    rw [length_cons] at hfuel
    have hread := readEntry_encode he before (encode names l)
    rw [encode_cons, lenLoop_of_readEntry hread (by rw [length_append]; omega),
      ← append_assoc, ← length_append, ih hl _ (by omega), length_cons]
    congr 1
    omega

theorem Represents.len (h : Represents names heap p m) (beyond : Nat → Bytes) :
    len heap beyond p = some m.entries.length := by
  have hlen :=
    lenLoop_encode h.fits [] (Nat.lt_succ_of_le (length_le_length_encode names m.entries)) 0
  rw [Nat.zero_add] at hlen
  simp only [FieldBytes.len, h.ptob]
  exact hlen

end

/-! ## Sequences of `Set` calls -/

variable {N : Type*} [LinearOrder N] (lib : FieldLib N) (names : Names)

/-- The values that can be made outside of the package. -/
inductive Built : Value N → Prop where
  | guessed (data : Bytes) : Built (valueOf lib data)
  | read (s : StoredValue) : Built (bfield lib s)
  | zero : Built (zeroValue lib)
  | blank : Built (Value.blank lib)

/-- A call of `Set`, with the bytes that lie behind the slices at that time. -/
structure SetCall (N : Type*) where
  beyond : Nat → Bytes
  field : Field N

def runSets : Heap × Ptr → List (SetCall N) → Option (Heap × Ptr)
  | x, [] => some x
  | x, c :: calls =>
    match set lib names x.1 c.beyond x.2 c.field with
    | none => none
    | some x => runSets x calls

/-- The bytes of the list decode to the entries. -/
def Decodes (heap : Heap) (p : Ptr) (l : List (Bytes × StoredValue)) : Prop :=
  ∀ beyond, decode names (ptob heap beyond p) = some l

variable {lib names} {heap : Heap} {p : Ptr} {m : FieldList}

omit [LinearOrder N] in
theorem bfield_stored_bfield (s : StoredValue) :
    bfield lib (bfield lib s).stored = bfield lib s := by
  obtain ⟨kind, data⟩ := s
  cases kind <;> rfl

theorem isZero_stored_of_guessed {v : Value N} (h : Guessed lib v) (hzero : v.isZero lib = false) :
    (bfield lib v.stored).isZero lib = false := by
  cases h with
  | special hv =>
    simp only [mem_cons, not_mem_nil, or_false] at hv
    rcases hv with rfl | rfl | rfl <;> rfl
  | @number d n _ hfloat =>
    have hread : bfield lib (⟨.number, d, n⟩ : Value N).stored = ⟨.number, d, n⟩ := by
      show (⟨.number, d, (lib.parseFloat d).1⟩ : Value N) = _
      rw [hfloat]
    rwa [hread]
  | word _ _ hword =>
    simp only [mem_cons, not_mem_nil, or_false, Prod.mk.injEq] at hword
    rcases hword with ⟨rfl, rfl⟩ | ⟨rfl, rfl⟩ | ⟨rfl, rfl⟩ <;> exact hzero
  | json => exact hzero
  | text => exact hzero

/-- What is not zero when it is written is not zero when it is read. -/
theorem Built.isZero_stored {v : Value N} (h : Built lib v) (hzero : v.isZero lib = false) :
    (bfield lib v.stored).isZero lib = false := by
  cases h with
  | guessed data => exact isZero_stored_of_guessed (guessed_valueOf lib data) hzero
  | read s => rwa [bfield_stored_bfield]
  | zero => simp [Value.isZero, zeroValue] at hzero
  | blank => simp [Value.isZero] at hzero

theorem mem_setField {f : Field N} {e : Bytes × StoredValue}
    (h : e ∈ (FieldList.setField lib m f).entries) :
    e ∈ m.entries ∨ (e = (f.name, f.value.stored) ∧ f.value.isZero lib = false) := by
  have hset : f.value.isZero lib = false → e ∈ (m.set f.name f.value.stored).entries →
      e ∈ m.entries ∨ (e = (f.name, f.value.stored) ∧ f.value.isZero lib = false) := by
    intro hzero he
    obtain rfl | he := mem_insertEntry he
    · exact .inr ⟨rfl, hzero⟩
    · exact .inl he
  unfold FieldList.setField at h
  cases hget : m.get? f.name with
  | some v =>
    simp only [hget] at h
    split_ifs at h with hzero heq
    · exact .inl (mem_of_mem_filter h)
    · exact .inl h
    · exact hset (Bool.not_eq_true _ ▸ hzero) h
  | none =>
    simp only [hget] at h
    split_ifs at h with hzero
    · exact .inl h
    · exact hset (Bool.not_eq_true _ ▸ hzero) h

/-- Every list that `Set` calls build is represented, and has no zero. -/
theorem runSets_represents {calls : List (SetCall N)}
    (hnames : ∀ c ∈ calls, Storable names c.field) (h : Represents names heap p m)
    (hsize : (encode names m.entries).length +
      (calls.map fun c => fieldSize names c.field).sum < 2 ^ 63) :
    ∃ heap' p', runSets lib names (heap, p) calls = some (heap', p') ∧ heap <+: heap' ∧
      Represents names heap' p'
        (calls.foldl (fun m c => FieldList.setField lib m c.field) m) ∧
      (encode names (calls.foldl (fun m c => FieldList.setField lib m c.field) m).entries).length ≤
        (encode names m.entries).length + (calls.map fun c => fieldSize names c.field).sum := by
  induction calls generalizing heap p m with
  | nil => exact ⟨heap, p, rfl, prefix_rfl, h, le_rfl⟩
  | cons c calls ih =>
    obtain ⟨hc, hcalls⟩ := forall_mem_cons.mp hnames
    rw [map_cons, sum_cons] at hsize ⊢
    have hfits := hc.fits (by omega)
    obtain ⟨heap₁, p₁, hset, hheap₁, hrep₁, hgrow⟩ := set_returns lib h hfits (by omega) c.beyond
    obtain ⟨heap₂, p₂, hrun, hheap₂, hrep₂, hlen⟩ := ih hcalls hrep₁ (by omega)
    refine ⟨heap₂, p₂, ?_, hheap₁.trans hheap₂, hrep₂, ?_⟩
    · rw [runSets, hset]
      exact hrun
    · rw [foldl_cons]
      omega

theorem noZero_foldl {calls : List (SetCall N)} (hbuilt : ∀ c ∈ calls, Built lib c.field.value)
    (h : ∀ e ∈ m.entries, (bfield lib e.2).isZero lib = false) :
    ∀ e ∈ (calls.foldl (fun m c => FieldList.setField lib m c.field) m).entries,
      (bfield lib e.2).isZero lib = false := by
  induction calls generalizing m with
  | nil => exact h
  | cons c calls ih =>
    obtain ⟨hc, hcalls⟩ := forall_mem_cons.mp hbuilt
    apply ih hcalls
    intro e he
    obtain he | ⟨rfl, hzero⟩ := mem_setField he
    · exact h e he
    · exact hc.isZero_stored hzero

theorem Represents.decodes (h : Represents names heap p m) : Decodes names heap p m.entries :=
  fun beyond => h.decode beyond

/-- After any calls of `Set` on an empty list: the bytes decode to entries in
strictly increasing order of their names, none of which reads as zero; `Len` and
`Scan` agree with them.  And one more call leaves what the other names have,
removes exactly its name if the value is zero, writes the value under it or finds
an equal one there if not, and does not touch the list it was called on. -/
theorem runSets_decodes (calls : List (SetCall N)) (heap : Heap) (c : SetCall N)
    (hnames : ∀ c' ∈ c :: calls, Storable names c'.field)
    (hbuilt : ∀ c' ∈ calls, Built lib c'.field.value)
    (hsize : ((c :: calls).map fun c' => fieldSize names c'.field).sum < 2 ^ 63) :
    ∃ heap₁ p₁ l, runSets lib names (heap, none) calls = some (heap₁, p₁) ∧
      Decodes names heap₁ p₁ l ∧ l.Pairwise (fun a b => a.1 < b.1) ∧
      (∀ e ∈ l, (bfield lib e.2).isZero lib = false) ∧
      (∀ beyond, len heap₁ beyond p₁ = some l.length) ∧
      (∀ (σ : Type) (iter : Field N → σ → Bool × σ) (st : σ) (beyond : Nat → Bytes),
        scan lib names iter heap₁ beyond p₁ st =
          some (visit iter (l.map fun e => ⟨e.1, bfield lib e.2⟩) st)) ∧
      ∃ heap₂ p₂ l₂, set lib names heap₁ c.beyond p₁ c.field = some (heap₂, p₂) ∧
        Decodes names heap₂ p₂ l₂ ∧
        (∀ name, name ≠ c.field.name →
          lookupEntry name l₂ = lookupEntry name l) ∧
        (c.field.value.isZero lib = true → l₂ = l.filter fun e => e.1 ≠ c.field.name) ∧
        (c.field.value.isZero lib = false → ∃ s, lookupEntry c.field.name l₂ = some s ∧
          (s = c.field.value.stored ∨ lookupEntry c.field.name l = some s ∧
            (bfield lib s).equals c.field.value = true)) ∧
        heap₁ <+: heap₂ ∧ Decodes names heap₂ p₁ l := by
  obtain ⟨hc, hcalls⟩ := forall_mem_cons.mp hnames
  rw [map_cons, sum_cons] at hsize
  have hempty := represents_empty names heap
  have hstart : (encode names (empty : FieldList).entries).length = 0 := rfl
  obtain ⟨heap₁, p₁, hrun, -, hrep, hlen⟩ := runSets_represents hcalls hempty (by omega)
  have hnoZero := noZero_foldl hbuilt (m := empty) (fun _ he => nomatch he)
  generalize calls.foldl (fun m c => FieldList.setField lib m c.field) empty = m
    at hrep hlen hnoZero
  obtain ⟨heap₂, p₂, hset, hheap, hrep₂, -⟩ :=
    set_returns lib hrep (hc.fits (by omega)) (by omega) c.beyond
  refine ⟨heap₁, p₁, m.entries, hrun, hrep.decodes, m.sorted, hnoZero, hrep.len, ?_, heap₂, p₂,
    _, hset, hrep₂.decodes, ?_, ?_, ?_, hheap, (hrep.mono hheap).decodes⟩
  · exact fun σ iter st beyond => hrep.scan beyond iter st
  · exact fun name hname => FieldList.get?_setField_ne hname
  · intro hzero
    rw [FieldList.setField_of_zero hzero]
    exact filter_congr fun e _ => decide_eq_decide.mpr Iff.rfl
  · intro hzero
    obtain ⟨s, hs, -, hfrom⟩ := FieldList.get?_setField_self m c.field.name hzero
    exact ⟨s, hs, hfrom.symm.imp And.left id⟩

theorem runSets_decodes_speed :
    let names := sharedNames [lit "speed", lit "color"]
    ∃ heap₁ p₁ l, runSets smallLib names ([], none)
        [⟨fun _ => [7, 7], ⟨lit "speed", valueOf smallLib (lit "90")⟩⟩] = some (heap₁, p₁) ∧
      Decodes names heap₁ p₁ l ∧ ∃ heap₂ p₂ l₂, set smallLib names heap₁ (fun _ => []) p₁
          ⟨lit "color", valueOf smallLib (lit "red")⟩ = some (heap₂, p₂) ∧
        Decodes names heap₂ p₂ l₂ ∧
        lookupEntry (lit "speed") l₂ = lookupEntry (lit "speed") l := by
  intro names
  have hstored : ∀ c' ∈ [(⟨fun _ => [], ⟨lit "color", valueOf smallLib (lit "red")⟩⟩ : SetCall ℤ),
      ⟨fun _ => [7, 7], ⟨lit "speed", valueOf smallLib (lit "90")⟩⟩], Storable names c'.field := by
    simp only [mem_cons, not_mem_nil, or_false, forall_eq_or_imp, forall_eq]
    exact ⟨⟨by decide, by decide⟩, ⟨by decide, by decide⟩⟩
  obtain ⟨heap₁, p₁, l, hrun, hl, -, -, -, -, heap₂, p₂, l₂, hset, hl₂, hothers, -⟩ :=
    runSets_decodes _ [] _ hstored
      (by simp only [mem_cons, not_mem_nil, or_false, forall_eq]; exact .guessed _)
      (by decide +kernel)
  exact ⟨heap₁, p₁, l, hrun, hl, heap₂, p₂, l₂, hset, hl₂, hothers (lit "speed") (by decide)⟩

/-! ## Shared strings -/

/-- The tables of `sstring`. -/
structure Shared where
  nums : OrdMap Bytes Nat := empty
  strs : List Bytes := []

namespace Shared

variable (s : Shared)

def load (num : Nat) : Option Bytes := s.strs[num]?

def store (str : Bytes) : Nat × Shared :=
  match s.nums.get? str with
  | some num => (num, s)
  | none => (s.strs.length, ⟨s.nums.set str s.strs.length, s.strs ++ [str]⟩)

def run (strs : List Bytes) : Shared := strs.foldl (fun s str => (s.store str).2) s

/-- The tables are inverse to each other. -/
def Inverse : Prop := ∀ str num, s.nums.get? str = some num ↔ s.load num = some str

variable {s : Shared}

theorem Inverse.store (h : s.Inverse) (str : Bytes) :
    (s.store str).2.Inverse ∧ s.strs <+: (s.store str).2.strs ∧
      (s.store str).2.load (s.store str).1 = some str := by
  cases hget : s.nums.get? str with
  | some num =>
    simp only [Shared.store, hget]
    exact ⟨h, prefix_rfl, (h str num).mp hget⟩
  | none =>
    simp only [Shared.store, hget, load, prefix_append, getElem?_concat_length, and_true]
    intro str' num
    have hold := h str' num
    simp only [load] at hold ⊢
    rw [get?_set, getElem?_append]
    have hstr := h str num
    simp only [load] at hstr
    grind

theorem load_of_prefix {s' : Shared} (h : s.strs <+: s'.strs) {num : Nat} {str : Bytes}
    (hload : s.load num = some str) : s'.load num = some str := by
  obtain ⟨more, hmore⟩ := h
  have hlt := (List.getElem?_eq_some_iff.mp hload).1
  rwa [load, ← hmore, getElem?_append_left hlt]

theorem Inverse.run (h : s.Inverse) (strs : List Bytes) :
    (s.run strs).Inverse ∧ s.strs <+: (s.run strs).strs := by
  induction strs generalizing s with
  | nil => exact ⟨h, prefix_rfl⟩
  | cons str strs ih =>
    obtain ⟨hstore, hgrow, -⟩ := h.store str
    exact ⟨(ih hstore).1, hgrow.trans (ih hstore).2⟩

/-- **A number that `Store` gives out stands for its string from then on,
whoever stores what: `Load` gives the string, `Store` the number, and no other
string gets it.  The field lists read this table.** -/
theorem run_store (before after : List Bytes) (str str' : Bytes) :
    let r := (run {} before).store str
    let s := r.2.run after
    s.load r.1 = some str ∧ s.store str = (r.1, s) ∧ ((s.store str').1 = r.1 → str' = str) ∧
      (sharedNames s.strs).num str = r.1 ∧ (sharedNames s.strs).load r.1 = str := by
  intro r s
  have hnew : Inverse {} := by simp [Inverse, load]
  obtain ⟨hr, -, hnum⟩ := (hnew.run before).1.store str
  obtain ⟨hs, hgrow⟩ := hr.run after
  have hload : s.load r.1 = some str := load_of_prefix hgrow hnum
  have hget := (hs str r.1).mpr hload
  refine ⟨hload, by rw [store, hget], fun heq => ?_, ?_, ?_⟩
  · obtain ⟨-, hgrow', hnum'⟩ := hs.store str'
    rw [heq, load_of_prefix hgrow' hload] at hnum'
    exact (some.inj hnum').symm
  · have hidx : s.load (s.strs.idxOf str) = some str := getElem?_idxOf (mem_of_getElem? hload)
    rw [← hs, hget] at hidx
    exact (some.inj hidx).symm
  · show s.strs.getD r.1 [] = str
    rw [getD_eq_getElem?_getD, show s.strs[r.1]? = some str from hload, getD_some]

end Shared

end SpatialDb.Server.FieldBytes
