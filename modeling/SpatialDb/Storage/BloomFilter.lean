import SpatialDb.Lib.BitPack
import SpatialDb.Lib.Codec

/-!
# The bloom filter

Model of `cpp/storage/bloom_filter.cpp`.  `std::vector<bool>` is a list of
bits whose length is a `size_t`; hashes are computed in `uint64_t` and wrap.
The expected number of items and the target rate are not modelled: only the
estimates made in doubles read them.
-/

namespace SpatialDb.Storage.Bloom

open Lib List

variable (key : Bytes)

/-- `BloomFilter`. -/
structure BloomFilter where
  bits : List Bool
  numHashes : Int32
  insertCount : UInt64
  size_lt : bits.length < 2 ^ 64
  deriving DecidableEq

/-- `BloomFilter(size_t num_bits, int num_hashes)`. -/
def BloomFilter.make (numBits : UInt64) (numHashes : Int32) : BloomFilter where
  bits := List.replicate numBits.toNat false
  numHashes := numHashes
  insertCount := 0
  size_lt := by
    rw [List.length_replicate]
    exact numBits.toNat_lt

/-! ## Hashes -/

/-- FNV-1a. -/
def hash1 (key : Bytes) : UInt64 :=
  key.foldl (fun h c => (h ^^^ c.toUInt64) * 1099511628211) 14695981039346656037

/-- djb2. -/
def hash2 (key : Bytes) : UInt64 :=
  key.foldl (fun h c => ((h <<< 5) + h) + c.toUInt64) 5381

/-- Double hashing: the bit of round `i` in a filter of `size` bits. -/
def bitIndex (size : Nat) (i : Nat) (key : Bytes) : Nat :=
  (hash1 key + UInt64.ofNat i * hash2 key).toNat % size

namespace BloomFilter

variable (f : BloomFilter)

/-- The rounds of the loops over `int i` with `i < num_hashes_`. -/
def rounds : List Nat := List.range f.numHashes.toInt.toNat

variable (key : Bytes)

/-- One round of `insert`. -/
def setBit (bits : List Bool) (i : Nat) : List Bool :=
  bits.set (bitIndex bits.length i key) true

theorem length_foldl_setBit (rounds : List Nat) (bits : List Bool) :
    (rounds.foldl (setBit key) bits).length = bits.length := by
  induction rounds generalizing bits with
  | nil => rfl
  | cons i rounds ih => rw [foldl_cons, ih, setBit, length_set]

def insert : BloomFilter where
  bits := f.rounds.foldl (setBit key) f.bits
  numHashes := f.numHashes
  insertCount := f.insertCount + 1
  size_lt := by rw [length_foldl_setBit]; exact f.size_lt

def mayContain : Bool :=
  f.rounds.all fun i => f.bits.getD (bitIndex f.bits.length i key) false

def clear : BloomFilter where
  bits := List.replicate f.bits.length false
  numHashes := f.numHashes
  insertCount := 0
  size_lt := by rw [List.length_replicate]; exact f.size_lt

/-- The header (`num_bits`, `num_hashes`, `insert_count`) and the packed bits. -/
def serialize : Bytes :=
  encodeLE 8 f.bits.length ++ (encodeLE 4 f.numHashes.toUInt32.toNat ++
    (encodeLE 8 f.insertCount.toNat ++ packBits f.bits))

def deserialize (data : Bytes) : Except String BloomFilter :=
  if data.length < 20 then .error "bloom: data too short"
  else
    let nb := UInt64.ofNat (decodeLE (data.take 8))
    let nh := UInt32.ofNat (decodeLE ((data.drop 8).take 4))
    let ic := UInt64.ofNat (decodeLE ((data.drop 12).take 8))
    .ok { bits := unpackBits nb.toNat (data.drop 20)
          numHashes := nh.toInt32
          insertCount := ic
          size_lt := by rw [length_unpackBits]; exact nb.toNat_lt }

/-! ## Inserting -/

/-- `f` has every bit of `g`, and is asked in the same places. -/
structure Covers (f g : BloomFilter) : Prop where
  length : f.bits.length = g.bits.length
  hashes : f.numHashes = g.numHashes
  bits : ∀ i, g.bits.getD i false = true → f.bits.getD i false = true

variable {f : BloomFilter} {data : Bytes}

theorem mayContain_of_covers {g : BloomFilter} (h : Covers f g) {key : Bytes}
    (hg : g.mayContain key = true) : f.mayContain key = true := by
  simp only [mayContain, rounds, all_eq_true] at hg ⊢
  rw [h.hashes, h.length]
  intro i hi
  exact h.bits _ (hg i hi)

/-- A round of `insert` only sets bits. -/
theorem getD_setBit (bits : List Bool) (i : Nat) {j : Nat}
    (h : bits.getD j false = true) : (setBit key bits i).getD j false = true := by
  rw [setBit, getD_eq_getElem?_getD, getElem?_set]
  rw [getD_eq_getElem?_getD] at h
  split
  · split
    · rfl
    rename_i heq hge
    rw [← heq, getElem?_eq_none (Nat.le_of_not_lt hge)] at h
    exact absurd h (by decide)
  · exact h

theorem getD_foldl_setBit (rounds : List Nat) (bits : List Bool) {j : Nat}
    (h : bits.getD j false = true) : (rounds.foldl (setBit key) bits).getD j false = true := by
  induction rounds generalizing bits with
  | nil => exact h
  | cons i rounds ih => exact ih _ (getD_setBit key bits i h)

theorem getD_setBit_self {bits : List Bool} (hpos : 0 < bits.length) (i : Nat) :
    (setBit key bits i).getD (bitIndex bits.length i key) false = true := by
  have hlt : bitIndex bits.length i key < bits.length := Nat.mod_lt _ hpos
  rw [setBit, getD_eq_getElem?_getD, getElem?_set_self hlt]
  rfl

/-- After the loop of `insert` the bit of each of its rounds is set. -/
theorem getD_foldl_setBit_of_mem {rounds : List Nat} {bits : List Bool}
    (hpos : 0 < bits.length) {i : Nat} (hi : i ∈ rounds) :
    (rounds.foldl (setBit key) bits).getD (bitIndex bits.length i key) false = true := by
  induction rounds generalizing bits with
  | nil => cases hi
  | cons r rounds ih =>
    have hlen : (setBit key bits r).length = bits.length := length_set
    cases hi with
    | head => exact getD_foldl_setBit key rounds _ (getD_setBit_self key hpos i)
    | tail _ hi =>
      have h := ih (by rw [hlen]; exact hpos) hi
      rwa [hlen] at h

theorem insert_covers (f : BloomFilter) (key : Bytes) : Covers (f.insert key) f :=
  ⟨length_foldl_setBit key f.rounds f.bits, rfl, fun _ h => getD_foldl_setBit key f.rounds f.bits h⟩

theorem mayContain_insert (hpos : 0 < f.bits.length) (key : Bytes) :
    (f.insert key).mayContain key = true := by
  simp only [mayContain, all_eq_true]
  intro i hi
  show (f.rounds.foldl (setBit key) f.bits).getD
    (bitIndex (f.rounds.foldl (setBit key) f.bits).length i key) false = true
  rw [length_foldl_setBit]
  exact getD_foldl_setBit_of_mem key hpos hi

/-! ## The round trip -/

/-- The parts of a serialised filter, where `deserialize` looks for them. -/
theorem serialize_parts (f : BloomFilter) :
    f.serialize.take 8 = encodeLE 8 f.bits.length ∧
    (f.serialize.drop 8).take 4 = encodeLE 4 f.numHashes.toUInt32.toNat ∧
    (f.serialize.drop 12).take 8 = encodeLE 8 f.insertCount.toNat ∧
    f.serialize.drop 20 = packBits f.bits := by
  have hdrop8 : f.serialize.drop 8 = _ := drop_left' (length_encodeLE 8 f.bits.length)
  have hdrop12 : f.serialize.drop 12 = encodeLE 8 f.insertCount.toNat ++ packBits f.bits := by
    rw [show 12 = 8 + 4 from rfl, ← drop_drop, hdrop8]
    exact drop_left' (length_encodeLE 4 _)
  have hdrop20 : f.serialize.drop 20 = packBits f.bits := by
    rw [show 20 = 12 + 8 from rfl, ← drop_drop, hdrop12]
    exact drop_left' (length_encodeLE 8 _)
  refine ⟨take_left' (length_encodeLE 8 _), ?_, ?_, hdrop20⟩
  · rw [hdrop8]
    exact take_left' (length_encodeLE 4 _)
  · rw [hdrop12]
    exact take_left' (length_encodeLE 8 _)

theorem deserialize_serialize (f : BloomFilter) : deserialize f.serialize = .ok f := by
  have hlen : ¬ f.serialize.length < 20 := by
    simp only [serialize, length_append, length_encodeLE]
    omega
  obtain ⟨hnb, hnh, hic, hbits⟩ := serialize_parts f
  have pow8 : 256 ^ 8 = 2 ^ 64 := by decide
  have pow4 : 256 ^ 4 = 2 ^ 32 := by decide
  have hsize : (UInt64.ofNat (decodeLE (encodeLE 8 f.bits.length))).toNat = f.bits.length := by
    rw [decodeLE_encodeLE, pow8, Nat.mod_eq_of_lt f.size_lt]
    exact UInt64.toNat_ofNat_of_lt f.size_lt
  have hhashes : (UInt32.ofNat (decodeLE (encodeLE 4 f.numHashes.toUInt32.toNat))).toInt32 =
      f.numHashes := by
    rw [decodeLE_encodeLE, pow4, Nat.mod_eq_of_lt f.numHashes.toUInt32.toNat_lt, UInt32.ofNat_toNat]
    exact Int32.toInt32_toUInt32 _
  have hcount : UInt64.ofNat (decodeLE (encodeLE 8 f.insertCount.toNat)) = f.insertCount := by
    rw [decodeLE_encodeLE, pow8, Nat.mod_eq_of_lt f.insertCount.toNat_lt, UInt64.ofNat_toNat]
  simp only [deserialize, if_neg hlen, hnb, hnh, hic, hbits, hsize, hhashes, hcount,
    unpackBits_packBits]

/-! ## Reading arbitrary bytes -/

/-- `nb`, the number of bits in the header. -/
def headerBits (data : Bytes) : Nat := decodeLE (data.take 8)

/-- `(int)nh`, the number of hashes in the header. -/
def headerHashes (data : Bytes) : Int32 :=
  (UInt32.ofNat (decodeLE ((data.drop 8).take 4))).toInt32

/-- `deserialize` where `bits_.assign` can throw: `alloc` says for which sizes
it does not. -/
def deserializeWith (alloc : Nat → Bool) (data : Bytes) : Except String BloomFilter := do
  let f ← deserialize data
  if alloc f.bits.length then .ok f else .error "std::bad_alloc"

theorem decodeLE_take_lt (width : Nat) (data : Bytes) :
    decodeLE (data.take width) < 256 ^ width := by
  have hlt := decodeLE_lt (data.take width)
  have hpow : 256 ^ (data.take width).length ≤ 256 ^ width :=
    Nat.pow_le_pow_right (by decide) (length_take_le width data)
  exact Nat.lt_of_lt_of_le hlt hpow

/-- What `deserialize` returns, for data with a whole header. -/
theorem deserialize_eq (h : ¬ data.length < 20) :
    ∃ f, deserialize data = .ok f ∧ f.bits = unpackBits (headerBits data) (data.drop 20) ∧
      f.numHashes = headerHashes data ∧
      f.insertCount = UInt64.ofNat (decodeLE ((data.drop 12).take 8)) := by
  have hsize : (UInt64.ofNat (decodeLE (data.take 8))).toNat = headerBits data :=
    UInt64.toNat_ofNat_of_lt (decodeLE_take_lt 8 data)
  refine ⟨_, if_neg h, ?_, rfl, rfl⟩
  simp only [hsize]

/-- A field of the header, written again. -/
theorem encodeLE_take {width : Nat} (h : width ≤ data.length) :
    encodeLE width (decodeLE (data.take width)) = data.take width := by
  have hlen : (data.take width).length = width := length_take_of_le h
  have hround := encodeLE_decodeLE (data.take width)
  rwa [hlen] at hround

/-- The header is written back as it was read; what follows it is the packed
form of the bits that were read. -/
theorem serialize_eq_of_deserialize (h : ¬ data.length < 20) (hf : deserialize data = .ok f) :
    f.serialize = data.take 20 ++ packBits (unpackBits (headerBits data) (data.drop 20)) := by
  obtain ⟨g, hg, hbits, hhashes, hcount⟩ := deserialize_eq h
  obtain rfl : g = f := Except.ok.inj (hg.symm.trans hf)
  have hlen4 : 4 ≤ (data.drop 8).length := by rw [length_drop]; omega
  have hlen8 : 8 ≤ (data.drop 12).length := by rw [length_drop]; omega
  have hnh : (headerHashes data).toUInt32.toNat = decodeLE ((data.drop 8).take 4) := by
    rw [headerHashes, UInt32.toUInt32_toInt32]
    exact UInt32.toNat_ofNat_of_lt (decodeLE_take_lt 4 _)
  have hic : (UInt64.ofNat (decodeLE ((data.drop 12).take 8))).toNat =
      decodeLE ((data.drop 12).take 8) := UInt64.toNat_ofNat_of_lt (decodeLE_take_lt 8 _)
  have htake : data.take 20 = data.take 8 ++ ((data.drop 8).take 4 ++ (data.drop 12).take 8) := by
    rw [show 20 = 8 + (4 + 8) from rfl, take_add, take_add, drop_drop]
  rw [serialize, hbits, length_unpackBits, hhashes, hcount, hnh, hic, headerBits,
    encodeLE_take (by omega), encodeLE_take hlen4, encodeLE_take hlen8, htake]
  simp only [append_assoc]

theorem serialize_deserialize_iff (h : ¬ data.length < 20) (hf : deserialize data = .ok f) :
    f.serialize = data ↔ Packed (headerBits data) (data.drop 20) := by
  rw [serialize_eq_of_deserialize h hf, ← packBits_unpackBits_iff]
  constructor
  · intro heq
    exact append_cancel_left (heq.trans (take_append_drop 20 data).symm)
  · intro heq
    rw [heq, take_append_drop]

/-- A filter that can be asked: it has a bit to look at, and the number of
hashes is one that the constructor for an expected size chooses. -/
structure Askable (f : BloomFilter) : Prop where
  size_pos : 0 < f.bits.length
  one_le : 1 ≤ f.numHashes.toInt
  le_cap : f.numHashes.toInt ≤ 64

/-- What `deserialize` would have to check of the data. -/
structure WellFormed (data : Bytes) : Prop where
  bits_pos : 0 < headerBits data
  one_le : 1 ≤ (headerHashes data).toInt
  le_cap : (headerHashes data).toInt ≤ 64
  packed : Packed (headerBits data) (data.drop 20)

/-- Data is refused, or read as a filter that can be asked and is written back
as the same bytes, exactly if the header is cut off, or the bits do not fit in
memory, or the data is well-formed. -/
theorem deserializeWith_sound_iff (alloc : Nat → Bool) (data : Bytes) :
    (∀ f, deserializeWith alloc data = .ok f → Askable f ∧ f.serialize = data) ↔
      data.length < 20 ∨ alloc (headerBits data) = false ∨ WellFormed data := by
  by_cases hshort : data.length < 20
  · have herr : deserializeWith alloc data = .error "bloom: data too short" := by
      rw [deserializeWith, deserialize, if_pos hshort]
      rfl
    simp [hshort, herr]
  obtain ⟨f, hf, hbits, hhashes, -⟩ := deserialize_eq hshort
  have hlen : f.bits.length = headerBits data := by rw [hbits, length_unpackBits]
  have hwith : deserializeWith alloc data =
      if alloc (headerBits data) then .ok f else .error "std::bad_alloc" := by
    rw [deserializeWith, hf, ← hlen]
    rfl
  have hback := serialize_deserialize_iff hshort hf
  rw [hwith]
  cases halloc : alloc (headerBits data) with
  | false => simp
  | true =>
    simp only [if_true, Except.ok.injEq, forall_eq', hshort, false_or, reduceCtorEq]
    constructor
    · rintro ⟨⟨hpos, hone, hcap⟩, hser⟩
      rw [hlen] at hpos
      rw [hhashes] at hone hcap
      exact ⟨hpos, hone, hcap, hback.mp hser⟩
    · rintro ⟨hpos, hone, hcap, hpacked⟩
      rw [← hlen] at hpos
      rw [← hhashes] at hone hcap
      exact ⟨⟨hpos, hone, hcap⟩, hback.mpr hpacked⟩

/-- Twenty zero bytes are read as a filter without bits; and a filter cut off
after its header is read as one that denies a key it was given. -/
theorem deserialize_accepts_damaged :
    (∃ f, deserialize (List.replicate 20 0) = .ok f ∧ f.bits.length = 0 ∧ f.numHashes = 0) ∧
    (∃ f, deserialize (((make 11 2).insert (lit "a")).serialize.take 20) = .ok f ∧
      ((make 11 2).insert (lit "a")).mayContain (lit "a") = true ∧
      f.mayContain (lit "a") = false) := by
  refine ⟨⟨make 0 0, ?_, ?_⟩, { make 11 2 with insertCount := 1 }, ?_, ?_⟩ <;> decide

/-! ## Histories -/

end BloomFilter

/-- What can happen to a filter. -/
inductive Op where
  | insert (key : Bytes)
  | clear
  | roundTrip
  deriving DecidableEq

def Op.apply (f : BloomFilter) : Op → Except String BloomFilter
  | .insert key => .ok (f.insert key)
  | .clear => .ok f.clear
  | .roundTrip => BloomFilter.deserialize f.serialize

def run (f : BloomFilter) (ops : List Op) : Except String BloomFilter := ops.foldlM Op.apply f

/-- The keys inserted after the last `clear`, on top of `keys`. -/
def keysSince (keys : List Bytes) : List Op → List Bytes
  | [] => keys
  | .insert key :: ops => keysSince (key :: keys) ops
  | .clear :: ops => keysSince [] ops
  | .roundTrip :: ops => keysSince keys ops

/-- `f` answers yes for each of `keys`. -/
structure Contains (f : BloomFilter) (keys : List Bytes) : Prop where
  size_pos : 0 < f.bits.length
  mayContain : ∀ key ∈ keys, f.mayContain key = true

variable {f : BloomFilter} {keys : List Bytes}

theorem Contains.insert (h : Contains f keys) (key : Bytes) :
    Contains (f.insert key) (key :: keys) where
  size_pos := by
    rw [(BloomFilter.insert_covers f key).length]
    exact h.size_pos
  mayContain := by
    intro k hk
    cases hk with
    | head => exact BloomFilter.mayContain_insert h.size_pos key
    | tail _ hk =>
      exact BloomFilter.mayContain_of_covers (BloomFilter.insert_covers f key) (h.mayContain k hk)

theorem Contains.clear (h : Contains f keys) : Contains f.clear [] where
  size_pos := by
    show 0 < (List.replicate f.bits.length false).length
    rw [length_replicate]
    exact h.size_pos
  mayContain := fun _ hk => by cases hk

theorem run_contains (h : Contains f keys) (ops : List Op) :
    ∃ g, run f ops = .ok g ∧ Contains g (keysSince keys ops) := by
  induction ops generalizing f keys with
  | nil => exact ⟨f, rfl, h⟩
  | cons op ops ih =>
    cases op with
    | insert key => exact ih (h.insert key)
    | clear => exact ih h.clear
    | roundTrip =>
      obtain ⟨g, hrun, hg⟩ := ih h
      refine ⟨g, ?_, hg⟩
      rw [← hrun]
      simp only [run, foldlM_cons, Op.apply, BloomFilter.deserialize_serialize]
      rfl

/-- No history fails, loses a key, or is changed by writing the filter out
and reading it back. -/
theorem mayContain_run (f : BloomFilter) (hpos : 0 < f.bits.length) (ops : List Op) :
    ∃ g, run f ops = .ok g ∧ (∀ key ∈ keysSince [] ops, g.mayContain key = true) ∧
      ∃ g', BloomFilter.deserialize g.serialize = .ok g' ∧
        (∀ key, g'.mayContain key = g.mayContain key) ∧ g'.insertCount = g.insertCount := by
  have hempty : Contains f [] := ⟨hpos, fun _ hk => by cases hk⟩
  obtain ⟨g, hrun, hg⟩ := run_contains hempty ops
  exact ⟨g, hrun, hg.mayContain, g, BloomFilter.deserialize_serialize g, fun _ => rfl, rfl⟩

theorem mayContain_run_eleven_bits :
    0 < (BloomFilter.make 11 2).bits.length ∧
    ∃ g, run (BloomFilter.make 11 2) [.insert (lit "a"), .roundTrip, .insert (lit "b")] = .ok g ∧
      g.mayContain (lit "a") = true ∧ g.mayContain (lit "b") = true := by
  have hpos : 0 < (BloomFilter.make 11 2).bits.length := by decide
  obtain ⟨g, hrun, hkeys, -⟩ := mayContain_run (BloomFilter.make 11 2) hpos
    [.insert (lit "a"), .roundTrip, .insert (lit "b")]
  exact ⟨hpos, g, hrun, hkeys _ (by decide), hkeys _ (by decide)⟩

end SpatialDb.Storage.Bloom
