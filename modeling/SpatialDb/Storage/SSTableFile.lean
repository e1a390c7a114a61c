import SpatialDb.Lib.Codec
import SpatialDb.Storage.Lsm

/-!
# SSTable files

Model of `SSTable::write` and `SSTable::load` of `cpp/storage/lsm_tree.cpp`: an
entry count and the entries, each with a key length of two bytes and a value
length of four.  The lengths are cut to these widths, and a tombstone's value
is not written.
-/

namespace SpatialDb.Storage.Lsm

open Lib List

/-! ## Entries -/

namespace LSMEntry

variable (e : LSMEntry)

/-- `klen`, a `uint16_t`. -/
def keyLen : Nat := e.key.length % 2 ^ 16

/-- `vlen`, a `uint32_t`. -/
def valueLen : Nat := e.value.length % 2 ^ 32

/-- The bytes `write` sends to the file for one entry. -/
def encode : Bytes :=
  encodeLE 2 e.keyLen ++ (e.key.take e.keyLen ++
    (encodeLE 1 (if e.deleted then 1 else 0) ++ (encodeLE 4 e.valueLen ++
      ((if e.deleted then [] else e.value.take e.valueLen) ++ encodeLE 8 e.seqNum))))

/-- What comes back for one written entry. -/
def reread : LSMEntry :=
  { e with
    key := e.key.take e.keyLen
    value := if e.deleted then [] else e.value.take e.valueLen }

/-- The key and a live value are within the widths of their lengths, and a
tombstone has no value. -/
def Fits : Prop :=
  e.key.length < 2 ^ 16 ∧ if e.deleted then e.value = [] else e.value.length < 2 ^ 32

end LSMEntry

/-- One round of `load`'s loop. -/
def readEntry (bs : Bytes) : Option (LSMEntry × Bytes) := do
  let (klen, bs) ← readLE 2 bs
  let (key, bs) ← readBytes klen bs
  let (del, bs) ← readLE 1 bs
  let deleted := decide (del ≠ 0)
  let (vlen, bs) ← readLE 4 bs
  let (value, bs) ← if deleted then some ([], bs) else readBytes vlen bs
  let (seqNum, bs) ← readLE 8 bs
  some ({ key, value, deleted, seqNum }, bs)

theorem take_mod_eq_self_iff (l : Bytes) {n : Nat} (hn : 0 < n) :
    l.take (l.length % n) = l ↔ l.length < n := by
  rw [take_eq_self_iff]
  constructor
  · intro hle
    exact hle.trans_lt (Nat.mod_lt _ hn)
  · intro hlt
    rw [Nat.mod_eq_of_lt hlt]

theorem length_take_mod (l : Bytes) (n : Nat) : (l.take (l.length % n)).length = l.length % n :=
  length_take_of_le (Nat.mod_le _ _)

/-- The writer and the reader on one entry, whatever follows it. -/
theorem readEntry_encode {e : LSMEntry} (hseq : e.seqNum < 2 ^ 64) (rest : Bytes) :
    readEntry (e.encode ++ rest) = some (e.reread, rest) := by
  have hkey : e.keyLen % 256 ^ 2 = e.keyLen := Nat.mod_eq_of_lt (Nat.mod_lt _ (by decide))
  have hvalue : e.valueLen % 256 ^ 4 = e.valueLen := Nat.mod_eq_of_lt (Nat.mod_lt _ (by decide))
  have hkeyLen : (e.key.take e.keyLen).length = e.keyLen := length_take_mod e.key _
  unfold readEntry LSMEntry.encode LSMEntry.reread
  simp only [append_assoc, readLE_append, Option.bind_eq_bind, Option.bind_some, hkey]
  rw [readBytes_append hkeyLen]
  simp only [Option.bind_some, readLE_append, hvalue]
  cases hdel : e.deleted with
  | true => simpa [readLE_append] using hseq
  | false =>
    have hread : readBytes e.valueLen
        (e.value.take e.valueLen ++ (encodeLE 8 e.seqNum ++ rest)) =
          some (e.value.take e.valueLen, encodeLE 8 e.seqNum ++ rest) :=
      readBytes_append (length_take_mod e.value _) _
    simpa [hread, readLE_append] using hseq

theorem reread_eq_self_iff (e : LSMEntry) : e.reread = e ↔ e.Fits := by
  unfold LSMEntry.reread LSMEntry.Fits
  obtain ⟨key, value, deleted, seq⟩ := e
  simp only [LSMEntry.mk.injEq, LSMEntry.keyLen, LSMEntry.valueLen, and_true,
    take_mod_eq_self_iff key (Nat.two_pow_pos 16)]
  cases deleted with
  | true => simp [eq_comm]
  | false => simp [take_mod_eq_self_iff value (Nat.two_pow_pos 32)]

/-! ## Tables -/

namespace SSTable

variable (entries : List LSMEntry)

/-- The file that `write` leaves. -/
def write : Bytes :=
  encodeLE 8 entries.length ++ entries.flatMap LSMEntry.encode

/-- The constructor that only takes a path. -/
def ofPath : SSTable := ⟨[], [], [], false⟩

/-- `load` on the bytes of the file; the loop stops at the first short read. -/
def load (s : SSTable) (file : Bytes) : Bool × SSTable :=
  match readLE 8 file with
  | none => (false, s)
  | some (count, body) =>
    let entries := readAllFuel readEntry count body
    (true, { minKey := (entries.head?.map LSMEntry.key).getD s.minKey
             maxKey := (entries.getLast?.map LSMEntry.key).getD s.maxKey
             entries := entries
             loaded := true })

theorem readAllFuel_encode {entries : List LSMEntry} (hseq : ∀ e ∈ entries, e.seqNum < 2 ^ 64)
    (count : Nat) :
    readAllFuel readEntry count (entries.flatMap LSMEntry.encode) =
      (entries.map LSMEntry.reread).take count := by
  induction count generalizing entries with
  | zero => rfl
  | succ count ih =>
    cases entries with
    | nil => rfl
    | cons e entries =>
      rw [flatMap_cons, readAllFuel, readEntry_encode (hseq e mem_cons_self)]
      rw [map_cons, take_succ_cons, ← ih (forall_mem_cons.mp hseq).2]

/-- What `load` makes of a written table. -/
theorem load_write {entries : List LSMEntry} (hseq : ∀ e ∈ entries, e.seqNum < 2 ^ 64) :
    ofPath.load (write entries) =
      let loaded := (entries.map LSMEntry.reread).take (entries.length % 2 ^ 64)
      (true, { minKey := (loaded.head?.map LSMEntry.key).getD []
               maxKey := (loaded.getLast?.map LSMEntry.key).getD []
               entries := loaded
               loaded := true }) := by
  have h8 : (256 : Nat) ^ 8 = 2 ^ 64 := rfl
  unfold load write
  rw [readLE_append, h8]
  dsimp only
  rw [readAllFuel_encode hseq]
  rfl

/-- The entries come back unchanged when each fits, and their number does. -/
theorem reread_all_iff :
    (entries.map LSMEntry.reread).take (entries.length % 2 ^ 64) = entries ↔
      entries.length < 2 ^ 64 ∧ ∀ e ∈ entries, e.Fits := by
  have hall : entries.map LSMEntry.reread = entries ↔ ∀ e ∈ entries, e.Fits := by
    conv_lhs => rw [← map_id entries, map_map]
    rw [map_inj_left]
    exact forall₂_congr fun e _ => reread_eq_self_iff e
  constructor
  · intro h
    have hlen := congrArg List.length h
    rw [length_take, length_map] at hlen
    have hlt : entries.length < 2 ^ 64 := by
      omega
    refine ⟨hlt, hall.mp ?_⟩
    rwa [Nat.mod_eq_of_lt hlt, take_of_length_le (by simp)] at h
  · rintro ⟨hlt, hfits⟩
    rw [Nat.mod_eq_of_lt hlt, hall.mpr hfits, take_length]

/-- **A table of any entries that is written and loaded again lists its entries
and answers every `get` as before if and only if there are fewer than `2 ^ 64`
entries, every key is shorter than `2 ^ 16` bytes, every live value is shorter
than `2 ^ 32` bytes and every tombstone has an empty value.** -/
theorem load_write_iff (entries : List LSMEntry) (hseq : ∀ e ∈ entries, e.seqNum < 2 ^ 64) :
    let table := SSTable.new entries
    let r := ofPath.load (write table.entries)
    (r.1 = true ∧ r.2.entries = table.entries ∧ ∀ key, r.2.get key = table.get key) ↔
      entries.length < 2 ^ 64 ∧ ∀ e ∈ entries, e.Fits := by
  intro table r
  have hperm : table.entries.Perm entries := perm_insertionSort _ entries
  have hload : r = _ := load_write fun e he => hseq e (hperm.mem_iff.mp he)
  have hiff := reread_all_iff table.entries
  rw [hperm.length_eq] at hiff
  rw [hload, hperm.length_eq]
  constructor
  · rintro ⟨-, hentries, -⟩
    obtain ⟨hlen, hfits⟩ := hiff.mp hentries
    exact ⟨hlen, fun e he => hfits e (hperm.mem_iff.mpr he)⟩
  · rintro ⟨hlen, hfits⟩
    rw [hiff.mpr ⟨hlen, fun e he => hfits e (hperm.mem_iff.mp he)⟩]
    exact ⟨rfl, rfl, fun key => rfl⟩

/-- A live entry and a tombstone come back. -/
theorem load_write_iff_two :
    let entries : List LSMEntry := [⟨lit "b", lit "1", false, 1⟩, ⟨lit "a", [], true, 2⟩]
    let r := ofPath.load (write (SSTable.new entries).entries)
    r.2.get (lit "b") = (SSTable.new entries).get (lit "b") := by
  intro entries r
  refine ((load_write_iff entries ?_).mpr ⟨?_, ?_⟩).2.2 (lit "b")
  · decide
  · decide
  · intro e he
    rcases mem_cons.mp he with rfl | he
    · exact ⟨by decide, by decide⟩
    · cases mem_singleton.mp he
      exact ⟨by decide, rfl⟩

theorem get_new_singleton (e : LSMEntry) : (SSTable.new [e]).get e.key = some e := by
  simp [SSTable.new, SSTable.get, SSTable.lowerBound]

theorem load_write_singleton {e : LSMEntry} (hseq : e.seqNum < 2 ^ 64) :
    ofPath.load (write (SSTable.new [e]).entries) =
      (true, ⟨e.reread.key, e.reread.key, [e.reread], true⟩) := by
  have hall : ∀ x ∈ (SSTable.new [e]).entries, x.seqNum < 2 ^ 64 := by
    intro x hx
    cases mem_singleton.mp hx
    exact hseq
  exact load_write hall

/-- A key of `2 ^ 16` bytes comes back as the empty key: the loaded table does
not find it. -/
theorem load_loses_long_key :
    let e : LSMEntry := ⟨List.replicate (2 ^ 16) 97, lit "1", false, 1⟩
    let table := SSTable.new [e]
    let r := ofPath.load (write table.entries)
    table.get e.key = some e ∧ r = (true, ⟨[], [], [{ e with key := [] }], true⟩) ∧
      r.2.get e.key = none := by
  intro e table r
  have hlen : e.key.length = 2 ^ 16 := length_replicate
  have hreread : e.reread = { e with key := [] } := by
    have hcut : e.keyLen = 0 := by
      unfold LSMEntry.keyLen
      rw [hlen, Nat.mod_self]
    unfold LSMEntry.reread
    rw [hcut]
    rfl
  have hload : r = (true, ⟨[], [], [{ e with key := [] }], true⟩) := by
    rw [← hreread]
    refine (load_write_singleton (by decide)).trans ?_
    rw [hreread]
  refine ⟨get_new_singleton e, hload, ?_⟩
  have hlt : [] < e.key := by
    cases hkey : e.key with
    | nil =>
      rw [hkey] at hlen
      cases hlen
    | cons b key => exact nil_lt_cons b key
  rw [hload]
  unfold SSTable.get
  rw [if_pos]
  simp [hlt]

end SSTable

end SpatialDb.Storage.Lsm
