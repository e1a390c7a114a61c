import SpatialDb.Lib.Bytes
import SpatialDb.Lib.OrdMap

/-!
# The LSM tree

Model of `cpp/storage/lsm_tree.cpp`: a memtable, a list of immutable sorted
tables (oldest first) and a sequence counter.  Reads ask the memtable and
then the tables from the newest to the oldest; compaction merges all tables
into one.

`size_t` and `uint64_t` counters wrap at `2 ^ 64`.  The SSTable files are
not modelled here: without a restart every read is served from memory.
-/

namespace SpatialDb.Storage.Lsm

open Lib List Option OrdMap

/-- `LSMEntry`. -/
structure LSMEntry where
  key : Bytes
  value : Bytes
  deleted : Bool
  seqNum : Nat
  deriving DecidableEq

/-! ## Memtable -/

/-- `MemTable`: the newest entry of each key, with a running size estimate. -/
structure MemTable where
  entries : OrdMap Bytes LSMEntry
  sizeBytes : Nat
  maxSizeBytes : Nat

namespace MemTable

def new (maxSize : Nat) : MemTable := ⟨empty, 0, maxSize⟩

variable (m : MemTable)

def put (key value : Bytes) (seq : Nat) : MemTable :=
  { m with
    sizeBytes := (m.sizeBytes + (key.length + value.length)) % 2 ^ 64
    entries := m.entries.set key ⟨key, value, false, seq⟩ }

def del (key : Bytes) (seq : Nat) : MemTable :=
  { m with entries := m.entries.set key ⟨key, [], true, seq⟩ }

def get (key : Bytes) : Option LSMEntry := m.entries.get? key

def isFull : Bool := m.sizeBytes ≥ m.maxSizeBytes

def flush : List LSMEntry := m.entries.values

def clear : MemTable :=
  { m with entries := empty, sizeBytes := 0 }

end MemTable

/-! ## Sorted tables -/

/-- `SSTable`: an immutable vector sorted by key, with its key range. -/
structure SSTable where
  minKey : Bytes
  maxKey : Bytes
  entries : List LSMEntry
  loaded : Bool
  deriving DecidableEq

namespace SSTable

/-- The constructor that sorts and adopts `entries`. -/
def new (entries : List LSMEntry) : SSTable :=
  let sorted := entries.insertionSort fun a b => a.key ≤ b.key
  { minKey := (sorted.head?.map LSMEntry.key).getD []
    maxKey := (sorted.getLast?.map LSMEntry.key).getD []
    entries := sorted
    loaded := true }

variable (s : SSTable)

/-- `std::lower_bound`: the suffix from the first entry not below `key`. -/
def lowerBound (key : Bytes) : List LSMEntry :=
  s.entries.dropWhile fun e => e.key < key

def get (key : Bytes) : Option LSMEntry :=
  if !s.loaded || key < s.minKey || key > s.maxKey then none
  else match s.lowerBound key with
    | e :: _ => if e.key = key then some e else none
    | [] => none

/-- The live entries with keys in `[lo, hi]`. -/
def scan (lo hi : Bytes) : List LSMEntry :=
  ((s.lowerBound lo).takeWhile fun e => e.key ≤ hi).filter fun e => !e.deleted

/-- What the constructor establishes when the keys are distinct. -/
structure WF (s : SSTable) : Prop where
  loaded : s.loaded = true
  sorted : s.entries.Pairwise fun a b => a.key < b.key
  minKey_le : ∀ e ∈ s.entries, s.minKey ≤ e.key
  le_maxKey : ∀ e ∈ s.entries, e.key ≤ s.maxKey

end SSTable

/-! ## The tree -/

/-- `LSMTree`: tables are listed oldest first, as `sstables_` is. -/
structure LSMTree where
  memtable : MemTable
  sstables : List SSTable
  seq : Nat

/-- `CompactionStats`, without the wall-clock duration. -/
structure CompactionStats where
  sstablesMerged : Nat := 0
  entriesRead : Nat := 0
  entriesWritten : Nat := 0
  entriesDeleted : Nat := 0
  bytesBefore : Nat := 0
  bytesAfter : Nat := 0
  skipped : Bool := false
  deriving DecidableEq

/-- The upper end of the key range that compaction scans. -/
def scanLimit : Bytes := [0xff, 0xff, 0xff, 0xff, 0xff]

/-- Keep the entry with the larger sequence number. -/
def mergeEntry (merged : OrdMap Bytes LSMEntry) (e : LSMEntry) : OrdMap Bytes LSMEntry :=
  match merged.get? e.key with
  | none => merged.set e.key e
  | some old => if old.seqNum < e.seqNum then merged.set e.key e else merged

/-- The `merged` map after scanning `tables` in order. -/
def mergeTables (tables : List SSTable) : OrdMap Bytes LSMEntry :=
  tables.foldl (fun merged s => (s.scan [] scanLimit).foldl mergeEntry merged) empty

namespace LSMTree

def new (memtableSize : Nat) : LSMTree := ⟨MemTable.new memtableSize, [], 1⟩

variable (t : LSMTree)

def flushMemTable : LSMTree :=
  let entries := t.memtable.flush
  if entries.isEmpty then t
  else
    { t with
      sstables := t.sstables ++ [SSTable.new entries]
      memtable := t.memtable.clear }

def put (key value : Bytes) : LSMTree :=
  let t := { t with
    memtable := t.memtable.put key value t.seq
    seq := (t.seq + 1) % 2 ^ 64 }
  if t.memtable.isFull then t.flushMemTable else t

variable (key : Bytes)

def del : LSMTree :=
  { t with
    memtable := t.memtable.del key t.seq
    seq := (t.seq + 1) % 2 ^ 64 }

/-- The first hit of `get`'s loop over the tables, newest first. -/
def newest : Option LSMEntry :=
  t.sstables.reverse.findSome? fun s => s.get key

/-- The value an entry stands for: a tombstone reads as absent. -/
def entryValue (e : LSMEntry) : Option Bytes :=
  if e.deleted then none else some e.value

def get : Option Bytes :=
  match t.memtable.get key with
  | some e => entryValue e
  | none => (t.newest key).bind entryValue

def compact : CompactionStats × LSMTree :=
  if t.sstables.length < 2 then ({ skipped := true }, t)
  else
    let merged := mergeTables t.sstables
    let compacted := merged.values.filter fun e => !e.deleted
    let tables := if compacted.isEmpty then [] else [SSTable.new compacted]
    ({ sstablesMerged := t.sstables.length
       entriesRead :=
         (t.sstables.map fun s => (s.scan [] scanLimit).length).sum
       entriesWritten := compacted.length
       entriesDeleted := (merged.values.filter fun e => e.deleted).length
       bytesBefore := (t.sstables.map fun s => s.entries.length).sum
       bytesAfter := (tables.map fun s => s.entries.length).sum },
     { t with sstables := tables })

end LSMTree

/-- The client operations on a tree. -/
inductive Op where
  | put (key value : Bytes)
  | del (key : Bytes)
  | compact
  deriving DecidableEq

def step (t : LSMTree) : Op → LSMTree
  | .put key value => t.put key value
  | .del key => t.del key
  | .compact => t.compact.2

/-- The tree after `ops`, from a fresh one with the given memtable limit. -/
def run (memtableSize : Nat) (ops : List Op) : LSMTree :=
  ops.foldl step (LSMTree.new memtableSize)

/-! ## One table -/

section Table

variable {s : SSTable}

variable {l : List LSMEntry}

private theorem dropWhile_lt_of_sorted (key : Bytes) (h : l.Pairwise fun a b => a.key < b.key)
    (e : LSMEntry) (he : e.key = key) :
    e ∈ l ↔ (l.dropWhile fun x => x.key < key).head? = some e := by
  induction l with
  | nil => simp
  | cons x rest ih =>
    obtain ⟨hhead, hrest⟩ := pairwise_cons.mp h
    rw [dropWhile_cons]
    by_cases hx : x.key < key
    · have hne : e ≠ x := fun heq => lt_irrefl key (by rw [heq] at he; exact he ▸ hx)
      simp [hx, hne, ih hrest]
    simp only [hx, decide_false, Bool.false_eq_true, if_false, head?_cons, some.injEq]
    constructor
    · intro hmem
      rcases mem_cons.mp hmem with rfl | hmem
      · rfl
      · exact absurd (he ▸ hhead e hmem) hx
    · rintro rfl
      exact mem_cons_self

/-- The range check and the binary search together find exactly the stored
entry of a key. -/
theorem SSTable.get_eq_some_iff (h : s.WF) (key : Bytes) (e : LSMEntry) :
    s.get key = some e ↔ e ∈ s.entries ∧ e.key = key := by
  have hfind := fun he : e.key = key => dropWhile_lt_of_sorted key h.sorted e he
  have hbounds : e ∈ s.entries → e.key = key →
      ¬ (key < s.minKey) ∧ ¬ (key > s.maxKey) := fun hmem he =>
    ⟨not_lt.mpr (he ▸ h.minKey_le e hmem), not_lt.mpr (he ▸ h.le_maxKey e hmem)⟩
  simp only [SSTable.get, SSTable.lowerBound, h.loaded]
  constructor
  · intro hget
    split at hget
    · cases hget
    split at hget
    · rename_i x rest hx
      split at hget
      · rename_i hkey
        cases hget
        exact ⟨(hfind hkey).mpr (by rw [hx]; rfl), hkey⟩
      · cases hget
    · cases hget
  · rintro ⟨hmem, hkey⟩
    obtain ⟨hmin, hmax⟩ := hbounds hmem hkey
    have hhead := (hfind hkey).mp hmem
    simp only [hmin, hmax]
    cases hd : s.entries.dropWhile fun x => x.key < key with
    | nil => simp [hd] at hhead
    | cons x rest =>
      rw [hd] at hhead
      cases hhead
      simp [hkey]

private theorem lowerBound_nil (s : SSTable) : s.lowerBound [] = s.entries := by
  rw [SSTable.lowerBound]
  cases s.entries with
  | nil => rfl
  | cons x rest => simp

/-- The scan of compaction: the live entries up to `scanLimit`. -/
theorem SSTable.mem_scan_iff (h : s.WF) (e : LSMEntry) :
    e ∈ s.scan [] scanLimit ↔
      e ∈ s.entries ∧ e.key ≤ scanLimit ∧ e.deleted = false := by
  have hclosed : ∀ a ∈ s.entries, ∀ b ∈ s.entries, a.key < b.key →
      decide (b.key ≤ scanLimit) = true → decide (a.key ≤ scanLimit) = true :=
    fun a _ b _ hab hb => decide_eq_true (hab.le.trans (of_decide_eq_true hb))
  rw [SSTable.scan, lowerBound_nil, mem_filter, takeWhile_eq_filter h.sorted hclosed]
  simp [and_assoc]

theorem SSTable.scan_sorted (h : s.WF) :
    (s.scan [] scanLimit).Pairwise fun a b => a.key < b.key := by
  rw [SSTable.scan, lowerBound_nil]
  exact (h.sorted.sublist (takeWhile_sublist _)).filter _

section

variable (h : l.Pairwise fun a b => a.key < b.key)
include h

private theorem head_le_of_sorted : ∀ e ∈ l, (l.head?.map LSMEntry.key).getD [] ≤ e.key := by
  intro e he
  cases l with
  | nil => cases he
  | cons x rest =>
    rcases mem_cons.mp he with rfl | hmem
    · exact le_refl _
    · exact le_of_lt ((pairwise_cons.mp h).1 e hmem)

private theorem le_getLast_of_sorted : ∀ e ∈ l, e.key ≤ (l.getLast?.map LSMEntry.key).getD [] := by
  intro e he
  cases hlast : l.getLast? with
  | none =>
    rw [getLast?_eq_none_iff.mp hlast] at he
    cases he
  | some x =>
    obtain ⟨rest, rfl⟩ := getLast?_eq_some_iff.mp hlast
    simp only [map_some, getD_some]
    rcases mem_append.mp he with hmem | hmem
    · exact le_of_lt ((pairwise_append.mp h).2.2 e hmem x (by simp))
    · exact le_of_eq (by rw [mem_singleton.mp hmem])

/-- A table built from entries in strict key order is well formed and keeps
them as they are. -/
theorem SSTable.new_of_sorted : (SSTable.new l).entries = l ∧ (SSTable.new l).WF := by
  have hsort : l.insertionSort (fun a b => a.key ≤ b.key) = l :=
    Pairwise.insertionSort_eq (h.imp fun hab => le_of_lt hab)
  have hentries : (SSTable.new l).entries = l := by
    simp [SSTable.new, hsort]
  refine ⟨hentries, ⟨rfl, by rw [hentries]; exact h, ?_, ?_⟩⟩
  · intro e he
    simp only [SSTable.new, hsort] at he ⊢
    exact head_le_of_sorted h e he
  · intro e he
    simp only [SSTable.new, hsort] at he ⊢
    exact le_getLast_of_sorted h e he

end

end Table

/-! ## Merging -/

/-- Every binding of the map is filed under its own key. -/
def Keyed (m : OrdMap Bytes LSMEntry) : Prop :=
  ∀ k e, m.get? k = some e → e.key = k

variable {m : OrdMap Bytes LSMEntry} {l : List LSMEntry} {e : LSMEntry} {tables : List SSTable}
  {t : LSMTree} {key : Bytes}

theorem Keyed.values_sorted (h : Keyed m) : m.values.Pairwise fun a b => a.key < b.key := by
  rw [values, pairwise_map]
  refine m.sorted.imp_of_mem ?_
  rintro ⟨k, e⟩ ⟨k', e'⟩ hmem hmem' hlt
  have hk := h k e ((m.mem_entries_iff k e).mp hmem)
  have hk' := h k' e' ((m.mem_entries_iff k' e').mp hmem')
  simpa [hk, hk'] using hlt

theorem Keyed.mem_values_iff (h : Keyed m) (e : LSMEntry) :
    e ∈ m.values ↔ m.get? e.key = some e := by
  rw [OrdMap.mem_values_iff]
  constructor
  · rintro ⟨k, hget⟩
    rwa [h k e hget]
  · exact fun hget => ⟨_, hget⟩

theorem Keyed.set (h : Keyed m) (e : LSMEntry) : Keyed (m.set e.key e) :=
  forall_get?_set h rfl

theorem keyed_empty : Keyed empty := by
  intro k e hget
  cases hget

/-- What a table contributes to the merge for `key`. -/
def SSTable.liveEntry (s : SSTable) (key : Bytes) : Option LSMEntry :=
  (s.get key).filter fun e => !e.deleted && decide (key ≤ scanLimit)

private theorem find?_key_eq_some_iff (h : l.Pairwise fun a b => a.key < b.key) (key : Bytes)
    (e : LSMEntry) :
    (l.find? fun x => x.key = key) = some e ↔ e ∈ l ∧ e.key = key := by
  constructor
  · intro hfind
    exact ⟨mem_of_find?_eq_some hfind, by simpa using find?_some hfind⟩
  · rintro ⟨hmem, rfl⟩
    have hnodup : (l.map LSMEntry.key).Nodup := pairwise_map.mpr (h.imp ne_of_lt)
    obtain ⟨x, hfind⟩ : ∃ x, (l.find? fun x => x.key = e.key) = some x :=
      isSome_iff_exists.mp (find?_isSome.mpr ⟨e, hmem, by simp⟩)
    have hx : x.key = e.key := by simpa using find?_some hfind
    rw [hfind, inj_on_of_nodup_map hnodup (mem_of_find?_eq_some hfind) hmem hx]

theorem SSTable.find?_scan {s : SSTable} (h : s.WF) (key : Bytes) :
    ((s.scan [] scanLimit).find? fun e => e.key = key) = s.liveEntry key := by
  apply ext
  intro e
  rw [find?_key_eq_some_iff (SSTable.scan_sorted h), SSTable.mem_scan_iff h,
    SSTable.liveEntry, filter_eq_some_iff, SSTable.get_eq_some_iff h]
  constructor
  · rintro ⟨⟨hmem, hle, hlive⟩, rfl⟩
    simp [hmem, hle, hlive]
  · rintro ⟨⟨hmem, rfl⟩, hlive⟩
    simp only [Bool.and_eq_true, Bool.not_eq_true', decide_eq_true_eq] at hlive
    exact ⟨⟨hmem, hlive.2, hlive.1⟩, rfl⟩

theorem get?_mergeEntry (hnew : ∀ old, m.get? e.key = some old → old.seqNum < e.seqNum)
    (key : Bytes) :
    (mergeEntry m e).get? key = if key = e.key then some e else m.get? key := by
  unfold mergeEntry
  cases hold : m.get? e.key with
  | none => simp [get?_set]
  | some old => simp [hnew old hold, get?_set]

/-- Merging one table whose entries are all newer than what was collected. -/
theorem get?_foldl_mergeEntry (h : l.Pairwise fun a b => a.key < b.key) :
    ∀ m : OrdMap Bytes LSMEntry,
      (∀ e ∈ l, ∀ old, m.get? e.key = some old → old.seqNum < e.seqNum) →
      ∀ key, (l.foldl mergeEntry m).get? key = (l.find? fun e => e.key = key).or (m.get? key) := by
  induction l with
  | nil =>
    intro m _ key
    rfl
  | cons e rest ih =>
    intro m hnew key
    obtain ⟨hhead, hrest⟩ := pairwise_cons.mp h
    have hm := get?_mergeEntry (hnew e mem_cons_self)
    have hnew' : ∀ x ∈ rest, ∀ old, (mergeEntry m e).get? x.key = some old →
        old.seqNum < x.seqNum := by
      intro x hx old hold
      rw [hm, if_neg (ne_of_gt (hhead x hx))] at hold
      exact hnew x (mem_cons_of_mem _ hx) old hold
    rw [foldl_cons, ih hrest _ hnew' key, hm, find?_cons]
    by_cases hk : e.key = key
    · have hnone : (rest.find? fun x => x.key = key) = none := by
        rw [find?_eq_none]
        intro x hx
        simpa using ne_of_gt (hk ▸ hhead x hx)
      simp [hk, hnone]
    · simp [hk, Ne.symm (Ne.intro hk)]

/-- Sequence numbers grow from one table to the next. -/
def Ordered (older newer : SSTable) : Prop :=
  ∀ e ∈ older.entries, ∀ e' ∈ newer.entries, e.seqNum < e'.seqNum

theorem get?_foldl_mergeTables (hwf : ∀ s ∈ tables, s.WF) (hord : tables.Pairwise Ordered) :
    ∀ m : OrdMap Bytes LSMEntry,
      (∀ s ∈ tables, ∀ e ∈ s.entries, ∀ k old, m.get? k = some old →
        old.seqNum < e.seqNum) →
      ∀ key, (tables.foldl
          (fun merged s => (s.scan [] scanLimit).foldl mergeEntry merged) m).get? key =
        (tables.reverse.findSome? fun s => s.liveEntry key).or (m.get? key) := by
  induction tables with
  | nil =>
    intro m _ key
    rfl
  | cons s rest ih =>
    intro m hnew key
    obtain ⟨hhead, hrest⟩ := pairwise_cons.mp hord
    have hs : s.WF := hwf s mem_cons_self
    have hmerge := get?_foldl_mergeEntry (SSTable.scan_sorted hs) m
      (fun e he old hold => hnew s mem_cons_self e
        ((SSTable.mem_scan_iff hs e).mp he).1 e.key old hold)
    have hnew' : ∀ s' ∈ rest, ∀ e ∈ s'.entries, ∀ k old,
        ((s.scan [] scanLimit).foldl mergeEntry m).get? k = some old →
        old.seqNum < e.seqNum := by
      intro s' hs' e he k old hold
      rw [hmerge, SSTable.find?_scan hs] at hold
      rcases or_eq_some_iff.mp hold with hold | ⟨_, hold⟩
      · have hget := (filter_eq_some_iff.mp hold).1
        exact hhead s' hs' old ((SSTable.get_eq_some_iff hs k old).mp hget).1 e he
      · exact hnew s' (mem_cons_of_mem _ hs') e he k old hold
    rw [foldl_cons, ih (fun s' hs' => hwf s' (mem_cons_of_mem _ hs')) hrest _
      hnew' key, hmerge, SSTable.find?_scan hs, reverse_cons, findSome?_append]
    simp [Option.or_assoc]

/-- For each key, compaction collects the newest live entry in its range. -/
theorem get?_mergeTables (hwf : ∀ s ∈ tables, s.WF) (hord : tables.Pairwise Ordered) (key : Bytes) :
    (mergeTables tables).get? key = tables.reverse.findSome? fun s => s.liveEntry key := by
  rw [mergeTables, get?_foldl_mergeTables hwf hord _ (by intro s _ e _ k old h; cases h)]
  simp

/-! ## The invariant of a run -/

/-- Tables are well formed and ordered by age, the memtable is newer than all
of them, and the counter is ahead of everything. -/
structure Inv (t : LSMTree) : Prop where
  tables : ∀ s ∈ t.sstables, s.WF
  keyed : Keyed t.memtable.entries
  ordered : t.sstables.Pairwise Ordered
  memNewer : ∀ s ∈ t.sstables, ∀ e ∈ s.entries, ∀ k e',
    t.memtable.entries.get? k = some e' → e.seqNum < e'.seqNum
  tableSeq : ∀ s ∈ t.sstables, ∀ e ∈ s.entries, e.seqNum < t.seq
  memSeq : ∀ k e, t.memtable.entries.get? k = some e → e.seqNum < t.seq

variable (memtableSize : Nat)

theorem new_inv : Inv (LSMTree.new memtableSize) where
  tables := by simp [LSMTree.new]
  keyed := keyed_empty
  ordered := Pairwise.nil
  memNewer := by simp [LSMTree.new]
  tableSeq := by simp [LSMTree.new]
  memSeq := by
    intro k e h
    cases h

theorem Inv.flushMemTable (h : Inv t) : Inv t.flushMemTable := by
  unfold LSMTree.flushMemTable
  by_cases hempty : t.memtable.flush.isEmpty
  · simpa [hempty] using h
  have hsorted := h.keyed.values_sorted
  obtain ⟨hentries, hwf⟩ := SSTable.new_of_sorted hsorted
  have hget : ∀ e ∈ (SSTable.new t.memtable.flush).entries,
      t.memtable.entries.get? e.key = some e := by
    intro e he
    rw [MemTable.flush, hentries] at he
    exact (h.keyed.mem_values_iff e).mp he
  simp only [hempty]
  refine ⟨?_, keyed_empty, ?_, ?_, ?_, ?_⟩
  · intro s hs
    rcases mem_append.mp hs with hs | hs
    · exact h.tables s hs
    · rw [mem_singleton.mp hs]
      exact hwf
  · refine pairwise_append.mpr ⟨h.ordered, pairwise_singleton _ _, ?_⟩
    intro s hs s' hs' e he e' he'
    rw [mem_singleton.mp hs'] at he'
    exact h.memNewer s hs e he e'.key e' (hget e' he')
  · intro s _ e _ k e' hget'
    cases hget'
  · intro s hs e he
    rcases mem_append.mp hs with hs | hs
    · exact h.tableSeq s hs e he
    · rw [mem_singleton.mp hs] at he
      exact h.memSeq e.key e (hget e he)
  · intro k e hget'
    cases hget'

/-- Writing an entry with the next sequence number into the memtable. -/
theorem Inv.write (h : Inv t) (hseq : t.seq + 1 < 2 ^ 64) (e : LSMEntry) (he : e.seqNum = t.seq)
    (size : Nat) :
    Inv { t with
      memtable := { t.memtable with
        entries := t.memtable.entries.set e.key e, sizeBytes := size }
      seq := (t.seq + 1) % 2 ^ 64 } := by
  have hget : ∀ k e', (t.memtable.entries.set e.key e).get? k = some e' →
      e'.seqNum = t.seq ∨ t.memtable.entries.get? k = some e' :=
    forall_get?_set (fun _ _ => Or.inr) (Or.inl he)
  rw [Nat.mod_eq_of_lt hseq]
  refine ⟨h.tables, h.keyed.set e, h.ordered, ?_, ?_, ?_⟩
  · intro s hs x hx k e' he'
    rcases hget k e' he' with heq | hold
    · rw [heq]
      exact h.tableSeq s hs x hx
    · exact h.memNewer s hs x hx k e' hold
  · intro s hs x hx
    exact Nat.lt_succ_of_lt (h.tableSeq s hs x hx)
  · intro k e' he'
    rcases hget k e' he' with heq | hold
    · exact heq ▸ Nat.lt_succ_self _
    · exact Nat.lt_succ_of_lt (h.memSeq k e' hold)

theorem Inv.put (h : Inv t) (hseq : t.seq + 1 < 2 ^ 64) (key value : Bytes) :
    Inv (t.put key value) := by
  have hw := h.write hseq ⟨key, value, false, t.seq⟩ rfl
    ((t.memtable.sizeBytes + (key.length + value.length)) % 2 ^ 64)
  unfold LSMTree.put MemTable.put
  dsimp only
  split
  · exact hw.flushMemTable
  · exact hw

theorem Inv.del (h : Inv t) (hseq : t.seq + 1 < 2 ^ 64) (key : Bytes) : Inv (t.del key) :=
  h.write hseq ⟨key, [], true, t.seq⟩ rfl t.memtable.sizeBytes

/-! ## Compaction -/

private theorem liveEntry_eq_some {s : SSTable} (h : s.WF) (he : s.liveEntry key = some e) :
    e ∈ s.entries ∧ e.key = key ∧ e.deleted = false := by
  obtain ⟨hget, hlive⟩ := filter_eq_some_iff.mp he
  obtain ⟨hmem, hkey⟩ := (SSTable.get_eq_some_iff h key e).mp hget
  simp only [Bool.and_eq_true, Bool.not_eq_true'] at hlive
  exact ⟨hmem, hkey, hlive.1⟩

/-- Whatever compaction collects is a live entry of one of the tables. -/
theorem Inv.get?_mergeTables_some (h : Inv t) (he : (mergeTables t.sstables).get? key = some e) :
    (∃ s ∈ t.sstables, e ∈ s.entries) ∧ e.key = key ∧ e.deleted = false := by
  rw [get?_mergeTables h.tables h.ordered] at he
  obtain ⟨s, hs, hlive⟩ := exists_of_findSome?_eq_some he
  have hs' : s ∈ t.sstables := mem_reverse.mp hs
  obtain ⟨hmem, hkey, hdel⟩ := liveEntry_eq_some (h.tables s hs') hlive
  exact ⟨⟨s, hs', hmem⟩, hkey, hdel⟩

theorem Inv.mergeTables_keyed (h : Inv t) : Keyed (mergeTables t.sstables) :=
  fun _ _ he => (h.get?_mergeTables_some he).2.1

/-- Compaction never finds a tombstone to drop: `scan` has removed them. -/
theorem Inv.mergeTables_live (h : Inv t) :
    ((mergeTables t.sstables).values.filter fun e => !e.deleted) =
      (mergeTables t.sstables).values := by
  rw [filter_eq_self]
  intro e he
  have hget := (h.mergeTables_keyed.mem_values_iff e).mp he
  simp [(h.get?_mergeTables_some hget).2.2]

/-- The tables after a compaction that is not skipped. -/
theorem Inv.compact_sstables (h : Inv t) (hlen : ¬ t.sstables.length < 2) : t.compact.2 = { t with
      sstables := if (mergeTables t.sstables).values.isEmpty then []
        else [SSTable.new (mergeTables t.sstables).values] } := by
  simp only [LSMTree.compact, hlen, if_false, h.mergeTables_live]

theorem Inv.compact (h : Inv t) : Inv t.compact.2 := by
  by_cases hlen : t.sstables.length < 2
  · simpa [LSMTree.compact, hlen] using h
  obtain ⟨hentries, hwf⟩ := SSTable.new_of_sorted h.mergeTables_keyed.values_sorted
  have hfrom : ∀ e ∈ (SSTable.new (mergeTables t.sstables).values).entries,
      ∃ s ∈ t.sstables, e ∈ s.entries := by
    intro e he
    rw [hentries] at he
    exact (h.get?_mergeTables_some ((h.mergeTables_keyed.mem_values_iff e).mp he)).1
  rw [h.compact_sstables hlen]
  split
  · exact ⟨by simp, h.keyed, Pairwise.nil, by simp, by simp, h.memSeq⟩
  refine ⟨?_, h.keyed, pairwise_singleton _ _, ?_, ?_, h.memSeq⟩
  · intro s hs
    rw [mem_singleton.mp hs]
    exact hwf
  · intro s hs e he k e' hget
    rw [mem_singleton.mp hs] at he
    obtain ⟨s', hs', hmem⟩ := hfrom e he
    exact h.memNewer s' hs' e hmem k e' hget
  · intro s hs e he
    rw [mem_singleton.mp hs] at he
    obtain ⟨s', hs', hmem⟩ := hfrom e he
    exact h.tableSeq s' hs' e hmem

/-! ## Runs -/

theorem seq_step_le (t : LSMTree) (op : Op) : (step t op).seq ≤ t.seq + 1 := by
  have hmod : (t.seq + 1) % 2 ^ 64 ≤ t.seq + 1 := Nat.mod_le _ _
  cases op with
  | put key value =>
    simp only [step, LSMTree.put, LSMTree.flushMemTable]
    split
    · split <;> exact hmod
    · exact hmod
  | del key => exact hmod
  | compact =>
    simp only [step, LSMTree.compact]
    split <;> exact Nat.le_succ _

theorem Inv.step (h : Inv t) (hseq : t.seq + 1 < 2 ^ 64) (op : Op) : Inv (step t op) := by
  cases op with
  | put key value => exact h.put hseq key value
  | del key => exact h.del hseq key
  | compact => exact h.compact

theorem Inv.foldl_step (h : Inv t) (ops : List Op) (hlen : t.seq + ops.length < 2 ^ 64) :
    Inv (ops.foldl Lsm.step t) := by
  induction ops generalizing t with
  | nil => exact h
  | cons op rest ih =>
    rw [length_cons] at hlen
    have hle := seq_step_le t op
    exact ih (h.step (by omega) op) (by omega)

/-- The invariant holds throughout a run, up to the wrap of the counter. -/
theorem run_inv (ops : List Op) (hlen : ops.length + 1 < 2 ^ 64) : Inv (run memtableSize ops) :=
  (new_inv memtableSize).foldl_step ops (by
    show 1 + ops.length < 2 ^ 64
    omega)

/-! ## What compaction does to reads -/

/-- The states and keys for which compaction keeps the answer of `get`.  It is
skipped with fewer than two tables; the memtable hides the tables; a live
newest entry must lie in the scanned range; and a tombstone, which compaction
drops, must not hide an older live entry that it keeps. -/
def KeptByCompact (t : LSMTree) (key : Bytes) : Prop :=
  t.sstables.length < 2 ∨ t.memtable.get key ≠ none ∨
    ∀ e ∈ t.newest key,
      if e.deleted then scanLimit < key ∨ ∀ s ∈ t.sstables, ∀ e' ∈ s.get key, e'.deleted
      else key ≤ scanLimit

instance (t : LSMTree) (key : Bytes) : Decidable (KeptByCompact t key) := by
  unfold KeptByCompact
  infer_instance

theorem SSTable.liveEntry_of_le (s : SSTable) (hle : key ≤ scanLimit) :
    s.liveEntry key = (s.get key).filter fun e => !e.deleted := by
  simp [SSTable.liveEntry, hle]

theorem SSTable.liveEntry_of_gt (s : SSTable) (hgt : ¬ key ≤ scanLimit) :
    s.liveEntry key = none := by
  simp [SSTable.liveEntry, hgt]

/-- A live newest entry in range is the one compaction keeps. -/
theorem findSome?_liveEntry_of_newest (hle : key ≤ scanLimit)
    (hnewest : (tables.findSome? fun s => s.get key) = some e) (hlive : e.deleted = false) :
    (tables.findSome? fun s => s.liveEntry key) = some e := by
  induction tables with
  | nil => cases hnewest
  | cons s rest ih =>
    rw [findSome?_cons] at hnewest ⊢
    cases hget : s.get key with
    | none =>
      rw [hget] at hnewest
      rw [SSTable.liveEntry_of_le s hle, hget]
      exact ih hnewest
    | some e' =>
      rw [hget] at hnewest
      cases hnewest
      rw [SSTable.liveEntry_of_le s hle, hget, filter_some, hlive]
      rfl

theorem findSome?_liveEntry_eq_none_iff :
    (tables.findSome? fun s => s.liveEntry key) = none ↔
      scanLimit < key ∨ ∀ s ∈ tables, ∀ e ∈ s.get key, e.deleted = true := by
  rw [findSome?_eq_none_iff]
  by_cases hle : key ≤ scanLimit
  · simp only [SSTable.liveEntry_of_le _ hle, filter_eq_none_iff, not_lt.mpr hle,
      false_or, Bool.not_eq_true', Bool.not_eq_false, mem_def]
  · simp [SSTable.liveEntry_of_gt _ hle, not_le.mp hle]

/-- What compaction keeps reads as a value. -/
theorem bind_entryValue_liveEntry_eq_none_iff :
    (tables.findSome? fun s => s.liveEntry key).bind LSMTree.entryValue = none ↔
      (tables.findSome? fun s => s.liveEntry key) = none := by
  cases hfind : tables.findSome? fun s => s.liveEntry key with
  | none => simp
  | some e =>
    obtain ⟨s, _, hs⟩ := exists_of_findSome?_eq_some hfind
    have hlive := (filter_eq_some_iff.mp hs).2
    simp only [Bool.and_eq_true, Bool.not_eq_true'] at hlive
    simp [LSMTree.entryValue, hlive.1]

theorem Inv.newest_compact (h : Inv t) (hlen : ¬ t.sstables.length < 2) (key : Bytes) :
    t.compact.2.newest key = t.sstables.reverse.findSome? fun s => s.liveEntry key := by
  rw [← get?_mergeTables h.tables h.ordered, h.compact_sstables hlen]
  obtain ⟨hentries, hwf⟩ := SSTable.new_of_sorted h.mergeTables_keyed.values_sorted
  -- a lookup in the merged table is a lookup in the merged map
  have hmem : ∀ e, e ∈ (mergeTables t.sstables).values ∧ e.key = key ↔
      (mergeTables t.sstables).get? key = some e := by
    intro e
    constructor
    · rintro ⟨hmem, rfl⟩
      exact (h.mergeTables_keyed.mem_values_iff e).mp hmem
    · intro hget
      have hkey := h.mergeTables_keyed key e hget
      exact ⟨(h.mergeTables_keyed.mem_values_iff e).mpr (hkey ▸ hget), hkey⟩
  apply ext
  intro e
  rw [← hmem e]
  simp only [LSMTree.newest]
  split_ifs with hempty
  · simp [isEmpty_iff.mp hempty]
  have hget := SSTable.get_eq_some_iff hwf key e
  rw [hentries] at hget
  rw [← hget]
  cases hnew : (SSTable.new (mergeTables t.sstables).values).get key <;> simp [hnew]

theorem Inv.get_compact (h : Inv t) (hlen : ¬ t.sstables.length < 2)
    (hmem : t.memtable.get key = none) :
    t.compact.2.get key =
      (t.sstables.reverse.findSome? fun s => s.liveEntry key).bind LSMTree.entryValue := by
  rw [LSMTree.get, h.newest_compact hlen, h.compact_sstables hlen]
  simp only [hmem]

/-- The tombstone of `a` goes to the second table; the first still holds the
value, and compaction brings it back. -/
theorem compact_resurrects :
    (run 1 [.put (lit "a") (lit "1"), .del (lit "a"), .put (lit "b") (lit "2")]).get
        (lit "a") = none ∧
    (run 1 [.put (lit "a") (lit "1"), .del (lit "a"), .put (lit "b") (lit "2")]).compact.2.get
        (lit "a") = some (lit "1") := by
  decide

/-- **Compaction leaves the answer for a key unchanged exactly in the states of
`KeptByCompact`**, for every run shorter than the range of the counter. -/
theorem compact_get_iff (ops : List Op) (key : Bytes)
    (hlen : ops.length + 1 < 2 ^ 64) :
    (run memtableSize ops).compact.2.get key = (run memtableSize ops).get key ↔
      KeptByCompact (run memtableSize ops) key := by
  have h := run_inv memtableSize ops hlen
  generalize run memtableSize ops = t at h ⊢
  unfold KeptByCompact
  by_cases hskip : t.sstables.length < 2
  · simp [LSMTree.compact, hskip]
  cases hmem : t.memtable.get key with
  | some e =>
    have hsame : t.compact.2.get key = t.get key := by
      rw [h.compact_sstables hskip]
      simp [LSMTree.get, hmem]
    simp [hsame]
  | none =>
    have hget : t.get key = (t.newest key).bind LSMTree.entryValue := by
      rw [LSMTree.get, hmem]
    rw [h.get_compact hskip hmem, hget]
    simp only [hskip, false_or, ne_eq, not_true_eq_false]
    cases hnewest : t.newest key with
    | none =>
      have hnone : (t.sstables.reverse.findSome? fun s => s.liveEntry key) = none := by
        rw [findSome?_liveEntry_eq_none_iff]
        refine Or.inr fun s hs e hs' => ?_
        have := findSome?_eq_none_iff.mp hnewest s hs
        rw [this] at hs'
        cases hs'
      simp [hnone]
    | some e =>
      cases hdel : e.deleted with
      | true =>
        -- a tombstone: no older live entry may come into sight
        simp only [bind_some, LSMTree.entryValue, hdel, if_true]
        rw [bind_entryValue_liveEntry_eq_none_iff, findSome?_liveEntry_eq_none_iff]
        simp [hdel]
      | false =>
        by_cases hle : key ≤ scanLimit
        · simp [findSome?_liveEntry_of_newest hle hnewest hdel, hle, hdel]
        have hnone : (t.sstables.reverse.findSome? fun s => s.liveEntry key) = none :=
          findSome?_liveEntry_eq_none_iff.mpr (Or.inl (not_le.mp hle))
        simp [hnone, LSMTree.entryValue, hdel, hle]

/-- A run where the condition holds with the tables really merged. -/
theorem compact_get_iff_overwritten :
    KeptByCompact (run 1 [.put (lit "a") (lit "1"), .put (lit "a") (lit "2")]) (lit "a") ∧
    (run 1 [.put (lit "a") (lit "1"), .put (lit "a") (lit "2")]).compact.2.get (lit "a") =
      some (lit "2") := by
  have hkept : KeptByCompact
      (run 1 [.put (lit "a") (lit "1"), .put (lit "a") (lit "2")]) (lit "a") := by
    decide
  refine ⟨hkept, ?_⟩
  rw [(compact_get_iff 1 [.put (lit "a") (lit "1"), .put (lit "a") (lit "2")] (lit "a")
    (by decide)).mpr hkept]
  decide

/-! ## Without compaction: a plain map -/

section PlainMap

variable {t : LSMTree}

/-- What one operation does to a plain map. -/
def mapStep (m : Bytes → Option Bytes) : Op → Bytes → Option Bytes
  | .put key value => Function.update m key (some value)
  | .del key => Function.update m key none
  | .compact => m

/-- The plain map after `ops`: for each key the value of its last put, unless a
del of the key came after it. -/
def plainMap (ops : List Op) : Bytes → Option Bytes := ops.foldl mapStep fun _ => none

section

variable (h : Keyed t.memtable.entries)
include h

/-- The table that a flush writes answers like the memtable. -/
theorem get_new_flush (key : Bytes) :
    (SSTable.new t.memtable.flush).get key = t.memtable.get key := by
  obtain ⟨hentries, hwf⟩ := SSTable.new_of_sorted h.values_sorted
  apply ext
  intro e
  rw [MemTable.flush, SSTable.get_eq_some_iff hwf, hentries, h.mem_values_iff, MemTable.get]
  constructor
  · rintro ⟨hget, rfl⟩
    exact hget
  · intro hget
    have hkey := h key e hget
    exact ⟨hkey ▸ hget, hkey⟩

/-- A flush changes no answer: the new table is asked first. -/
theorem get_flushMemTable (key : Bytes) : t.flushMemTable.get key = t.get key := by
  unfold LSMTree.flushMemTable
  dsimp only
  split
  · rfl
  have hempty : t.memtable.clear.get key = none := rfl
  rw [LSMTree.get, LSMTree.get, hempty]
  rw [LSMTree.newest, reverse_append, reverse_singleton, singleton_append,
    findSome?_cons, get_new_flush h]
  cases t.memtable.get key with
  | none => rfl
  | some e => rfl

theorem keyed_flushMemTable : Keyed t.flushMemTable.memtable.entries := by
  unfold LSMTree.flushMemTable
  dsimp only
  split
  · exact h
  · exact keyed_empty

end

/-- Writing an entry into the memtable hides what was there under its key. -/
theorem get_write (t : LSMTree) (e : LSMEntry) (size seq : Nat) (key : Bytes) : ({ t with
      memtable := { t.memtable with
        entries := t.memtable.entries.set e.key e, sizeBytes := size }
      seq := seq } : LSMTree).get key = Function.update t.get e.key (LSMTree.entryValue e) key := by
  rw [Function.update_apply, LSMTree.get, MemTable.get, get?_set]
  by_cases hkey : key = e.key
  · rw [if_pos hkey, if_pos hkey]
  · rw [if_neg hkey, if_neg hkey]
    rfl

section

variable (h : Keyed t.memtable.entries)
include h

theorem get_put (key value : Bytes) :
    Keyed (t.put key value).memtable.entries ∧
      (t.put key value).get = Function.update t.get key (some value) := by
  have hkeyed := h.set ⟨key, value, false, t.seq⟩
  have hwrite := get_write t ⟨key, value, false, t.seq⟩
    ((t.memtable.sizeBytes + (key.length + value.length)) % 2 ^ 64) ((t.seq + 1) % 2 ^ 64)
  unfold LSMTree.put MemTable.put
  dsimp only
  split
  · exact ⟨keyed_flushMemTable hkeyed,
      funext fun k => (get_flushMemTable hkeyed k).trans (hwrite k)⟩
  · exact ⟨hkeyed, funext hwrite⟩

theorem get_del (key : Bytes) :
    Keyed (t.del key).memtable.entries ∧ (t.del key).get = Function.update t.get key none :=
  ⟨h.set ⟨key, [], true, t.seq⟩,
    funext (get_write t ⟨key, [], true, t.seq⟩ t.memtable.sizeBytes ((t.seq + 1) % 2 ^ 64))⟩

/-- One write: the answers of the tree move as the map does. -/
theorem get_step {op : Op} (hop : op ≠ .compact) :
    Keyed (step t op).memtable.entries ∧ (step t op).get = mapStep t.get op := by
  cases op with
  | put key value => exact get_put h key value
  | del key => exact get_del h key
  | compact => exact absurd rfl hop

theorem get_foldl_step {ops : List Op} (hops : .compact ∉ ops) :
    (ops.foldl step t).get = ops.foldl mapStep t.get := by
  induction ops generalizing t with
  | nil => rfl
  | cons op ops ih =>
    obtain ⟨hop, hrest⟩ := not_or.mp fun h => hops (mem_cons.mpr h)
    obtain ⟨hkeyed, hget⟩ := get_step h (Ne.symm hop)
    rw [foldl_cons, foldl_cons, ih hkeyed hrest, hget]

end

end PlainMap

/-- **Without compaction every key reads as in a plain map**, whatever the size
limit of the memtable and wherever the flushes fall. -/
theorem run_get (memtableSize : Nat) (ops : List Op) (hops : .compact ∉ ops) (key : Bytes) :
    (run memtableSize ops).get key = plainMap ops key := by
  have hnew : (LSMTree.new memtableSize).get = fun _ => none := rfl
  rw [run, get_foldl_step keyed_empty hops, hnew, plainMap]

/-- Two tables and a tombstone in the memtable. -/
theorem run_get_deleted :
    (run 1 [.put (lit "a") (lit "1"), .put (lit "b") (lit "2"), .del (lit "a")]).get (lit "a") =
      plainMap [.put (lit "a") (lit "1"), .put (lit "b") (lit "2"), .del (lit "a")] (lit "a") :=
  run_get 1 _ (by decide) _

end SpatialDb.Storage.Lsm
