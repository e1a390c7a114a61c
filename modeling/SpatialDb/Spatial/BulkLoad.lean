import SpatialDb.Spatial.RTree

/-!
# Bulk loading the R-tree

Model of `cpp/spatial/rtree_bulk.cpp`.  `strBuild` sorts the entries into
strips and pages and builds a node of leaves; `bulkLoad` calls it and drops the
node.
-/

namespace SpatialDb.Spatial

open Lib List

/-! ## Slices -/

section Slices

variable {α : Type*}

/-- The loop `for (i = start; i < end; i += size)`. -/
def slices (size : Nat) : Nat → List α → List (List α)
  | 0, _ => []
  | rounds + 1, l =>
    if l.isEmpty then [] else l.take size :: slices size rounds (l.drop size)

theorem flatten_slices {size : Nat} (hsize : 0 < size) {rounds : Nat} {l : List α}
    (h : l.length ≤ rounds) : (slices size rounds l).flatten = l := by
  induction rounds generalizing l with
  | zero => exact (length_eq_zero_iff.mp (Nat.le_zero.mp h)).symm
  | succ rounds ih =>
    rw [slices]
    split_ifs with hempty
    · exact (isEmpty_iff.mp hempty).symm
    have hrest : (l.drop size).length ≤ rounds := by
      rw [length_drop]
      omega
    rw [flatten_cons, ih hrest, take_append_drop]

theorem length_of_mem_slices {size : Nat} (hsize : 0 < size) {rounds : Nat} {l slice : List α}
    (h : slice ∈ slices size rounds l) : 0 < slice.length ∧ slice.length ≤ size := by
  induction rounds generalizing l with
  | zero => cases h
  | succ rounds ih =>
    rw [slices] at h
    split at h
    · cases h
    rename_i hne
    rcases mem_cons.mp h with rfl | h
    · have hpos := length_pos_iff.mpr (mt isEmpty_iff.mpr hne)
      rw [length_take]
      omega
    · exact ih h

end Slices

/-! ## Model -/

/-- `ceil(sqrt(n))`, which is exact in `double` for the sizes of a vector in
memory. -/
def ceilSqrt (n : Nat) : Nat := if Nat.sqrt n * Nat.sqrt n = n then Nat.sqrt n else Nat.sqrt n + 1

theorem ceilSqrt_pos {n : Nat} (h : 0 < n) : 0 < ceilSqrt n := by
  unfold ceilSqrt
  split
  · exact Nat.sqrt_pos.mpr h
  · exact Nat.succ_pos _

namespace RTreeNode

variable {T : Type*} [LinearOrder T] [Zero T] (sort : StdSort (IndexEntry T))

/-- A leaf of one page. -/
def pageLeaf (page : List (IndexEntry T)) : RTreeNode T := (leaf ⟨0, 0, 0, 0⟩ page).updateMBR

/-- The leaves of a strip: its entries by latitude, eight to a leaf. -/
def stripLeaves (strip : List (IndexEntry T)) : List (RTreeNode T) :=
  let byLat := sort.run (fun a b => decide (a.point.lat < b.point.lat)) strip
  (slices rtreeMaxEntries byLat.length byLat).map pageLeaf

/-- `strBuild` on the whole vector; the count is compared as an `int`. -/
def strBuild (entries : List (IndexEntry T)) : Option (RTreeNode T) :=
  let count := entries.length
  if count = 0 then none
  else if (count : Int).bmod (2 ^ 32) ≤ rtreeMaxEntries then some (pageLeaf entries)
  else
    let pages := (count + (rtreeMaxEntries - 1)) / rtreeMaxEntries
    let byLon := sort.run (fun a b => decide (a.point.lon < b.point.lon)) entries
    let stripSize := ceilSqrt pages * rtreeMaxEntries
    let strips := slices stripSize byLon.length byLon
    some (inner ⟨0, 0, 0, 0⟩ (strips.flatMap (stripLeaves sort))).updateMBR

/-! ## What is built -/

theorem storedAll_pageLeaf (pages : List (List (IndexEntry T))) :
    storedAll (pages.map pageLeaf) = pages.flatten := by
  induction pages with
  | nil => rfl
  | cons page pages ih =>
    rw [map_cons, storedAll, ih, flatten_cons]
    rfl

omit [LinearOrder T] [Zero T] in
theorem storedAll_flatMap {α : Type*} (f : α → List (RTreeNode T)) (l : List α) :
    storedAll (l.flatMap f) = l.flatMap fun a => storedAll (f a) := by
  induction l with
  | nil => rfl
  | cons a l ih => rw [flatMap_cons, storedAll_append, ih, flatMap_cons]

/-- The leaves of a strip hold its entries, each once. -/
theorem stripLeaves_spec (strip : List (IndexEntry T)) :
    (storedAll (stripLeaves sort strip)).Perm strip ∧ ∀ n ∈ stripLeaves sort strip, n.Covering := by
  have hless : ∀ a b : IndexEntry T, decide (a.point.lat < b.point.lat) = true ↔
      a.point.lat < b.point.lat := fun a b => decide_eq_true_iff
  unfold stripLeaves
  constructor
  · rw [storedAll_pageLeaf, flatten_slices (by decide) le_rfl]
    exact (sort.run_of_key hless strip).1
  · intro n hn
    obtain ⟨page, -, rfl⟩ := mem_map.mp hn
    exact covering_leafMBR _ _

variable {entries : List (IndexEntry T)} {n : RTreeNode T}

/-- **The node that `strBuild` builds covers the entries, and holds each of them
once.** -/
theorem strBuild_spec (h : strBuild sort entries = some n) :
    n.Covering ∧ n.stored.Perm entries := by
  unfold strBuild at h
  dsimp only at h
  split at h
  · cases h
  rename_i hne
  split at h
  · cases h
    exact ⟨covering_leafMBR _ _, Perm.refl _⟩
  have hless : ∀ a b : IndexEntry T, decide (a.point.lon < b.point.lon) = true ↔
      a.point.lon < b.point.lon := fun a b => decide_eq_true_iff
  have hbyLon := (sort.run_of_key hless entries).1
  have hsize : 0 < ceilSqrt ((entries.length + (rtreeMaxEntries - 1)) / rtreeMaxEntries) *
      rtreeMaxEntries := by
    have hpages : 0 < (entries.length + (rtreeMaxEntries - 1)) / rtreeMaxEntries := by
      unfold rtreeMaxEntries
      omega
    exact Nat.mul_pos (ceilSqrt_pos hpages) (by decide)
  cases h
  generalize sort.run _ entries = byLon at hbyLon ⊢
  generalize ceilSqrt _ * rtreeMaxEntries = size at hsize ⊢
  have hstored : (storedAll ((slices size byLon.length byLon).flatMap (stripLeaves sort))).Perm
      entries := by
    have hstrips := Perm.flatMap_left (slices size byLon.length byLon)
      fun strip _ => (stripLeaves_spec sort strip).1
    rw [flatMap_id', flatten_slices hsize le_rfl] at hstrips
    rw [storedAll_flatMap]
    exact hstrips.trans hbyLon
  refine ⟨covering_innerMBR _ ?_ ?_, hstored⟩
  · rintro hnil
    rw [hnil] at hstored
    exact hne (by rw [hstored.symm.eq_nil]; rfl)
  · intro c hc
    obtain ⟨strip, -, hc⟩ := mem_flatMap.mp hc
    exact (stripLeaves_spec sort strip).2 c hc

/-! ## How tightly it is built -/

/-- Every leaf holds one to eight entries, and every rectangle is the bounding
box of the entries below it. -/
inductive Tight : RTreeNode T → Prop where
  | leaf {mbr : BBox T} {entries : List (IndexEntry T)} (hpos : 0 < entries.length)
      (hmax : entries.length ≤ rtreeMaxEntries) (hmbr : mbr.Bounds entries) :
      Tight (leaf mbr entries)
  | inner {mbr : BBox T} {children : List (RTreeNode T)} (hmbr : mbr.Bounds (storedAll children))
      (hchildren : ∀ c ∈ children, Tight c) : Tight (inner mbr children)

omit [Zero T] in
theorem Tight.bounds (h : n.Tight) : n.mbr.Bounds n.stored := by
  cases h with
  | leaf _ _ hmbr => exact hmbr
  | inner hmbr _ => exact hmbr

omit [Zero T] in
theorem leafMBR_bounds (old : BBox T) (hpos : 0 < entries.length) :
    (leafMBR old entries).Bounds entries where
  contains := leafMBR_contains old entries
  least outer houter := by
    have hwithin : ∀ e ∈ entries, (BBox.ofPoint e.point).Within outer :=
      fun e he => BBox.contains_iff_within.mp (houter e he)
    cases entries with
    | nil => cases hpos
    | cons e entries =>
      refine BBox.foldl_extend_within (hwithin e mem_cons_self) ?_
      intro b hb
      obtain ⟨x, hx, rfl⟩ := mem_map.mp hb
      exact hwithin x hx

omit [Zero T] in
theorem innerMBR_bounds (old : BBox T) {children : List (RTreeNode T)} (hne : children ≠ [])
    (h : ∀ c ∈ children, c.Tight) : (innerMBR old children).Bounds (storedAll children) where
  contains e he := by
    obtain ⟨c, hc, hec⟩ := mem_storedAll.mp he
    exact (within_innerMBR old children c hc).contains ((h c hc).bounds.contains e hec)
  least outer houter := by
    have hwithin : ∀ c ∈ children, c.mbr.Within outer := fun c hc =>
      (h c hc).bounds.least outer fun e he => houter e (mem_storedAll.mpr ⟨c, hc, he⟩)
    cases children with
    | nil => exact absurd rfl hne
    | cons c children =>
      refine BBox.foldl_extend_within (hwithin c mem_cons_self) ?_
      intro b hb
      obtain ⟨x, hx, rfl⟩ := mem_map.mp hb
      exact hwithin x hx

variable {page : List (IndexEntry T)}

theorem tight_pageLeaf (hpos : 0 < page.length)
    (hmax : page.length ≤ rtreeMaxEntries) : (pageLeaf page).Tight :=
  .leaf hpos hmax (leafMBR_bounds _ hpos)

theorem length_le_of_tight_pageLeaf (h : (pageLeaf page).Tight) :
    page.length ≤ rtreeMaxEntries := by
  cases h with
  | leaf _ hmax _ => exact hmax

/-- What a bulk load should give: a tight node with each entry once, in which a
search finds the entries of its box. -/
structure Packed (entries : List (IndexEntry T)) (n : RTreeNode T) : Prop where
  once : n.stored.Perm entries
  tight : n.Tight
  search : ∀ bbox, (searchNode bbox n).Perm (entries.filter fun e => bbox.contains e.point)

/-- The number of entries as the `int` that `strBuild` compares. -/
def intCount (entries : List (IndexEntry T)) : Int := (entries.length : Int).bmod (2 ^ 32)

/-- A count that is at most eight as an `int` makes a single leaf. -/
theorem strBuild_of_intCount_le (hne : entries ≠ []) (h : intCount entries ≤ rtreeMaxEntries) :
    strBuild sort entries = some (pageLeaf entries) := by
  unfold strBuild
  rw [if_neg (mt length_eq_zero_iff.mp hne)]
  exact if_pos h

theorem tight_strBuild (h : strBuild sort entries = some n)
    (hcount : entries.length ≤ rtreeMaxEntries ∨ rtreeMaxEntries < intCount entries) :
    n.Tight := by
  obtain ⟨-, hstored⟩ := strBuild_spec sort h
  have hne : entries ≠ [] := by
    rintro rfl
    cases h
  by_cases hint : intCount entries ≤ rtreeMaxEntries
  · rw [strBuild_of_intCount_le sort hne hint] at h
    cases h
    exact tight_pageLeaf (length_pos_iff.mpr hne) (hcount.resolve_right (not_lt.mpr hint))
  unfold strBuild at h
  rw [if_neg (mt length_eq_zero_iff.mp hne)] at h
  unfold intCount at hint
  rw [if_neg hint] at h
  cases h
  have hleaves : ∀ strips : List (List (IndexEntry T)),
      ∀ c ∈ strips.flatMap (stripLeaves sort), c.Tight := by
    intro strips c hc
    obtain ⟨strip, -, hc⟩ := mem_flatMap.mp hc
    obtain ⟨page, hpage, rfl⟩ := mem_map.mp hc
    obtain ⟨hpos, hmax⟩ := length_of_mem_slices (by decide) hpage
    exact tight_pageLeaf hpos hmax
  refine .inner (innerMBR_bounds _ ?_ (hleaves _)) (hleaves _)
  intro hnil
  unfold updateMBR RTreeNode.stored at hstored
  rw [hnil] at hstored
  exact hne hstored.symm.eq_nil

/-- **For every list of entries and every sort, what `strBuild` returns holds
each entry once, in leaves of one to eight, under exact bounding boxes, and
searches as it should, if and only if the list has at most eight entries or its
length stays above eight as an `int`.** -/
theorem strBuild_packed_iff (entries : List (IndexEntry T)) :
    (entries ≠ [] → ∃ n, strBuild sort entries = some n ∧ n.Packed entries) ↔
      entries.length ≤ rtreeMaxEntries ∨ rtreeMaxEntries < intCount entries := by
  constructor
  · intro h
    by_contra hcount
    rw [not_or, not_le, not_lt] at hcount
    have hne : entries ≠ [] := length_pos_iff.mp ((Nat.zero_le _).trans_lt hcount.1)
    obtain ⟨n, hbuild, hpacked⟩ := h hne
    rw [strBuild_of_intCount_le sort hne hcount.2] at hbuild
    cases hbuild
    exact absurd (length_le_of_tight_pageLeaf hpacked.tight) (not_le.mpr hcount.1)
  · intro hcount hne
    obtain ⟨n, hn⟩ : ∃ n, strBuild sort entries = some n := by
      unfold strBuild
      rw [if_neg (mt length_eq_zero_iff.mp hne)]
      split
      · exact ⟨_, rfl⟩
      · exact ⟨_, rfl⟩
    obtain ⟨hcov, hstored⟩ := strBuild_spec sort hn
    refine ⟨n, hn, hstored, tight_strBuild sort hn hcount, fun bbox => ?_⟩
    rw [searchNode_eq bbox n hcov]
    exact hstored.filter _

/-- Two to the thirty-one entries end up in one leaf. -/
theorem strBuild_one_leaf :
    let e : IndexEntry ℕ := ⟨lit "a", ⟨1, 2⟩, lit "fleet", 0⟩
    let entries := List.replicate (2 ^ 31) e
    intCount entries = -2 ^ 31 ∧ strBuild StdSort.stable entries = some (pageLeaf entries) ∧
      ¬ (pageLeaf entries).Packed entries := by
  intro e entries
  have hlen : entries.length = 2 ^ 31 := length_replicate
  have hint : intCount entries = -2 ^ 31 := by
    unfold intCount
    rw [hlen]
    decide
  refine ⟨hint, strBuild_of_intCount_le _ ?_ ?_, ?_⟩
  · rw [← length_pos_iff, hlen]
    decide
  · rw [hint]
    decide
  · intro hpacked
    have hmax := length_le_of_tight_pageLeaf hpacked.tight
    rw [hlen] at hmax
    exact absurd hmax (by decide)

end RTreeNode

/-! ## The load -/

namespace RTree

variable {T : Type*} [LinearOrder T] [Zero T]

omit [LinearOrder T] [Zero T] in
/-- `e.collection = collection` for every entry. -/
def withCollection (collection : Bytes) (entries : List (IndexEntry T)) : List (IndexEntry T) :=
  entries.map fun e => { e with collection := collection }

/-- `bulkLoad`: nothing is done with the node that is built. -/
def bulkLoad (sort : StdSort (IndexEntry T)) (t : RTree T) (collection : Bytes)
    (entries : List (IndexEntry T)) : RTree T :=
  if entries.isEmpty then t
  else
    let _node := RTreeNode.strBuild sort (withCollection collection entries)
    t

variable {E : Type*} (enlargementNeeded : BBox T → Point T → E) (less : E → E → Bool) (maxEnl : E)
variable (sort : StdSort (IndexEntry T))

/-- The calls that change a tree. -/
inductive Op (T : Type*) where
  | insert (e : IndexEntry T)
  | remove (collection id : Bytes)
  | clear (collection : Bytes)
  | bulkLoad (collection : Bytes) (entries : List (IndexEntry T))

def step (t : RTree T) : Op T → RTree T
  | .insert e => t.insert enlargementNeeded less maxEnl e
  | .remove collection id => (t.remove collection id).2
  | .clear collection => t.clear collection
  | .bulkLoad collection entries => t.bulkLoad sort collection entries

variable (ops : List (Op T))

/-- The tree after a sequence of calls. -/
def run : RTree T := ops.foldl (step enlargementNeeded less maxEnl sort) new

theorem bulkLoad_eq (t : RTree T) (collection : Bytes) (entries : List (IndexEntry T)) :
    t.bulkLoad sort collection entries = t := by
  unfold bulkLoad
  split <;> rfl

theorem Covering.step {t : RTree T} (h : t.Covering) (op : Op T) :
    (t.step enlargementNeeded less maxEnl sort op).Covering := by
  cases op with
  | insert e => exact (insert_spec enlargementNeeded less maxEnl h e).1
  | remove collection id =>
    show (t.remove collection id).2.Covering
    unfold RTree.remove
    split <;> exact h
  | clear collection => exact OrdMap.forall_get?_delete h collection
  | bulkLoad collection entries =>
    show (t.bulkLoad sort collection entries).Covering
    rw [bulkLoad_eq]
    exact h

theorem run_covering : (run enlargementNeeded less maxEnl sort ops).Covering := by
  have hfold : ∀ {t : RTree T}, t.Covering →
      (ops.foldl (RTree.step enlargementNeeded less maxEnl sort) t).Covering := by
    induction ops with
    | nil => exact fun h => h
    | cons op ops ih => exact fun h => ih (h.step enlargementNeeded less maxEnl sort op)
  refine hfold ?_
  intro collection root hget
  cases hget

/-- **On every tree, a bulk load of entries whose ids are not in the collection
leaves the answers that the insertions one by one would leave if and only if
there is nothing to load.** -/
theorem bulkLoad_iff (collection : Bytes) (entries : List (IndexEntry T))
    (hfresh : ∀ e ∈ entries,
      ∀ x ∈ (run enlargementNeeded less maxEnl sort ops).stored collection, x.id ≠ e.id) :
    let t := run enlargementNeeded less maxEnl sort ops
    let bulk := t.bulkLoad sort collection entries
    let single := t.insertAll enlargementNeeded less maxEnl (withCollection collection entries)
    ((∀ bbox, (bulk.searchBBox collection bbox).Perm (single.searchBBox collection bbox)) ∧
      bulk.size collection = single.size collection) ↔ entries = [] := by
  intro t bulk single
  have hcov : t.Covering := run_covering enlargementNeeded less maxEnl sort ops
  constructor
  · rintro ⟨hsearch, -⟩
    by_contra hne
    obtain ⟨e, rest, rfl⟩ := exists_cons_of_ne_nil hne
    -- the box around the first entry alone finds its id after the insertions
    obtain ⟨hcov', hstored⟩ := insertAll_spec enlargementNeeded less maxEnl
      (withCollection collection (e :: rest)) hcov
    have hvisit : ({ e with collection := collection } : IndexEntry T) ∈
        single.visit collection (BBox.ofPoint e.point) := by
      rw [visit_eq hcov']
      refine mem_filter.mpr ⟨(hstored collection).mem_iff.mpr ?_, ?_⟩
      · refine mem_append_right _ (mem_filter.mpr ⟨mem_cons_self, ?_⟩)
        exact decide_eq_true rfl
      · exact BBox.contains_iff_within.mpr (BBox.Within.refl _)
    obtain ⟨x, hx, hid⟩ := exists_mem_dedupe hvisit not_mem_nil
    have hbulk := (hsearch (BBox.ofPoint e.point)).mem_iff.mpr hx
    have heq : bulk = t := bulkLoad_eq sort t collection (e :: rest)
    rw [heq] at hbulk
    have hold := mem_of_mem_dedupe hbulk
    rw [visit_eq hcov] at hold
    exact hfresh e mem_cons_self x (mem_filter.mp hold).1 hid
  · rintro rfl
    exact ⟨fun bbox => Perm.refl _, rfl⟩

/-- Nothing to load. -/
theorem bulkLoad_iff_nothing :
    let t := run (fun b p => p.lat - b.maxLat) (fun a b => decide (a < b)) 1000 StdSort.stable
      [.insert (⟨lit "a", ⟨1, 2⟩, lit "fleet", 0⟩ : IndexEntry ℕ)]
    (t.bulkLoad StdSort.stable (lit "fleet") []).size (lit "fleet") = 1 := by
  intro t
  exact ((bulkLoad_iff (fun b p => p.lat - b.maxLat) (fun a b => decide (a < b)) 1000 StdSort.stable
    [.insert (⟨lit "a", ⟨1, 2⟩, lit "fleet", 0⟩ : IndexEntry ℕ)] (lit "fleet") []
    (by simp)).mpr rfl).2.trans (by decide +kernel)

/-- A new tree is empty after the load of one entry. -/
theorem bulkLoad_lost :
    let e : IndexEntry ℕ := ⟨lit "a", ⟨1, 2⟩, lit "fleet", 0⟩
    let world : BBox ℕ := ⟨0, 0, 90, 180⟩
    let bulk := bulkLoad StdSort.stable new (lit "fleet") [e]
    let single := new.insertAll (fun b p => p.lat - b.maxLat) (fun a b => decide (a < b)) 1000
      (withCollection (lit "fleet") [e])
    bulk.searchBBox (lit "fleet") world = [] ∧ single.searchBBox (lit "fleet") world = [e] ∧
      bulk.size (lit "fleet") = 0 ∧ single.size (lit "fleet") = 1 ∧
      ¬ ((∀ bbox, (bulk.searchBBox (lit "fleet") bbox).Perm
          (single.searchBBox (lit "fleet") bbox)) ∧
        bulk.size (lit "fleet") = single.size (lit "fleet")) := by
  intro e world bulk single
  have hbulk : bulk = new := bulkLoad_eq StdSort.stable new (lit "fleet") [e]
  have hsize : single.size (lit "fleet") = 1 := by decide +kernel
  rw [hbulk, hsize]
  refine ⟨rfl, by decide +kernel, rfl, rfl, ?_⟩
  rintro ⟨-, hcount⟩
  cases hcount

end RTree

end SpatialDb.Spatial
