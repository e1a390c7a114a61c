import SpatialDb.Lib.Buckets
import SpatialDb.Spatial.Geometry

/-!
# The grid index

Model of `cpp/spatial/grid_index.cpp`, with coordinates as rational numbers and
cell numbers as integers.  All collections share one table of cells; the order
in which `remove` walks through it is left open.
-/

namespace SpatialDb.Spatial

open Lib List

/-! ## Model -/

/-- `GridIndex::CellKey`. -/
structure CellKey where
  latIdx : ℤ
  lonIdx : ℤ
  collection : Bytes

instance : LinearOrder CellKey :=
  LinearOrder.lift' (fun k => toLex (k.latIdx, toLex (k.lonIdx, k.collection))) (by
    rintro ⟨a, b, c⟩ ⟨a', b', c'⟩ h
    simpa using h)

structure GridIndex where
  latStep : ℚ
  lonStep : ℚ
  cells : OrdMap CellKey (List (IndexEntry ℚ))
  counts : OrdMap Bytes Nat

/-- The integers from `lo` to `hi`. -/
def intRange (lo hi : ℤ) : List ℤ := (List.range (hi + 1 - lo).toNat).map fun i : Nat => lo + i

namespace GridIndex

/-- The constructor; both steps come from the size of a cell. -/
def new (step : ℚ) : GridIndex := ⟨step, step, OrdMap.empty, OrdMap.empty⟩

variable (g : GridIndex)

def cellFor (col : Bytes) (p : Point ℚ) : CellKey :=
  ⟨⌊p.lat / g.latStep⌋, ⌊p.lon / g.lonStep⌋, col⟩

def insert (e : IndexEntry ℚ) : Bool × GridIndex :=
  let key := g.cellFor e.collection e.point
  (true,
    { g with
      cells := g.cells.set key (bucket g.cells key ++ [e])
      counts := g.counts.set e.collection ((g.counts.get? e.collection).getD 0 + 1) })

/-- The loop of `remove`: the cells after the first removal. -/
def removeLoop (collection id : Bytes) (cells : OrdMap CellKey (List (IndexEntry ℚ))) :
    List CellKey → Option (OrdMap CellKey (List (IndexEntry ℚ)))
  | [] => none
  | key :: keys =>
    if key.collection ≠ collection then removeLoop collection id cells keys
    else
      let entries := bucket cells key
      let kept := entries.filter fun e => e.id ≠ id
      if kept.length ≠ entries.length then some (cells.set key kept)
      else removeLoop collection id cells keys

def remove (walk : Traversal CellKey (List (IndexEntry ℚ))) (g : GridIndex)
    (collection id : Bytes) : Bool × GridIndex :=
  match removeLoop collection id g.cells (walk.keys g.cells) with
  | some cells =>
    (true,
      { g with
        cells := cells
        counts := g.counts.set collection ((g.counts.get? collection).getD 0 - 1) })
  | none => (false, g)

def cellsForBBox (col : Bytes) (bbox : BBox ℚ) : List CellKey :=
  let latMin := ⌊bbox.minLat / g.latStep⌋
  let latMax := ⌊bbox.maxLat / g.latStep⌋
  let lonMin := ⌊bbox.minLon / g.lonStep⌋
  let lonMax := ⌊bbox.maxLon / g.lonStep⌋
  (intRange latMin latMax).flatMap fun la => (intRange lonMin lonMax).map fun lo => ⟨la, lo, col⟩

variable (collection : Bytes)

def searchBBox (bbox : BBox ℚ) : List (IndexEntry ℚ) :=
  (g.cellsForBBox collection bbox).flatMap fun key =>
    (bucket g.cells key).filter fun e => bbox.contains e.point

/-- `size`.  The counter goes up with an entry that is stored and down after one
that was found, so as a `size_t` it does not wrap. -/
def size : Nat := (g.counts.get? collection).getD 0

def clear : GridIndex :=
  { g with
    cells := (g.cells.keys.filter fun k => k.collection = collection).foldl OrdMap.delete g.cells
    counts := g.counts.delete collection }

/-! ## Cells of a box -/

theorem mem_intRange {lo hi i : ℤ} : i ∈ intRange lo hi ↔ lo ≤ i ∧ i ≤ hi := by
  unfold intRange
  rw [mem_map]
  constructor
  · rintro ⟨n, hn, rfl⟩
    rw [mem_range] at hn
    omega
  · rintro ⟨hlo, hhi⟩
    refine ⟨(i - lo).toNat, ?_, ?_⟩
    · rw [mem_range]
      omega
    · omega

theorem nodup_intRange (lo hi : ℤ) : (intRange lo hi).Nodup := by
  refine Nodup.map ?_ nodup_range
  intro a b h
  simpa using h

variable {g : GridIndex}

theorem mem_cellsForBBox {col : Bytes} {bbox : BBox ℚ} {key : CellKey} :
    key ∈ g.cellsForBBox col bbox ↔ key.collection = col ∧
      (⌊bbox.minLat / g.latStep⌋ ≤ key.latIdx ∧ key.latIdx ≤ ⌊bbox.maxLat / g.latStep⌋) ∧
      ⌊bbox.minLon / g.lonStep⌋ ≤ key.lonIdx ∧ key.lonIdx ≤ ⌊bbox.maxLon / g.lonStep⌋ := by
  unfold cellsForBBox
  simp only [mem_flatMap, mem_map, mem_intRange]
  constructor
  · rintro ⟨la, hla, lo, hlo, rfl⟩
    exact ⟨rfl, hla, hlo⟩
  · rintro ⟨rfl, hla, hlo⟩
    exact ⟨key.latIdx, hla, key.lonIdx, hlo, rfl⟩

theorem nodup_cellsForBBox (g : GridIndex) (col : Bytes) (bbox : BBox ℚ) :
    (g.cellsForBBox col bbox).Nodup := by
  unfold cellsForBBox
  rw [nodup_flatMap]
  refine ⟨fun la _ => (nodup_intRange _ _).map fun lo lo' h => ?_, ?_⟩
  · exact congrArg CellKey.lonIdx h
  · refine (nodup_intRange _ _).imp fun {la la'} hne key hkey hkey' => hne ?_
    obtain ⟨lo, -, rfl⟩ := mem_map.mp hkey
    obtain ⟨lo', -, heq⟩ := mem_map.mp hkey'
    exact (congrArg CellKey.latIdx heq).symm

/-- The cell of a point of the box is one of the cells of the box. -/
theorem cellFor_mem_cellsForBBox (hlat : 0 < g.latStep) (hlon : 0 < g.lonStep) {bbox : BBox ℚ}
    {p : Point ℚ} (h : bbox.contains p = true) (collection col : Bytes) :
    g.cellFor col p ∈ g.cellsForBBox collection bbox ↔ col = collection := by
  obtain ⟨⟨h1, h2⟩, h3, h4⟩ := BBox.contains_iff.mp h
  have hfloor : ∀ {step a b : ℚ}, 0 < step → a ≤ b → ⌊a / step⌋ ≤ ⌊b / step⌋ := by
    intro step a b hstep hab
    exact Int.floor_le_floor (div_le_div_of_nonneg_right hab hstep.le)
  rw [mem_cellsForBBox]
  exact and_iff_left ⟨⟨hfloor hlat h1, hfloor hlat h2⟩, hfloor hlon h3, hfloor hlon h4⟩

/-- **A search finds the entries of the collection that lie in the box.** -/
theorem searchBBox_perm (hlat : 0 < g.latStep) (hlon : 0 < g.lonStep) {live : List (IndexEntry ℚ)}
    (h : Holds (fun e => g.cellFor e.collection e.point) g.cells live) (collection : Bytes)
    (bbox : BBox ℚ) :
    (g.searchBBox collection bbox).Perm
      (live.filter fun e => e.collection = collection ∧ bbox.contains e.point = true) := by
  have hread := (h.flatMap (nodup_cellsForBBox g collection bbox)).filter
    fun e => bbox.contains e.point
  rw [filter_flatMap, filter_filter] at hread
  refine hread.trans (Perm.of_eq (filter_congr fun e _ => ?_))
  cases hin : bbox.contains e.point with
  | false => simp
  | true => simp [cellFor_mem_cellsForBBox hlat hlon hin]

/-! ## The walk of `remove` -/

theorem removeLoop_eq_none_iff {collection id : Bytes}
    {cells : OrdMap CellKey (List (IndexEntry ℚ))} {keys : List CellKey} :
    removeLoop collection id cells keys = none ↔
      ∀ key ∈ keys, key.collection = collection → ∀ e ∈ bucket cells key, e.id ≠ id := by
  induction keys with
  | nil => simp [removeLoop]
  | cons key keys ih =>
    rw [removeLoop, forall_mem_cons]
    by_cases hcol : key.collection = collection
    · rw [if_neg (not_not.mpr hcol)]
      dsimp only
      by_cases hall : ∀ e ∈ bucket cells key, e.id ≠ id
      · have hkept : (bucket cells key).filter (fun e => e.id ≠ id) = bucket cells key :=
          filter_eq_self.mpr fun e he => decide_eq_true (hall e he)
        rw [hkept, if_neg (not_not.mpr rfl), ih]
        exact (and_iff_right fun _ => hall).symm
      have hshort : ((bucket cells key).filter fun e => e.id ≠ id).length ≠
          (bucket cells key).length := by
        intro hlength
        rw [length_filter_eq_length_iff] at hlength
        exact hall fun e he => of_decide_eq_true (hlength e he)
      rw [if_pos hshort]
      refine iff_of_false (by simp) fun hboth => hall (hboth.1 hcol)
    · rw [if_pos hcol, ih]
      exact (and_iff_right fun hc => absurd hc hcol).symm

theorem removeLoop_eq_some {collection id : Bytes}
    {cells cells' : OrdMap CellKey (List (IndexEntry ℚ))} {keys : List CellKey}
    (h : removeLoop collection id cells keys = some cells') :
    ∃ key, key.collection = collection ∧ (∃ e ∈ bucket cells key, e.id = id) ∧
      cells' = cells.set key ((bucket cells key).filter fun e => e.id ≠ id) := by
  induction keys with
  | nil => cases h
  | cons key keys ih =>
    rw [removeLoop] at h
    split at h
    · exact ih h
    rename_i hcol
    dsimp only at h
    split_ifs at h with hshort
    · cases h
      refine ⟨key, not_not.mp hcol, ?_, rfl⟩
      by_contra hnone
      refine hshort (congrArg List.length (filter_eq_self.mpr fun e he => ?_))
      exact decide_eq_true fun hid => hnone ⟨e, he, hid⟩
    · exact ih h

end GridIndex

/-! ## The set of live entries -/

/-- The calls that change the index. -/
inductive GridOp where
  | insert (e : IndexEntry ℚ)
  | remove (collection id : Bytes)
  | clear (collection : Bytes)

namespace GridOp

/-- The collection that a call is about. -/
def collection : GridOp → Bytes
  | insert e => e.collection
  | remove collection _ => collection
  | clear collection => collection

variable (live : List (IndexEntry ℚ))

/-- What a call does to the live entries. -/
def apply : GridOp → List (IndexEntry ℚ)
  | insert e => live ++ [e]
  | remove collection id => live.filter fun e => ¬ (e.collection = collection ∧ e.id = id)
  | clear collection => live.filter fun e => e.collection ≠ collection

/-- An id is inserted only while it is not present in its collection. -/
def Fresh : GridOp → Prop
  | insert e => ∀ x ∈ live, ¬ (x.collection = e.collection ∧ x.id = e.id)
  | _ => True

instance (live : List (IndexEntry ℚ)) (op : GridOp) : Decidable (op.Fresh live) := by
  cases op <;> unfold Fresh <;> infer_instance

end GridOp

/-- Every call of a run is fresh where it stands. -/
def FreshRun : List (IndexEntry ℚ) → List GridOp → Prop
  | _, [] => True
  | live, op :: ops => op.Fresh live ∧ FreshRun (op.apply live) ops

instance decidableFreshRun : (live : List (IndexEntry ℚ)) → (ops : List GridOp) →
    Decidable (FreshRun live ops)
  | _, [] => isTrue trivial
  | live, op :: ops =>
    haveI := decidableFreshRun (op.apply live) ops
    inferInstanceAs (Decidable (op.Fresh live ∧ FreshRun (op.apply live) ops))

namespace GridIndex

variable (walk : Traversal CellKey (List (IndexEntry ℚ)))

def step (g : GridIndex) : GridOp → GridIndex
  | .insert e => (g.insert e).2
  | .remove collection id => (g.remove walk collection id).2
  | .clear collection => g.clear collection

/-- The index stands for a set of live entries with distinct ids. -/
structure Refines (g : GridIndex) (live : List (IndexEntry ℚ)) : Prop where
  latStep : 0 < g.latStep
  lonStep : 0 < g.lonStep
  cells : Holds (fun e => g.cellFor e.collection e.point) g.cells live
  size : ∀ c, g.size c = (live.filter fun e => e.collection = c).length
  distinct : (live.map fun e => (e.collection, e.id)).Nodup

theorem refines_new {step : ℚ} (h : 0 < step) : (new step).Refines [] where
  latStep := h
  lonStep := h
  cells := holds_empty
  size _ := rfl
  distinct := nodup_nil

variable {g : GridIndex} {live : List (IndexEntry ℚ)} {op : GridOp}

theorem Refines.insert (h : g.Refines live) {e : IndexEntry ℚ}
    (hfresh : ∀ x ∈ live, ¬ (x.collection = e.collection ∧ x.id = e.id)) :
    (g.insert e).2.Refines (live ++ [e]) where
  latStep := h.latStep
  lonStep := h.lonStep
  cells := h.cells.push e
  size c := by
    have hold := h.size c
    unfold GridIndex.size at hold
    show ((g.counts.set e.collection _).get? c).getD 0 = _
    rw [OrdMap.get?_set, filter_append, length_append]
    by_cases hc : c = e.collection
    · subst hc
      rw [if_pos rfl, Option.getD_some, hold]
      simp
    · rw [if_neg hc, hold]
      simp [Ne.symm hc]
  distinct := by
    rw [map_append, nodup_append]
    refine ⟨h.distinct, nodup_singleton _, ?_⟩
    intro a ha b hb hab
    obtain ⟨x, hx, rfl⟩ := mem_map.mp ha
    rw [map_singleton, mem_singleton] at hb
    rw [hb, Prod.mk.injEq] at hab
    exact hfresh x hx hab

/-- The walk ends without a find exactly if the id is not live. -/
theorem Refines.removeLoop_eq_none_iff (h : g.Refines live) (collection id : Bytes) :
    removeLoop collection id g.cells (walk.keys g.cells) = none ↔
      ∀ e ∈ live, ¬ (e.collection = collection ∧ e.id = id) := by
  rw [GridIndex.removeLoop_eq_none_iff]
  constructor
  · rintro hnone e he ⟨hcol, hid⟩
    have hkey := (walk.perm g.cells).mem_iff.mpr (h.cells.mem_keys he)
    exact hnone _ hkey hcol e (h.cells.mem_bucket_iff.mpr ⟨he, rfl⟩) hid
  · intro hnone key _ hcol e he hid
    obtain ⟨hlive, rfl⟩ := h.cells.mem_bucket_iff.mp he
    exact hnone e hlive ⟨hcol, hid⟩

/-- At most one live entry has a given id. -/
theorem Refines.eq_of_id (h : g.Refines live) {a b : IndexEntry ℚ} (ha : a ∈ live) (hb : b ∈ live)
    (hcol : a.collection = b.collection) (hid : a.id = b.id) : a = b :=
  inj_on_of_nodup_map h.distinct ha hb (Prod.ext hcol hid)

/-- Dropping entries of other collections does not show in a collection. -/
theorem filter_collection {p : IndexEntry ℚ → Prop} [DecidablePred p] {c : Bytes}
    (h : ∀ x, x.collection = c → ¬ p x) :
    (live.filter fun x => ¬ p x).filter (fun x => x.collection = c) =
      live.filter fun x => x.collection = c := by
  rw [filter_filter]
  refine filter_congr fun x _ => ?_
  by_cases hx : x.collection = c
  · simp [hx, h x hx]
  · simp [hx]

section

variable (h : g.Refines live)
include h

theorem Refines.length_filter {e : IndexEntry ℚ} (he : e ∈ live) :
    (live.filter fun x => x.collection = e.collection).length =
      ((live.filter fun x => ¬ (x.collection = e.collection ∧ x.id = e.id)).filter
        fun x => x.collection = e.collection).length + 1 := by
  have hnodup : live.Nodup := Nodup.of_map _ h.distinct
  have hmem : e ∈ live.filter fun x => x.collection = e.collection :=
    mem_filter.mpr ⟨he, decide_eq_true rfl⟩
  have herase : (live.filter fun x => ¬ (x.collection = e.collection ∧ x.id = e.id)).filter
      (fun x => x.collection = e.collection) =
        (live.filter fun x => x.collection = e.collection).erase e := by
    rw [(hnodup.filter _).erase_eq_filter, filter_filter, filter_filter]
    refine filter_congr fun x hx => ?_
    by_cases hcol : x.collection = e.collection
    · have hiff : x.id = e.id ↔ x = e :=
        ⟨fun hid => h.eq_of_id hx he hcol hid, fun heq => congrArg IndexEntry.id heq⟩
      simp only [hcol, hiff, true_and, decide_true, Bool.true_and, Bool.and_true]
      exact decide_not.trans rfl
    · simp [hcol]
  rw [herase, length_erase_add_one hmem]

theorem Refines.remove (collection id : Bytes) : (g.remove walk collection id).2.Refines
      (live.filter fun e => ¬ (e.collection = collection ∧ e.id = id)) := by
  unfold GridIndex.remove
  split
  · rename_i cells hsome
    obtain ⟨key, hcol, ⟨e, he, rfl⟩, rfl⟩ := removeLoop_eq_some hsome
    obtain ⟨hlive, rfl⟩ := h.cells.mem_bucket_iff.mp he
    obtain rfl : e.collection = collection := hcol
    -- only `e` goes: in its cell the collection is given, and no other cell has its id
    have hbucket : (bucket g.cells (g.cellFor e.collection e.point)).filter (fun x => x.id ≠ e.id) =
        (bucket g.cells (g.cellFor e.collection e.point)).filter
          fun x => ¬ (x.collection = e.collection ∧ x.id = e.id) := by
      refine filter_congr fun x hx => ?_
      have hcol : x.collection = e.collection :=
        congrArg CellKey.collection (h.cells.mem_bucket_iff.mp hx).2
      simp [hcol]
    refine ⟨h.latStep, h.lonStep, ?_, fun c => ?_, ?_⟩
    · rw [hbucket]
      refine h.cells.filter_bucket _ fun x hx hne => decide_eq_true fun hboth => hne ?_
      rw [h.eq_of_id hx hlive hboth.1 hboth.2]
    · have hold := h.size c
      unfold GridIndex.size at hold
      show ((g.counts.set e.collection _).get? c).getD 0 = _
      rw [OrdMap.get?_set]
      by_cases hc : c = e.collection
      · subst hc
        have hlength := h.length_filter hlive
        rw [if_pos rfl, Option.getD_some, hold, hlength]
        rfl
      · rw [if_neg hc, hold, filter_collection fun x hx hboth => hc (hx.symm.trans hboth.1)]
    · exact h.distinct.sublist (filter_sublist.map _)
  · rename_i hnone
    have hsame : live.filter (fun e => ¬ (e.collection = collection ∧ e.id = id)) = live :=
      filter_eq_self.mpr fun e he =>
        decide_eq_true ((h.removeLoop_eq_none_iff walk collection id).mp hnone e he)
    rw [hsame]
    exact h

theorem Refines.clear (collection : Bytes) :
    (g.clear collection).Refines (live.filter fun e => e.collection ≠ collection) where
  latStep := h.latStep
  lonStep := h.lonStep
  cells := by
    have hdelete := h.cells.foldl_delete (g.cells.keys.filter fun k => k.collection = collection)
    have hlive : live.filter (fun e => g.cellFor e.collection e.point ∉
        g.cells.keys.filter fun k => k.collection = collection) =
          live.filter fun e => e.collection ≠ collection := by
      refine filter_congr fun e he => ?_
      have hkey := h.cells.mem_keys he
      rw [decide_eq_decide, mem_filter, decide_eq_true_iff]
      exact not_congr (and_iff_right hkey)
    rw [hlive] at hdelete
    exact hdelete
  size c := by
    have hold := h.size c
    unfold GridIndex.size at hold
    show ((g.counts.delete collection).get? c).getD 0 = _
    rw [OrdMap.get?_delete]
    by_cases hc : c = collection
    · subst hc
      rw [if_pos rfl, filter_filter, filter_eq_nil_iff.mpr]
      · rfl
      · intro e _
        simp
    · rw [if_neg hc, hold, filter_collection fun x hx heq => hc (hx.symm.trans heq)]
  distinct := h.distinct.sublist (filter_sublist.map _)

/-- `remove` answers whether the id is live. -/
theorem Refines.remove_iff (collection id : Bytes) :
    (g.remove walk collection id).1 = true ↔
      ∃ e ∈ live, e.collection = collection ∧ e.id = id := by
  have hnone := h.removeLoop_eq_none_iff walk collection id
  unfold GridIndex.remove
  split
  · rename_i cells hsome
    rw [hsome] at hnone
    have hlive := mt hnone.mpr (Option.some_ne_none cells)
    push Not at hlive
    exact iff_of_true rfl hlive
  rename_i hn
  refine iff_of_false Bool.false_ne_true ?_
  rintro ⟨e, he, hboth⟩
  exact hnone.mp hn e he hboth

/-- The live entries of one collection in a box have distinct ids. -/
theorem Refines.nodup_ids (collection : Bytes) (bbox : BBox ℚ) :
    ((live.filter fun e => e.collection = collection ∧ bbox.contains e.point = true).map
      IndexEntry.id).Nodup := by
  have hnodup : live.Nodup := Nodup.of_map _ h.distinct
  refine (hnodup.filter _).map_on fun a ha b hb hid => ?_
  obtain ⟨ha, hina⟩ := mem_filter.mp ha
  obtain ⟨hb, hinb⟩ := mem_filter.mp hb
  exact h.eq_of_id ha hb ((of_decide_eq_true hina).1.trans (of_decide_eq_true hinb).1.symm) hid

/-- One call. -/
theorem Refines.step (hfresh : op.Fresh live) : (g.step walk op).Refines (op.apply live) := by
  cases op with
  | insert e => exact h.insert hfresh
  | remove collection id => exact h.remove walk collection id
  | clear collection => exact h.clear collection

end

theorem Refines.foldl_step (ops : List GridOp) :
    ∀ {g : GridIndex} {live : List (IndexEntry ℚ)}, g.Refines live → FreshRun live ops →
      (ops.foldl (GridIndex.step walk) g).Refines (ops.foldl GridOp.apply live) := by
  induction ops with
  | nil => exact fun h _ => h
  | cons op ops ih => exact fun h hfresh => ih (h.step walk hfresh.1) hfresh.2

/-! ## Other collections -/

/-- A call changes only cells of its own collection. -/
theorem bucket_step {key : CellKey} (h : key.collection ≠ op.collection) :
    bucket (g.step walk op).cells key = bucket g.cells key := by
  cases op with
  | insert e =>
    show bucket (g.cells.set _ _) key = _
    rw [bucket_set, if_neg]
    rintro rfl
    exact h rfl
  | remove collection id =>
    show bucket (g.remove walk collection id).2.cells key = _
    unfold GridIndex.remove
    split
    · rename_i cells hsome
      obtain ⟨key', hcol, -, rfl⟩ := removeLoop_eq_some hsome
      rw [bucket_set, if_neg]
      rintro rfl
      exact h hcol
    · rfl
  | clear collection =>
    show bucket ((g.cells.keys.filter _).foldl OrdMap.delete g.cells) key = _
    rw [bucket_foldl_delete, if_neg]
    intro hmem
    exact h (of_decide_eq_true (mem_filter.mp hmem).2)

theorem size_step {collection : Bytes} (h : collection ≠ op.collection) :
    (g.step walk op).size collection = g.size collection := by
  cases op with
  | insert e =>
    show ((g.counts.set _ _).get? collection).getD 0 = _
    rw [OrdMap.get?_set_ne g.counts _ (k := e.collection) h]
    rfl
  | remove c id =>
    show (g.remove walk c id).2.size collection = _
    unfold GridIndex.remove
    split
    · show ((g.counts.set _ _).get? collection).getD 0 = _
      rw [OrdMap.get?_set_ne g.counts _ (k := c) h]
      rfl
    · rfl
  | clear c =>
    show ((g.counts.delete c).get? collection).getD 0 = _
    rw [OrdMap.get?_delete_ne g.counts (k := c) h]
    rfl

theorem searchBBox_step {collection : Bytes} (h : collection ≠ op.collection) (bbox : BBox ℚ) :
    (g.step walk op).searchBBox collection bbox = g.searchBBox collection bbox := by
  have hsteps : (g.step walk op).latStep = g.latStep ∧ (g.step walk op).lonStep = g.lonStep := by
    cases op with
    | insert e => exact ⟨rfl, rfl⟩
    | remove c id =>
      show (g.remove walk c id).2.latStep = _ ∧ (g.remove walk c id).2.lonStep = _
      unfold GridIndex.remove
      split <;> exact ⟨rfl, rfl⟩
    | clear c => exact ⟨rfl, rfl⟩
  have hcells : (g.step walk op).cellsForBBox collection bbox = g.cellsForBBox collection bbox := by
    unfold cellsForBBox
    rw [hsteps.1, hsteps.2]
  unfold searchBBox
  rw [hcells]
  refine flatMap_congr fun key hkey => ?_
  rw [bucket_step walk ((mem_cellsForBBox.mp hkey).1 ▸ h)]

/-! ## Runs -/

/-- **After every run in which an id is inserted only while it is not present, a
search returns the live entries of the collection in the box, each once; a
removal answers yes exactly if the id is live; the size is the number of live
entries; and a further call leaves the other collections as they are.** -/
theorem run_refines {cellStep : ℚ} (hstep : 0 < cellStep) (ops : List GridOp)
    (hfresh : FreshRun [] ops) :
    let g := ops.foldl (step walk) (new cellStep)
    let live := ops.foldl GridOp.apply []
    (∀ collection bbox, (g.searchBBox collection bbox).Perm
        (live.filter fun e => e.collection = collection ∧ bbox.contains e.point = true) ∧
      ((g.searchBBox collection bbox).map IndexEntry.id).Nodup) ∧
    (∀ collection id, (g.remove walk collection id).1 = true ↔
      ∃ e ∈ live, e.collection = collection ∧ e.id = id) ∧
    (∀ collection,
      g.size collection = (live.filter fun e => e.collection = collection).length) ∧
    (∀ op : GridOp, ∀ collection, collection ≠ op.collection →
      (∀ bbox, (g.step walk op).searchBBox collection bbox = g.searchBBox collection bbox) ∧
      (g.step walk op).size collection = g.size collection) := by
  intro g live
  have href : g.Refines live := (refines_new hstep).foldl_step walk ops hfresh
  refine ⟨fun collection bbox => ?_, href.remove_iff walk, href.size,
    fun op collection hne => ⟨searchBBox_step walk hne, size_step walk hne⟩⟩
  have hperm := searchBBox_perm href.latStep href.lonStep href.cells collection bbox
  exact ⟨hperm, (hperm.map _).nodup_iff.mpr (href.nodup_ids collection bbox)⟩

/-- Two entries on the border of a cell, one of which is removed again. -/
theorem run_refines_border :
    let a : IndexEntry ℚ := ⟨lit "a", ⟨1, 1⟩, lit "fleet", 0⟩
    let b : IndexEntry ℚ := ⟨lit "b", ⟨1, -1⟩, lit "fleet", 0⟩
    let ops := [GridOp.insert a, .insert b, .remove (lit "fleet") (lit "a")]
    let g := ops.foldl (step Traversal.ascending) (new 1)
    (g.searchBBox (lit "fleet") ⟨0, -1, 1, 1⟩).Perm [b] ∧ g.size (lit "fleet") = 1 ∧
      (g.remove Traversal.ascending (lit "fleet") (lit "b")).1 = true := by
  intro a b ops g
  obtain ⟨hsearch, hremove, hsize, -⟩ :=
    run_refines Traversal.ascending one_pos ops (by decide +kernel)
  have hbox := (hsearch (lit "fleet") ⟨0, -1, 1, 1⟩).1
  have hlive : ops.foldl GridOp.apply [] = [b] := by decide +kernel
  rw [hlive] at hbox hsize hremove
  exact ⟨hbox, hsize (lit "fleet"),
    (hremove (lit "fleet") (lit "b")).mpr ⟨b, mem_singleton_self b, rfl, rfl⟩⟩

end GridIndex

end SpatialDb.Spatial
