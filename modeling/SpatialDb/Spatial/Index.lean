import SpatialDb.Spatial.QuadTree
import SpatialDb.Spatial.RTree

/-!
# The index interface and its runs

Model of `cpp/include/index.h`: both trees implement `index::SpatialIndex`.
What a user of the interface expects of insertions and removals is stated over
whole runs, from the answers that the index itself gives: a removed id is not
found again before it is inserted again, only an id that is there is removed,
and the size is the number of entries that can be found.

Both trees only change a counter in `remove`.  `Hoards` says what such an index
does; the runs in which it still meets the expectation are found once for
every such index.
-/

namespace SpatialDb.Spatial

open Lib List OrdMap

/-- `index::SpatialIndex`: the calls that change an index, and what is asked of
it in between. -/
structure SpatialIndex (T S : Type*) where
  insert : S → IndexEntry T → Bool × S
  remove : S → Bytes → Bytes → Bool × S
  searchBBox : S → Bytes → BBox T → List (IndexEntry T)
  size : S → Bytes → Nat

inductive IndexOp (T : Type*) where
  | insert (e : IndexEntry T)
  | remove (collection id : Bytes)

/-! ## What a user expects -/

/-- What the answers so far say about an id of a collection. -/
inductive Status where
  | unseen
  | present
  | removed
  deriving DecidableEq

abbrev Track := Bytes → Bytes → Status

namespace Track

def start : Track := fun _ _ => .unseen

def mark (g : Track) (collection id : Bytes) (status : Status) : Track :=
  fun collection' id' => if collection' = collection ∧ id' = id then status else g collection' id'

theorem mark_eq (g : Track) (collection id : Bytes) (status : Status) (collection' id' : Bytes) :
    g.mark collection id status collection' id' =
      if collection' = collection ∧ id' = id then status else g collection' id' := rfl

end Track

variable {g : Track}

namespace SpatialIndex

variable {T S : Type*} (ix : SpatialIndex T S)

/-- One call, and what its answer says. -/
def next (s : S) (g : Track) : IndexOp T → S × Track
  | .insert e =>
    let (ok, s) := ix.insert s e
    (s, if ok then g.mark e.collection e.id .present else g)
  | .remove collection id =>
    let (ok, s) := ix.remove s collection id
    (s, if ok then g.mark collection id .removed else g)

/-- An id is inserted only while it is not present in its collection. -/
def fresh (s : S) (g : Track) : List (IndexOp T) → Bool
  | [] => true
  | op :: ops =>
    (match op with
      | .insert e => g e.collection e.id != .present
      | .remove _ _ => true) &&
    fresh (ix.next s g op).1 (ix.next s g op).2 ops

/-- The state of an index fits the answers it has given. -/
structure Sound (world : BBox T) (s : S) (g : Track) : Prop where
  removed : ∀ collection id, g collection id = .removed →
    ∀ bbox, ∀ e ∈ ix.searchBBox s collection bbox, e.id ≠ id
  size : ∀ collection, ix.size s collection = (ix.searchBBox s collection world).length

/-- The index is sound at every point of a run, and removes only what is
present. -/
def Right (world : BBox T) (s : S) (g : Track) : List (IndexOp T) → Prop
  | [] => ix.Sound world s g
  | op :: ops =>
    ix.Sound world s g ∧
    (match op with
      | .insert _ => True
      | .remove collection id =>
        (ix.remove s collection id).1 = true → g collection id = .present) ∧
    Right world (ix.next s g op).1 (ix.next s g op).2 ops

theorem Right.sound {world : BBox T} {s : S} {ops : List (IndexOp T)}
    (h : ix.Right world s g ops) : ix.Sound world s g := by
  cases ops with
  | nil => exact h
  | cons op ops => exact h.1

end SpatialIndex

/-! ## An index that keeps what it removes -/

section Hoards

variable {T S : Type*} [LinearOrder T]

/-- `stored` only grows: an accepted insertion adds its entry, a removal leaves
everything where it is.  The size counts modulo `2 ^ 64`. -/
structure Hoards (ix : SpatialIndex T S) (Inv : S → Prop)
    (stored : S → Bytes → List (IndexEntry T)) : Prop where
  insert_inv : ∀ {s}, Inv s → ∀ e, Inv (ix.insert s e).2
  insert_stored : ∀ {s}, Inv s → ∀ e collection, (stored (ix.insert s e).2 collection).Perm
    (stored s collection ++
      if (ix.insert s e).1 = true ∧ e.collection = collection then [e] else [])
  insert_size : ∀ {s}, Inv s → ∀ e collection, ix.size (ix.insert s e).2 collection =
    if (ix.insert s e).1 = true ∧ e.collection = collection then
      (ix.size s collection + 1) % 2 ^ 64
    else ix.size s collection
  remove_inv : ∀ {s}, Inv s → ∀ collection id, Inv (ix.remove s collection id).2
  remove_stored : ∀ s collection id, stored (ix.remove s collection id).2 = stored s
  remove_refused : ∀ s collection id, (ix.remove s collection id).1 = false →
    (ix.remove s collection id).2 = s
  search : ∀ {s}, Inv s → ∀ collection bbox, ((stored s collection).map (·.id)).Nodup →
    ix.searchBBox s collection bbox = (stored s collection).filter fun e => bbox.contains e.point

/-- Every accepted entry lies in the world, and no removal is answered with
yes. -/
def Harmless (ix : SpatialIndex T S) (world : BBox T) (s : S) : List (IndexOp T) → Prop
  | [] => True
  | .insert e :: ops =>
    ((ix.insert s e).1 = true → world.contains e.point = true) ∧
      Harmless ix world (ix.insert s e).2 ops
  | .remove collection id :: ops =>
    (ix.remove s collection id).1 = false ∧
      Harmless ix world (ix.remove s collection id).2 ops

variable {world : BBox T} {s : S}

namespace Hoards

variable {ix : SpatialIndex T S} {Inv : S → Prop} {stored : S → Bytes → List (IndexEntry T)}

/-- After `n` calls without a removal that was answered with yes. -/
structure Held (ix : SpatialIndex T S) (Inv : S → Prop)
    (stored : S → Bytes → List (IndexEntry T)) (s : S) (g : Track) (n : Nat) : Prop where
  inv : Inv s
  nodup : ∀ collection, ((stored s collection).map (·.id)).Nodup
  size : ∀ collection, ix.size s collection = (stored s collection).length
  bound : ∀ collection, (stored s collection).length ≤ n
  present : ∀ collection id, g collection id = .present ↔ ∃ e ∈ stored s collection, e.id = id
  removed : ∀ collection id, g collection id ≠ .removed

/-- All that is stored lies in the world. -/
def Inside (stored : S → Bytes → List (IndexEntry T)) (world : BBox T) (s : S) : Prop :=
  ∀ collection, ∀ e ∈ stored s collection, world.contains e.point = true

section

variable (h : Hoards ix Inv stored)
include h

theorem Held.sound_iff {n : Nat} (hheld : Held ix Inv stored s g n) (world : BBox T) :
    ix.Sound world s g ↔ Inside stored world s := by
  have hlength : ∀ collection, ix.size s collection =
      (ix.searchBBox s collection world).length ↔
        ∀ e ∈ stored s collection, world.contains e.point = true := by
    intro collection
    rw [hheld.size, h.search hheld.inv collection world (hheld.nodup collection), eq_comm,
      length_filter_eq_length_iff]
  constructor
  · intro hsound collection
    exact (hlength collection).mp (hsound.size collection)
  · intro hinside
    exact ⟨fun collection id hremoved => absurd hremoved (hheld.removed collection id),
      fun collection => (hlength collection).mpr (hinside collection)⟩

/-- An insertion that the caller may make. -/
theorem Held.insert {n : Nat}
    (hheld : Held ix Inv stored s g n) (hn : n + 1 < 2 ^ 64) {e : IndexEntry T}
    (hfresh : g e.collection e.id ≠ .present) :
    Held ix Inv stored (ix.next s g (.insert e)).1 (ix.next s g (.insert e)).2 (n + 1) := by
  have hperm := h.insert_stored hheld.inv e
  have hsize := h.insert_size hheld.inv e
  have hinv := h.insert_inv hheld.inv e
  show Held ix Inv stored (ix.insert s e).2 (if (ix.insert s e).1 then _ else g) (n + 1)
  generalize ix.insert s e = r at hperm hsize hinv ⊢
  obtain ⟨ok, s'⟩ := r
  cases ok with
  | false =>
    have hsame : ∀ collection, (stored s' collection).Perm (stored s collection) := by
      intro collection
      simpa using hperm collection
    refine ⟨hinv, fun c => ?_, fun c => ?_, fun c => ?_, fun c id => ?_, hheld.removed⟩
    · exact ((hsame c).map _).nodup_iff.mpr (hheld.nodup c)
    · have hc := hsize c
      rw [(hsame c).length_eq]
      simpa using hc.trans (by simpa using hheld.size c)
    · rw [(hsame c).length_eq]
      exact (hheld.bound c).trans (Nat.le_succ n)
    · simpa [(hsame c).mem_iff] using hheld.present c id
  | true =>
    have hlength : ∀ c, (stored s' c).length =
        (stored s c).length + if e.collection = c then 1 else 0 := by
      intro c
      rw [(hperm c).length_eq]
      by_cases hc : e.collection = c <;> simp [hc]
    refine ⟨hinv, fun c => ?_, fun c => ?_, fun c => ?_, fun c id => ?_, fun c id => ?_⟩
    · rw [((hperm c).map _).nodup_iff]
      by_cases hc : e.collection = c
      · subst hc
        -- the new id is not stored: it would be present
        have hnew : ∀ x ∈ stored s e.collection, x.id ≠ e.id := fun x hx heq =>
          hfresh ((hheld.present _ _).mpr ⟨x, hx, heq⟩)
        simpa [nodup_append, hheld.nodup] using hnew
      · simpa [hc] using hheld.nodup c
    · have hb := hheld.bound c
      have hsz := hheld.size c
      rw [hsize c, hlength c, hsz]
      by_cases hc : e.collection = c
      · rw [if_pos ⟨rfl, hc⟩, if_pos hc, Nat.mod_eq_of_lt (by omega)]
      · rw [if_neg (fun hand => hc hand.2), if_neg hc, Nat.add_zero]
    · have hb := hheld.bound c
      rw [hlength c]
      split <;> omega
    · simp only [if_true, Track.mark_eq, (hperm c).mem_iff]
      by_cases hc : c = e.collection ∧ id = e.id
      · obtain ⟨rfl, rfl⟩ := hc
        simp
      rw [if_neg hc, hheld.present c id]
      constructor
      · rintro ⟨x, hx, rfl⟩
        exact ⟨x, mem_append_left _ hx, rfl⟩
      · rintro ⟨x, hx, rfl⟩
        rcases mem_append.mp hx with hx | hx
        · exact ⟨x, hx, rfl⟩
        split_ifs at hx with hec
        · rw [mem_singleton.mp hx] at hc
          exact absurd ⟨hec.2.symm, rfl⟩ hc
        · exact absurd hx not_mem_nil
    · simp only [if_true, Track.mark_eq]
      split
      · simp
      · exact hheld.removed c id

/-- A removal that is answered with yes shows at once: the entry is still
found. -/
theorem Held.not_right_remove {n : Nat} (hheld : Held ix Inv stored s g n) {collection id : Bytes}
    {ops : List (IndexOp T)} (hyes : (ix.remove s collection id).1 = true) :
    ¬ ix.Right world s g (.remove collection id :: ops) := by
  rintro ⟨-, hpresent, hright⟩
  obtain ⟨e, he, rfl⟩ := (hheld.present collection id).mp (hpresent hyes)
  have hnext : ix.next s g (.remove collection e.id) =
      ((ix.remove s collection e.id).2, g.mark collection e.id .removed) := by
    show ((ix.remove s collection e.id).2, if (ix.remove s collection e.id).1 then _ else _) = _
    rw [if_pos hyes]
  rw [hnext] at hright
  have hsound := hright.sound
  have hinv := h.remove_inv hheld.inv collection e.id
  have hstored := h.remove_stored s collection e.id
  have hfound : e ∈ ix.searchBBox (ix.remove s collection e.id).2 collection
      (BBox.ofPoint e.point) := by
    rw [h.search hinv collection _ (by rw [hstored]; exact hheld.nodup collection), hstored]
    refine mem_filter.mpr ⟨he, ?_⟩
    exact BBox.contains_iff.mpr ⟨⟨le_rfl, le_rfl⟩, le_rfl, le_rfl⟩
  exact hsound.removed collection e.id (by simp [Track.mark_eq]) _ e hfound rfl

theorem inside_insert_iff (hinv : Inv s) (hinside : Inside stored world s) (e : IndexEntry T) :
    Inside stored world (ix.insert s e).2 ↔
      ((ix.insert s e).1 = true → world.contains e.point = true) := by
  have hperm := h.insert_stored hinv e
  constructor
  · intro hall hok
    refine hall e.collection e ((hperm e.collection).mem_iff.mpr ?_)
    simp [hok]
  · intro hin collection x hx
    rcases mem_append.mp ((hperm collection).mem_iff.mp hx) with hx | hx
    · exact hinside collection x hx
    split_ifs at hx with hok
    · rw [mem_singleton.mp hx]
      exact hin hok.1
    · exact absurd hx not_mem_nil

/-- **An index that keeps what it removes is right in exactly the runs in which
no removal is answered with yes and everything accepted lies in the world.** -/
theorem right_iff (ops : List (IndexOp T)) :
    ∀ {s : S} {g : Track} {n : Nat}, Held ix Inv stored s g n → n + ops.length < 2 ^ 64 →
      ix.fresh s g ops = true → Inside stored world s →
      (ix.Right world s g ops ↔ Harmless ix world s ops) := by
  induction ops with
  | nil =>
    intro s g n hheld _ _ hinside
    exact iff_of_true ((hheld.sound_iff h world).mpr hinside) trivial
  | cons op ops ih =>
    intro s g n hheld hlen hfresh hinside
    have hlen' : n + 1 + ops.length < 2 ^ 64 := by
      rw [length_cons] at hlen
      omega
    have hsound := (hheld.sound_iff h world).mpr hinside
    cases op with
    | insert e =>
      rw [SpatialIndex.fresh, Bool.and_eq_true] at hfresh
      obtain ⟨hnew, hrest⟩ := hfresh
      have hheld' := hheld.insert h (by omega) (by simpa using hnew)
      have hin := inside_insert_iff h hheld.inv hinside e
      constructor
      · rintro ⟨-, -, hright⟩
        have hok := hin.mp ((hheld'.sound_iff h world).mp hright.sound)
        exact ⟨hok, (ih hheld' hlen' hrest (hin.mpr hok)).mp hright⟩
      · rintro ⟨hok, hharmless⟩
        exact ⟨hsound, trivial, (ih hheld' hlen' hrest (hin.mpr hok)).mpr hharmless⟩
    | remove collection id =>
      cases hanswer : (ix.remove s collection id).1 with
      | true =>
        refine iff_of_false (hheld.not_right_remove h hanswer) ?_
        rintro ⟨hno, -⟩
        rw [hanswer] at hno
        cases hno
      | false =>
        have hstate := h.remove_refused s collection id hanswer
        have hnext : ix.next s g (.remove collection id) = (s, g) := by
          show ((ix.remove s collection id).2,
            if (ix.remove s collection id).1 then _ else g) = (s, g)
          rw [hanswer, hstate, if_neg (by simp)]
        rw [SpatialIndex.fresh, hnext] at hfresh
        have hiff := ih hheld (by omega) (by simpa using hfresh) hinside
        rw [SpatialIndex.Right, hnext, Harmless, hstate]
        constructor
        · rintro ⟨-, -, hright⟩
          exact ⟨hanswer, hiff.mp hright⟩
        · rintro ⟨-, hharmless⟩
          refine ⟨hsound, fun hyes => ?_, hiff.mpr hharmless⟩
          rw [hanswer] at hyes
          cases hyes

/-- The run from an empty index. -/
theorem right_iff_of_empty {ops : List (IndexOp T)}
    (hinv : Inv s) (hstored : ∀ collection, stored s collection = [])
    (hsize : ∀ collection, ix.size s collection = 0) (hlen : ops.length < 2 ^ 64)
    (hfresh : ix.fresh s Track.start ops = true) :
    ix.Right world s Track.start ops ↔ Harmless ix world s ops := by
  have hheld : Held ix Inv stored s Track.start 0 :=
    { inv := hinv
      nodup := fun collection => by simp [hstored collection]
      size := fun collection => by simp [hstored collection, hsize collection]
      bound := fun collection => by simp [hstored collection]
      present := fun collection id => by simp [hstored collection, Track.start]
      removed := fun collection id => by simp [Track.start] }
  refine right_iff h ops hheld (by omega) hfresh fun collection e he => ?_
  rw [hstored collection] at he
  exact absurd he not_mem_nil

end

end Hoards

end Hoards

/-! ## The two trees -/

/-- The second call is not a removal from the collection that the first one
inserts into. -/
def IndexOp.Apart {T : Type*} : IndexOp T → IndexOp T → Prop
  | .insert e, .remove collection _ => e.collection ≠ collection
  | _, _ => True

theorem IndexOp.forall_apart_insert {T : Type*} {e : IndexEntry T} {ops : List (IndexOp T)} :
    (∀ op ∈ ops, Apart (.insert e) op) ↔
      ∀ collection id, .remove collection id ∈ ops → e.collection ≠ collection := by
  refine ⟨fun h collection id hmem => h _ hmem, fun h op hop => ?_⟩
  cases op with
  | insert x => trivial
  | remove collection id => exact h collection id hop

theorem IndexOp.forall_apart_remove {T : Type*} {collection id : Bytes} (ops : List (IndexOp T)) :
    ∀ op ∈ ops, Apart (.remove collection id) op := by
  intro op _
  cases op <;> trivial

variable {T : Type*} [LinearOrder T]

section RTree

variable [Zero T] {E : Type*}
variable (enlargementNeeded : BBox T → Point T → E) (less : E → E → Bool) (maxEnl : E)

/-- `RTree` as an index; `insert` always answers yes. -/
def rtreeIndex : SpatialIndex T (RTree T) where
  insert t e := (true, t.insert enlargementNeeded less maxEnl e)
  remove := RTree.remove
  searchBBox := RTree.searchBBox
  size := RTree.size

theorem rtree_hoards :
    Hoards (rtreeIndex enlargementNeeded less maxEnl) RTree.Covering RTree.stored where
  insert_inv h e := (RTree.insert_spec enlargementNeeded less maxEnl h e).1
  insert_stored h e collection := by
    simpa [rtreeIndex] using (RTree.insert_spec enlargementNeeded less maxEnl h e).2 collection
  insert_size {t} _ e collection := by
    show ((t.counts.set e.collection _).get? collection).getD 0 = _
    rw [get?_set]
    by_cases hc : e.collection = collection
    · subst hc
      simp [rtreeIndex, RTree.size]
    · simp [rtreeIndex, RTree.size, hc, Ne.symm hc]
  remove_inv {t} h collection id := by
    show RTree.Covering (t.remove collection id).2
    unfold RTree.remove
    split <;> exact h
  remove_stored t collection id := by
    show RTree.stored (t.remove collection id).2 = _
    unfold RTree.remove
    split <;> rfl
  remove_refused t collection id := by
    show (t.remove collection id).1 = false → (t.remove collection id).2 = t
    unfold RTree.remove
    split <;> simp
  search {t} h collection bbox hnodup := by
    show RTree.dedupe [] (t.visit collection bbox) = _
    rw [RTree.visit_eq h]
    refine RTree.dedupe_eq_self ?_ (by simp)
    exact hnodup.sublist (filter_sublist.map _)

/-- A removal is answered with no while its collection has no tree. -/
theorem rtree_harmless_iff (world : BBox T) (ops : List (IndexOp T)) (t : RTree T) :
    Harmless (rtreeIndex enlargementNeeded less maxEnl) world t ops ↔
      (∀ e, .insert e ∈ ops → world.contains e.point = true) ∧ ops.Pairwise IndexOp.Apart ∧
        ∀ collection id, .remove collection id ∈ ops → t.roots.get? collection = none := by
  induction ops generalizing t with
  | nil => simp [Harmless]
  | cons op ops ih =>
    rw [pairwise_cons]
    cases op with
    | insert e =>
      have hroots : ∀ collection,
          (t.insert enlargementNeeded less maxEnl e).roots.get? collection = none ↔
            e.collection ≠ collection ∧ t.roots.get? collection = none := by
        intro collection
        show (t.roots.set e.collection _).get? collection = none ↔ _
        rw [get?_set]
        by_cases hc : e.collection = collection
        · subst hc
          simp
        · simp [hc, Ne.symm hc]
      have hhead : Harmless (rtreeIndex enlargementNeeded less maxEnl) world t
          (.insert e :: ops) ↔ world.contains e.point = true ∧
            Harmless (rtreeIndex enlargementNeeded less maxEnl) world
              (t.insert enlargementNeeded less maxEnl e) ops :=
        and_congr_left' (by simp [rtreeIndex])
      rw [hhead, ih, IndexOp.forall_apart_insert]
      simp only [hroots, mem_cons, IndexOp.insert.injEq, reduceCtorEq, false_or,
        forall_eq_or_imp, imp_and, forall_and]
      tauto
    | remove collection id =>
      have hanswer : (t.remove collection id).1 = false ↔ t.roots.get? collection = none := by
        unfold RTree.remove
        cases t.roots.get? collection <;> simp
      have hhead : Harmless (rtreeIndex enlargementNeeded less maxEnl) world t
          (.remove collection id :: ops) ↔ t.roots.get? collection = none ∧
            Harmless (rtreeIndex enlargementNeeded less maxEnl) world t ops := by
        rw [← hanswer]
        refine and_congr_right fun hno => ?_
        rw [(rtree_hoards enlargementNeeded less maxEnl).remove_refused t collection id hno]
      rw [hhead, ih, and_iff_right (IndexOp.forall_apart_remove ops)]
      simp only [mem_cons, IndexOp.remove.injEq, reduceCtorEq, false_or, or_imp, and_imp,
        forall_and, forall_eq, forall_eq_apply_imp_iff]
      tauto

end RTree

section QuadTree

variable (mid : T → T → T)

/-- `QuadTree` as an index. -/
def quadtreeIndex : SpatialIndex T (QuadTree T) where
  insert := QuadTree.insert mid
  remove := QuadTree.remove
  searchBBox := QuadTree.searchBBox
  size := QuadTree.size

theorem quadtree_hoards : Hoards (quadtreeIndex mid) (QuadTree.Shaped mid) QuadTree.stored where
  insert_inv h e := (QuadTree.insert_spec mid h e).2.1
  insert_stored h e collection := (QuadTree.insert_spec mid h e).2.2 collection
  insert_size {t} _ e collection := by
    show ((t.insert mid e).2.counts.get? collection).getD 0 =
      if (t.insert mid e).1 = true ∧ _ then _ else _
    have hcounts : (t.insert mid e).2.counts = if (t.insert mid e).1 then
        t.counts.set e.collection (((t.counts.get? e.collection).getD 0 + 1) % 2 ^ 64)
      else t.counts := rfl
    rw [hcounts]
    by_cases hok : (t.insert mid e).1 = true
    · rw [if_pos hok, get?_set]
      by_cases hc : e.collection = collection
      · subst hc
        simp [quadtreeIndex, QuadTree.size, hok]
      · simp [quadtreeIndex, QuadTree.size, hc, Ne.symm hc]
    · simp [quadtreeIndex, QuadTree.size, hok]
  remove_inv h _ _ := h
  remove_stored _ _ _ := rfl
  remove_refused _ _ _ hno := by cases hno
  search h collection bbox _ := QuadTree.searchBBox_eq mid h collection bbox

/-- Every removal is answered with yes. -/
theorem quadtree_harmless_iff (ops : List (IndexOp T)) {t : QuadTree T} (h : t.Shaped mid) :
    Harmless (quadtreeIndex mid) t.world t ops ↔ ∀ collection id, .remove collection id ∉ ops := by
  induction ops generalizing t with
  | nil => simp [Harmless]
  | cons op ops ih =>
    cases op with
    | insert e =>
      obtain ⟨hanswer, hshaped, -⟩ := QuadTree.insert_spec mid h e
      have hrest : Harmless (quadtreeIndex mid) t.world (t.insert mid e).2 ops ↔ _ := ih hshaped
      have hok : (t.insert mid e).1 = true → t.world.contains e.point = true :=
        fun hyes => hanswer.symm.trans hyes
      refine (and_iff_right hok).trans (hrest.trans ?_)
      simp
    | remove collection id =>
      refine iff_of_false ?_ fun hnone => hnone collection id mem_cons_self
      rintro ⟨hno, -⟩
      cases hno

end QuadTree

section Run

variable [Zero T] {E : Type*}
variable (enlargementNeeded : BBox T → Point T → E) (less : E → E → Bool) (maxEnl : E)
variable (mid : T → T → T)

/-- **In a run that inserts only ids that are not present, the R-tree does what
a user expects if and only if every inserted point lies in the world and no
removal comes after an insertion into its collection; the quadtree does so if
and only if there is no removal.** -/
theorem run_right_iff (world : BBox T) (maxDepth : Int) (ops : List (IndexOp T))
    (hlen : ops.length < 2 ^ 64) :
    ((rtreeIndex enlargementNeeded less maxEnl).fresh RTree.new Track.start ops = true →
      ((rtreeIndex enlargementNeeded less maxEnl).Right world RTree.new Track.start ops ↔
        (∀ e, .insert e ∈ ops → world.contains e.point = true) ∧
          ops.Pairwise IndexOp.Apart)) ∧
    ((quadtreeIndex mid).fresh (QuadTree.new world maxDepth) Track.start ops = true →
      ((quadtreeIndex mid).Right world (QuadTree.new world maxDepth) Track.start ops ↔
        ∀ collection id, .remove collection id ∉ ops)) := by
  constructor
  · intro hfresh
    have hnew : (RTree.new : RTree T).Covering := by
      intro collection root hget
      cases hget
    rw [(rtree_hoards enlargementNeeded less maxEnl).right_iff_of_empty hnew (fun _ => rfl)
      (fun _ => rfl) hlen hfresh, rtree_harmless_iff]
    constructor
    · rintro ⟨hins, hapart, -⟩
      exact ⟨hins, hapart⟩
    · rintro ⟨hins, hapart⟩
      exact ⟨hins, hapart, fun _ _ _ => rfl⟩
  · intro hfresh
    have hnew : (QuadTree.new world maxDepth).Shaped mid := by
      intro collection root hget
      cases hget
    rw [(quadtree_hoards mid).right_iff_of_empty hnew (fun _ => rfl) (fun _ => rfl) hlen hfresh]
    exact quadtree_harmless_iff mid ops hnew

end Run

/-- A removal from a collection without a tree, then an insertion. -/
theorem run_right_iff_remove_first : let ops : List (IndexOp Nat) :=
      [.remove (lit "col") (lit "a"), .insert ⟨lit "a", ⟨1, 2⟩, lit "col", 0⟩]
    let world : BBox Nat := ⟨0, 0, 90, 180⟩
    (rtreeIndex (fun b p => p.lat - b.maxLat) (fun a b => decide (a < b)) 1000).Right
      world RTree.new Track.start ops ∧
    ¬ (quadtreeIndex fun a b => (a + b) / 2).Right world (QuadTree.new world 16)
      Track.start ops := by
  intro ops world
  obtain ⟨hr, hq⟩ := run_right_iff (fun b p => p.lat - b.maxLat) (fun a b => decide (a < b)) 1000
    (fun a b => (a + b) / 2) world 16 ops (by decide)
  refine ⟨(hr (by decide +kernel)).mpr ⟨?_, ?_⟩, fun hright => ?_⟩
  · intro e he
    obtain rfl : e = ⟨lit "a", ⟨1, 2⟩, lit "col", 0⟩ := by simpa [ops] using he
    decide
  · exact .cons (fun op _ => by cases op <;> trivial) (.cons (by simp) .nil)
  · exact (hq (by decide +kernel)).mp hright (lit "col") (lit "a") mem_cons_self

/-- An entry that both trees say they have removed is still found, and is no
longer counted. -/
theorem removed_entry_is_found :
    let e : IndexEntry Nat := ⟨lit "a", ⟨1, 2⟩, lit "col", 0⟩
    let ops : List (IndexOp Nat) := [.insert e, .remove (lit "col") (lit "a")]
    let world : BBox Nat := ⟨0, 0, 90, 180⟩
    let rtree := rtreeIndex (fun b p => p.lat - b.maxLat) (fun a b => decide (a < b)) 1000
    let quadtree := quadtreeIndex fun a b : Nat => (a + b) / 2
    let r := rtree.remove (rtree.insert RTree.new e).2 (lit "col") (lit "a")
    let q := quadtree.remove (quadtree.insert (QuadTree.new world 16) e).2 (lit "col") (lit "a")
    (rtree.fresh RTree.new Track.start ops = true ∧
      ¬ rtree.Right world RTree.new Track.start ops ∧
      r.1 = true ∧ rtree.searchBBox r.2 (lit "col") world = [e] ∧
      rtree.size r.2 (lit "col") = 0) ∧
    (quadtree.fresh (QuadTree.new world 16) Track.start ops = true ∧
      ¬ quadtree.Right world (QuadTree.new world 16) Track.start ops ∧
      q.1 = true ∧ quadtree.searchBBox q.2 (lit "col") world = [e] ∧
      quadtree.size q.2 (lit "col") = 0) := by
  intro e ops world rtree quadtree r q
  have hr : rtree.searchBBox r.2 (lit "col") world = [e] := by decide +kernel
  have hq : quadtree.searchBBox q.2 (lit "col") world = [e] := by decide +kernel
  refine ⟨⟨by decide +kernel, ?_, by decide +kernel, hr, by decide +kernel⟩,
    by decide +kernel, ?_, by decide +kernel, hq, by decide +kernel⟩
  · rintro ⟨-, -, -, -, hsound⟩
    exact hsound.removed (lit "col") (lit "a") (by decide +kernel) world e
      (hr ▸ mem_singleton_self e) rfl
  · rintro ⟨-, -, -, -, hsound⟩
    exact hsound.removed (lit "col") (lit "a") (by decide +kernel) world e
      (hq ▸ mem_singleton_self e) rfl

end SpatialDb.Spatial
