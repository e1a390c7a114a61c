import SpatialDb.Lib.OrdMap
import SpatialDb.Spatial.Geometry

/-!
# The R-tree

Model of `cpp/spatial/rtree.cpp`: one tree per collection, nodes of at most
eight entries or children, split in the middle.  Coordinates are in any linear
order.  The measure that `insertEntry` compares to choose a child is a
parameter, with an arbitrary comparison (for doubles, one that a NaN fails).
-/

namespace SpatialDb.Spatial

open Lib List OrdMap

def rtreeMaxEntries : Nat := 8

/-- `RTreeNode`. -/
inductive RTreeNode (T : Type*) where
  | leaf (mbr : BBox T) (entries : List (IndexEntry T))
  | inner (mbr : BBox T) (children : List (RTreeNode T))

namespace RTreeNode

variable {T : Type*}

def mbr : RTreeNode T → BBox T
  | leaf mbr _ => mbr
  | inner mbr _ => mbr

mutual

/-- The entries stored below a node. -/
def stored : RTreeNode T → List (IndexEntry T)
  | leaf _ entries => entries
  | inner _ children => storedAll children

def storedAll : List (RTreeNode T) → List (IndexEntry T)
  | [] => []
  | c :: cs => c.stored ++ storedAll cs

end

theorem storedAll_append (cs cs' : List (RTreeNode T)) :
    storedAll (cs ++ cs') = storedAll cs ++ storedAll cs' := by
  induction cs with
  | nil => rfl
  | cons c cs ih => simp [storedAll, ih]

theorem mem_storedAll {cs : List (RTreeNode T)} {e : IndexEntry T} :
    e ∈ storedAll cs ↔ ∃ c ∈ cs, e ∈ c.stored := by
  induction cs with
  | nil => simp [storedAll]
  | cons c cs ih => simp [storedAll, ih]

/-! ## Choice of a child -/

variable {children : List (RTreeNode T)}

section Choose

variable {E : Type*}
variable (enlargementNeeded : BBox T → Point T → E) (less : E → E → Bool) (maxEnl : E) (p : Point T)

/-- The loop that picks the child with the least enlargement. -/
def bestChild (children : List (RTreeNode T)) : Nat :=
  let rec go (i best : Nat) (bestEnl : E) : List (RTreeNode T) → Nat
    | [] => best
    | c :: cs =>
      let enl := enlargementNeeded c.mbr p
      if less enl bestEnl then go (i + 1) i enl cs else go (i + 1) best bestEnl cs
  go 0 0 maxEnl children

theorem bestChild_go_lt (children : List (RTreeNode T)) (i best : Nat)
    (bestEnl : E) (h : best < i + children.length) :
    bestChild.go enlargementNeeded less p i best bestEnl children < i + children.length := by
  induction children generalizing i best bestEnl with
  | nil => exact h
  | cons c cs ih =>
    have hlen : i + (c :: cs).length = i + 1 + cs.length := by
      rw [length_cons]
      omega
    rw [hlen] at h ⊢
    rw [bestChild.go]
    split
    · exact ih (i + 1) i _ (by omega)
    · exact ih (i + 1) best bestEnl (by omega)

theorem bestChild_lt (h : children ≠ []) :
    bestChild enlargementNeeded less maxEnl p children < children.length := by
  have hpos := length_pos_iff.mpr h
  have hgo := bestChild_go_lt enlargementNeeded less p children 0 0 maxEnl (by omega)
  rwa [Nat.zero_add] at hgo

end Choose

variable [LinearOrder T]

/-! ## Rectangles -/

/-- `updateMBR` of a leaf; the rectangle of an empty leaf stays. -/
def leafMBR (old : BBox T) (entries : List (IndexEntry T)) : BBox T :=
  match entries with
  | [] => old
  | e :: _ => (entries.map fun e => BBox.ofPoint e.point).foldl BBox.extend (BBox.ofPoint e.point)

/-- `updateMBR` of an inner node. -/
def innerMBR (old : BBox T) (children : List (RTreeNode T)) : BBox T :=
  match children with
  | [] => old
  | c :: _ => (children.map mbr).foldl BBox.extend c.mbr

def updateMBR : RTreeNode T → RTreeNode T
  | leaf old entries => leaf (leafMBR old entries) entries
  | inner old children => inner (innerMBR old children) children

variable (old : BBox T) (entries : List (IndexEntry T))

theorem leafMBR_contains : ∀ e ∈ entries, (leafMBR old entries).contains e.point = true := by
  cases entries with
  | nil => simp
  | cons x entries =>
    intro e he
    exact BBox.contains_iff_within.mpr ((BBox.within_foldl_extend _ _).2 _ (mem_map_of_mem he))

theorem within_innerMBR (children : List (RTreeNode T)) :
    ∀ c ∈ children, c.mbr.Within (innerMBR old children) := by
  cases children with
  | nil => simp
  | cons x children =>
    intro c hc
    exact (BBox.within_foldl_extend _ _).2 _ (mem_map_of_mem hc)

/-- Every rectangle in the tree covers what lies directly below it, and no
inner node is empty. -/
inductive Covering : RTreeNode T → Prop where
  | leaf {mbr : BBox T} {entries : List (IndexEntry T)}
      (h : ∀ e ∈ entries, mbr.contains e.point = true) : Covering (leaf mbr entries)
  | inner {mbr : BBox T} {children : List (RTreeNode T)} (hne : children ≠ [])
      (hwithin : ∀ c ∈ children, c.mbr.Within mbr) (h : ∀ c ∈ children, Covering c) :
      Covering (inner mbr children)

/-- In a covering tree a rectangle covers every entry below it, at any depth. -/
theorem Covering.contains_stored {n : RTreeNode T} (h : Covering n) :
    ∀ e ∈ n.stored, n.mbr.contains e.point = true := by
  induction h with
  | leaf h => exact h
  | inner _ hwithin _ ih =>
    intro e he
    obtain ⟨c, hc, hec⟩ := mem_storedAll.mp he
    exact (hwithin c hc).contains (ih c hc e hec)

theorem covering_leafMBR : Covering (leaf (leafMBR old entries) entries) :=
  .leaf (leafMBR_contains old entries)

theorem covering_innerMBR (hne : children ≠ []) (h : ∀ c ∈ children, Covering c) :
    Covering (inner (innerMBR old children) children) :=
  .inner hne (within_innerMBR old children) h

/-! ## Insertion -/

section Insert

variable [Zero T] {E : Type*}
variable (enlargementNeeded : BBox T → Point T → E) (less : E → E → Bool) (maxEnl : E)

/-- `splitNode`: the node keeps the first half, the sibling gets the rest. -/
def splitNode : RTreeNode T → RTreeNode T × RTreeNode T
  | leaf old entries =>
    let mid := entries.length / 2
    ((leaf old (entries.take mid)).updateMBR, (leaf ⟨0, 0, 0, 0⟩ (entries.drop mid)).updateMBR)
  | inner old children =>
    let mid := children.length / 2
    ((inner old (children.take mid)).updateMBR, (inner ⟨0, 0, 0, 0⟩ (children.drop mid)).updateMBR)

mutual

/-- `insertEntry`: the node afterwards, and the sibling when it was split. -/
def insertEntry (e : IndexEntry T) : RTreeNode T → RTreeNode T × Option (RTreeNode T)
  | leaf old entries =>
    let node := (leaf old (entries ++ [e])).updateMBR
    if (entries ++ [e]).length > rtreeMaxEntries then
      let (node, sibling) := splitNode node
      (node, some sibling)
    else (node, none)
  | inner old children =>
    let best := bestChild enlargementNeeded less maxEnl e.point children
    match insertAt e children best with
    | (children, none) => ((inner old children).updateMBR, none)
    | (children, some childSplit) =>
      let children := children ++ [childSplit]
      if children.length > rtreeMaxEntries then
        let (node, sibling) := splitNode (inner old children)
        (node.updateMBR, some sibling)
      else ((inner old children).updateMBR, none)

/-- `node->children[i] = insertEntry(node->children[i], ...)`. -/
def insertAt (e : IndexEntry T) :
    List (RTreeNode T) → Nat → List (RTreeNode T) × Option (RTreeNode T)
  | [], _ => ([], none)
  | c :: cs, 0 =>
    let (c, split) := insertEntry e c
    (c :: cs, split)
  | c :: cs, i + 1 =>
    let (cs, split) := insertAt e cs i
    (c :: cs, split)

end

/-- What an insertion of `e` into a node that stored `before` returns. -/
structure Inserted (e : IndexEntry T) (before : List (IndexEntry T))
    (r : RTreeNode T × Option (RTreeNode T)) : Prop where
  node : Covering r.1
  split : ∀ s ∈ r.2, Covering s
  stored : (r.1.stored ++ r.2.elim [] RTreeNode.stored).Perm (before ++ [e])

/-- The same for a list of children, one of which took the entry. -/
structure InsertedAt (e : IndexEntry T) (before : List (IndexEntry T))
    (r : List (RTreeNode T) × Option (RTreeNode T)) : Prop where
  nodes : ∀ c ∈ r.1, Covering c
  nonempty : r.1 ≠ []
  split : ∀ s ∈ r.2, Covering s
  stored : (storedAll r.1 ++ r.2.elim [] RTreeNode.stored).Perm (before ++ [e])

theorem splitNode_leaf (e : IndexEntry T) (old : BBox T) (entries : List (IndexEntry T)) :
    Inserted e entries ((splitNode (leaf old (entries ++ [e]))).1,
      some (splitNode (leaf old (entries ++ [e]))).2) where
  node := covering_leafMBR _ _
  split := by
    rintro s ⟨⟩
    exact covering_leafMBR _ _
  stored := by simp [splitNode, updateMBR, RTreeNode.stored]

/-- Both halves of a split inner node are covering, and nothing is lost. -/
theorem splitNode_inner (hlen : 2 ≤ children.length) (h : ∀ c ∈ children, Covering c) :
    Covering (splitNode (inner old children)).1.updateMBR ∧
      Covering (splitNode (inner old children)).2 ∧
      (splitNode (inner old children)).1.updateMBR.stored ++
        (splitNode (inner old children)).2.stored = storedAll children := by
  have hfirst : children.take (children.length / 2) ≠ [] := by
    rw [← length_pos_iff, length_take]
    omega
  have hrest : children.drop (children.length / 2) ≠ [] := by
    rw [← length_pos_iff, length_drop]
    omega
  refine ⟨covering_innerMBR _ hfirst fun c hc => h c (mem_of_mem_take hc),
    covering_innerMBR _ hrest fun c hc => h c (mem_of_mem_drop hc), ?_⟩
  simp only [splitNode, updateMBR, RTreeNode.stored]
  rw [← storedAll_append, take_append_drop]

mutual

/-- **An insertion keeps every rectangle covering and adds exactly its entry.** -/
theorem insertEntry_spec (e : IndexEntry T) :
    ∀ n : RTreeNode T, Covering n →
      Inserted e n.stored (insertEntry enlargementNeeded less maxEnl e n)
  | leaf old entries, _ => by
      rw [insertEntry]
      split
      · exact splitNode_leaf e _ entries
      · exact ⟨covering_leafMBR _ _, by simp, by simp [updateMBR, RTreeNode.stored]⟩
  | inner old children, h => by
      cases h with
      | inner hne _ hcs =>
        have hat := insertAt_spec e children hcs _
          (bestChild_lt enlargementNeeded less maxEnl e.point hne)
        rw [insertEntry]
        generalize insertAt enlargementNeeded less maxEnl e children
          (bestChild enlargementNeeded less maxEnl e.point children) = r at hat
        obtain ⟨cs, split⟩ := r
        cases split with
        | none =>
          exact ⟨covering_innerMBR _ hat.nonempty hat.nodes, by simp,
            by simpa [updateMBR, RTreeNode.stored] using hat.stored⟩
        | some s =>
          have hcs' : ∀ c ∈ cs ++ [s], Covering c := by
            intro c hc
            rcases mem_append.mp hc with hc | hc
            · exact hat.nodes c hc
            · exact hat.split c (by simpa using (mem_singleton.mp hc).symm)
          have hstored : (storedAll (cs ++ [s])).Perm (storedAll children ++ [e]) := by
            simpa [storedAll_append, storedAll] using hat.stored
          dsimp only
          split_ifs with hfull
          · obtain ⟨h1, h2, h3⟩ := splitNode_inner old (le_trans (by decide) (le_of_lt hfull)) hcs'
            refine ⟨h1, ?_, ?_⟩
            · rintro _ ⟨⟩
              exact h2
            · exact (Perm.of_eq h3).trans hstored
          · exact ⟨covering_innerMBR _ (by simp) hcs', by simp,
              by simpa [updateMBR, RTreeNode.stored] using hstored⟩

theorem insertAt_spec (e : IndexEntry T) :
    ∀ cs : List (RTreeNode T), (∀ c ∈ cs, Covering c) → ∀ i, i < cs.length →
      InsertedAt e (storedAll cs) (insertAt enlargementNeeded less maxEnl e cs i)
  | [], _, i, hi => absurd hi (by simp)
  | c :: cs, h, 0, _ => by
      have hc := insertEntry_spec e c (h c mem_cons_self)
      rw [insertAt]
      generalize insertEntry enlargementNeeded less maxEnl e c = r at hc
      refine ⟨?_, by simp, hc.split, ?_⟩
      · intro x hx
        rcases mem_cons.mp hx with rfl | hx
        · exact hc.node
        · exact h x (mem_cons_of_mem _ hx)
      · -- the new entry and the sibling's entries move past the other children
        have hperm : (r.1.stored ++ storedAll cs ++ r.2.elim [] RTreeNode.stored).Perm
            (r.1.stored ++ r.2.elim [] RTreeNode.stored ++ storedAll cs) := by
          rw [append_assoc, append_assoc]
          exact perm_append_comm.append_left _
        refine hperm.trans ((hc.stored.append_right _).trans ?_)
        rw [storedAll, append_assoc, append_assoc]
        exact perm_append_comm.append_left _
  | c :: cs, h, i + 1, hi => by
      have hcs := insertAt_spec e cs (forall_mem_cons.mp h).2 i (by simpa using hi)
      rw [insertAt]
      generalize insertAt enlargementNeeded less maxEnl e cs i = r at hcs
      refine ⟨?_, by simp, hcs.split, ?_⟩
      · intro x hx
        rcases mem_cons.mp hx with rfl | hx
        · exact h x mem_cons_self
        · exact hcs.nodes x hx
      · simpa [storedAll] using hcs.stored.append_left c.stored

end

end Insert

/-! ## Search -/

mutual

/-- `searchNode`: the entries appended to `results`. -/
def searchNode (bbox : BBox T) : RTreeNode T → List (IndexEntry T)
  | leaf mbr entries =>
    if !mbr.intersects bbox then [] else entries.filter fun e => bbox.contains e.point
  | inner mbr children =>
    if !mbr.intersects bbox then [] else searchAll bbox children

def searchAll (bbox : BBox T) : List (RTreeNode T) → List (IndexEntry T)
  | [] => []
  | c :: cs => searchNode bbox c ++ searchAll bbox cs

end

/-- Nothing below a pruned node lies in the box. -/
theorem filter_eq_nil_of_pruned {n : RTreeNode T} (h : Covering n) {bbox : BBox T}
    (hprune : n.mbr.intersects bbox = false) :
    (n.stored.filter fun e => bbox.contains e.point) = [] := by
  rw [filter_eq_nil_iff]
  intro e he hin
  rw [BBox.intersects_of_contains (h.contains_stored e he) hin] at hprune
  cases hprune

mutual

/-- **On a covering tree the pruned search returns exactly the stored entries
that lie in the box.** -/
theorem searchNode_eq (bbox : BBox T) : ∀ n : RTreeNode T, Covering n →
    searchNode bbox n = n.stored.filter fun e => bbox.contains e.point
  | leaf mbr entries, h => by
      rw [searchNode]
      split_ifs with hprune
      · exact (filter_eq_nil_of_pruned h (by simpa [RTreeNode.mbr] using hprune)).symm
      · rfl
  | inner mbr children, h => by
      rw [searchNode]
      split_ifs with hprune
      · exact (filter_eq_nil_of_pruned h (by simpa [RTreeNode.mbr] using hprune)).symm
      · cases h with
        | inner _ _ hcs => exact searchAll_eq bbox children hcs

theorem searchAll_eq (bbox : BBox T) : ∀ cs : List (RTreeNode T), (∀ c ∈ cs, Covering c) →
    searchAll bbox cs = (storedAll cs).filter fun e => bbox.contains e.point
  | [], _ => rfl
  | c :: cs, h => by
      rw [searchAll, storedAll, filter_append, searchNode_eq bbox c (h c mem_cons_self),
        searchAll_eq bbox cs (forall_mem_cons.mp h).2]

end

end RTreeNode

/-! ## The index -/

/-- `RTree`: one root per collection, and the entry counts. -/
structure RTree (T : Type*) where
  roots : OrdMap Bytes (RTreeNode T)
  counts : OrdMap Bytes Nat

variable {seen : List Bytes}

namespace RTree

open RTreeNode

variable {T : Type*}

def new : RTree T := ⟨empty, empty⟩

variable (t : RTree T) (collection : Bytes)

/-- Everything stored for a collection. -/
def stored : List (IndexEntry T) :=
  (t.roots.get? collection).elim [] RTreeNode.stored

/-- `size`; the counter is a `size_t`. -/
def size : Nat := (t.counts.get? collection).getD 0

/-- `remove`: a collection that has a tree answers yes, and only its counter
changes. -/
def remove (_id : Bytes) : Bool × RTree T :=
  if (t.roots.get? collection).isNone then (false, t)
  else
    let counts := t.counts.set collection
      (((t.counts.get? collection).getD 0 + (2 ^ 64 - 1)) % 2 ^ 64)
    (true, { t with counts := counts })

def clear : RTree T :=
  ⟨t.roots.delete collection, t.counts.delete collection⟩

variable [LinearOrder T]

/-- The calls of `searchNode` in `searchBBox`: the matches before the filter on
ids. -/
def visit (t : RTree T) (collection : Bytes) (bbox : BBox T) : List (IndexEntry T) :=
  (t.roots.get? collection).elim [] (searchNode bbox)

/-- The first entry of each id. -/
def dedupe (seen : List Bytes) : List (IndexEntry T) → List (IndexEntry T)
  | [] => []
  | e :: es => if e.id ∈ seen then dedupe seen es else e :: dedupe (e.id :: seen) es

variable {l : List (IndexEntry T)}

omit [LinearOrder T] in
theorem dedupe_eq_self (hnodup : (l.map (·.id)).Nodup)
    (hseen : ∀ e ∈ l, e.id ∉ seen) : dedupe seen l = l := by
  induction l generalizing seen with
  | nil => rfl
  | cons e l ih =>
    obtain ⟨hnew, hrest⟩ := nodup_cons.mp hnodup
    rw [dedupe, if_neg (hseen e mem_cons_self), ih hrest]
    intro x hx hmem
    rcases mem_cons.mp hmem with heq | hmem
    · exact hnew (mem_map.mpr ⟨x, hx, heq⟩)
    · exact hseen x (mem_cons_of_mem _ hx) hmem

variable {e : IndexEntry T}

omit [LinearOrder T] in
theorem mem_of_mem_dedupe (h : e ∈ dedupe seen l) : e ∈ l := by
  induction l generalizing seen with
  | nil => exact h
  | cons x l ih =>
    rw [dedupe] at h
    split at h
    · exact mem_cons_of_mem _ (ih h)
    rcases mem_cons.mp h with rfl | h
    · exact mem_cons_self
    · exact mem_cons_of_mem _ (ih h)

omit [LinearOrder T] in
/-- Some entry of each id is left. -/
theorem exists_mem_dedupe
    (he : e ∈ l) (hseen : e.id ∉ seen) : ∃ x ∈ dedupe seen l, x.id = e.id := by
  induction l generalizing seen with
  | nil => exact absurd he not_mem_nil
  | cons x l ih =>
    rw [dedupe]
    split_ifs with hx
    · rcases mem_cons.mp he with rfl | he
      · exact absurd hx hseen
      · exact ih he hseen
    by_cases hid : e.id = x.id
    · exact ⟨x, mem_cons_self, hid.symm⟩
    rcases mem_cons.mp he with rfl | he
    · exact absurd rfl hid
    · obtain ⟨y, hy, hyid⟩ := ih he (not_mem_cons_of_ne_of_not_mem hid hseen)
      exact ⟨y, mem_cons_of_mem _ hy, hyid⟩

def searchBBox (t : RTree T) (collection : Bytes) (bbox : BBox T) : List (IndexEntry T) :=
  dedupe [] (t.visit collection bbox)

/-- Every root is the root of a covering tree. -/
def Covering (t : RTree T) : Prop :=
  ∀ collection root, t.roots.get? collection = some root → root.Covering

theorem visit_eq {t : RTree T} (h : t.Covering) (collection : Bytes) (bbox : BBox T) :
    t.visit collection bbox = (t.stored collection).filter fun e => bbox.contains e.point := by
  unfold visit RTree.stored
  cases hget : t.roots.get? collection with
  | none => rfl
  | some root => exact searchNode_eq bbox root (h collection root hget)

section Insert

variable [Zero T] {E : Type*}
variable (enlargementNeeded : BBox T → Point T → E) (less : E → E → Bool) (maxEnl : E)

def insert (t : RTree T) (e : IndexEntry T) : RTree T :=
  let root := (t.roots.get? e.collection).getD (leaf ⟨0, 0, 0, 0⟩ [])
  let root := match insertEntry enlargementNeeded less maxEnl e root with
    | (root, none) => root
    | (root, some split) => (inner ⟨0, 0, 0, 0⟩ [root, split]).updateMBR
  { roots := t.roots.set e.collection root
    counts := t.counts.set e.collection (((t.counts.get? e.collection).getD 0 + 1) % 2 ^ 64) }

def insertAll (t : RTree T) (entries : List (IndexEntry T)) : RTree T :=
  entries.foldl (insert enlargementNeeded less maxEnl) t

/-- Inserting into a root: a split grows the tree by a level. -/
theorem insert_root {root : RTreeNode T} (h : root.Covering) :
    ∃ root', (match insertEntry enlargementNeeded less maxEnl e root with
        | (root, none) => root
        | (root, some split) => (inner ⟨0, 0, 0, 0⟩ [root, split]).updateMBR) = root' ∧
      root'.Covering ∧ root'.stored.Perm (root.stored ++ [e]) := by
  have hins := insertEntry_spec enlargementNeeded less maxEnl e root h
  generalize insertEntry enlargementNeeded less maxEnl e root = r at hins
  obtain ⟨node, split⟩ := r
  cases split with
  | none => exact ⟨node, rfl, hins.node, by simpa using hins.stored⟩
  | some s =>
    refine ⟨_, rfl, covering_innerMBR _ (by simp) ?_, ?_⟩
    · intro c hc
      rcases mem_cons.mp hc with rfl | hc
      · exact hins.node
      · exact hins.split c (by simpa using (mem_singleton.mp hc).symm)
    · simpa [updateMBR, RTreeNode.stored, storedAll] using hins.stored

/-- One insertion: covering is kept, and one collection gains one entry. -/
theorem insert_spec {t : RTree T} (h : t.Covering) (e : IndexEntry T) :
    (t.insert enlargementNeeded less maxEnl e).Covering ∧
      ∀ collection, ((t.insert enlargementNeeded less maxEnl e).stored collection).Perm
        (t.stored collection ++ if e.collection = collection then [e] else []) := by
  have hroot : ((t.roots.get? e.collection).getD (leaf ⟨0, 0, 0, 0⟩ [])).Covering := by
    cases hget : t.roots.get? e.collection with
    | none => exact .leaf (by simp)
    | some root => exact h _ root hget
  have hstored : ((t.roots.get? e.collection).getD (leaf ⟨0, 0, 0, 0⟩ [])).stored =
      t.stored e.collection := by
    unfold RTree.stored
    cases t.roots.get? e.collection <;> rfl
  obtain ⟨root', heq, hcov, hperm⟩ := insert_root enlargementNeeded less maxEnl hroot
  rw [hstored] at hperm
  have hroots : (t.insert enlargementNeeded less maxEnl e).roots =
      t.roots.set e.collection root' := congrArg (t.roots.set e.collection) heq
  constructor
  · rw [RTree.Covering, hroots]
    exact forall_get?_set h hcov
  · intro collection
    by_cases hc : e.collection = collection
    · subst hc
      simpa [RTree.stored, hroots, get?_set_self] using hperm
    · simp [RTree.stored, hroots, get?_set_ne _ _ (Ne.symm hc), hc]

variable (entries : List (IndexEntry T))

theorem insertAll_spec {t : RTree T} (h : t.Covering) :
    (t.insertAll enlargementNeeded less maxEnl entries).Covering ∧
      ∀ collection, ((t.insertAll enlargementNeeded less maxEnl entries).stored collection).Perm
        (t.stored collection ++ entries.filter fun e => e.collection = collection) := by
  induction entries generalizing t with
  | nil => exact ⟨h, fun collection => by simp [insertAll]⟩
  | cons e entries ih =>
    obtain ⟨hcov, hperm⟩ := insert_spec enlargementNeeded less maxEnl h e
    obtain ⟨hcov', hperm'⟩ := ih hcov
    refine ⟨hcov', fun collection => ?_⟩
    refine (hperm' collection).trans (((hperm collection).append_right _).trans ?_)
    by_cases hc : e.collection = collection <;> simp [hc]

/-- **After any sequence of insertions every rectangle covers what is below it,
and the search visits exactly the inserted entries of the collection that lie
in the box, each as often as it was inserted.** -/
theorem insertAll_search (collection : Bytes) (bbox : BBox T) :
    (new.insertAll enlargementNeeded less maxEnl entries).Covering ∧
      ((new.insertAll enlargementNeeded less maxEnl entries).visit collection bbox).Perm
        ((entries.filter fun e => e.collection = collection).filter
          fun e => bbox.contains e.point) := by
  have hnew : (new : RTree T).Covering := by
    intro collection root hget
    cases hget
  obtain ⟨hcov, hperm⟩ := insertAll_spec enlargementNeeded less maxEnl entries hnew
  refine ⟨hcov, ?_⟩
  rw [visit_eq hcov]
  have hstored : (new : RTree T).stored collection = [] := rfl
  have hfilter := (hperm collection).filter fun e => bbox.contains e.point
  rwa [hstored, nil_append] at hfilter

end Insert

/-- Nine entries split the root; the search still sees the repeated ones. -/
example :
    let entry := fun n : Nat => (⟨lit "a", ⟨n, n % 3⟩, lit "fleet", 0⟩ : IndexEntry Nat)
    let t := new.insertAll (fun b p => p.lat - b.maxLat) (fun a b => decide (a < b)) 1000
      ((List.range 10).map entry)
    (t.visit (lit "fleet") ⟨3, 0, 7, 1⟩).map (·.point.lat) = [3, 4, 6, 7] := by
  decide

end RTree

end SpatialDb.Spatial
