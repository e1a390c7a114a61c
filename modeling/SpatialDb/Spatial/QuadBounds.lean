import SpatialDb.Spatial.QuadTree

/-!
# Depth and size of a quadtree

A divided leaf hands its entries to its children without looking whether one
of them is too full again.  So a leaf may hold more than sixteen entries, one
more on each level: a leaf on level `d` above the last one holds at most
`16 + d`.
-/

namespace SpatialDb.Spatial

open Lib List Nat

namespace QuadNode

variable {T : Type*}

/-! ## The nodes of a tree -/

/-- All nodes, each with the number of its level. -/
def nodes : Nat → QuadNode T → List (Nat × QuadNode T)
  | _, absent => []
  | level, leaf b d entries => [(level, leaf b d entries)]
  | level, inner b d c0 c1 c2 c3 =>
    (level, inner b d c0 c1 c2 c3) :: (nodes (level + 1) c0 ++
      (nodes (level + 1) c1 ++ (nodes (level + 1) c2 ++ nodes (level + 1) c3)))

/-- The `bounds` of a node. -/
def bounds? : QuadNode T → Option (BBox T)
  | absent => none
  | leaf b _ _ => some b
  | inner b _ _ _ _ _ => some b

/-! ## Sizes -/

variable (maxDepth : Nat)

/-- The depths are right, no node lies below `maxDepth`, and the leaves above
it are bounded. -/
def Sized : Nat → QuadNode T → Prop
  | _, absent => True
  | level, leaf _ d entries =>
    d = level ∧ level ≤ maxDepth ∧
      (level < maxDepth → entries.length ≤ maxLeafEntries + level)
  | level, inner _ d c0 c1 c2 c3 =>
    d = level ∧ level < maxDepth ∧ Sized (level + 1) c0 ∧ Sized (level + 1) c1 ∧
      Sized (level + 1) c2 ∧ Sized (level + 1) c3

variable {level d bound : Nat} {n : QuadNode T}

theorem sized_inner_iff {b : BBox T} {c0 c1 c2 c3 : QuadNode T} :
    Sized maxDepth level (inner b d c0 c1 c2 c3) ↔
      d = level ∧ level < maxDepth ∧
        ∀ q, Sized maxDepth (level + 1) (child q (inner b d c0 c1 c2 c3)) := by
  constructor
  · rintro ⟨hd, hlt, h0, h1, h2, h3⟩
    refine ⟨hd, hlt, fun q => ?_⟩
    match q with
    | 0 => exact h0
    | 1 => exact h1
    | 2 => exact h2
    | 3 => exact h3
  · rintro ⟨hd, hlt, h⟩
    exact ⟨hd, hlt, h 0, h 1, h 2, h 3⟩

theorem Sized.modifyChild {b : BBox T} {c0 c1 c2 c3 : QuadNode T}
    (h : Sized maxDepth level (inner b d c0 c1 c2 c3)) {f : QuadNode T → QuadNode T} {q : Fin 4}
    (hf : Sized maxDepth (level + 1) (f (child q (inner b d c0 c1 c2 c3)))) :
    Sized maxDepth level (QuadNode.modifyChild q f (inner b d c0 c1 c2 c3)) := by
  obtain ⟨hd, hlt, hchildren⟩ := (sized_inner_iff maxDepth).mp h
  obtain ⟨c0', c1', c2', c3', hinner⟩ := modifyChild_inner q f b d c0 c1 c2 c3
  rw [hinner, sized_inner_iff, ← hinner]
  refine ⟨hd, hlt, fun q' => ?_⟩
  rw [child_modifyChild]
  split
  · exact hf
  · exact hchildren q'

/-- A node that is not divided, with at most `bound` entries. -/
def Small (level bound : Nat) : QuadNode T → Prop
  | absent => True
  | leaf _ d entries => d = level ∧ entries.length ≤ bound
  | inner .. => False

theorem Small.mono {bound' : Nat} (hle : bound ≤ bound') (h : Small level bound n) :
    Small level bound' n := by
  cases n with
  | absent => trivial
  | leaf b d entries => exact ⟨h.1, h.2.trans hle⟩
  | inner => exact h

theorem Small.pushEntry (h : Small level bound n) (b : BBox T) (e : IndexEntry T) :
    Small level (bound + 1) (pushEntry b level e n) := by
  cases n with
  | absent => exact ⟨rfl, succ_le_succ (zero_le _)⟩
  | leaf b' d entries =>
    refine ⟨h.1, ?_⟩
    rw [length_append]
    exact succ_le_succ h.2
  | inner => exact h.elim

theorem Small.sized (h : Small level bound n) (hlevel : level ≤ maxDepth)
    (hbound : bound ≤ maxLeafEntries + level) :
    Sized maxDepth level n := by
  cases n with
  | absent => trivial
  | leaf b d entries => exact ⟨h.1, hlevel, fun _ => h.2.trans hbound⟩
  | inner => exact h.elim

variable [LinearOrder T] (mid : T → T → T)

/-- The loop of `subdivide`: a child gets at most what is handed out. -/
theorem foldl_push_small (b : BBox T) (d : Nat) (entries : List (IndexEntry T)) :
    ∀ {bound : Nat} {n : QuadNode T}, (∃ c0 c1 c2 c3, n = inner b d c0 c1 c2 c3) →
      (∀ q, Small (d + 1) bound (child q n)) →
      let r := entries.foldl
        (fun n e =>
          let q := quadrant mid b e.point
          modifyChild q (QuadNode.pushEntry (childBounds mid b q) (d + 1) e) n) n
      (∃ c0 c1 c2 c3, r = inner b d c0 c1 c2 c3) ∧
        ∀ q, Small (d + 1) (bound + entries.length) (child q r) := by
  induction entries with
  | nil => exact fun hn hsmall => ⟨hn, hsmall⟩
  | cons e entries ih =>
    rintro bound n ⟨c0, c1, c2, c3, rfl⟩ hsmall
    rw [length_cons, add_comm entries.length, ← add_assoc]
    refine ih (modifyChild_inner _ _ _ _ _ _ _ _) fun q => ?_
    rw [child_modifyChild]
    split
    · exact (hsmall _).pushEntry _ _
    · exact (hsmall q).mono (le_succ _)

variable {entries : List (IndexEntry T)}

theorem subdivide_sized {b : BBox T} (hd : d < maxDepth)
    (hlength : entries.length ≤ maxLeafEntries + (d + 1)) :
    Sized maxDepth d (subdivide mid b d entries) := by
  have hempty : ∀ q, Small (d + 1) 0
      (child q (inner b d absent absent absent absent : QuadNode T)) := by
    intro q
    match q with
    | 0 | 1 | 2 | 3 => trivial
  obtain ⟨⟨c0, c1, c2, c3, hinner⟩, hsmall⟩ :=
    foldl_push_small mid b d entries ⟨_, _, _, _, rfl⟩ hempty
  have heq : subdivide mid b d entries = inner b d c0 c1 c2 c3 := hinner
  rw [heq, sized_inner_iff]
  refine ⟨rfl, hd, fun q => ?_⟩
  rw [hinner, zero_add] at hsmall
  exact (hsmall q).sized maxDepth hd hlength

theorem insertLeaf_sized (e : IndexEntry T) (b : BBox T) (hd : d ≤ maxDepth)
    (hlength : d < maxDepth → entries.length ≤ maxLeafEntries + d) :
    Sized maxDepth d (insertLeaf mid maxDepth e b d entries).2 := by
  unfold insertLeaf
  split
  · exact ⟨rfl, hd, hlength⟩
  split_ifs with hfull
  · have hlt : d < maxDepth := by exact_mod_cast hfull.2
    refine subdivide_sized maxDepth mid hlt ?_
    rw [length_append, length_singleton]
    omega
  · refine ⟨rfl, hd, fun hlt => ?_⟩
    omega

/-- **An insertion keeps the depths and the sizes.** -/
theorem insertNode_sized (e : IndexEntry T) (n : QuadNode T) :
    ∀ {b : BBox T} {level : Nat}, level ≤ maxDepth → Sized maxDepth level n →
      Sized maxDepth level (insertNode mid maxDepth e b level n).2 := by
  induction n with
  | absent =>
    intro b level hle _
    exact insertLeaf_sized maxDepth mid e b hle fun _ => zero_le _
  | leaf b' d entries =>
    rintro b level hle ⟨rfl, -, hlength⟩
    exact insertLeaf_sized maxDepth mid e b' hle hlength
  | inner b' d c0 c1 c2 c3 ih0 ih1 ih2 ih3 =>
    intro b level hle h
    obtain ⟨rfl, hlt, hchildren⟩ := (sized_inner_iff maxDepth).mp h
    cases hin : b'.contains e.point with
    | false =>
      rw [insertNode, if_pos (by simp [hin])]
      exact h
    | true =>
      rw [insertNode_inner mid maxDepth e b d d c0 c1 c2 c3 hin]
      have hnew : ∀ q, Sized maxDepth (d + 1)
          (insertNode mid maxDepth e (childBounds mid b' q) (d + 1)
            (child q (inner b' d c0 c1 c2 c3))).2 := by
        intro q
        have hq := hchildren q
        fin_cases q
        · exact ih0 hlt hq
        · exact ih1 hlt hq
        · exact ih2 hlt hq
        · exact ih3 hlt hq
      exact h.modifyChild maxDepth (f := fun _ => _) (hnew (quadrant mid b' e.point))

/-! ## Every node -/

/-- What holds of the nodes of a tree. -/
structure NodeBounds (level : Nat) (n : QuadNode T) : Prop where
  depth : level ≤ maxDepth
  contains : ∀ b ∈ n.bounds?, ∀ e ∈ n.stored, b.contains e.point = true
  size : ∀ b d entries, n = leaf b d entries → level < maxDepth →
    entries.length ≤ maxLeafEntries + level

theorem nodeBounds_of_mem (n : QuadNode T) :
    ∀ {b : BBox T} {level : Nat}, Shaped mid b n → Sized maxDepth level n →
      ∀ x ∈ n.nodes level, NodeBounds maxDepth x.1 x.2 := by
  induction n with
  | absent => exact fun _ _ x hx => absurd hx not_mem_nil
  | leaf b' d entries =>
    rintro b level ⟨rfl, hall⟩ ⟨-, hle, hlength⟩ x hx
    obtain rfl := mem_singleton.mp hx
    refine ⟨hle, ?_, ?_⟩
    · rintro _ ⟨⟩
      exact hall
    · rintro _ _ _ ⟨⟩
      exact hlength
  | inner b' d c0 c1 c2 c3 ih0 ih1 ih2 ih3 =>
    rintro b level ⟨rfl, hall, hs0, hs1, hs2, hs3⟩ ⟨-, hlt, hz0, hz1, hz2, hz3⟩ x hx
    simp only [nodes, mem_cons, mem_append] at hx
    rcases hx with rfl | hx | hx | hx | hx
    · refine ⟨hlt.le, ?_, ?_⟩
      · rintro _ ⟨⟩
        exact hall
      · rintro _ _ _ ⟨⟩
    · exact ih0 hs0 hz0 x hx
    · exact ih1 hs1 hz1 x hx
    · exact ih2 hs2 hz2 x hx
    · exact ih3 hs3 hz3 x hx

end QuadNode

/-! ## Sequences of insertions -/

namespace QuadTree

open QuadNode

variable {T : Type*} [LinearOrder T] (mid : T → T → T)

def insertAll (t : QuadTree T) (entries : List (IndexEntry T)) : QuadTree T :=
  entries.foldl (fun t e => (t.insert mid e).2) t

/-- The invariant of a run. -/
structure Bounded (world : BBox T) (maxDepth : Nat) (t : QuadTree T) : Prop where
  world_eq : t.world = world
  maxDepth_eq : t.maxDepth = maxDepth
  shaped : t.Shaped mid
  sized : ∀ collection root, t.roots.get? collection = some root → Sized maxDepth 0 root

theorem bounded_new (world : BBox T) (maxDepth : Nat) :
    (new world maxDepth).Bounded mid world maxDepth where
  world_eq := rfl
  maxDepth_eq := rfl
  shaped := by
    intro collection root hget
    cases hget
  sized := by
    intro collection root hget
    cases hget

theorem Bounded.insert {world : BBox T} {maxDepth : Nat} {t : QuadTree T}
    (h : t.Bounded mid world maxDepth) (e : IndexEntry T) :
    (t.insert mid e).2.Bounded mid world maxDepth where
  world_eq := h.world_eq
  maxDepth_eq := h.maxDepth_eq
  shaped := (insert_spec mid h.shaped e).2.1
  sized := by
    refine OrdMap.forall_get?_set h.sized ?_
    rw [h.maxDepth_eq]
    refine insertNode_sized maxDepth mid e _ (zero_le _) ?_
    cases hroot : t.roots.get? e.collection with
    | none => exact ⟨rfl, zero_le _, fun _ => zero_le _⟩
    | some root => exact h.sized _ root hroot

/-- A sequence of insertions from a bounded tree. -/
theorem insertAll_spec {world : BBox T} {maxDepth : Nat} (entries : List (IndexEntry T)) :
    ∀ {t : QuadTree T}, t.Bounded mid world maxDepth →
      (t.insertAll mid entries).Bounded mid world maxDepth ∧
        ∀ collection, ((t.insertAll mid entries).stored collection).Perm
          (t.stored collection ++ entries.filter fun e =>
            world.contains e.point = true ∧ e.collection = collection) := by
  induction entries with
  | nil => exact fun h => ⟨h, fun collection => by simp [insertAll]⟩
  | cons e entries ih =>
    intro t h
    obtain ⟨hanswer, -, hperm⟩ := insert_spec mid h.shaped e
    obtain ⟨hbounded, hrest⟩ := ih (h.insert mid e)
    refine ⟨hbounded, fun collection => ?_⟩
    refine (hrest collection).trans (((hperm collection).append_right _).trans ?_)
    rw [hanswer, h.world_eq]
    by_cases he : world.contains e.point = true ∧ e.collection = collection
    · simp [he]
    · simp [he]

/-- **After every sequence of insertions: a further one succeeds exactly if its
point lies in the world; every entry lies in the bounds of all nodes above it;
no node lies deeper than `maxDepth`, and a leaf on a level `d` above it holds at
most `16 + d` entries; and a search finds exactly the entries of the collection
that were accepted and lie in the box, each as often as it was inserted.** -/
theorem insertAll_bounds (world : BBox T) (maxDepth : Nat) (entries : List (IndexEntry T)) :
    let t := (new world maxDepth).insertAll mid entries
    (∀ e, (t.insert mid e).1 = world.contains e.point) ∧
    (∀ collection root, t.roots.get? collection = some root →
      ∀ level n, (level, n) ∈ root.nodes 0 →
        level ≤ maxDepth ∧
        (∀ b ∈ n.bounds?, ∀ e ∈ n.stored, b.contains e.point = true) ∧
        (∀ b d stored, n = leaf b d stored → level < maxDepth → stored.length ≤ 16 + level)) ∧
    (∀ collection bbox, (t.searchBBox collection bbox).Perm
      (entries.filter fun e => world.contains e.point = true ∧ e.collection = collection ∧
        bbox.contains e.point = true)) := by
  intro t
  obtain ⟨hbounded, hperm⟩ := insertAll_spec mid entries (bounded_new mid world maxDepth)
  refine ⟨fun e => ?_, fun collection root hroot level n hn => ?_, fun collection bbox => ?_⟩
  · obtain ⟨hanswer, -, -⟩ := insert_spec mid hbounded.shaped e
    rw [hanswer, hbounded.world_eq]
  · have hshaped := hbounded.shaped collection root hroot
    have hnode := nodeBounds_of_mem maxDepth mid root hshaped
      (hbounded.sized collection root hroot) _ hn
    exact ⟨hnode.depth, hnode.contains, hnode.size⟩
  · rw [searchBBox_eq mid hbounded.shaped]
    have hstored : (new world maxDepth : QuadTree T).stored collection = [] := rfl
    have hfilter := (hperm collection).filter fun e => bbox.contains e.point
    rw [hstored, nil_append, filter_filter] at hfilter
    refine hfilter.trans (Perm.of_eq (filter_congr fun e _ => ?_))
    rw [Bool.eq_iff_iff, Bool.and_eq_true, decide_eq_true_eq, decide_eq_true_eq]
    tauto

end QuadTree

end SpatialDb.Spatial
