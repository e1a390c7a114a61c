import SpatialDb.Lib.OrdMap
import SpatialDb.Spatial.Geometry

/-!
# The quadtree

Model of `cpp/spatial/quadtree.cpp`: one tree per collection, a leaf is divided
when it holds more than sixteen entries and is not too deep.  Coordinates are
in any linear order, and the middle of two coordinates is a parameter: nothing
depends on where it lies.
-/

namespace SpatialDb.Spatial

open Lib List OrdMap

def maxLeafEntries : Nat := 16

/-- `QuadTree::Node` behind a pointer that may be null.  A divided node has no
entries of its own. -/
inductive QuadNode (T : Type*) where
  | absent
  | leaf (bounds : BBox T) (depth : Nat) (entries : List (IndexEntry T))
  | inner (bounds : BBox T) (depth : Nat) (c0 c1 c2 c3 : QuadNode T)

namespace QuadNode

variable {T : Type*}

/-- The entries stored below a node. -/
def stored : QuadNode T → List (IndexEntry T)
  | absent => []
  | leaf _ _ entries => entries
  | inner _ _ c0 c1 c2 c3 => c0.stored ++ (c1.stored ++ (c2.stored ++ c3.stored))

variable [LinearOrder T] (mid : T → T → T)

/-! ## Quadrants -/

def quadrant (b : BBox T) (p : Point T) : Fin 4 :=
  if p.lat ≥ mid b.minLat b.maxLat then
    if p.lon ≥ mid b.minLon b.maxLon then 0 else 1
  else if p.lon ≥ mid b.minLon b.maxLon then 2 else 3

omit [LinearOrder T] in
def childBounds (b : BBox T) (q : Fin 4) : BBox T :=
  let midLat := mid b.minLat b.maxLat
  let midLon := mid b.minLon b.maxLon
  match q with
  | 0 => ⟨midLat, midLon, b.maxLat, b.maxLon⟩
  | 1 => ⟨midLat, b.minLon, b.maxLat, midLon⟩
  | 2 => ⟨b.minLat, midLon, midLat, b.maxLon⟩
  | 3 => ⟨b.minLat, b.minLon, midLat, midLon⟩

variable {b : BBox T} {n : QuadNode T} {d : Nat} {e : IndexEntry T}

/-- A point of the box lies in the quadrant that is chosen for it. -/
theorem childBounds_contains {p : Point T} (h : b.contains p = true) :
    (childBounds mid b (quadrant mid b p)).contains p = true := by
  obtain ⟨⟨h1, h2⟩, h3, h4⟩ := BBox.contains_iff.mp h
  rw [BBox.contains_iff]
  unfold quadrant
  split
  · rename_i hlat
    split_ifs with hlon
    · exact ⟨⟨hlat, h2⟩, hlon, h4⟩
    · exact ⟨⟨hlat, h2⟩, h3, (not_le.mp hlon).le⟩
  rename_i hlat
  split_ifs with hlon
  · exact ⟨⟨h1, (not_le.mp hlat).le⟩, hlon, h4⟩
  · exact ⟨⟨h1, (not_le.mp hlat).le⟩, h3, (not_le.mp hlon).le⟩

/-! ## Insertion -/

/-- Replace the child of a divided node. -/
def modifyChild (q : Fin 4) (f : QuadNode T → QuadNode T) : QuadNode T → QuadNode T
  | inner b d c0 c1 c2 c3 =>
    match q with
    | 0 => inner b d (f c0) c1 c2 c3
    | 1 => inner b d c0 (f c1) c2 c3
    | 2 => inner b d c0 c1 (f c2) c3
    | 3 => inner b d c0 c1 c2 (f c3)
  | n => n

/-- `children[q]` of a divided node. -/
def child (q : Fin 4) : QuadNode T → QuadNode T
  | inner _ _ c0 c1 c2 c3 =>
    match q with
    | 0 => c0
    | 1 => c1
    | 2 => c2
    | 3 => c3
  | _ => absent

/-- `entries.push_back` of a child, which is made if it is not there. -/
def pushEntry (b : BBox T) (d : Nat) (e : IndexEntry T) : QuadNode T → QuadNode T
  | absent => leaf b d [e]
  | leaf b d entries => leaf b d (entries ++ [e])
  | n => n

/-- `subdivide`: the entries go to new children; these are not divided further
before the next insertion. -/
def subdivide (b : BBox T) (d : Nat) (entries : List (IndexEntry T)) : QuadNode T :=
  entries.foldl
    (fun n e =>
      let q := quadrant mid b e.point
      modifyChild q (pushEntry (childBounds mid b q) (d + 1) e) n)
    (inner b d absent absent absent absent)

variable (maxDepth : Int)

/-- `insertNode` on a leaf. -/
def insertLeaf (e : IndexEntry T) (b : BBox T) (d : Nat) (entries : List (IndexEntry T)) :
    Bool × QuadNode T :=
  if !b.contains e.point then (false, leaf b d entries)
  else if (entries ++ [e]).length > maxLeafEntries ∧ (d : Int) < maxDepth then
    (true, subdivide mid b d (entries ++ [e]))
  else (true, leaf b d (entries ++ [e]))

/-- `insertNode`; a null pointer is first made an empty leaf with the bounds and
the depth that belong to its place. -/
def insertNode (e : IndexEntry T) : BBox T → Nat → QuadNode T → Bool × QuadNode T
  | b, d, absent => insertLeaf mid maxDepth e b d []
  | _, _, leaf b d entries => insertLeaf mid maxDepth e b d entries
  | _, _, inner b d c0 c1 c2 c3 =>
    if !b.contains e.point then (false, inner b d c0 c1 c2 c3)
    else
      match quadrant mid b e.point with
      | 0 =>
        let (ok, c0) := insertNode e (childBounds mid b 0) (d + 1) c0
        (ok, inner b d c0 c1 c2 c3)
      | 1 =>
        let (ok, c1) := insertNode e (childBounds mid b 1) (d + 1) c1
        (ok, inner b d c0 c1 c2 c3)
      | 2 =>
        let (ok, c2) := insertNode e (childBounds mid b 2) (d + 1) c2
        (ok, inner b d c0 c1 c2 c3)
      | 3 =>
        let (ok, c3) := insertNode e (childBounds mid b 3) (d + 1) c3
        (ok, inner b d c0 c1 c2 c3)

/-- The node has the bounds of its place, and every entry below it lies in
them. -/
def Shaped : BBox T → QuadNode T → Prop
  | _, absent => True
  | b, leaf b' _ entries => b' = b ∧ ∀ e ∈ entries, b.contains e.point = true
  | b, inner b' d c0 c1 c2 c3 =>
    b' = b ∧ (∀ e ∈ (inner b' d c0 c1 c2 c3).stored, b.contains e.point = true) ∧
      Shaped (childBounds mid b 0) c0 ∧ Shaped (childBounds mid b 1) c1 ∧
      Shaped (childBounds mid b 2) c2 ∧ Shaped (childBounds mid b 3) c3

/-- In a shaped tree the bounds hold every entry below them. -/
theorem Shaped.contains_stored (h : Shaped mid b n) :
    ∀ e ∈ n.stored, b.contains e.point = true := by
  cases n with
  | absent => exact fun e he => absurd he not_mem_nil
  | leaf b' d entries => exact h.2
  | inner b' d c0 c1 c2 c3 => exact h.2.1

/-- What an insertion of `e` in the place `b` returns. -/
structure Inserted (b : BBox T) (e : IndexEntry T) (before : List (IndexEntry T))
    (n : QuadNode T) : Prop where
  shaped : Shaped mid b n
  stored : n.stored.Perm (before ++ [e])

/-- A changed child: the node stays shaped and gains the entry. -/
theorem Inserted.modifyChild {c0 c1 c2 c3 : QuadNode T} (h : Shaped mid b (inner b d c0 c1 c2 c3))
    (hin : b.contains e.point = true) {f : QuadNode T → QuadNode T} (q : Fin 4)
    (hf : Inserted mid (childBounds mid b q) e (child q (inner b d c0 c1 c2 c3)).stored
      (f (child q (inner b d c0 c1 c2 c3)))) :
    Inserted mid b e (inner b d c0 c1 c2 c3).stored
      (QuadNode.modifyChild q f (inner b d c0 c1 c2 c3)) := by
  obtain ⟨-, hall, h0, h1, h2, h3⟩ := h
  -- it is enough that the entries below are the old ones and the new one
  have hmem : ∀ {n : QuadNode T}, n.stored.Perm ((inner b d c0 c1 c2 c3).stored ++ [e]) →
      ∀ x ∈ n.stored, b.contains x.point = true := by
    intro n hperm x hx
    rcases mem_append.mp (hperm.subset hx) with hx | hx
    · exact hall x hx
    · rw [mem_singleton.mp hx]
      exact hin
  have hswap : ∀ (x y : List (IndexEntry T)), (x ++ [e] ++ y).Perm (x ++ y ++ [e]) := by
    intro x y
    rw [append_assoc, append_assoc]
    exact perm_append_comm.append_left x
  obtain ⟨hs, hp⟩ := hf
  match q with
  | 0 =>
    have hperm : (inner b d (f c0) c1 c2 c3).stored.Perm ((inner b d c0 c1 c2 c3).stored ++ [e]) :=
      (hp.append_right _).trans (hswap _ _)
    exact ⟨⟨rfl, hmem hperm, hs, h1, h2, h3⟩, hperm⟩
  | 1 =>
    have hperm : (inner b d c0 (f c1) c2 c3).stored.Perm
        ((inner b d c0 c1 c2 c3).stored ++ [e]) := by
      simp only [QuadNode.stored]
      rw [append_assoc c0.stored]
      exact ((hp.append_right _).trans (hswap _ _)).append_left _
    exact ⟨⟨rfl, hmem hperm, h0, hs, h2, h3⟩, hperm⟩
  | 2 =>
    have hperm : (inner b d c0 c1 (f c2) c3).stored.Perm
        ((inner b d c0 c1 c2 c3).stored ++ [e]) := by
      simp only [QuadNode.stored]
      rw [append_assoc c0.stored, append_assoc c1.stored]
      exact (((hp.append_right _).trans (hswap _ _)).append_left _).append_left _
    exact ⟨⟨rfl, hmem hperm, h0, h1, hs, h3⟩, hperm⟩
  | 3 =>
    have hperm : (inner b d c0 c1 c2 (f c3)).stored.Perm
        ((inner b d c0 c1 c2 c3).stored ++ [e]) := by
      simp only [QuadNode.stored]
      rw [append_assoc c0.stored, append_assoc c1.stored, append_assoc c2.stored]
      exact ((hp.append_left _).append_left _).append_left _
    exact ⟨⟨rfl, hmem hperm, h0, h1, h2, hs⟩, hperm⟩

/-! ### Dividing a leaf -/

/-- A null pointer or a leaf. -/
def undivided : QuadNode T → Bool
  | inner .. => false
  | _ => true

theorem pushEntry_spec (d : Nat) {c : QuadNode T} (h : Shaped mid b c) (hleaf : c.undivided = true)
    (hin : b.contains e.point = true) :
    Inserted mid b e c.stored (pushEntry b d e c) ∧ (pushEntry b d e c).undivided = true := by
  cases c with
  | absent =>
    refine ⟨⟨⟨rfl, fun x hx => ?_⟩, Perm.refl _⟩, rfl⟩
    rw [mem_singleton.mp hx]
    exact hin
  | leaf b' d' entries =>
    obtain ⟨rfl, hall⟩ := h
    refine ⟨⟨⟨rfl, fun x hx => ?_⟩, Perm.refl _⟩, rfl⟩
    rcases mem_append.mp hx with hx | hx
    · exact hall x hx
    · rw [mem_singleton.mp hx]
      exact hin
  | inner b' d' c0 c1 c2 c3 => cases hleaf

/-- A divided node whose children are still leaves. -/
structure Divided (b : BBox T) (d : Nat) (n : QuadNode T) : Prop where
  inner : ∃ c0 c1 c2 c3, n = inner b d c0 c1 c2 c3
  shaped : Shaped mid b n
  leaves : ∀ q, (child q n).undivided = true

omit [LinearOrder T] in
theorem child_modifyChild (q q' : Fin 4) (f : QuadNode T → QuadNode T) (b : BBox T) (d : Nat)
    (c0 c1 c2 c3 : QuadNode T) :
    child q' (QuadNode.modifyChild q f (inner b d c0 c1 c2 c3)) =
      if q' = q then f (child q (inner b d c0 c1 c2 c3)) else child q' (inner b d c0 c1 c2 c3) := by
  match q, q' with
  | 0, 0 | 0, 1 | 0, 2 | 0, 3 => rfl
  | 1, 0 | 1, 1 | 1, 2 | 1, 3 => rfl
  | 2, 0 | 2, 1 | 2, 2 | 2, 3 => rfl
  | 3, 0 | 3, 1 | 3, 2 | 3, 3 => rfl

theorem Shaped.child {c0 c1 c2 c3 : QuadNode T} (h : Shaped mid b (inner b d c0 c1 c2 c3))
    (q : Fin 4) :
    Shaped mid (childBounds mid b q) (QuadNode.child q (inner b d c0 c1 c2 c3)) := by
  obtain ⟨-, -, h0, h1, h2, h3⟩ := h
  match q with
  | 0 => exact h0
  | 1 => exact h1
  | 2 => exact h2
  | 3 => exact h3

omit [LinearOrder T] in
theorem modifyChild_inner (q : Fin 4) (f : QuadNode T → QuadNode T) (b : BBox T) (d : Nat)
    (c0 c1 c2 c3 : QuadNode T) :
    ∃ c0' c1' c2' c3',
      QuadNode.modifyChild q f (inner b d c0 c1 c2 c3) = inner b d c0' c1' c2' c3' := by
  match q with
  | 0 => exact ⟨_, _, _, _, rfl⟩
  | 1 => exact ⟨_, _, _, _, rfl⟩
  | 2 => exact ⟨_, _, _, _, rfl⟩
  | 3 => exact ⟨_, _, _, _, rfl⟩

theorem Divided.push (h : Divided mid b d n) (hin : b.contains e.point = true) :
    let q := quadrant mid b e.point
    let n' := QuadNode.modifyChild q (pushEntry (childBounds mid b q) (d + 1) e) n
    Divided mid b d n' ∧ n'.stored.Perm (n.stored ++ [e]) := by
  intro q n'
  obtain ⟨⟨c0, c1, c2, c3, rfl⟩, hshaped, hleaves⟩ := h
  obtain ⟨hpush, hleaf⟩ := pushEntry_spec mid (d + 1) (hshaped.child mid q) (hleaves q)
    (childBounds_contains mid hin)
  obtain ⟨hshaped', hperm⟩ := Inserted.modifyChild mid hshaped hin q hpush
  refine ⟨⟨modifyChild_inner _ _ _ _ _ _ _ _, hshaped', fun q' => ?_⟩, hperm⟩
  · show (QuadNode.child q' (QuadNode.modifyChild q _ _)).undivided = true
    rw [child_modifyChild]
    split
    · exact hleaf
    · exact hleaves q'

theorem foldl_push (entries : List (IndexEntry T)) (h : Divided mid b d n)
    (hin : ∀ e ∈ entries, b.contains e.point = true) :
    let r := entries.foldl
      (fun n e =>
        let q := quadrant mid b e.point
        QuadNode.modifyChild q (pushEntry (childBounds mid b q) (d + 1) e) n) n
    Shaped mid b r ∧ r.stored.Perm (n.stored ++ entries) := by
  induction entries generalizing n with
  | nil => exact ⟨h.shaped, by rw [append_nil]; exact Perm.refl _⟩
  | cons e entries ih =>
    obtain ⟨hdivided, hperm⟩ := h.push mid (hin e mem_cons_self)
    obtain ⟨hshaped, hrest⟩ := ih hdivided (forall_mem_cons.mp hin).2
    refine ⟨hshaped, hrest.trans ((hperm.append_right entries).trans ?_)⟩
    rw [append_assoc]
    exact Perm.refl _

variable {entries : List (IndexEntry T)}

theorem subdivide_spec (d : Nat) (hin : ∀ e ∈ entries, b.contains e.point = true) :
    Shaped mid b (subdivide mid b d entries) ∧ (subdivide mid b d entries).stored.Perm entries := by
  have hstart : Divided mid b d (QuadNode.inner b d absent absent absent absent) := by
    have hempty : Shaped mid b (QuadNode.inner b d absent absent absent absent) :=
      ⟨rfl, by simp [QuadNode.stored], trivial, trivial, trivial, trivial⟩
    refine ⟨⟨_, _, _, _, rfl⟩, hempty, fun q => ?_⟩
    match q with
    | 0 | 1 | 2 | 3 => rfl
  exact foldl_push mid entries hstart hin

/-! ### One insertion -/

/-- The answer of `insertNode` and the tree it leaves: an entry outside the
bounds is refused and changes nothing below the node. -/
structure InsertOutcome (b : BBox T) (e : IndexEntry T) (n : QuadNode T)
    (r : Bool × QuadNode T) : Prop where
  answer : r.1 = b.contains e.point
  accepted : b.contains e.point = true → Inserted mid b e n.stored r.2
  refused : b.contains e.point = false → Shaped mid b r.2 ∧ r.2.stored = n.stored

variable (e : IndexEntry T)

theorem insertLeaf_spec (d : Nat)
    (hall : ∀ x ∈ entries, b.contains x.point = true) :
    InsertOutcome mid b e (leaf b d entries) (insertLeaf mid maxDepth e b d entries) := by
  unfold insertLeaf
  cases hin : b.contains e.point with
  | false => exact ⟨hin.symm, by simp [hin], fun _ => ⟨⟨rfl, hall⟩, rfl⟩⟩
  | true =>
    have hall' : ∀ x ∈ entries ++ [e], b.contains x.point = true := by
      intro x hx
      rcases mem_append.mp hx with hx | hx
      · exact hall x hx
      · rw [mem_singleton.mp hx]
        exact hin
    rw [if_neg (by simp)]
    split
    · obtain ⟨hshaped, hperm⟩ := subdivide_spec mid d hall'
      exact ⟨hin.symm, fun _ => ⟨hshaped, hperm⟩, by simp [hin]⟩
    · exact ⟨hin.symm, fun _ => ⟨⟨rfl, hall'⟩, Perm.refl _⟩, by simp [hin]⟩

/-- A divided node hands an entry of its bounds to one child. -/
theorem insertNode_inner (b' : BBox T) (d d' : Nat) (c0 c1 c2 c3 : QuadNode T)
    (hin : b.contains e.point = true) :
    let q := quadrant mid b e.point
    let r := insertNode mid maxDepth e (childBounds mid b q) (d + 1)
      (child q (inner b d c0 c1 c2 c3))
    insertNode mid maxDepth e b' d' (inner b d c0 c1 c2 c3) =
      (r.1, QuadNode.modifyChild q (fun _ => r.2) (inner b d c0 c1 c2 c3)) := by
  intro q r
  rw [insertNode, if_neg (by simp [hin])]
  show _ = (_, QuadNode.modifyChild (quadrant mid b e.point) (fun _ => Prod.snd
    (insertNode mid maxDepth e (childBounds mid b (quadrant mid b e.point)) (d + 1)
      (child (quadrant mid b e.point) (inner b d c0 c1 c2 c3)))) _)
  generalize hq : quadrant mid b e.point = q'
  subst r
  subst q
  rw [hq]
  match q' with
  | 0 => rfl
  | 1 => rfl
  | 2 => rfl
  | 3 => rfl

/-- **An insertion adds exactly its entry if the point lies in the bounds, and
is refused otherwise; the bounds stay right, divisions included.** -/
theorem insertNode_spec (n : QuadNode T) :
    ∀ {b : BBox T} (d : Nat), Shaped mid b n →
      InsertOutcome mid b e n (insertNode mid maxDepth e b d n) := by
  -- along the recursion of `insertNode`: into one child of a divided node
  induction n with
  | absent =>
    intro b d _
    obtain ⟨hanswer, hacc, href⟩ := insertLeaf_spec mid maxDepth e d
      (fun x (hx : x ∈ ([] : List (IndexEntry T))) => absurd hx not_mem_nil)
    exact ⟨hanswer, hacc, href⟩
  | leaf b' d' entries =>
    rintro b d ⟨rfl, hall⟩
    exact insertLeaf_spec mid maxDepth e d' hall
  | inner b' d' c0 c1 c2 c3 ih0 ih1 ih2 ih3 =>
    intro b d h
    obtain rfl : b' = b := h.1
    cases hin : b'.contains e.point with
    | false =>
      have heq : insertNode mid maxDepth e b' d (inner b' d' c0 c1 c2 c3) =
          (false, inner b' d' c0 c1 c2 c3) := by
        rw [insertNode, if_pos (by simp [hin])]
      rw [heq]
      exact ⟨hin.symm, by simp [hin], fun _ => ⟨h, rfl⟩⟩
    | true =>
      rw [insertNode_inner mid maxDepth e b' d' d c0 c1 c2 c3 hin]
      have hchild : ∀ q, InsertOutcome mid (childBounds mid b' q) e
          (QuadNode.child q (inner b' d' c0 c1 c2 c3))
          (insertNode mid maxDepth e (childBounds mid b' q) (d' + 1)
            (QuadNode.child q (inner b' d' c0 c1 c2 c3))) := by
        intro q
        have hq := h.child mid q
        match q with
        | 0 => exact ih0 _ hq
        | 1 => exact ih1 _ hq
        | 2 => exact ih2 _ hq
        | 3 => exact ih3 _ hq
      have hq := childBounds_contains mid hin
      obtain ⟨hanswer, hacc, -⟩ := hchild (quadrant mid b' e.point)
      generalize insertNode mid maxDepth e _ _ (QuadNode.child _ _) = r at hanswer hacc ⊢
      have hins := Inserted.modifyChild mid h hin (f := fun _ => r.2) _ (hacc hq)
      exact ⟨(hanswer.trans hq).trans hin.symm, fun _ => hins, by simp [hin]⟩

/-! ## Search -/

/-- `searchNode`. -/
def searchNode (bbox : BBox T) : QuadNode T → List (IndexEntry T)
  | absent => []
  | leaf bounds _ entries =>
    if !bounds.intersects bbox then [] else entries.filter fun e => bbox.contains e.point
  | inner bounds _ c0 c1 c2 c3 =>
    if !bounds.intersects bbox then []
    else c0.searchNode bbox ++ (c1.searchNode bbox ++ (c2.searchNode bbox ++ c3.searchNode bbox))

/-- A node that the search leaves out holds no match. -/
theorem filter_eq_nil_of_pruned (h : Shaped mid b n) {bbox : BBox T}
    (hprune : b.intersects bbox = false) :
    (n.stored.filter fun e => bbox.contains e.point) = [] := by
  rw [filter_eq_nil_iff]
  intro e he hmatch
  have hint := BBox.intersects_of_contains (h.contains_stored mid e he) hmatch
  rw [hprune] at hint
  cases hint

/-- **The pruned search finds exactly the entries in the box.** -/
theorem searchNode_eq (bbox : BBox T) (n : QuadNode T) :
    ∀ {b : BBox T}, Shaped mid b n →
      n.searchNode bbox = n.stored.filter fun e => bbox.contains e.point := by
  induction n with
  | absent => exact fun _ => rfl
  | leaf b' d entries =>
    intro b h
    obtain rfl : b' = b := h.1
    unfold searchNode
    split_ifs with hprune
    · exact (filter_eq_nil_of_pruned mid h (by simpa using hprune)).symm
    · rfl
  | inner b' d c0 c1 c2 c3 ih0 ih1 ih2 ih3 =>
    intro b h
    obtain rfl : b' = b := h.1
    obtain ⟨-, -, h0, h1, h2, h3⟩ := id h
    unfold searchNode
    split_ifs with hprune
    · exact (filter_eq_nil_of_pruned mid h (by simpa using hprune)).symm
    · rw [ih0 h0, ih1 h1, ih2 h2, ih3 h3]
      simp only [QuadNode.stored, filter_append]

end QuadNode

/-! ## The trees of all collections -/

/-- `QuadTree`: the roots and the counters, with the bounds and the depth limit
given to the constructor. -/
structure QuadTree (T : Type*) where
  roots : OrdMap Bytes (QuadNode T)
  counts : OrdMap Bytes Nat
  world : BBox T
  maxDepth : Int

namespace QuadTree

open QuadNode

variable {T : Type*}

def new (world : BBox T) (maxDepth : Int) : QuadTree T :=
  ⟨empty, empty, world, maxDepth⟩

variable (t : QuadTree T) (collection : Bytes)

/-- Everything stored for a collection. -/
def stored : List (IndexEntry T) :=
  (t.roots.get? collection).elim [] QuadNode.stored

/-- `size`; the counter is a `size_t`. -/
def size : Nat := (t.counts.get? collection).getD 0

/-- `remove`: only the counter changes. -/
def remove (_id : Bytes) : Bool × QuadTree T :=
  let counts := t.counts.set collection
    (((t.counts.get? collection).getD 0 + (2 ^ 64 - 1)) % 2 ^ 64)
  (true, { t with counts := counts })

variable [LinearOrder T]

def searchBBox (t : QuadTree T) (collection : Bytes) (bbox : BBox T) : List (IndexEntry T) :=
  (t.roots.get? collection).elim [] (searchNode bbox)

variable (mid : T → T → T)

/-- `insert`; the root is made before the entry is tried. -/
def insert (t : QuadTree T) (e : IndexEntry T) : Bool × QuadTree T :=
  let root := (t.roots.get? e.collection).getD (leaf t.world 0 [])
  let (ok, root) := insertNode mid t.maxDepth e t.world 0 root
  let counts := if ok then
      t.counts.set e.collection (((t.counts.get? e.collection).getD 0 + 1) % 2 ^ 64)
    else t.counts
  (ok, { t with roots := t.roots.set e.collection root, counts := counts })

/-- Every root has the bounds of the world and holds only entries in it. -/
def Shaped (t : QuadTree T) : Prop :=
  ∀ collection root, t.roots.get? collection = some root → QuadNode.Shaped mid t.world root

theorem searchBBox_eq {t : QuadTree T} (h : t.Shaped mid) (collection : Bytes) (bbox : BBox T) :
    t.searchBBox collection bbox = (t.stored collection).filter fun e => bbox.contains e.point := by
  unfold searchBBox QuadTree.stored
  cases hget : t.roots.get? collection with
  | none => rfl
  | some root => exact searchNode_eq mid bbox root (h collection root hget)

/-- One insertion: the trees stay shaped, and if the point lies in the world one
collection gains one entry. -/
theorem insert_spec {t : QuadTree T} (h : t.Shaped mid) (e : IndexEntry T) :
    (t.insert mid e).1 = t.world.contains e.point ∧ (t.insert mid e).2.Shaped mid ∧
      ∀ collection, ((t.insert mid e).2.stored collection).Perm (t.stored collection ++
          if (t.insert mid e).1 = true ∧ e.collection = collection then [e] else []) := by
  have hroot : QuadNode.Shaped mid t.world
      ((t.roots.get? e.collection).getD (leaf t.world 0 [])) := by
    cases hget : t.roots.get? e.collection with
    | none => exact ⟨rfl, fun x hx => absurd hx not_mem_nil⟩
    | some root => exact h _ root hget
  have hstored : ((t.roots.get? e.collection).getD (leaf t.world 0 [])).stored =
      t.stored e.collection := by
    unfold QuadTree.stored
    cases t.roots.get? e.collection <;> rfl
  obtain ⟨hanswer, hacc, href⟩ := insertNode_spec mid t.maxDepth e _ 0 hroot
  rw [hstored] at hacc href
  have hfst : (t.insert mid e).1 = t.world.contains e.point := hanswer
  have hroots : (t.insert mid e).2.roots = t.roots.set e.collection
      (insertNode mid t.maxDepth e t.world 0
        ((t.roots.get? e.collection).getD (leaf t.world 0 []))).2 := rfl
  generalize insertNode mid t.maxDepth e t.world 0 _ = r at hroots hacc href
  have hnode : QuadNode.Shaped mid t.world r.2 ∧ r.2.stored.Perm
      (t.stored e.collection ++ if t.world.contains e.point = true then [e] else []) := by
    cases hin : t.world.contains e.point with
    | true => exact ⟨(hacc hin).shaped, (hacc hin).stored⟩
    | false =>
      obtain ⟨hshaped, heq⟩ := href hin
      exact ⟨hshaped, by rw [heq]; simp⟩
  refine ⟨hfst, ?_, fun collection => ?_⟩
  · rw [QuadTree.Shaped, hroots]
    exact forall_get?_set h hnode.1
  · rw [hfst]
    by_cases hc : e.collection = collection
    · subst hc
      simpa [QuadTree.stored, hroots, get?_set_self] using hnode.2
    · simp [QuadTree.stored, hroots, get?_set_ne _ _ (Ne.symm hc), hc]

end QuadTree

end SpatialDb.Spatial
