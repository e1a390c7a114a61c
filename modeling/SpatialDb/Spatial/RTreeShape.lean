import SpatialDb.Spatial.RTree

/-!
# The shape of an R-tree

`splitNode` cuts nine items in the middle, so that no node but the root is ever
left with fewer than four.  `Shaped least h n` puts the balance and the fill of
a tree into one predicate: the leaves lie `h` levels below `n`, no node holds
more than eight items, the nodes below `n` hold at least four, and `n` itself
at least `least`.
-/

namespace SpatialDb.Spatial

open Lib List

variable {least h : Nat}

namespace RTreeNode

variable {T : Type*}

/-- What a split leaves at least in either half. -/
def splitLeast : Nat := 4

/-- All leaves lie `h` levels below the node; the node holds at least `least`
items, every other node at least `splitLeast`, and none more than the maximum. -/
inductive Shaped : Nat → Nat → RTreeNode T → Prop where
  | leaf {least : Nat} {mbr : BBox T} {entries : List (IndexEntry T)}
      (hleast : least ≤ entries.length) (hmax : entries.length ≤ rtreeMaxEntries) :
      Shaped least 0 (leaf mbr entries)
  | inner {least h : Nat} {mbr : BBox T} {children : List (RTreeNode T)}
      (hleast : least ≤ children.length) (hmax : children.length ≤ rtreeMaxEntries)
      (hchildren : ∀ c ∈ children, Shaped splitLeast h c) :
      Shaped least (h + 1) (inner mbr children)

/-- The shape of a whole tree: a root that is a leaf may hold anything, another
has at least two children. -/
def RootShaped : Nat → RTreeNode T → Prop
  | 0, root => Shaped 0 0 root
  | h + 1, root => Shaped 2 (h + 1) root

theorem RootShaped.exists_least {h : Nat} {root : RTreeNode T} (hroot : RootShaped h root) :
    ∃ least, (0 < least ∨ h = 0) ∧ Shaped least h root ∧
      ∀ {node : RTreeNode T}, Shaped least h node → RootShaped h node := by
  cases h with
  | zero => exact ⟨0, .inr rfl, hroot, fun hnode => hnode⟩
  | succ h => exact ⟨2, .inl Nat.two_pos, hroot, fun hnode => hnode⟩

/-! ## How many entries a shape needs -/

theorem mul_le_length_storedAll {k : Nat} {cs : List (RTreeNode T)}
    (h : ∀ c ∈ cs, k ≤ c.stored.length) : cs.length * k ≤ (storedAll cs).length := by
  induction cs with
  | nil => simp [storedAll]
  | cons c cs ih =>
    have hc := h c mem_cons_self
    have hcs := ih (forall_mem_cons.mp h).2
    rw [storedAll, length_append, length_cons, Nat.add_mul, Nat.one_mul]
    omega

/-- A node of the shape stores at least `least * 4 ^ h` entries. -/
theorem Shaped.le_length_stored {n : RTreeNode T} (hn : Shaped least h n) :
    least * splitLeast ^ h ≤ n.stored.length := by
  induction hn with
  | leaf hleast _ => simpa [RTreeNode.stored] using hleast
  | @inner least h _ children hleast _ _ ih =>
    have hbelow : ∀ c ∈ children, splitLeast ^ (h + 1) ≤ c.stored.length := by
      intro c hc
      rw [Nat.pow_succ, Nat.mul_comm]
      exact ih c hc
    exact (Nat.mul_le_mul_right _ hleast).trans (mul_le_length_storedAll hbelow)

/-- With nine entries or more the root has children, and twice `4 ^ h` entries
are needed for `h` levels below it. -/
theorem RootShaped.two_mul_pow_le {h : Nat} {root : RTreeNode T} (hroot : RootShaped h root)
    (hnine : rtreeMaxEntries < root.stored.length) :
    2 * splitLeast ^ h ≤ root.stored.length := by
  cases h with
  | zero =>
    cases hroot with
    | leaf _ hmax => exact absurd hmax (Nat.not_le.mpr hnine)
  | succ h => exact Shaped.le_length_stored hroot

variable [LinearOrder T]

theorem Shaped.updateMBR {n : RTreeNode T} (hn : Shaped least h n) :
    Shaped least h n.updateMBR := by
  cases hn with
  | leaf hleast hmax => exact .leaf hleast hmax
  | inner hleast hmax hchildren => exact .inner hleast hmax hchildren

/-! ## Insertion -/

section Insert

variable [Zero T] {E : Type*}
variable (enlargementNeeded : BBox T → Point T → E) (less : E → E → Bool) (maxEnl : E)

/-- What an insertion into a node returns: the node with its shape, or two nodes
that each can stand below another. -/
def Grown (least h : Nat) : RTreeNode T × Option (RTreeNode T) → Prop
  | (node, none) => Shaped least h node
  | (node, some sibling) => Shaped splitLeast h node ∧ Shaped splitLeast h sibling

/-- The same for children of one height, one of which took the entry. -/
def GrownAt (h count : Nat) : List (RTreeNode T) × Option (RTreeNode T) → Prop
  | (cs, split) => cs.length = count ∧ (∀ c ∈ cs, Shaped splitLeast h c) ∧
      ∀ s ∈ split, Shaped splitLeast h s

theorem splitNode_leaf_grown {least : Nat} (old : BBox T) {entries : List (IndexEntry T)}
    (hlen : entries.length = rtreeMaxEntries + 1) :
    Grown least 0 ((splitNode (leaf old entries)).1, some (splitNode (leaf old entries)).2) := by
  unfold rtreeMaxEntries at hlen
  refine ⟨Shaped.updateMBR (.leaf ?_ ?_), Shaped.updateMBR (.leaf ?_ ?_)⟩ <;>
    simp [hlen, splitLeast, rtreeMaxEntries]

theorem splitNode_inner_grown (old : BBox T) {children : List (RTreeNode T)}
    (hlen : children.length = rtreeMaxEntries + 1)
    (hchildren : ∀ c ∈ children, Shaped splitLeast h c) :
    Grown least (h + 1) ((splitNode (inner old children)).1.updateMBR,
      some (splitNode (inner old children)).2) := by
  unfold rtreeMaxEntries at hlen
  refine ⟨Shaped.updateMBR (Shaped.updateMBR (.inner ?_ ?_ ?_)), Shaped.updateMBR (.inner ?_ ?_ ?_)⟩
  · simp [hlen, splitLeast]
  · simp [hlen, rtreeMaxEntries]
  · exact fun c hc => hchildren c (mem_of_mem_take hc)
  · simp [hlen, splitLeast]
  · simp [hlen, rtreeMaxEntries]
  · exact fun c hc => hchildren c (mem_of_mem_drop hc)

mutual

/-- **An insertion keeps the height of a node and its fill, and when it splits
the node both halves hold at least four items.** -/
theorem insertEntry_grown (e : IndexEntry T) :
    ∀ (n : RTreeNode T) {least h : Nat}, 0 < least ∨ h = 0 → Shaped least h n →
      Grown least h (insertEntry enlargementNeeded less maxEnl e n)
  | leaf old entries, least, h, _, hn => by
      cases hn with
      | leaf hleast hmax =>
        rw [insertEntry]
        split_ifs with hfull
        · refine splitNode_leaf_grown _ ?_
          rw [length_append, length_singleton] at hfull ⊢
          omega
        · exact .leaf (hleast.trans (by simp)) (Nat.not_lt.mp hfull)
  | inner old children, least, _, hpos, hn => by
      cases hn with
      | @inner _ h _ _ hleast hmax hchildren =>
        have hne : children ≠ [] := by
          rw [← length_pos_iff]
          omega
        have hat := insertAt_grown e children hchildren _
          (bestChild_lt enlargementNeeded less maxEnl e.point hne)
        rw [insertEntry]
        generalize insertAt enlargementNeeded less maxEnl e children
          (bestChild enlargementNeeded less maxEnl e.point children) = r at hat
        obtain ⟨cs, split⟩ := r
        obtain ⟨hlen, hcs, hsplit⟩ := hat
        cases split with
        | none => exact Shaped.updateMBR (.inner (hlen.symm ▸ hleast) (hlen.symm ▸ hmax) hcs)
        | some s =>
          have hcs' : ∀ c ∈ cs ++ [s], Shaped splitLeast h c := by
            intro c hc
            rcases mem_append.mp hc with hc | hc
            · exact hcs c hc
            · exact hsplit c (mem_singleton.mp hc ▸ rfl)
          have hlen' : (cs ++ [s]).length = children.length + 1 := by simp [hlen]
          dsimp only
          split
          · exact splitNode_inner_grown old (by omega) hcs'
          · exact Shaped.updateMBR (.inner (by omega) (by omega) hcs')

theorem insertAt_grown (e : IndexEntry T) {h : Nat} :
    ∀ cs : List (RTreeNode T), (∀ c ∈ cs, Shaped splitLeast h c) → ∀ i, i < cs.length →
      GrownAt h cs.length (insertAt enlargementNeeded less maxEnl e cs i)
  | [], _, i, hi => absurd hi (by simp)
  | c :: cs, hcs, 0, _ => by
      have hc := insertEntry_grown e c (.inl (by decide)) (hcs c mem_cons_self)
      have hrest : ∀ x ∈ cs, Shaped splitLeast h x := (forall_mem_cons.mp hcs).2
      rw [insertAt]
      generalize insertEntry enlargementNeeded less maxEnl e c = r at hc
      obtain ⟨node, split⟩ := r
      cases split with
      | none => exact ⟨rfl, forall_mem_cons.mpr ⟨hc, hrest⟩, by simp⟩
      | some s => exact ⟨rfl, forall_mem_cons.mpr ⟨hc.1, hrest⟩, by simpa using hc.2⟩
  | c :: cs, hcs, i + 1, hi => by
      have hat := insertAt_grown e cs (forall_mem_cons.mp hcs).2 i (by simpa using hi)
      rw [insertAt]
      generalize insertAt enlargementNeeded less maxEnl e cs i = r at hat
      obtain ⟨cs', split⟩ := r
      obtain ⟨hlen, hcs', hsplit⟩ := hat
      exact ⟨by simp [hlen], forall_mem_cons.mpr ⟨hcs c mem_cons_self, hcs'⟩, hsplit⟩

end

end Insert

end RTreeNode

/-! ## Runs -/

namespace RTree

open RTreeNode

variable {T : Type*} [LinearOrder T] [Zero T] {E : Type*}
variable (enlargementNeeded : BBox T → Point T → E) (less : E → E → Bool) (maxEnl : E)

/-- Every root is the root of a tree of the shape. -/
def Shaped (t : RTree T) : Prop :=
  ∀ collection root, t.roots.get? collection = some root → ∃ h, root.RootShaped h

/-- One insertion: a root that is split goes below a new root. -/
theorem Shaped.insert {t : RTree T} (ht : t.Shaped) (e : IndexEntry T) :
    (t.insert enlargementNeeded less maxEnl e).Shaped := by
  have hroot : ∃ h, ((t.roots.get? e.collection).getD (leaf ⟨0, 0, 0, 0⟩ [])).RootShaped h := by
    cases hget : t.roots.get? e.collection with
    | none => exact ⟨0, .leaf (Nat.zero_le _) (Nat.zero_le _)⟩
    | some root => exact ht _ root hget
  refine OrdMap.forall_get?_set ht ?_
  obtain ⟨h, hroot⟩ := hroot
  obtain ⟨least, hpos, hleast, hback⟩ := hroot.exists_least
  have hgrown := insertEntry_grown enlargementNeeded less maxEnl e _ hpos hleast
  generalize insertEntry enlargementNeeded less maxEnl e _ = r at hgrown
  obtain ⟨node, split⟩ := r
  cases split with
  | none => exact ⟨h, hback hgrown⟩
  | some s =>
    refine ⟨h + 1, RTreeNode.Shaped.updateMBR (.inner le_rfl ?_ ?_)⟩
    · show 2 ≤ rtreeMaxEntries
      decide
    · exact forall_mem_cons.mpr ⟨hgrown.1, by simpa using hgrown.2⟩

variable (entries : List (IndexEntry T))

theorem Shaped.insertAll {t : RTree T} (ht : t.Shaped) :
    (t.insertAll enlargementNeeded less maxEnl entries).Shaped := by
  induction entries generalizing t with
  | nil => exact ht
  | cons e entries ih => exact ih (ht.insert enlargementNeeded less maxEnl e)

/-- `h` levels below a root with at least `2 * 4 ^ h` of `n` entries. -/
theorem le_logb_of_two_mul_pow_le {h n : Nat} (hle : 2 * splitLeast ^ h ≤ n) :
    (h : ℝ) ≤ Real.logb 4 (n / 2) := by
  have hcast : 2 * (4 : ℝ) ^ h ≤ n := by exact_mod_cast hle
  have hpos : (0 : ℝ) < (4 : ℝ) ^ h := by positivity
  rw [Real.le_logb_iff_rpow_le (by norm_num) (by linarith), Real.rpow_natCast]
  linarith

/-- **After any sequence of insertions the leaves of a collection's tree lie at
one depth, every node holds at most eight items, every node but the root at
least four, a root with children at least two; and a tree of nine or more
entries has at most `log₄ (n / 2)` levels below its root.** -/
theorem insertAll_shape (collection : Bytes) (root : RTreeNode T)
    (hget : (new.insertAll enlargementNeeded less maxEnl entries).roots.get? collection =
      some root) :
    let n := (entries.filter fun e => e.collection = collection).length
    ∃ levels, root.RootShaped levels ∧
      (9 ≤ n → (levels : ℝ) ≤ Real.logb 4 (n / 2)) := by
  intro n
  have hnew : (new : RTree T).Shaped := by
    intro collection root hnone
    cases hnone
  have hcov : (new : RTree T).Covering := by
    intro collection root hnone
    cases hnone
  obtain ⟨levels, hroot⟩ :=
    hnew.insertAll enlargementNeeded less maxEnl entries collection root hget
  refine ⟨levels, hroot, fun hnine => le_logb_of_two_mul_pow_le ?_⟩
  have hlen : root.stored.length = n := by
    have hperm := (insertAll_spec enlargementNeeded less maxEnl entries hcov).2 collection
    unfold RTree.stored at hperm
    rw [hget] at hperm
    exact hperm.length_eq
  rw [← hlen] at hnine ⊢
  exact hroot.two_mul_pow_le hnine

/-- Nine entries, one level below the root. -/
theorem insertAll_shape_nine :
    let entry := fun n : Nat => (⟨lit "a", ⟨n, n % 3⟩, lit "fleet", 0⟩ : IndexEntry Nat)
    let t := new.insertAll (fun b p => p.lat - b.maxLat) (fun a b => decide (a < b)) 1000
      ((List.range 9).map entry)
    ∃ root, t.roots.get? (lit "fleet") = some root ∧
      ∃ levels, root.RootShaped levels ∧ (levels : ℝ) ≤ Real.logb 4 (9 / 2) := by
  intro entry t
  have hsome : (t.roots.get? (lit "fleet")).isSome = true := by decide +kernel
  obtain ⟨root, hroot⟩ := Option.isSome_iff_exists.mp hsome
  obtain ⟨levels, hshape, hle⟩ := insertAll_shape (fun b p => p.lat - b.maxLat)
    (fun a b => decide (a < b)) 1000 ((List.range 9).map entry) (lit "fleet") root hroot
  have hcount :
      (((List.range 9).map entry).filter fun e => e.collection = lit "fleet").length = 9 := by
    decide +kernel
  rw [hcount] at hle
  exact ⟨root, hroot, levels, hshape, by exact_mod_cast hle le_rfl⟩

end RTree

end SpatialDb.Spatial
