import SpatialDb.Lib.OrdMap

/-!
# A recency list with an index

A doubly linked list of keys, most recently used first, and a map from each
key to the address of its node, so that a key is moved or removed without a
search.  Addresses are numbers, never reused.  The structure carries the
agreement of the two, so a node found through the index is always the node
of that key.
-/

namespace SpatialDb.Lib

open List OrdMap

universe u

/-- The list (address and key of each node, front first) and its index. -/
structure Lru (κ : Type u) [LinearOrder κ] where
  list : List (Nat × κ)
  map : OrdMap κ Nat
  next : Nat
  map_iff : ∀ k a, map.get? k = some a ↔ (a, k) ∈ list
  nodup : (list.map Prod.fst).Nodup
  lt_next : ∀ n ∈ list, n.1 < next

namespace Lru

variable {κ : Type u} [LinearOrder κ]

def empty : Lru κ where
  list := []
  map := OrdMap.empty
  next := 0
  map_iff := by simp
  nodup := nodup_nil
  lt_next := by simp

/-- The listed keys, most recently used first. -/
def keys (l : Lru κ) : List κ := l.list.map Prod.snd

variable {l : Lru κ}

theorem mem_keys_iff {k : κ} : k ∈ l.keys ↔ ∃ a, l.map.get? k = some a := by
  simp only [keys, mem_map, l.map_iff]
  constructor
  · rintro ⟨⟨a, _⟩, hmem, rfl⟩
    exact ⟨a, hmem⟩
  · rintro ⟨a, hmem⟩
    exact ⟨(a, k), hmem, rfl⟩

/-- Two nodes of one key have one address, by the index. -/
theorem nodup_keys (l : Lru κ) : l.keys.Nodup := by
  refine Nodup.map_on ?_ (Nodup.of_map _ l.nodup)
  rintro ⟨a, k⟩ ha ⟨b, k'⟩ hb (rfl : k = k')
  have hab : some a = some b := ((l.map_iff k a).mpr ha).symm.trans ((l.map_iff k b).mpr hb)
  rw [Option.some.inj hab]

/-! ## Removing -/

/-- The list without the node at address `a`. -/
def unlink (list : List (Nat × κ)) (a : Nat) : List (Nat × κ) := list.filter fun n => n.1 ≠ a

/-- The node at the address of `k` is the only one unlinked, and its key is `k`. -/
theorem mem_unlink_iff {k : κ} {a : Nat} (h : l.map.get? k = some a)
    (n : Nat × κ) : n ∈ unlink l.list a ↔ n ∈ l.list ∧ n.2 ≠ k := by
  obtain ⟨b, k'⟩ := n
  simp only [unlink, mem_filter, decide_eq_true_eq]
  refine and_congr_right fun hmem => not_congr ?_
  constructor
  · rintro rfl
    have hsame := inj_on_of_nodup_map l.nodup hmem ((l.map_iff k b).mp h) rfl
    exact congrArg Prod.snd hsame
  · rintro rfl
    exact Option.some.inj (((l.map_iff k' b).mpr hmem).symm.trans h)

theorem nodup_unlink (l : Lru κ) (a : Nat) : ((unlink l.list a).map Prod.fst).Nodup :=
  l.nodup.sublist (filter_sublist.map Prod.fst)

/-- Remove `k`, if it is listed. -/
def remove (l : Lru κ) (k : κ) : Lru κ :=
  match h : l.map.get? k with
  | none => l
  | some a =>
    { list := unlink l.list a
      map := l.map.delete k
      next := l.next
      map_iff := by
        intro k' b
        rw [mem_unlink_iff h, get?_delete]
        split_ifs with heq
        · simp [heq]
        · rw [l.map_iff]
          exact (and_iff_left heq).symm
      nodup := nodup_unlink l a
      lt_next := fun n hn => l.lt_next n ((mem_unlink_iff h n).mp hn).1 }

theorem map_remove (l : Lru κ) (k : κ) : (l.remove k).map = l.map.delete k := by
  unfold remove
  split
  · rename_i h
    exact (delete_eq_self h).symm
  · rfl

theorem mem_keys_remove {k x : κ} : x ∈ (l.remove k).keys ↔ x ∈ l.keys ∧ x ≠ k := by
  rw [mem_keys_iff, mem_keys_iff, map_remove, get?_delete]
  split_ifs with heq
  · simp [heq]
  · simp [heq]

theorem next_remove (l : Lru κ) (k : κ) : (l.remove k).next = l.next := by
  unfold remove
  split <;> rfl

/-! ## Touching -/

/-- Move `k` to the front, in a new node. -/
def touch (l : Lru κ) (k : κ) : Lru κ where
  list := (l.next, k) :: (l.remove k).list
  map := l.map.set k l.next
  next := l.next + 1
  map_iff := by
    intro k' b
    have hrest := (l.remove k).map_iff k' b
    rw [map_remove, get?_delete] at hrest
    rw [get?_set, mem_cons, ← hrest, Prod.mk.injEq]
    split_ifs with heq
    · simp [heq, eq_comm]
    · simp [heq]
  nodup := by
    rw [map_cons, nodup_cons]
    refine ⟨?_, (l.remove k).nodup⟩
    intro hmem
    obtain ⟨n, hn, heq⟩ := mem_map.mp hmem
    have hlt := (l.remove k).lt_next n hn
    rw [next_remove] at hlt
    omega
  lt_next := by
    intro n hn
    rcases mem_cons.mp hn with rfl | hn
    · exact Nat.lt_succ_self _
    have hlt := (l.remove k).lt_next n hn
    rw [next_remove] at hlt
    omega

theorem mem_keys_touch {k x : κ} : x ∈ (l.touch k).keys ↔ x = k ∨ x ∈ l.keys := by
  rw [mem_keys_iff, mem_keys_iff]
  show (∃ a, (l.map.set k l.next).get? x = some a) ↔ _
  rw [get?_set]
  split_ifs with heq
  · simp [heq]
  · simp [heq]

/-! ## Popping -/

theorem mem_dropLast_iff {n : Nat × κ} (h : l.list.getLast? = some n)
    (m : Nat × κ) : m ∈ l.list.dropLast ↔ m ∈ l.list ∧ m.2 ≠ n.2 := by
  have hsplit := dropLast_append_getLast? n h
  have hnodup := l.nodup_keys
  rw [keys, ← hsplit, map_append, nodup_append] at hnodup
  constructor
  · intro hm
    refine ⟨hsplit ▸ mem_append_left _ hm, ?_⟩
    exact hnodup.2.2 m.2 (mem_map.mpr ⟨m, hm, rfl⟩) n.2 (by simp)
  · rintro ⟨hm, hne⟩
    rw [← hsplit, mem_append, mem_singleton] at hm
    exact hm.resolve_right fun heq => hne (congrArg Prod.snd heq)

/-- The key at the back, and the list without its node. -/
def popBack (l : Lru κ) : Option (κ × Lru κ) :=
  match h : l.list.getLast? with
  | none => none
  | some n => some (n.2,
      { list := l.list.dropLast
        map := l.map.delete n.2
        next := l.next
        map_iff := by
          intro k b
          rw [mem_dropLast_iff h, get?_delete]
          split_ifs with heq
          · simp [heq]
          · rw [l.map_iff]
            exact (and_iff_left heq).symm
        nodup := l.nodup.sublist ((dropLast_sublist _).map Prod.fst)
        lt_next := fun m hm => l.lt_next m (mem_of_mem_dropLast hm) })

theorem popBack_eq_none_iff : l.popBack = none ↔ l.list = [] := by
  rw [← getLast?_eq_none_iff]
  unfold popBack
  split
  · rename_i h
    exact iff_of_true rfl h
  · rename_i h
    simp [h]

theorem popBack_spec {l l' : Lru κ} {k : κ} (h : l.popBack = some (k, l')) :
    k ∈ l.keys ∧ (∀ x, x ∈ l'.keys ↔ x ∈ l.keys ∧ x ≠ k) ∧
      l'.list.length + 1 = l.list.length := by
  unfold popBack at h
  split at h
  · cases h
  rename_i n hlast
  cases h
  have hmem := mem_of_getLast? hlast
  refine ⟨mem_map.mpr ⟨n, hmem, rfl⟩, ?_, ?_⟩
  · intro x
    simp only [keys, mem_map, mem_dropLast_iff hlast]
    constructor
    · rintro ⟨m, ⟨hm, hne⟩, rfl⟩
      exact ⟨⟨m, hm, rfl⟩, hne⟩
    · rintro ⟨⟨m, hm, rfl⟩, hne⟩
      exact ⟨m, ⟨hm, hne⟩, rfl⟩
  · rw [length_dropLast]
    have := length_pos_of_mem hmem
    omega

end Lru

end SpatialDb.Lib
