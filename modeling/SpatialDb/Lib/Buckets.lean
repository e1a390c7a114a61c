import SpatialDb.Lib.OrdMap

/-!
# Buckets

A map from keys to lists, in which every item lies in the bucket of its key.
A hash table visits its buckets in an order of its own; `Traversal` is any
such order.
-/

namespace SpatialDb.Lib

open List OrdMap

variable {κ α : Type*} [LinearOrder κ]

/-- The order in which an `std::unordered_map` is walked through. -/
structure Traversal (κ α : Type*) [LinearOrder κ] where
  keys : OrdMap κ α → List κ
  perm : ∀ m, (keys m).Perm m.keys

/-- The walk in the order of the keys. -/
def Traversal.ascending : Traversal κ α := ⟨OrdMap.keys, fun _ => List.Perm.refl _⟩

variable (m : OrdMap κ (List α))

def bucket (k : κ) : List α := (m.get? k).getD []

theorem bucket_set (k k' : κ) (l : List α) :
    bucket (m.set k l) k' = if k' = k then l else bucket m k' := by
  unfold bucket
  rw [get?_set]
  split <;> rfl

theorem bucket_foldl_delete (ks : List κ) (k : κ) :
    bucket (ks.foldl delete m) k = if k ∈ ks then [] else bucket m k := by
  unfold bucket
  rw [get?_foldl_delete]
  split <;> rfl

/-- The buckets hold the items, each under its key. -/
def Holds (f : α → κ) (m : OrdMap κ (List α)) (items : List α) : Prop :=
  ∀ k, (bucket m k).Perm (items.filter fun a => f a = k)

variable {f : α → κ} {m : OrdMap κ (List α)} {items : List α}

theorem holds_empty : Holds f (empty : OrdMap κ (List α)) [] := fun _ => Perm.refl _

variable (h : Holds f m items)
include h

theorem Holds.mem_bucket_iff {k : κ} {a : α} : a ∈ bucket m k ↔ a ∈ items ∧ f a = k := by
  rw [(h k).mem_iff, mem_filter, decide_eq_true_eq]

theorem Holds.mem_keys {a : α} (ha : a ∈ items) : f a ∈ m.keys := by
  have hmem := h.mem_bucket_iff.mpr ⟨ha, rfl⟩
  unfold bucket at hmem
  rw [mem_keys_iff]
  cases hget : m.get? (f a) with
  | none =>
    rw [hget] at hmem
    exact absurd hmem not_mem_nil
  | some l => exact Option.some_ne_none l

theorem Holds.push (a : α) : Holds f (m.set (f a) (bucket m (f a) ++ [a])) (items ++ [a]) := by
  intro k
  rw [bucket_set, filter_append]
  by_cases hk : k = f a
  · subst hk
    simpa using (h (f a)).append_right [a]
  have hsingle : [a].filter (fun x => f x = k) = [] := by simp [Ne.symm hk]
  rw [if_neg hk, hsingle, append_nil]
  exact h k

/-- Items are removed from one bucket, and none that is removed lies in another
one. -/
theorem Holds.filter_bucket (k : κ) {p : α → Bool} (hp : ∀ a ∈ items, f a ≠ k → p a = true) :
    Holds f (m.set k ((bucket m k).filter p)) (items.filter p) := by
  intro k'
  rw [bucket_set, filter_filter]
  by_cases hk : k' = k
  · subst hk
    rw [if_pos rfl]
    refine ((h k').filter p).trans (Perm.of_eq ?_)
    rw [filter_filter]
    exact filter_congr fun a _ => Bool.and_comm _ _
  rw [if_neg hk]
  refine (h k').trans (Perm.of_eq (filter_congr fun a ha => ?_))
  by_cases hfa : f a = k'
  · rw [hp a ha (hfa ▸ hk), Bool.and_true]
  · simp [hfa]

theorem Holds.foldl_delete (ks : List κ) :
    Holds f (ks.foldl delete m) (items.filter fun a => f a ∉ ks) := by
  intro k
  rw [bucket_foldl_delete, filter_filter]
  split_ifs with hk
  · rw [filter_eq_nil_iff.mpr]
    intro a _ ha
    simp only [Bool.and_eq_true, decide_eq_true_eq] at ha
    exact ha.2 (ha.1 ▸ hk)
  refine (h k).trans (Perm.of_eq (filter_congr fun a _ => ?_))
  by_cases hfa : f a = k
  · simp [hfa, hk]
  · simp [hfa]

theorem Holds.flatMap {keys : List κ} (hnodup : keys.Nodup) :
    (keys.flatMap (bucket m)).Perm (items.filter fun a => f a ∈ keys) := by
  induction keys with
  | nil => simp
  | cons k keys ih =>
    obtain ⟨hk, hrest⟩ := nodup_cons.mp hnodup
    rw [flatMap_cons]
    refine ((h k).append (ih hrest)).trans ?_
    have hsplit := filter_append_perm (fun a => decide (f a = k))
      (items.filter fun a => f a ∈ k :: keys)
    rw [filter_filter, filter_filter] at hsplit
    refine (Perm.of_eq ?_).trans hsplit
    congr 1
    · refine filter_congr fun a _ => ?_
      by_cases hfa : f a = k <;> simp [hfa]
    · refine filter_congr fun a _ => ?_
      by_cases hfa : f a = k <;> simp [hfa, hk]

end SpatialDb.Lib
