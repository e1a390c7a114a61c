import SpatialDb.Lib.OrdMap

/-!
# Secondary indexes

An index of the bindings of a map under a second key, for the bindings that
with the same second key are kept apart.
-/

namespace SpatialDb.Lib

open OrdMap List

universe u v w

variable {κ : Type u} {β : Type w} {α : Type v} [LinearOrder κ] [LinearOrder β] (key : α → Option β)
variable (ix : OrdMap (β ×ₗ κ) α)

/-- `ix` lists exactly the bindings of `m` that have a second key. -/
def Indexes (m : OrdMap κ α) : Prop :=
  ∀ b k a, ix.get? (toLex (b, k)) = some a ↔ m.get? k = some a ∧ key a = some b

/-- Take a binding out of the index. -/
def unindex (k : κ) (a : α) : OrdMap (β ×ₗ κ) α :=
  match key a with
  | some b => ix.delete (toLex (b, k))
  | none => ix

/-- Put a binding into the index. -/
def index (k : κ) (a : α) : OrdMap (β ×ₗ κ) α :=
  match key a with
  | some b => ix.set (toLex (b, k)) a
  | none => ix

theorem indexes_empty : Indexes key empty (empty : OrdMap κ α) := by
  intro b k a
  simp

theorem get?_unindex (k : κ) (a : α) (b : β) (k' : κ) :
    (unindex key ix k a).get? (toLex (b, k')) =
      if key a = some b ∧ k' = k then none else ix.get? (toLex (b, k')) := by
  unfold unindex
  cases key a with
  | none => simp
  | some b₀ =>
    rw [get?_delete]
    simp [eq_comm]

theorem get?_index (k : κ) (a : α) (b : β) (k' : κ) :
    (index key ix k a).get? (toLex (b, k')) =
      if key a = some b ∧ k' = k then some a else ix.get? (toLex (b, k')) := by
  unfold index
  cases key a with
  | none => simp
  | some b₀ =>
    rw [get?_set]
    simp [eq_comm]

namespace Indexes

variable {key : α → Option β} {ix : OrdMap (β ×ₗ κ) α} {m : OrdMap κ α} {k : κ} {a : α}

section

variable (h : Indexes key ix m)
include h

theorem delete (hget : m.get? k = some a) : Indexes key (unindex key ix k a) (m.delete k) := by
  intro b k' a'
  rw [get?_unindex, get?_delete]
  by_cases hk : k' = k
  · subst hk
    have hown : ix.get? (toLex (b, k')) = some a' → key a = some b := by
      intro hix
      obtain ⟨hm, hkey⟩ := (h b k' a').mp hix
      cases hget.symm.trans hm
      exact hkey
    simp only [and_true, if_true, reduceCtorEq, false_and, iff_false]
    split
    · simp
    · exact mt hown ‹_›
  · simp only [hk, and_false, if_false]
    exact h b k' a'

theorem set (hget : m.get? k = none) (a : α) : Indexes key (index key ix k a) (m.set k a) := by
  intro b k' a'
  rw [get?_index, get?_set]
  by_cases hk : k' = k
  · subst hk
    have hfree : ix.get? (toLex (b, k')) ≠ some a' := by
      rw [Ne, h b k' a', hget]
      simp
    simp only [and_true, if_true]
    split_ifs with hkey
    · rw [Option.some.injEq, iff_self_and]
      rintro rfl
      exact hkey
    refine iff_of_false hfree ?_
    rintro ⟨heq, hkey'⟩
    cases heq
    exact hkey hkey'
  · simp only [hk, and_false, if_false]
    exact h b k' a'

theorem eq {ix' : OrdMap (β ×ₗ κ) α} (h' : Indexes key ix' m) : ix = ix' :=
  ext_get? fun i => Option.ext fun a => by
    rw [← toLex_ofLex i, ← Prod.mk.eta (p := ofLex i), h, h']

/-- The index has one entry for each binding with a second key. -/
theorem size_eq : ix.size = (m.entries.filter fun e => (key e.2).isSome).length := by
  have hperm : (ix.entries.map fun e => ((ofLex e.1).2, e.2)).Perm
      (m.entries.filter fun e => (key e.2).isSome) := by
    rw [perm_ext_iff_of_nodup]
    · rintro ⟨k, a⟩
      simp only [mem_map, mem_filter, Prod.mk.injEq, mem_entries_iff, Option.isSome_iff_exists]
      constructor
      · rintro ⟨⟨i, a'⟩, hmem, rfl, rfl⟩
        obtain ⟨hget, hkey⟩ := (h (ofLex i).1 (ofLex i).2 a').mp ((ix.mem_entries_iff _ _).mp hmem)
        exact ⟨hget, _, hkey⟩
      · rintro ⟨hget, b, hkey⟩
        exact ⟨(toLex (b, k), a),
          (ix.mem_entries_iff _ _).mpr ((h b k a).mpr ⟨hget, hkey⟩), rfl, rfl⟩
    · refine Nodup.map_on ?_ ix.nodup_entries
      rintro ⟨i, a⟩ hi ⟨j, a'⟩ hj heq
      obtain ⟨hk, rfl⟩ := Prod.mk.inj heq
      have hkeyi := ((h (ofLex i).1 (ofLex i).2 a).mp ((ix.mem_entries_iff _ _).mp hi)).2
      have hkeyj := ((h (ofLex j).1 (ofLex j).2 a).mp ((ix.mem_entries_iff _ _).mp hj)).2
      have hb := Option.some.inj (hkeyi.symm.trans hkeyj)
      have hij : i = j := ofLex.injective (Prod.ext hb hk)
      rw [hij]
    · exact m.nodup_entries.filter _
  rw [← hperm.length_eq, length_map, size]

end

end Indexes

/-- The index of a map, built from its bindings. -/
def reindex (key : α → Option β) (m : OrdMap κ α) : OrdMap (β ×ₗ κ) α :=
  m.entries.foldl (fun ix e => index key ix e.1 e.2) empty

theorem get?_foldl_index (key : α → Option β) {l : List (κ × α)} (hnodup : (l.map Prod.fst).Nodup)
    (b : β) (k : κ) (a : α) :
    (l.foldl (fun ix e => index key ix e.1 e.2) empty).get? (toLex (b, k)) = some a ↔
      (k, a) ∈ l ∧ key a = some b := by
  induction l using List.reverseRecOn with
  | nil => simp
  | append_singleton l e ih =>
    obtain ⟨k', a'⟩ := e
    rw [map_append, nodup_append] at hnodup
    rw [foldl_append, foldl_cons, foldl_nil, get?_index, mem_append, mem_singleton, Prod.mk.injEq]
    by_cases hk : k = k'
    · subst hk
      have hfresh : (k, a) ∉ l := fun ha =>
        hnodup.2.2 k (mem_map.mpr ⟨_, ha, rfl⟩) k (by simp) rfl
      simp only [and_true, hfresh, true_and, false_or]
      split_ifs with hkey
      · rw [Option.some.injEq, eq_comm, iff_self_and]
        rintro rfl
        exact hkey
      rw [ih hnodup.1]
      refine iff_of_false (fun h => hfresh h.1) ?_
      rintro ⟨rfl, hkey'⟩
      exact hkey hkey'
    · simp only [hk, and_false, if_false, false_and, or_false]
      exact ih hnodup.1

variable {key : α → Option β} {ix : OrdMap (β ×ₗ κ) α}

/-- **A map has one index, the one built from its bindings.** -/
theorem indexes_iff {m : OrdMap κ α} : Indexes key ix m ↔ ix = reindex key m := by
  have hnodup : (m.entries.map Prod.fst).Nodup := pairwise_map.mpr (m.sorted.imp fun h => h.ne)
  have hindex : Indexes key (reindex key m) m := fun b k a => by
    rw [reindex, get?_foldl_index key hnodup b k a, mem_entries_iff]
  exact ⟨fun h => h.eq hindex, fun h => h ▸ hindex⟩

theorem get?_of_unindex {k : κ} {a a' : α} {i : β ×ₗ κ}
    (h : (unindex key ix k a).get? i = some a') :
    ix.get? i = some a' := by
  rw [← toLex_ofLex i, ← Prod.mk.eta (p := ofLex i), get?_unindex] at h
  split at h
  · cases h
  · exact h

theorem get?_of_index {k : κ} {a a' : α} {b : β} {k' : κ}
    (h : (index key ix k a).get? (toLex (b, k')) = some a') :
    ix.get? (toLex (b, k')) = some a' ∨ k' = k ∧ key a = some b ∧ a' = a := by
  rw [get?_index] at h
  split_ifs at h with hkey
  · exact .inr ⟨hkey.2, hkey.1, (Option.some.inj h).symm⟩
  · exact .inl h

/-! ## Keys only -/

/-- `ix` has exactly the keys of the bindings of `m` that have a second key;
what it holds there may be another value. -/
def IndexesKeys (key : α → Option β) (ix : OrdMap (β ×ₗ κ) α) (m : OrdMap κ α) : Prop :=
  ∀ b k, (∃ a, ix.get? (toLex (b, k)) = some a) ↔ ∃ a, m.get? k = some a ∧ key a = some b

namespace IndexesKeys

variable {key : α → Option β} {ix : OrdMap (β ×ₗ κ) α} {m : OrdMap κ α} {k : κ} {a : α}

theorem empty (key : α → Option β) : IndexesKeys key empty (empty : OrdMap κ α) := by
  intro b k
  simp

variable (h : IndexesKeys key ix m)
include h

/-- The one second key under which a binding stands. -/
theorem exists_get?_iff (hget : m.get? k = some a) (b : β) :
    (∃ a', ix.get? (toLex (b, k)) = some a') ↔ key a = some b := by
  rw [h]
  simp [hget]

theorem delete (hget : m.get? k = some a) : IndexesKeys key (unindex key ix k a) (m.delete k) := by
  intro b k'
  rw [get?_unindex, get?_delete]
  by_cases hk : k' = k
  · subst hk
    have hone := h.exists_get?_iff hget b
    by_cases hkey : key a = some b
    · simp [hkey]
    · simpa [hkey] using hone
  · simp only [hk, and_false, if_false]
    exact h b k'

theorem set (hget : m.get? k = none) (a : α) : IndexesKeys key (index key ix k a) (m.set k a) := by
  intro b k'
  rw [get?_index, get?_set]
  by_cases hk : k' = k
  · subst hk
    have hfree := h b k'
    rw [hget] at hfree
    by_cases hkey : key a = some b
    · simp [hkey]
    · simpa [hkey] using hfree
  · simp only [hk, and_false, if_false]
    exact h b k'

/-- Another value under a key that the index has. -/
theorem touch (hget : m.get? k = some a) {a' : α}
    (hkey : key a' = key a) : IndexesKeys key (index key ix k a') m := by
  intro b k'
  rw [get?_index, ← h b k']
  split_ifs with hb
  · obtain ⟨hb, rfl⟩ := hb
    exact iff_of_true ⟨a', rfl⟩ ((h.exists_get?_iff hget b).mpr (hkey.symm.trans hb))
  · rfl

end IndexesKeys

end SpatialDb.Lib
