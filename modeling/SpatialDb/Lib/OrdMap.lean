import SpatialDb.Lib.Sorting

/-!
# Ordered maps

A finite map kept as a strictly increasing association list.  The structure
carries its sortedness, so lookups, updates and ordered traversals never need
a well-formedness premise.

It is the specification shared by every ordered container of the models: a
`btree.Map`, a `std::map` and a field list differ in layout, not in what
`get?`, `set`, `delete` and `ascend` answer.
-/

namespace SpatialDb.Lib

open List

universe u v w

variable {κ : Type u} {α : Type v}

/-- A finite map, listed in strictly increasing key order. -/
structure OrdMap (κ : Type u) (α : Type v) [LT κ] where
  entries : List (κ × α)
  sorted : entries.Pairwise fun a b => a.1 < b.1

variable {P : κ → α → Prop}

namespace OrdMap

section Lists

variable [LinearOrder κ]

/-- The value bound to `k` in an association list. -/
def lookupEntry (k : κ) : List (κ × α) → Option α
  | [] => none
  | (k', v) :: rest => if k = k' then some v else lookupEntry k rest

/-- Bind `k` to `v` in an increasing association list. -/
def insertEntry (k : κ) (v : α) : List (κ × α) → List (κ × α)
  | [] => [(k, v)]
  | (k', v') :: rest =>
    if k < k' then (k, v) :: (k', v') :: rest
    else if k = k' then (k, v) :: rest
    else (k', v') :: insertEntry k v rest

/-- Remove the binding of `k`. -/
def eraseEntry (k : κ) (l : List (κ × α)) : List (κ × α) :=
  l.filter fun e => e.1 ≠ k

variable {l : List (κ × α)}

theorem mem_insertEntry {k : κ} {v : α} {e : κ × α} (h : e ∈ insertEntry k v l) :
    e = (k, v) ∨ e ∈ l := by
  induction l with
  | nil => exact .inl (by simpa [insertEntry] using h)
  | cons head rest ih =>
    simp only [insertEntry] at h
    split at h
    · simpa using h
    split at h
    · rcases mem_cons.mp h with h | h
      · exact .inl h
      · exact .inr (mem_cons_of_mem _ h)
    rcases mem_cons.mp h with h | h
    · exact .inr (h ▸ mem_cons_self)
    · exact (ih h).imp_right (mem_cons_of_mem _)

theorem insertEntry_sorted (k : κ) (v : α) (h : l.Pairwise fun a b => a.1 < b.1) :
    (insertEntry k v l).Pairwise fun a b => a.1 < b.1 := by
  induction l with
  | nil => simp [insertEntry]
  | cons head rest ih =>
    obtain ⟨hhead, hrest⟩ := pairwise_cons.mp h
    simp only [insertEntry]
    split
    · rename_i hlt
      refine pairwise_cons.mpr ⟨?_, h⟩
      intro e he
      rcases mem_cons.mp he with rfl | he
      · exact hlt
      · exact lt_trans hlt (hhead e he)
    rename_i hnlt
    split_ifs with heq
    · subst heq
      exact pairwise_cons.mpr ⟨hhead, hrest⟩
    refine pairwise_cons.mpr ⟨?_, ih hrest⟩
    intro e he
    rcases mem_insertEntry he with rfl | he
    · exact lt_of_le_of_ne (not_lt.mp hnlt) (Ne.symm heq)
    · exact hhead e he

theorem lookupEntry_insertEntry (k : κ) (v : α) (l : List (κ × α)) (k' : κ) :
    lookupEntry k' (insertEntry k v l) =
      if k' = k then some v else lookupEntry k' l := by
  induction l with
  | nil => simp [insertEntry, lookupEntry]
  | cons head rest ih =>
    obtain ⟨kh, vh⟩ := head
    simp only [insertEntry]
    split
    · simp [lookupEntry]
    split
    · rename_i heq
      subst heq
      by_cases hk : k' = k <;> simp [lookupEntry, hk]
    rename_i hne
    simp only [lookupEntry, ih]
    by_cases hk : k' = kh
    · subst hk
      simp [Ne.symm hne]
    · simp [hk]

theorem lookupEntry_eraseEntry (k : κ) (l : List (κ × α)) (k' : κ) :
    lookupEntry k' (eraseEntry k l) =
      if k' = k then none else lookupEntry k' l := by
  induction l with
  | nil => simp [eraseEntry, lookupEntry]
  | cons head rest ih =>
    obtain ⟨kh, vh⟩ := head
    simp only [eraseEntry, filter_cons] at ih ⊢
    by_cases hk : kh = k
    · subst hk
      simp only [ne_eq, not_true_eq_false, decide_false, Bool.false_eq_true,
        if_false, ih, lookupEntry]
      by_cases hk' : k' = kh <;> simp [hk']
    simp only [ne_eq, hk, not_false_eq_true, decide_true, if_true, lookupEntry, ih]
    by_cases hk' : k' = kh
    · subst hk'
      simp [hk]
    · simp [hk']

theorem lookupEntry_eq_some_iff (h : l.Pairwise fun a b => a.1 < b.1) (k : κ) (v : α) :
    lookupEntry k l = some v ↔ (k, v) ∈ l := by
  induction l with
  | nil => simp [lookupEntry]
  | cons head rest ih =>
    obtain ⟨kh, vh⟩ := head
    obtain ⟨hhead, hrest⟩ := pairwise_cons.mp h
    simp only [lookupEntry, mem_cons, Prod.mk.injEq]
    by_cases hk : k = kh
    · subst hk
      have hnot : (k, v) ∉ rest := fun hm => lt_irrefl k (hhead (k, v) hm)
      simp [hnot, eq_comm]
    · simp [hk, ih hrest]

theorem lookupEntry_eq_none_iff (k : κ) : lookupEntry k l = none ↔ ∀ e ∈ l, e.1 ≠ k := by
  induction l with
  | nil => simp [lookupEntry]
  | cons head rest ih =>
    obtain ⟨kh, vh⟩ := head
    by_cases hk : k = kh
    · subst hk
      simp [lookupEntry]
    · simp [lookupEntry, hk, ih, Ne.symm (Ne.intro hk)]

end Lists

variable [LinearOrder κ]

instance [DecidableEq α] : DecidableEq (OrdMap κ α) := fun m m' =>
  decidable_of_iff (m.entries = m'.entries) (by
    cases m
    cases m'
    simp)

/-- The map with no binding. -/
def empty : OrdMap κ α := ⟨[], List.Pairwise.nil⟩

instance : Inhabited (OrdMap κ α) := ⟨empty⟩

/-- The value bound to `k`, if any. -/
def get? (m : OrdMap κ α) (k : κ) : Option α := lookupEntry k m.entries

/-- Bind `k` to `v`, replacing an earlier binding. -/
def set (m : OrdMap κ α) (k : κ) (v : α) : OrdMap κ α :=
  ⟨insertEntry k v m.entries, insertEntry_sorted k v m.sorted⟩

/-- Drop the binding of `k`. -/
def delete (m : OrdMap κ α) (k : κ) : OrdMap κ α :=
  ⟨eraseEntry k m.entries, m.sorted.filter _⟩

/-- The keys in increasing order. -/
def keys (m : OrdMap κ α) : List κ := m.entries.map Prod.fst

/-- The values in increasing key order. -/
def values (m : OrdMap κ α) : List α := m.entries.map Prod.snd

/-- The number of bindings. -/
def size (m : OrdMap κ α) : Nat := m.entries.length

/-- The bindings at or above `pivot`, in increasing order. -/
def ascend (m : OrdMap κ α) (pivot : κ) : List (κ × α) :=
  m.entries.filter fun e => pivot ≤ e.1

@[simp] theorem get?_empty (k : κ) : (empty : OrdMap κ α).get? k = none := rfl

@[simp] theorem entries_empty : (empty : OrdMap κ α).entries = [] := rfl

@[simp] theorem keys_empty : (empty : OrdMap κ α).keys = [] := rfl

theorem get?_set (m : OrdMap κ α) (k : κ) (v : α) (k' : κ) :
    (m.set k v).get? k' = if k' = k then some v else m.get? k' :=
  lookupEntry_insertEntry k v m.entries k'

@[simp] theorem get?_set_self (m : OrdMap κ α) (k : κ) (v : α) : (m.set k v).get? k = some v := by
  simp [get?_set]

variable {k : κ} {m : OrdMap κ α} {v : α} {before after : List (κ × α)}

theorem get?_set_ne (m : OrdMap κ α) {k' : κ} (v : α) (h : k' ≠ k) :
    (m.set k v).get? k' = m.get? k' := by
  simp [get?_set, h]

theorem get?_delete (m : OrdMap κ α) (k k' : κ) :
    (m.delete k).get? k' = if k' = k then none else m.get? k' :=
  lookupEntry_eraseEntry k m.entries k'

@[simp] theorem get?_delete_self (m : OrdMap κ α) (k : κ) : (m.delete k).get? k = none := by
  simp [get?_delete]

theorem get?_delete_ne (m : OrdMap κ α) {k' : κ} (h : k' ≠ k) :
    (m.delete k).get? k' = m.get? k' := by
  simp [get?_delete, h]

/-- What holds of every other entry and of a new one holds after the new one is
set. -/
theorem forall_get?_set_ne (h : ∀ k' v', k' ≠ k → m.get? k' = some v' → P k' v') (hv : P k v) :
    ∀ k' v', (m.set k v).get? k' = some v' → P k' v' := by
  intro k' v' hget
  rw [get?_set] at hget
  split_ifs at hget with hk
  · cases hget
    rw [hk]
    exact hv
  · exact h k' v' hk hget

theorem forall_get?_set (h : ∀ k v, m.get? k = some v → P k v) (hv : P k v) :
    ∀ k' v', (m.set k v).get? k' = some v' → P k' v' :=
  forall_get?_set_ne (fun k' v' _ => h k' v') hv

theorem forall_get?_delete (h : ∀ k v, m.get? k = some v → P k v) (k : κ) :
    ∀ k' v', (m.delete k).get? k' = some v' → P k' v' := by
  intro k' v' hget
  rw [get?_delete] at hget
  split at hget
  · cases hget
  · exact h k' v' hget

/-- A second map with the values that pass a test, when an entry goes. -/
theorem get?_filter_delete {p : α → Bool} {m' : OrdMap κ α}
    (h : ∀ k, m'.get? k = (m.get? k).filter p) (k k' : κ) :
    (m'.delete k).get? k' = ((m.delete k).get? k').filter p := by
  rw [get?_delete, get?_delete]
  split
  · rfl
  · exact h k'

theorem get?_filter_set {p : α → Bool} {m' : OrdMap κ α}
    (h : ∀ k, m'.get? k = (m.get? k).filter p) (hk : m.get? k = none) (k' : κ) :
    (if p v then m'.set k v else m').get? k' = ((m.set k v).get? k').filter p := by
  have hnone : m'.get? k = none := by
    rw [h, hk]
    rfl
  rw [get?_set]
  by_cases heq : k' = k
  · cases hp : p v <;> simp [heq, hnone, hp, Option.filter]
  rw [if_neg heq, ← h]
  split
  · rw [get?_set, if_neg heq]
  · rfl

theorem mem_entries_iff (m : OrdMap κ α) (k : κ) (v : α) : (k, v) ∈ m.entries ↔ m.get? k = some v :=
  (lookupEntry_eq_some_iff m.sorted k v).symm

/-- The entries before and behind one. -/
theorem exists_entries_eq (h : m.get? k = some v) :
    ∃ before after, m.entries = before ++ (k, v) :: after ∧ (∀ e ∈ before, e.1 < k) ∧
      ∀ e ∈ after, k < e.1 := by
  obtain ⟨before, after, heq⟩ := append_of_mem ((m.mem_entries_iff k v).mpr h)
  have hsorted := m.sorted
  rw [heq, pairwise_append, pairwise_cons] at hsorted
  exact ⟨before, after, heq, fun e he => hsorted.2.2 e he (k, v) mem_cons_self, hsorted.2.1.1⟩

/-- The entries before and behind where one would be. -/
theorem exists_entries_split (h : m.get? k = none) :
    ∃ before after, m.entries = before ++ after ∧ (∀ e ∈ before, e.1 < k) ∧
      ∀ e ∈ after, k < e.1 := by
  have hne := (lookupEntry_eq_none_iff k).mp h
  have hsorted := m.sorted
  generalize m.entries = l at hne hsorted
  induction l with
  | nil => exact ⟨[], [], rfl, by simp, by simp⟩
  | cons e l ih =>
    obtain ⟨hlater, hsorted⟩ := pairwise_cons.mp hsorted
    obtain ⟨he, hne⟩ := forall_mem_cons.mp hne
    rcases lt_or_gt_of_ne he with hlt | hgt
    · obtain ⟨before, after, rfl, hbefore, hafter⟩ := ih hne hsorted
      exact ⟨e :: before, after, rfl, forall_mem_cons.mpr ⟨hlt, hbefore⟩, hafter⟩
    · refine ⟨[], e :: l, rfl, by simp, forall_mem_cons.mpr ⟨hgt, ?_⟩⟩
      exact fun e' he' => hgt.trans (hlater e' he')

theorem insertEntry_append (v : α) (h : ∀ e ∈ before, e.1 < k) (after : List (κ × α)) :
    insertEntry k v (before ++ after) = before ++ insertEntry k v after := by
  induction before with
  | nil => rfl
  | cons e before ih =>
    obtain ⟨he, hbefore⟩ := forall_mem_cons.mp h
    obtain ⟨k', v'⟩ := e
    have he : k' < k := he
    rw [cons_append, insertEntry, if_neg (not_lt_of_gt he), if_neg (ne_of_gt he), ih hbefore]
    rfl

theorem entries_set_of_split (v : α) (h : m.entries = before ++ after)
    (hbefore : ∀ e ∈ before, e.1 < k) (hafter : ∀ e ∈ after, k < e.1) :
    (m.set k v).entries = before ++ (k, v) :: after := by
  show insertEntry k v m.entries = _
  rw [h, insertEntry_append v hbefore]
  cases after with
  | nil => rfl
  | cons e after => rw [insertEntry, if_pos (hafter e mem_cons_self)]

theorem entries_set_of_entry (v : α) {w : α} (h : m.entries = before ++ (k, w) :: after)
    (hbefore : ∀ e ∈ before, e.1 < k) : (m.set k v).entries = before ++ (k, v) :: after := by
  show insertEntry k v m.entries = _
  rw [h, insertEntry_append v hbefore, insertEntry, if_neg (lt_irrefl k), if_pos rfl]

theorem entries_delete_of_entry {w : α} (h : m.entries = before ++ (k, w) :: after)
    (hbefore : ∀ e ∈ before, e.1 < k) (hafter : ∀ e ∈ after, k < e.1) :
    (m.delete k).entries = before ++ after := by
  show eraseEntry k m.entries = _
  have hb : before.filter (fun e => decide (e.1 ≠ k)) = before :=
    filter_eq_self.mpr fun e he => by simpa using ne_of_lt (hbefore e he)
  have ha : after.filter (fun e => decide (e.1 ≠ k)) = after :=
    filter_eq_self.mpr fun e he => by simpa using ne_of_gt (hafter e he)
  rw [h, eraseEntry, filter_append, filter_cons, hb, ha]
  simp

theorem mem_values_iff (m : OrdMap κ α) (v : α) : v ∈ m.values ↔ ∃ k, m.get? k = some v := by
  rw [values, mem_map]
  constructor
  · rintro ⟨e, he, rfl⟩
    exact ⟨e.1, (m.mem_entries_iff e.1 e.2).mp he⟩
  · rintro ⟨k, hget⟩
    exact ⟨(k, v), (m.mem_entries_iff k v).mpr hget, rfl⟩

theorem get?_eq_none_iff (m : OrdMap κ α) (k : κ) : m.get? k = none ↔ ∀ e ∈ m.entries, e.1 ≠ k :=
  lookupEntry_eq_none_iff k

theorem mem_keys_iff (m : OrdMap κ α) (k : κ) : k ∈ m.keys ↔ m.get? k ≠ none := by
  rw [ne_eq, get?_eq_none_iff]
  simp [keys]

theorem length_keys (m : OrdMap κ α) : m.keys.length = m.size := length_map _

theorem mem_keys_set (m : OrdMap κ α) (k : κ) (v : α) (k' : κ) :
    k' ∈ (m.set k v).keys ↔ k' = k ∨ k' ∈ m.keys := by
  rw [mem_keys_iff, mem_keys_iff, get?_set]
  by_cases h : k' = k <;> simp [h]

theorem mem_keys_delete (m : OrdMap κ α) (k k' : κ) :
    k' ∈ (m.delete k).keys ↔ k' ∈ m.keys ∧ k' ≠ k := by
  rw [mem_keys_iff, mem_keys_iff, get?_delete]
  by_cases h : k' = k <;> simp [h]

theorem mem_ascend_iff (m : OrdMap κ α) (pivot k : κ) (v : α) :
    (k, v) ∈ m.ascend pivot ↔ pivot ≤ k ∧ m.get? k = some v := by
  rw [ascend, mem_filter, mem_entries_iff]
  simp [and_comm]

theorem ascend_sorted (m : OrdMap κ α) (pivot : κ) :
    (m.ascend pivot).Pairwise fun a b => a.1 < b.1 :=
  m.sorted.filter _

/-- In an ordered list, the leading elements with a property that is closed
downwards are all the elements with it. -/
theorem mem_takeWhile_iff {β : Type*} {r : β → β → Prop} {l : List β} (hsorted : l.Pairwise r)
    {p : β → Bool} (hp : ∀ a ∈ l, ∀ b ∈ l, r a b → p b = true → p a = true) (x : β) :
    x ∈ l.takeWhile p ↔ x ∈ l ∧ p x = true := by
  rw [takeWhile_eq_filter hsorted hp, mem_filter]

/-- In an ordered list, the elements before the one at `n`. -/
theorem mem_take_iff {β : Type*} (f : β → κ) {l tail : List β} {b : β} {n : Nat}
    (hsorted : l.Pairwise fun a a' => f a < f a') (hdrop : l.drop n = b :: tail) (a : β) :
    a ∈ l.take n ↔ a ∈ l ∧ f a < f b := by
  rw [← take_append_drop n l, hdrop] at hsorted
  obtain ⟨-, htail, hcross⟩ := pairwise_append.mp hsorted
  constructor
  · intro ha
    exact ⟨mem_of_mem_take ha, hcross a ha b mem_cons_self⟩
  · rintro ⟨ha, hlt⟩
    rw [← take_append_drop n l, hdrop] at ha
    rcases mem_append.mp ha with ha | ha
    · exact ha
    rcases mem_cons.mp ha with rfl | ha
    · exact absurd hlt (lt_irrefl _)
    · exact absurd hlt (lt_asymm ((pairwise_cons.mp htail).1 a ha))

theorem get?_foldl_delete (m : OrdMap κ α) (ks : List κ) (k : κ) :
    (ks.foldl delete m).get? k = if k ∈ ks then none else m.get? k := by
  induction ks generalizing m with
  | nil => simp
  | cons a ks ih =>
    rw [foldl_cons, ih, get?_delete]
    by_cases hk : k = a <;> by_cases hks : k ∈ ks <;> simp [hk, hks]

theorem nodup_keys (m : OrdMap κ α) : m.keys.Nodup :=
  pairwise_map.mpr (m.sorted.imp fun h => h.ne)

theorem nodup_entries (m : OrdMap κ α) : m.entries.Nodup :=
  .of_map _ m.nodup_keys

/-- Two increasing listings with the same members are equal. -/
theorem ext_entries {m' : OrdMap κ α} (h : ∀ e, e ∈ m.entries ↔ e ∈ m'.entries) : m = m' := by
  have hanti : ∀ a b : κ × α, a ∈ m.entries → b ∈ m'.entries → a.1 < b.1 → b.1 < a.1 → a = b :=
    fun a b _ _ hab hba => absurd hab (not_lt.mpr (le_of_lt hba))
  have hperm : m.entries.Perm m'.entries :=
    (perm_ext_iff_of_nodup m.nodup_entries m'.nodup_entries).mpr h
  have heq : m.entries = m'.entries := hperm.eq_of_pairwise hanti m.sorted m'.sorted
  cases m
  cases m'
  simpa using heq

theorem mem_entries_set (m : OrdMap κ α) (k : κ) (v : α) (e : κ × α) :
    e ∈ (m.set k v).entries ↔ e = (k, v) ∨ e ∈ m.entries ∧ e.1 ≠ k := by
  obtain ⟨k', v'⟩ := e
  rw [mem_entries_iff, get?_set, mem_entries_iff, Prod.mk.injEq]
  by_cases hk : k' = k
  · simp [hk, eq_comm]
  · simp [hk]

theorem mem_entries_foldl_set (m : OrdMap κ α) {l : List (κ × α)} (hl : (l.map Prod.fst).Nodup)
    (e : κ × α) :
    e ∈ (l.foldl (fun m e => m.set e.1 e.2) m).entries ↔
      e ∈ l ∨ e ∈ m.entries ∧ e.1 ∉ l.map Prod.fst := by
  induction l generalizing m with
  | nil => simp
  | cons a l ih =>
    rw [map_cons, nodup_cons] at hl
    rw [foldl_cons, ih _ hl.2, mem_entries_set, mem_cons, map_cons, mem_cons, not_or]
    constructor
    · rintro (hmem | ⟨rfl | ⟨hmem, hne⟩, hnot⟩)
      · exact Or.inl (Or.inr hmem)
      · exact Or.inl (Or.inl rfl)
      · exact Or.inr ⟨hmem, hne, hnot⟩
    · rintro ((rfl | hmem) | ⟨hmem, hne, hnot⟩)
      · exact Or.inr ⟨Or.inl rfl, hl.1⟩
      · exact Or.inl hmem
      · exact Or.inr ⟨Or.inr ⟨hmem, hne⟩, hnot⟩

theorem mem_entries_foldl_delete (m : OrdMap κ α) (ks : List κ) (e : κ × α) :
    e ∈ (ks.foldl delete m).entries ↔ e ∈ m.entries ∧ e.1 ∉ ks := by
  obtain ⟨k, v⟩ := e
  rw [mem_entries_iff, get?_foldl_delete, mem_entries_iff]
  by_cases hk : k ∈ ks <;> simp [hk]

/-- The entries that satisfy a test are the one increasing list of them. -/
theorem filter_entries_eq {p : κ × α → Bool} {l : List (κ × α)}
    (hsorted : l.Pairwise fun a b => a.1 < b.1) (hmem : ∀ e, e ∈ l ↔ e ∈ m.entries ∧ p e = true) :
    m.entries.filter p = l := by
  have hirrefl : ∀ a b : κ × α, a.1 < b.1 → a ≠ b := by
    rintro a b hab rfl
    exact lt_irrefl _ hab
  have hperm : (m.entries.filter p).Perm l := by
    refine (perm_ext_iff_of_nodup (m.nodup_entries.filter p) (hsorted.imp (hirrefl _ _))).mpr ?_
    intro e
    rw [hmem, mem_filter]
  exact hperm.eq_of_pairwise (fun a b _ _ hab hba => absurd hab (not_lt.mpr hba.le))
    (m.sorted.filter p) hsorted

/-- A map is determined by its lookups. -/
theorem ext_get? {m' : OrdMap κ α} (h : ∀ k, m.get? k = m'.get? k) : m = m' := by
  apply ext_entries
  rintro ⟨k, v⟩
  rw [mem_entries_iff, mem_entries_iff, h]

theorem eq_empty_iff (m : OrdMap κ α) : m = empty ↔ ∀ k, m.get? k = none := by
  constructor
  · rintro rfl k
    rfl
  · intro h
    exact ext_get? h

theorem size_eq_zero_iff (m : OrdMap κ α) : m.size = 0 ↔ m = empty := by
  constructor
  · intro h
    have hnil : m.entries = [] := length_eq_zero_iff.mp h
    apply ext_get?
    intro k
    simp [get?, hnil, lookupEntry, empty]
  · rintro rfl
    rfl

@[simp] theorem set_ne_empty (m : OrdMap κ α) (k : κ) (v : α) : m.set k v ≠ empty := by
  intro h
  have := (eq_empty_iff _).mp h k
  simp at this

/-- Binding a key to the value it already has changes nothing. -/
theorem set_eq_self (h : m.get? k = some v) : m.set k v = m := by
  apply ext_get?
  intro k'
  rw [get?_set]
  split_ifs with heq
  · rw [heq, h]
  · rfl

/-- After an update the listing is, up to order, the new binding and the rest. -/
theorem entries_set_perm (m : OrdMap κ α) (k : κ) (v : α) :
    (m.set k v).entries.Perm ((k, v) :: (m.delete k).entries) := by
  have hnot : (k, v) ∉ (m.delete k).entries := by
    rw [mem_entries_iff, get?_delete_self]
    simp
  refine (perm_ext_iff_of_nodup (nodup_entries _) (nodup_cons.mpr ⟨hnot, nodup_entries _⟩)).mpr ?_
  rintro ⟨k', v'⟩
  rw [mem_cons, mem_entries_iff, mem_entries_iff, get?_set, get?_delete, Prod.mk.injEq]
  by_cases hk : k' = k
  · simp [hk, eq_comm]
  · simp [hk]

/-- A bound key can be taken out of the listing. -/
theorem entries_perm_of_get? (h : m.get? k = some v) :
    m.entries.Perm ((k, v) :: (m.delete k).entries) := by
  have hset := m.entries_set_perm k v
  rwa [set_eq_self h] at hset

theorem delete_eq_self (h : m.get? k = none) : m.delete k = m := by
  apply ext_get?
  intro k'
  rw [get?_delete]
  split_ifs with heq
  · rw [heq, h]
  · rfl

theorem delete_set_self (m : OrdMap κ α) (v : α) (h : m.get? k = none) :
    (m.set k v).delete k = m := by
  apply ext_get?
  intro k'
  rw [get?_delete, get?_set]
  split_ifs with heq
  · rw [heq, h]
  · rfl

theorem size_set_of_none (v : α) (h : m.get? k = none) : (m.set k v).size = m.size + 1 := by
  have hlen := (m.entries_set_perm k v).length_eq
  rwa [length_cons, delete_eq_self h] at hlen

theorem size_set_of_some (v' : α) (h : m.get? k = some v) : (m.set k v').size = m.size := by
  rw [size, size, (m.entries_set_perm k v').length_eq, (entries_perm_of_get? h).length_eq,
    length_cons, length_cons]

theorem set_set (m : OrdMap κ α) (k : κ) (v v' : α) : (m.set k v).set k v' = m.set k v' := by
  apply ext_get?
  intro k'
  rw [get?_set, get?_set, get?_set]
  split <;> rfl

theorem set_delete (m : OrdMap κ α) (k : κ) (v : α) : (m.delete k).set k v = m.set k v := by
  apply ext_get?
  intro k'
  rw [get?_set, get?_set, get?_delete]
  split <;> rfl

theorem map_fst_ascend_eq (m : OrdMap κ α) (pivot : κ) :
    (m.ascend pivot).map Prod.fst = m.keys.filter fun k => pivot ≤ k := by
  rw [ascend, keys, filter_map]
  rfl

/-! ## Maps with related values -/

variable {β : Type w} {R : α → β → Prop}

/-- The same keys, with related values. -/
def Rel (R : α → β → Prop) (m : OrdMap κ α) (m' : OrdMap κ β) : Prop :=
  List.Forall₂ (fun e e' => e.1 = e'.1 ∧ R e.2 e'.2) m.entries m'.entries

theorem rel_empty : Rel R (empty : OrdMap κ α) (empty : OrdMap κ β) := .nil

theorem rel_refl {R : α → α → Prop} (hR : ∀ a, R a a) (m : OrdMap κ α) : Rel R m m :=
  forall₂_same.mpr fun e _ => ⟨rfl, hR e.2⟩

theorem rel_of_get? {m : OrdMap κ α} {m' : OrdMap κ β}
    (hkeys : ∀ k, (m.get? k).isSome = (m'.get? k).isSome)
    (h : ∀ k a b, m.get? k = some a → m'.get? k = some b → R a b) : Rel R m m' := by
  have hsorted : m.keys.Pairwise (· < ·) := pairwise_map.mpr m.sorted
  have hsorted' : m'.keys.Pairwise (· < ·) := pairwise_map.mpr m'.sorted
  have heq : m.keys = m'.keys := by
    refine hsorted.eq_of_mem_iff hsorted' fun k => ?_
    rw [mem_keys_iff, mem_keys_iff, ← Option.isSome_iff_ne_none, hkeys k, Option.isSome_iff_ne_none]
  rw [keys, keys, ← forall₂_eq_eq_eq, forall₂_map_left_iff, forall₂_map_right_iff,
    forall₂_iff_zip] at heq
  refine forall₂_iff_zip.mpr ⟨heq.1, fun hmem => ⟨heq.2 hmem, ?_⟩⟩
  obtain ⟨hl, hr⟩ := of_mem_zip hmem
  refine h _ _ _ ((mem_entries_iff m _ _).mp hl) ?_
  rw [heq.2 hmem]
  exact (mem_entries_iff m' _ _).mp hr

namespace Rel

variable {m : OrdMap κ α} {m' : OrdMap κ β}

theorem eq {m m' : OrdMap κ α} (h : Rel (fun a b => a = b) m m') : m = m' := by
  have hentries : List.Forall₂ Eq m.entries m'.entries :=
    Forall₂.imp (fun e e' he => Prod.ext he.1 he.2) h
  cases m
  cases m'
  simpa using forall₂_eq_eq_eq ▸ hentries

section

variable (h : Rel R m m')
include h

theorem mono {R' : α → β → Prop} (himp : ∀ a b, R a b → R' a b) : Rel R' m m' :=
  Forall₂.imp (fun _ _ he => ⟨he.1, himp _ _ he.2⟩) h

theorem get?_cases (k : κ) :
    (m.get? k = none ∧ m'.get? k = none) ∨
      ∃ a b, m.get? k = some a ∧ m'.get? k = some b ∧ R a b := by
  unfold get?
  unfold Rel at h
  generalize m.entries = l, m'.entries = l' at h ⊢
  induction h with
  | nil => exact .inl ⟨rfl, rfl⟩
  | @cons e e' l l' he _ ih =>
    obtain ⟨k₁, a⟩ := e
    obtain ⟨k₂, b⟩ := e'
    obtain ⟨rfl, hR⟩ := he
    unfold lookupEntry
    split_ifs with hk
    · exact .inr ⟨a, b, rfl, rfl, hR⟩
    · exact ih

theorem set (k : κ) {a : α} {b : β} (hR : R a b) : Rel R (m.set k a) (m'.set k b) := by
  show List.Forall₂ _ (insertEntry k a m.entries) (insertEntry k b m'.entries)
  unfold Rel at h
  generalize m.entries = l, m'.entries = l' at h ⊢
  induction h with
  | nil => exact .cons ⟨rfl, hR⟩ .nil
  | @cons e e' l l' he hl ih =>
    obtain ⟨k₁, a₁⟩ := e
    obtain ⟨k₂, b₁⟩ := e'
    obtain ⟨rfl, hR₁⟩ := he
    unfold insertEntry
    split
    · exact .cons ⟨rfl, hR⟩ (.cons ⟨rfl, hR₁⟩ hl)
    split
    · exact .cons ⟨rfl, hR⟩ hl
    · exact .cons ⟨rfl, hR₁⟩ ih

theorem delete (k : κ) : Rel R (m.delete k) (m'.delete k) := by
  show List.Forall₂ _ (eraseEntry k m.entries) (eraseEntry k m'.entries)
  unfold eraseEntry
  unfold Rel at h
  generalize m.entries = l, m'.entries = l' at h ⊢
  induction h with
  | nil => exact .nil
  | @cons e e' l l' he hl ih =>
    rw [filter_cons, filter_cons, he.1]
    split
    · exact .cons he ih
    · exact ih

theorem foldl_delete (ks : List κ) :
    Rel R (ks.foldl OrdMap.delete m) (ks.foldl OrdMap.delete m') := by
  induction ks generalizing m m' with
  | nil => exact h
  | cons k ks ih => exact ih (h.delete k)

theorem size_eq : m.size = m'.size := Forall₂.length_eq h

theorem keys_eq : m.keys = m'.keys := by
  unfold keys
  unfold Rel at h
  generalize m.entries = l, m'.entries = l' at h ⊢
  induction h with
  | nil => rfl
  | cons he _ ih => rw [map_cons, map_cons, he.1, ih]

theorem map_fst_ascend (pivot : κ) :
    (m.ascend pivot).map Prod.fst = (m'.ascend pivot).map Prod.fst := by
  rw [map_fst_ascend_eq, map_fst_ascend_eq, h.keys_eq]

end

end Rel

/-! ## Sums over the bindings -/

variable [AddCommMonoid β] (f : κ → α → β)

/-- The sum of `f` over the bindings. -/
def total (m : OrdMap κ α) : β := (m.entries.map fun e => f e.1 e.2).sum

theorem total_eq_add_delete {m : OrdMap κ α} {k : κ} {v : α}
    (h : m.get? k = some v) : total f m = f k v + total f (m.delete k) := by
  rw [total, ((entries_perm_of_get? h).map _).sum_eq]
  rfl

theorem total_set {m : OrdMap κ α} {k : κ} (v : α) (h : m.get? k = none) :
    total f (m.set k v) = f k v + total f m := by
  rw [total_eq_add_delete f (get?_set_self m k v), delete_set_self m v h]

/-- The sum of at most one element for each binding, as a listing. -/
theorem total_elim {γ : Type*} (f : κ → α → Option γ) (m : OrdMap κ α) :
    total (fun k a => ((f k a).elim 0 fun c => {c} : Multiset γ)) m =
      (m.entries.filterMap fun e => f e.1 e.2 : List γ) := by
  rw [total]
  induction m.entries with
  | nil => rfl
  | cons e es ih =>
    rw [map_cons, sum_cons, ih, filterMap_cons]
    cases f e.1 e.2 <;> simp

end OrdMap

end SpatialDb.Lib
