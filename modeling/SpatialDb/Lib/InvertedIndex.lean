import SpatialDb.Lib.OrdMap

/-!
# Inverted indexes

A relation between holders and names, kept as a map from each name to the
set of its holders.  A set that becomes empty is taken out of the map.
-/

namespace SpatialDb.Lib

open OrdMap Option

universe u v

/-- A finite set, listed in increasing order. -/
abbrev OrdSet (ι : Type u) [LT ι] := OrdMap ι Unit

/-- The holders of each name. -/
abbrev InvertedIndex (κ : Type u) (ι : Type v) [LT κ] [LT ι] := OrdMap κ (OrdSet ι)

namespace InvertedIndex

variable {κ : Type u} {ι : Type v} [LinearOrder κ] [LinearOrder ι] (ix : InvertedIndex κ ι)
variable (name : κ)

/-- `index[name]`, which is empty for a new name. -/
def holders : OrdSet ι := (ix.get? name).getD empty

/-- `index[name].insert(i)`. -/
def add (i : ι) : InvertedIndex κ ι :=
  ix.set name ((holders ix name).set i ())

/-- `index[name].erase(i)`, and the name is erased when no holder is left. -/
def drop (i : ι) : InvertedIndex κ ι :=
  if ((holders ix name).delete i).keys = [] then ix.delete name
  else ix.set name ((holders ix name).delete i)

theorem holders_add (i : ι) (name' : κ) (i' : ι) :
    i' ∈ (holders (add ix name i) name').keys ↔
      i' ∈ (holders ix name').keys ∨ (i' = i ∧ name' = name) := by
  by_cases hname : name' = name
  · subst hname
    rw [holders, add, get?_set_self, getD_some, mem_keys_set]
    simp [or_comm]
  · rw [holders, add, get?_set_ne _ _ hname]
    simp [holders, hname]

theorem holders_drop (i : ι) (name' : κ) (i' : ι) :
    i' ∈ (holders (drop ix name i) name').keys ↔
      i' ∈ (holders ix name').keys ∧ ¬ (i' = i ∧ name' = name) := by
  by_cases hname : name' = name
  · subst hname
    have hdelete := mem_keys_delete (holders ix name') i i'
    rw [drop]
    split_ifs with hnone
    · rw [hnone] at hdelete
      rw [holders, get?_delete_self, getD_none, keys_empty, hdelete]
      simp
    · rw [holders, get?_set_self, getD_some, hdelete]
      simp
  have hget : (drop ix name i).get? name' = ix.get? name' := by
    rw [drop]
    split
    · exact get?_delete_ne _ hname
    · exact get?_set_ne _ _ hname
  simp [holders, hget, hname]

/-- The index lists exactly the pairs of the relation, and no name without a
holder. -/
structure Inverts (ix : InvertedIndex κ ι) (held : ι → κ → Prop) : Prop where
  listed : ∀ i name, i ∈ (holders ix name).keys ↔ held i name
  nonempty : ∀ name ids, ix.get? name = some ids → ids.keys ≠ []

namespace Inverts

variable {ix : InvertedIndex κ ι} {held held' : ι → κ → Prop}

theorem empty : Inverts (empty : InvertedIndex κ ι) fun _ _ => False where
  listed := fun _ _ => by simp [holders]
  nonempty := fun _ _ h => by cases h

variable (h : Inverts ix held)
include h

theorem congr (hiff : ∀ i name, held i name ↔ held' i name) : Inverts ix held' :=
  ⟨fun i name => (h.listed i name).trans (hiff i name), h.nonempty⟩

theorem unique (h' : Inverts ix held') (i : ι) (name : κ) :
    held i name ↔ held' i name := (h.listed i name).symm.trans (h'.listed i name)

theorem add (name : κ) (i : ι) :
    Inverts (InvertedIndex.add ix name i) fun i' name' =>
      held i' name' ∨ (i' = i ∧ name' = name) where
  listed := fun i' name' => by rw [holders_add, h.listed]
  nonempty := forall_get?_set h.nonempty
    (List.ne_nil_of_mem ((mem_keys_set _ i () i).mpr (.inl rfl)))

theorem drop (name : κ) (i : ι) :
    Inverts (InvertedIndex.drop ix name i) fun i' name' =>
      held i' name' ∧ ¬ (i' = i ∧ name' = name) where
  listed := fun i' name' => by rw [holders_drop, h.listed]
  nonempty := by
    rw [InvertedIndex.drop]
    split
    · exact forall_get?_delete h.nonempty name
    · rename_i hne
      exact forall_get?_set h.nonempty hne

/-- Dropping a holder from several names, one after the other. -/
theorem dropAll (names : List κ) (i : ι) :
    Inverts (names.foldl (fun ix name => InvertedIndex.drop ix name i) ix) fun i' name' =>
      held i' name' ∧ ¬ (i' = i ∧ name' ∈ names) := by
  induction names generalizing ix held with
  | nil => exact h.congr fun _ _ => by simp
  | cons name names ih =>
    refine (ih (h.drop name i)).congr fun i' name' => ?_
    rw [List.mem_cons]
    tauto

end Inverts

end InvertedIndex

end SpatialDb.Lib
