import SpatialDb.Lib.Sorting

/-!
# Ordered multimaps

`std::multimap` as the list of its entries in key order; entries with equal
keys stand in the order of their insertion.  The structure carries the order.
-/

namespace SpatialDb.Lib

open List

universe u v

/-- A multimap, listed in key order. -/
structure Multimap (τ : Type u) (κ : Type v) [LE τ] where
  entries : List (τ × κ)
  sorted : entries.Pairwise fun a b => a.1 ≤ b.1

namespace Multimap

variable {τ : Type u} {κ : Type v} [LinearOrder τ]

def empty : Multimap τ κ := ⟨[], List.Pairwise.nil⟩

/-! ## Insertion -/

/-- Behind every entry with a key up to `d`. -/
def insertEntry (d : τ) (k : κ) : List (τ × κ) → List (τ × κ)
  | [] => [(d, k)]
  | e :: rest => if d < e.1 then (d, k) :: e :: rest else e :: insertEntry d k rest

variable (m : Multimap τ κ) (d : τ) (k : κ)

theorem insertEntry_perm (l : List (τ × κ)) : (insertEntry d k l).Perm ((d, k) :: l) := by
  induction l with
  | nil => exact Perm.refl _
  | cons e rest ih =>
    rw [insertEntry]
    split
    · exact Perm.refl _
    · exact (ih.cons e).trans (Perm.swap _ _ _)

theorem insertEntry_sorted {l : List (τ × κ)} (h : l.Pairwise fun a b => a.1 ≤ b.1) :
    (insertEntry d k l).Pairwise fun a b => a.1 ≤ b.1 := by
  induction l with
  | nil => exact pairwise_singleton _ _
  | cons e rest ih =>
    obtain ⟨he, hrest⟩ := pairwise_cons.mp h
    rw [insertEntry]
    split_ifs with hlt
    · refine pairwise_cons.mpr ⟨fun x hx => ?_, h⟩
      rcases mem_cons.mp hx with rfl | hx
      · exact hlt.le
      · exact hlt.le.trans (he x hx)
    refine pairwise_cons.mpr ⟨fun x hx => ?_, ih hrest⟩
    rcases mem_cons.mp ((insertEntry_perm d k rest).mem_iff.mp hx) with rfl | hx
    · exact not_lt.mp hlt
    · exact he x hx

/-- `emplace(d, k)`. -/
def emplace (m : Multimap τ κ) (d : τ) (k : κ) : Multimap τ κ :=
  ⟨insertEntry d k m.entries, insertEntry_sorted d k m.sorted⟩

theorem emplace_perm :
    (m.emplace d k).entries.Perm ((d, k) :: m.entries) := insertEntry_perm d k m.entries

/-! ## Removal -/

section Erase

variable [DecidableEq κ]

/-- The first entry in the range of the key `d` with the value `k` is erased;
the search ends with the range. -/
def eraseEntry (d : τ) (k : κ) : List (τ × κ) → List (τ × κ)
  | [] => []
  | e :: rest =>
    if e.1 < d then e :: eraseEntry d k rest
    else if d < e.1 then e :: rest
    else if e.2 = k then rest
    else e :: eraseEntry d k rest

theorem eraseEntry_sublist (l : List (τ × κ)) : (eraseEntry d k l).Sublist l := by
  induction l with
  | nil => exact Sublist.refl _
  | cons e rest ih =>
    rw [eraseEntry]
    split
    · exact ih.cons_cons e
    split
    · exact Sublist.refl _
    split
    · exact sublist_cons_self e rest
    · exact ih.cons_cons e

theorem perm_eraseEntry {d : τ} {k : κ} {l : List (τ × κ)}
    (hsorted : l.Pairwise fun a b => a.1 ≤ b.1) (h : (d, k) ∈ l) :
    l.Perm ((d, k) :: eraseEntry d k l) := by
  induction l with
  | nil => cases h
  | cons e rest ih =>
    obtain ⟨he, hrest⟩ := pairwise_cons.mp hsorted
    -- an entry other than the one looked for stays in front
    have hskip : e ≠ (d, k) → (e :: rest).Perm ((d, k) :: e :: eraseEntry d k rest) := by
      intro hne
      have hmem := (mem_cons.mp h).resolve_left (Ne.symm hne)
      exact ((ih hrest hmem).cons e).trans (Perm.swap _ _ _)
    rw [eraseEntry]
    split
    · rename_i hlt
      exact hskip fun heq => hlt.ne (congrArg Prod.fst heq)
    rename_i hnlt
    split
    · rename_i hgt
      rcases mem_cons.mp h with rfl | hmem
      · exact absurd hgt (lt_irrefl d)
      · exact absurd (he _ hmem) (not_le.mpr hgt)
    rename_i hngt
    split_ifs with hk
    · have heq : e = (d, k) := Prod.ext (le_antisymm (not_lt.mp hngt) (not_lt.mp hnlt)) hk
      rw [heq]
    · exact hskip fun heq => hk (congrArg Prod.snd heq)

/-- The search of `equal_range(d)` for `k`, with the entry it finds erased. -/
def eraseOne (m : Multimap τ κ) (d : τ) (k : κ) : Multimap τ κ :=
  ⟨eraseEntry d k m.entries, m.sorted.sublist (eraseEntry_sublist d k m.entries)⟩

theorem perm_eraseOne {m : Multimap τ κ} {d : τ} {k : κ} (h : (d, k) ∈ m.entries) :
    m.entries.Perm ((d, k) :: (m.eraseOne d k).entries) := perm_eraseEntry m.sorted h

end Erase

/-! ## The front -/

/-- The entries up to `bound`, as a loop takes them off the front. -/
def due (m : Multimap τ κ) (bound : τ) : List (τ × κ) := m.entries.takeWhile fun e => e.1 ≤ bound

/-- What that loop leaves. -/
def popUntil (m : Multimap τ κ) (bound : τ) : Multimap τ κ :=
  ⟨m.entries.dropWhile fun e => e.1 ≤ bound, m.sorted.sublist (List.dropWhile_sublist _)⟩

theorem le_of_decide_le {bound : τ} (a b : τ × κ) (hab : a.1 ≤ b.1)
    (hb : decide (b.1 ≤ bound) = true) : decide (a.1 ≤ bound) = true :=
  decide_eq_true (hab.trans (of_decide_eq_true hb))

theorem mem_due_iff {m : Multimap τ κ} {bound : τ} {e : τ × κ} :
    e ∈ m.due bound ↔ e ∈ m.entries ∧ e.1 ≤ bound := by
  rw [due, takeWhile_eq_filter m.sorted fun a _ b _ => le_of_decide_le a b, mem_filter,
    decide_eq_true_eq]

theorem entries_popUntil (bound : τ) :
    (m.popUntil bound).entries = m.entries.filter fun e => bound < e.1 := by
  refine (dropWhile_eq_filter m.sorted fun a _ b _ => le_of_decide_le a b).trans ?_
  refine filter_congr fun e _ => ?_
  rw [← decide_not, decide_eq_decide, not_le]

theorem due_sublist (bound : τ) : (m.due bound).Sublist m.entries :=
  takeWhile_sublist _

end Multimap

end SpatialDb.Lib
