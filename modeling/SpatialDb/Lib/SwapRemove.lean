import Mathlib

/-!
# Removing an element by moving the last one

An element is taken out of a list by overwriting it with the last element and
cutting the last one off.  The elements before it stay in place; those behind it
come in another order.
-/

namespace SpatialDb.Lib

open List

variable {α : Type*}

/-- `l[i] = l[len-1]; l = l[:len-1]`. -/
def swapRemove (l : List α) (i : Nat) : List α :=
  match l.getLast? with
  | none => l
  | some last => (l.set i last).dropLast

theorem swapRemove_append (a : List α) (x : α) (b : List α) :
    ∃ b' : List α, b'.Perm b ∧ swapRemove (a ++ x :: b) a.length = a ++ b' := by
  rcases eq_nil_or_concat b with rfl | ⟨init, last, rfl⟩
  · refine ⟨[], Perm.refl _, ?_⟩
    simp [swapRemove]
  rw [concat_eq_append]
  have hlast : (a ++ x :: (init ++ [last])).getLast? = some last := by
    rw [← cons_append, ← append_assoc, getLast?_concat]
  have hset : (a ++ x :: (init ++ [last])).set a.length last = (a ++ last :: init) ++ [last] := by
    simp
  refine ⟨last :: init, (perm_append_singleton last init).symm, ?_⟩
  rw [swapRemove, hlast]
  change ((a ++ x :: (init ++ [last])).set a.length last).dropLast = _
  rw [hset, dropLast_concat]

variable {l : List α} {i : Nat}

variable (hi : i < l.length)
include hi

theorem swapRemove_eq : ∃ b : List α, b.Perm (l.drop (i + 1)) ∧ swapRemove l i = l.take i ++ b := by
  have hsplit : l = l.take i ++ l[i] :: l.drop (i + 1) := by simp
  have hlen : (l.take i).length = i := length_take_of_le hi.le
  obtain ⟨b, hb, heq⟩ := swapRemove_append (l.take i) l[i] (l.drop (i + 1))
  rw [hlen, ← hsplit] at heq
  exact ⟨b, hb, heq⟩

theorem swapRemove_perm : (swapRemove l i).Perm (l.eraseIdx i) := by
  obtain ⟨b, hb, heq⟩ := swapRemove_eq hi
  rw [heq, eraseIdx_eq_take_drop_succ]
  exact hb.append_left _

theorem take_swapRemove : (swapRemove l i).take i = l.take i := by
  obtain ⟨b, -, heq⟩ := swapRemove_eq hi
  rw [heq, take_left' (length_take_of_le hi.le)]

theorem drop_swapRemove_perm : ((swapRemove l i).drop i).Perm (l.drop (i + 1)) := by
  obtain ⟨b, hb, heq⟩ := swapRemove_eq hi
  rw [heq, drop_left' (length_take_of_le hi.le)]
  exact hb

end SpatialDb.Lib
