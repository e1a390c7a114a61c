import Mathlib

/-!
# Copying into a slice

`copyAt` is Go's `copy(dst[i:], src)`: it overwrites, and never goes past the
end of `dst`.
-/

namespace SpatialDb.Lib

open List

variable {α : Type*}

def copyAt (dst : List α) (i : Nat) (src : List α) : List α :=
  dst.take i ++ (src.take (dst.length - i) ++ dst.drop (i + src.length))

theorem length_copyAt {dst : List α} {i : Nat} (h : i ≤ dst.length) (src : List α) :
    (copyAt dst i src).length = dst.length := by
  simp only [copyAt, length_append, length_take, length_drop]
  omega

theorem copyAt_append (a : List α) {b src : List α} (h : src.length = b.length) (c : List α) :
    copyAt (a ++ (b ++ c)) a.length src = a ++ (src ++ c) := by
  have htake : src.take ((a ++ (b ++ c)).length - a.length) = src := by
    apply take_of_length_le
    simp only [length_append]
    omega
  have hdrop : (a ++ (b ++ c)).drop (a.length + src.length) = c := by
    rw [← append_assoc]
    exact drop_left' (by rw [length_append, h])
  rw [copyAt, htake, hdrop, take_left]

/-- What stands before the end of the copied part. -/
theorem take_copyAt {dst : List α} {i : Nat} {src : List α} (h : i + src.length ≤ dst.length) :
    (copyAt dst i src).take (i + src.length) = dst.take i ++ src := by
  have htake : src.take (dst.length - i) = src := take_of_length_le (by omega)
  have hlen : (dst.take i ++ src).length = i + src.length := by
    rw [length_append, length_take_of_le (by omega)]
  rw [copyAt, htake, ← append_assoc]
  exact take_left' hlen

/-! ## Filling a new slice from the front -/

theorem copyAt_replicate (z : α) (written piece : List α) (n : Nat) :
    copyAt (written ++ List.replicate (piece.length + n) z) written.length piece =
      (written ++ piece) ++ List.replicate n z := by
  rw [replicate_add, copyAt_append written (length_replicate).symm, append_assoc]

/-- Pieces copied one behind the other. -/
def fill : List (List α) → List α → Nat → List α
  | [], p, _ => p
  | piece :: pieces, p, i => fill pieces (copyAt p i piece) (i + piece.length)

theorem fill_replicate (z : α) (pieces : List (List α)) (written : List α) :
    fill pieces (written ++ List.replicate pieces.flatten.length z) written.length =
      written ++ pieces.flatten := by
  induction pieces generalizing written with
  | nil => rfl
  | cons piece pieces ih =>
    rw [fill, flatten_cons, length_append, copyAt_replicate, ← length_append, ih, append_assoc]

/-- An assignment to an element is a copy of one. -/
theorem set_eq_copyAt (p : List α) (i : Nat) (a : α) : p.set i a = copyAt p i [a] := by
  rw [set_eq_take_append_cons_drop, copyAt]
  split_ifs with h
  · have hone : [a].take (p.length - i) = [a] := take_of_length_le (by
      rw [length_singleton]
      omega)
    rw [hone]
    rfl
  have hzero : p.length - i = 0 := by omega
  have hdrop : p.drop (i + [a].length) = [] := drop_eq_nil_of_le (by
    rw [length_singleton]
    omega)
  rw [hzero, take_zero, hdrop, append_nil, append_nil, take_of_length_le (by omega)]

end SpatialDb.Lib
