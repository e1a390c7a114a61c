import Mathlib

/-!
# Readers of argument lists

A reader takes tokens off the front of a list, or fails with an error.  A
reader is `Local` if it does not look at what comes behind the tokens it takes;
that composes along `bind`, so it is checked by going through a reader's body.
-/

namespace SpatialDb.Lib

/-- A reader: the value, and the tokens behind it. -/
abbrev TokenReader (α ε β : Type) := StateT (List α) (Except ε) β

namespace TokenReader

variable {α ε β γ : Type} {f : β → TokenReader α ε γ}

theorem bind_eq_ok_iff {p : TokenReader α ε β} {vs vs' : List α} {c : γ} :
    (p >>= f) vs = .ok (c, vs') ↔ ∃ b mid, p vs = .ok (b, mid) ∧ f b mid = .ok (c, vs') := by
  change (p vs >>= fun r => f r.1 r.2) = .ok (c, vs') ↔ _
  cases p vs with
  | error e => simp [bind, Except.bind]
  | ok r => simp [bind, Except.bind, Prod.ext_iff]

/-- A reader that takes no token. -/
def check (r : Except ε β) : TokenReader α ε β := fun vs => r.map fun b => (b, vs)

theorem check_eq_ok_iff {r : Except ε β} {vs vs' : List α} {b : β} :
    (check r : TokenReader α ε β) vs = .ok (b, vs') ↔ r = .ok b ∧ vs = vs' := by
  cases r with
  | error e => simp [check, Except.map]
  | ok b' => simp [check, Except.map]

/-- What it reads does not depend on the tokens behind. -/
def Local (p : TokenReader α ε β) : Prop :=
  ∀ vs b vs', p vs = .ok (b, vs') → ∃ w, vs = w ++ vs' ∧ ∀ rest, p (w ++ rest) = .ok (b, rest)

theorem local_check (r : Except ε β) : Local (check r : TokenReader α ε β) := by
  intro vs b vs' h
  obtain ⟨hr, rfl⟩ := check_eq_ok_iff.mp h
  exact ⟨[], rfl, fun rest => check_eq_ok_iff.mpr ⟨hr, rfl⟩⟩

theorem local_pure (b : β) : Local (pure b : TokenReader α ε β) := local_check (.ok b)

theorem Local.bind {p : TokenReader α ε β} (hp : Local p)
    (hf : ∀ b, Local (f b)) : Local (p >>= f) := by
  intro vs c vs' h
  obtain ⟨b, mid, hb, hc⟩ := bind_eq_ok_iff.mp h
  obtain ⟨w, rfl, hw⟩ := hp vs b mid hb
  obtain ⟨w', rfl, hw'⟩ := hf b mid c vs' hc
  refine ⟨w ++ w', (List.append_assoc ..).symm, fun rest => ?_⟩
  rw [List.append_assoc]
  exact bind_eq_ok_iff.mpr ⟨b, w' ++ rest, hw _, hw' rest⟩

theorem Local.ite {c : Prop} [Decidable c] {p q : TokenReader α ε β} (hp : Local p)
    (hq : Local q) : Local (if c then p else q) := by
  split
  · exact hp
  · exact hq

end TokenReader

end SpatialDb.Lib
