import Mathlib

/-!
# Properties along a run

A component that is driven by a list of operations, one state after the
other.  `Always` says that a property of states holds at every moment of a
run, `AtEach` that a property of a state and the operation about to be made
there holds at every operation.

`always_and_atEach_iff` is the rule for exact conditions: when, from a good
state, an operation behaves and leads to a good state exactly if it is safe
there, then a run behaves throughout exactly if each of its operations is
safe where it is made.
-/

namespace SpatialDb.Lib

open List

universe u v

variable {σ : Type u} {ε : Type v} (step : σ → ε → σ)

/-- `I` holds at the start and after each operation. -/
def Always (I : σ → Prop) (s : σ) (ops : List ε) : Prop :=
  ∀ before after, ops = before ++ after → I (before.foldl step s)

/-- `P` holds of each operation and the state it is made in. -/
def AtEach (P : σ → ε → Prop) (s : σ) (ops : List ε) : Prop :=
  ∀ before op after, ops = before ++ op :: after → P (before.foldl step s) op

variable {step}

variable {I : σ → Prop} {s : σ} {ops : List ε} {P : σ → ε → Prop}

theorem always_nil : Always step I s [] ↔ I s := by
  constructor
  · intro h
    exact h [] [] rfl
  · intro h before after heq
    rw [(append_eq_nil_iff.mp heq.symm).1]
    exact h

theorem always_cons {op : ε} :
    Always step I s (op :: ops) ↔ I s ∧ Always step I (step s op) ops := by
  constructor
  · intro h
    refine ⟨h [] _ rfl, fun before after heq => ?_⟩
    exact h (op :: before) after (by rw [heq, cons_append])
  · rintro ⟨hs, h⟩ before after heq
    cases before with
    | nil => exact hs
    | cons op' before =>
      rw [cons_append, cons.injEq] at heq
      obtain ⟨rfl, heq⟩ := heq
      exact h before after heq

theorem atEach_nil : AtEach step P s [] := by
  intro before op after heq
  exact absurd heq.symm (by simp)

theorem atEach_cons {op : ε} :
    AtEach step P s (op :: ops) ↔ P s op ∧ AtEach step P (step s op) ops := by
  constructor
  · intro h
    refine ⟨h [] op ops rfl, fun before op' after heq => ?_⟩
    exact h (op :: before) op' after (by rw [heq, cons_append])
  · rintro ⟨hs, h⟩ before op' after heq
    cases before with
    | nil =>
      rw [nil_append, cons.injEq] at heq
      obtain ⟨rfl, -⟩ := heq
      exact hs
    | cons op'' before =>
      rw [cons_append, cons.injEq] at heq
      obtain ⟨rfl, heq⟩ := heq
      exact h before op' after heq

/-- What the operations preserve where they are made holds throughout. -/
theorem always_of_atEach (hstep : ∀ s op, I s → P s op → I (step s op)) (hs : I s)
    (h : AtEach step P s ops) : Always step I s ops := by
  induction ops generalizing s with
  | nil => exact always_nil.mpr hs
  | cons op ops ih =>
    obtain ⟨hop, hrest⟩ := atEach_cons.mp h
    exact always_cons.mpr ⟨hs, ih (hstep s op hs hop) hrest⟩

/-- What every operation preserves holds throughout. -/
theorem always_of_step (hstep : ∀ s op, I s → I (step s op)) (hs : I s) (ops : List ε) :
    Always step I s ops := by
  have hany : AtEach step (fun _ _ => True) s ops := fun _ _ _ _ => trivial
  exact always_of_atEach (fun s op hI _ => hstep s op hI) hs hany

theorem always_and_atEach_iff {Q Safe : σ → ε → Prop}
    (hstep : ∀ s op, I s → (I (step s op) ∧ Q s op ↔ Safe s op)) (hs : I s) (ops : List ε) :
    Always step I s ops ∧ AtEach step Q s ops ↔ AtEach step Safe s ops := by
  induction ops generalizing s with
  | nil => exact iff_of_true ⟨always_nil.mpr hs, atEach_nil⟩ atEach_nil
  | cons op ops ih =>
    rw [always_cons, atEach_cons, atEach_cons, ← hstep s op hs]
    constructor
    · rintro ⟨⟨-, hI⟩, hQ, hrest⟩
      have hnext : I (step s op) := hI [] ops rfl
      exact ⟨⟨hnext, hQ⟩, (ih hnext).mp ⟨hI, hrest⟩⟩
    · rintro ⟨⟨hnext, hQ⟩, hsafe⟩
      obtain ⟨hI, hrest⟩ := (ih hnext).mpr hsafe
      exact ⟨⟨hs, hI⟩, hQ, hrest⟩

theorem always_iff {Safe : σ → ε → Prop} (hstep : ∀ s op, I s → (I (step s op) ↔ Safe s op))
    (hs : I s) (ops : List ε) :
    Always step I s ops ↔ AtEach step Safe s ops := by
  have hiff : Always step I s ops ∧ AtEach step (fun _ _ => True) s ops ↔ _ :=
    always_and_atEach_iff (fun s op hI => (and_iff_left trivial).trans (hstep s op hI)) hs ops
  rw [← hiff]
  exact (and_iff_left fun _ _ _ _ => trivial).symm

end SpatialDb.Lib
