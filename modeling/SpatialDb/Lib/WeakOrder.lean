import Mathlib

/-!
# Strict weak orders given by a comparison function

A comparison that agrees, on a set of values, with a linear order of keys is a
strict weak order there: what it does not separate are the values of one key.
-/

namespace SpatialDb.Lib

open Bool

variable {α : Type*}

/-- Neither is less. -/
def tied (less : α → α → Bool) (a b : α) : Bool := !less a b && !less b a

/-- The laws of a strict weak order, among the values of a set. -/
structure WeakOrderOn (less : α → α → Bool) (s : Set α) : Prop where
  irrefl : ∀ a ∈ s, less a a = false
  trans : ∀ a ∈ s, ∀ b ∈ s, ∀ c ∈ s, less a b = true → less b c = true → less a c = true
  tied_trans : ∀ a ∈ s, ∀ b ∈ s, ∀ c ∈ s, tied less a b = true → tied less b c = true →
    tied less a c = true

variable {less : α → α → Bool} {s : Set α} {a b c : α}

theorem tied_iff : tied less a b = true ↔ less a b = false ∧ less b a = false := by
  simp only [tied, and_eq_true, not_eq_true']

theorem tied_comm : tied less a b = tied less b a := and_comm _ _

namespace WeakOrderOn

theorem of_key {K : Type*} [LinearOrder K] (key : α → K)
    (h : ∀ a ∈ s, ∀ b ∈ s, less a b = true ↔ key a < key b) : WeakOrderOn less s := by
  have htied : ∀ a ∈ s, ∀ b ∈ s, tied less a b = true ↔ key a = key b := by
    intro a ha b hb
    rw [tied_iff, ← not_eq_true, ← not_eq_true, h a ha b hb, h b hb a ha, not_lt, not_lt]
    exact ⟨fun hab => le_antisymm hab.2 hab.1, fun hab => ⟨hab.ge, hab.le⟩⟩
  refine ⟨?_, ?_, ?_⟩
  · intro a ha
    rw [← not_eq_true, h a ha a ha]
    exact lt_irrefl _
  · intro a ha b hb c hc
    rw [h a ha b hb, h b hb c hc, h a ha c hc]
    exact lt_trans
  · intro a ha b hb c hc
    rw [htied a ha b hb, htied b hb c hc, htied a ha c hc]
    exact Eq.trans

theorem equivalence (h : WeakOrderOn less s) :
    Equivalence fun a b : s => tied less a.1 b.1 = true where
  refl := fun a => tied_iff.mpr ⟨h.irrefl a a.2, h.irrefl a a.2⟩
  symm := fun hab => tied_comm.trans hab
  trans := fun {a b c} => h.tied_trans a a.2 b b.2 c c.2

variable (h : WeakOrderOn less s) (ha : a ∈ s) (hb : b ∈ s)
include h

theorem swap : WeakOrderOn (fun a b => less b a) s where
  irrefl := h.irrefl
  trans := fun a ha b hb c hc hab hbc => h.trans c hc b hb a ha hbc hab
  tied_trans := fun a ha b hb c hc hab hbc => h.tied_trans c hc b hb a ha hbc hab

include ha hb

theorem asymm (hab : less a b = true) : less b a = false := by
  rw [← not_eq_true]
  intro hba
  have haa := h.trans a ha b hb a ha hab hba
  rw [h.irrefl a ha] at haa
  cases haa

theorem trichotomy :
    (less a b = true ∧ tied less a b = false ∧ less b a = false) ∨
    (less a b = false ∧ tied less a b = true ∧ less b a = false) ∨
    (less a b = false ∧ tied less a b = false ∧ less b a = true) := by
  unfold tied
  cases hab : less a b with
  | true =>
    refine .inl ⟨rfl, rfl, h.asymm ha hb hab⟩
  | false =>
    cases hba : less b a with
    | true => exact .inr (.inr ⟨rfl, rfl, rfl⟩)
    | false => exact .inr (.inl ⟨rfl, rfl, rfl⟩)

variable (hc : c ∈ s)
include hc

section

variable (hab : tied less a b = true)
include hab

theorem less_of_tied (hac : less a c = true) : less b c = true := by
  obtain ⟨hbc, -, -⟩ | ⟨-, hbc, -⟩ | ⟨-, -, hcb⟩ := h.trichotomy hb hc
  · exact hbc
  · have htied := tied_iff.mp (h.tied_trans a ha b hb c hc hab hbc)
    rw [htied.1] at hac
    cases hac
  · have hcontra := h.trans a ha c hc b hb hac hcb
    rw [(tied_iff.mp hab).1] at hcontra
    cases hcontra

theorem less_congr_left : less a c = less b c := by
  rw [Bool.eq_iff_iff]
  exact ⟨h.less_of_tied ha hb hc hab, h.less_of_tied hb ha hc (tied_comm.trans hab)⟩

theorem less_congr_right : less c a = less c b :=
  h.swap.less_congr_left ha hb hc (tied_comm.trans hab)

end

theorem not_less_trans (hab : less b a = false) (hbc : less c b = false) : less c a = false := by
  obtain ⟨-, -, hca⟩ | ⟨-, -, hca⟩ | ⟨-, -, hca⟩ := h.trichotomy ha hc
  · exact hca
  · exact hca
  · -- `c` is less than `a`, and `b` is not less than `a`, so `c` is less than `b`
    obtain ⟨hlt, -, -⟩ | ⟨-, htied, -⟩ | ⟨-, -, hlt⟩ := h.trichotomy ha hb
    · have hcontra := h.trans c hc a ha b hb hca hlt
      rw [hbc] at hcontra
      cases hcontra
    · rw [h.less_congr_right ha hb hc htied, hbc] at hca
      cases hca
    · rw [hab] at hlt
      cases hlt

end WeakOrderOn

end SpatialDb.Lib
