import Mathlib

/-!
# Assignments that keep an equivalent value

A register holds a value or nothing, and values fall into classes.  `put`
assigns unless an equivalent value is already there; `update` assigns unless
the register, read with the class of "nothing" when it is blank, is already in
the class of the new value.  Neither is the plain "last write wins": what a
register holds within a class depends on its history.
-/

namespace SpatialDb.Lib

/-- An assignment; no value means the blank. -/
inductive Write (α : Type*) where
  | put (v : Option α)
  | update (v : Option α)

namespace Write

variable {α κ : Type*}

/-- The assigned value. -/
def value : Write α → Option α
  | put v => v
  | update v => v

variable [DecidableEq κ] (cls : Option α → κ)

def apply : Write α → Option α → Option α
  | put none, _ => none
  | put (some v), none => some v
  | put (some v), some u => if cls (some u) = cls (some v) then some u else some v
  | update v, a => if cls a = cls v then a else v

variable {cls}

theorem cls_apply (w : Write α) (a : Option α) : cls (w.apply cls a) = cls w.value := by
  cases w with
  | put v =>
    cases v with
    | none => rfl
    | some v =>
      cases a with
      | none => rfl
      | some u =>
        rw [apply]
        split
        · assumption
        · rfl
  | update v =>
    rw [apply]
    split
    · assumption
    · rfl

/-- From another class, the assigned value replaces what was there. -/
theorem apply_of_ne {w : Write α} {a : Option α} (h : cls a ≠ cls w.value) :
    w.apply cls a = w.value := by
  cases w with
  | put v =>
    cases v with
    | none => rfl
    | some v =>
      cases a with
      | none => rfl
      | some u => exact if_neg h
  | update v => exact if_neg h

/-- Within the class, a value that is there stays. -/
theorem apply_put_of_eq {v : α} {a : Option α} (h : cls a = cls (some v)) :
    (put (some v)).apply cls a = some (a.getD v) := by
  cases a with
  | none => rfl
  | some u => exact if_pos h

theorem apply_update_of_eq {v a : Option α} (h : cls a = cls v) : (update v).apply cls a = a :=
  if_pos h

theorem apply_put_ne_none (v : α) (a : Option α) : (put (some v)).apply cls a ≠ none := by
  cases a with
  | none => simp [apply]
  | some u =>
    rw [apply]
    split <;> simp

end Write

/-! ## Lists of assignments -/

section Run

variable {α κ : Type*} [DecidableEq κ] (cls : Option α → κ)

/-- The shapes a composition of assignments can have.  All its values lie in
one class `c`; and it is constant, or the identity on the class, or it fills a
blank of the class and is never blank. -/
def Settled (f : Option α → Option α) : Prop :=
  ∃ c, (∀ a, cls (f a) = c) ∧
    ((∃ y, ∀ a, f a = y) ∨ (∀ a, cls a = c → f a = a) ∨
      ∃ y, (∀ a, cls a = c → f a = some (a.getD y)) ∧ ∀ a, f a ≠ none)

variable {cls} {f : Option α → Option α}

omit [DecidableEq κ] in
theorem Settled.idem (h : Settled cls f) (a : Option α) : f (f a) = f a := by
  obtain ⟨c, hcls, ⟨y, hconst⟩ | hid | ⟨y, hfill, hsome⟩⟩ := h
  · rw [hconst a, hconst y]
  · exact hid _ (hcls a)
  · rw [hfill _ (hcls a)]
    cases hfa : f a with
    | none => exact absurd hfa (hsome a)
    | some v => rfl

theorem Settled.write (w : Write α) : Settled cls (w.apply cls) := by
  refine ⟨cls w.value, w.cls_apply, ?_⟩
  cases w with
  | put v =>
    cases v with
    | none => exact .inl ⟨none, fun _ => rfl⟩
    | some v =>
      exact .inr (.inr ⟨v, fun a ha => Write.apply_put_of_eq ha, Write.apply_put_ne_none v⟩)
  | update v => exact .inr (.inl fun a ha => Write.apply_update_of_eq ha)

theorem Settled.step (h : Settled cls f) (w : Write α) :
    Settled cls fun a => w.apply cls (f a) := by
  obtain ⟨c, hcls, hshape⟩ := h
  refine ⟨cls w.value, fun a => w.cls_apply _, ?_⟩
  by_cases hc : c = cls w.value
  · subst hc
    cases w with
    | put v =>
      cases v with
      | none => exact .inl ⟨none, fun _ => rfl⟩
      | some v =>
        have hput : ∀ a, (Write.put (some v)).apply cls (f a) = some ((f a).getD v) :=
          fun a => Write.apply_put_of_eq (hcls a)
        rcases hshape with ⟨y, hconst⟩ | hid | ⟨y, hfill, hsome⟩
        · exact .inl ⟨some (y.getD v), fun a => (hput a).trans (by rw [hconst a])⟩
        · exact .inr (.inr ⟨v, fun a ha => (hput a).trans (by rw [hid a ha]),
            fun a => Write.apply_put_ne_none v _⟩)
        · exact .inr (.inr ⟨y, fun a ha => (hput a).trans (by rw [hfill a ha]; rfl),
            fun a => Write.apply_put_ne_none v _⟩)
    | update v =>
      have hkeep : ∀ a, (Write.update v).apply cls (f a) = f a :=
        fun a => Write.apply_update_of_eq (hcls a)
      simp only [hkeep]
      exact hshape
  · -- a change of class forgets what was there
    refine .inl ⟨w.value, fun a => Write.apply_of_ne ?_⟩
    rw [hcls]
    exact hc

variable (cls)

def runWrites (ws : List (Write α)) (a : Option α) : Option α :=
  ws.foldl (fun a w => w.apply cls a) a

variable {cls}

theorem Settled.run (h : Settled cls f) (ws : List (Write α)) :
    Settled cls fun a => runWrites cls ws (f a) := by
  induction ws generalizing f with
  | nil => exact h
  | cons w ws ih => exact ih (h.step w)

/-- **Running the assignments again changes nothing.** -/
theorem runWrites_runWrites (ws : List (Write α)) (a : Option α) :
    runWrites cls ws (runWrites cls ws a) = runWrites cls ws a := by
  cases ws with
  | nil => rfl
  | cons w ws => exact ((Settled.write w).run ws).idem a

end Run

/-! ## Records -/

section Record

variable {ν α κ : Type*} [DecidableEq ν] [DecidableEq κ] (cls : Option α → κ)

/-- One assignment to a register of a record. -/
def assign (r : ν → Option α) (w : ν × Write α) : ν → Option α :=
  Function.update r w.1 (w.2.apply cls (r w.1))

def assignAll (ws : List (ν × Write α)) (r : ν → Option α) : ν → Option α :=
  ws.foldl (assign cls) r

variable {cls}

/-- Where the classes differ, `put` and `update` are the same. -/
theorem assign_put_of_ne {r : ν → Option α} {n : ν} {v : Option α} (h : cls (r n) ≠ cls v) :
    assign cls r (n, .put v) = assign cls r (n, .update v) := by
  have hput : (Write.put v).apply cls (r n) = v := Write.apply_of_ne h
  have hupdate : (Write.update v).apply cls (r n) = v := Write.apply_of_ne h
  simp only [assign, hput, hupdate]

/-- An update within the class changes nothing. -/
theorem assign_update_of_eq {r : ν → Option α} {n : ν} {v : Option α} (h : cls (r n) = cls v) :
    assign cls r (n, .update v) = r := by
  simp only [assign, Write.apply_update_of_eq h, Function.update_eq_self]

variable (ws : List (ν × Write α))

/-- A register of the record sees the assignments to its name. -/
theorem assignAll_apply (r : ν → Option α) (n : ν) :
    assignAll cls ws r n = runWrites cls ((ws.filter fun w => w.1 = n).map Prod.snd) (r n) := by
  induction ws generalizing r with
  | nil => rfl
  | cons w ws ih =>
    rw [assignAll, List.foldl_cons, ← assignAll, ih]
    by_cases hn : w.1 = n
    · subst hn
      simp [assign, runWrites]
    have hother : assign cls r w n = r n := Function.update_of_ne (Ne.symm hn) _ _
    rw [hother]
    simp [hn]

/-- **Running the assignments again changes nothing.** -/
theorem assignAll_assignAll (r : ν → Option α) :
    assignAll cls ws (assignAll cls ws r) = assignAll cls ws r := by
  funext n
  rw [assignAll_apply, assignAll_apply, runWrites_runWrites]

theorem assignAll_append (ws ws' : List (ν × Write α)) (r : ν → Option α) :
    assignAll cls (ws ++ ws') r = assignAll cls ws' (assignAll cls ws r) :=
  List.foldl_append

end Record

end SpatialDb.Lib
