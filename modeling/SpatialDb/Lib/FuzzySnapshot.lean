import SpatialDb.Lib.Assignment

/-!
# Snapshots taken while the data changes

A store of cells is copied cell by cell while operations run; the operations
are also logged.  The copy mixes states of different times.  Replaying the
whole log over it still gives the current data, because an operation is only
logged when it was in effect: replaying a cell's log over a state the cell has
already reached changes nothing (`run_run`).

A cell is empty, or holds a body and a record of registers (`Lib.Assignment`).
-/

namespace SpatialDb.Lib

/-- A body and a record of registers. -/
structure Cell (γ ν α : Type*) where
  body : γ
  record : ν → Option α

/-- What an operation does to one cell. -/
inductive CellOp (γ ν α : Type*) where
  /-- Whatever was there, this is there now. -/
  | reset (s : Option (Cell γ ν α))
  /-- Store a body and assign registers; only into an empty cell (`nx`), only
  into a full one (`xx`). -/
  | store (nx xx : Bool) (body : γ) (ws : List (ν × Write α))
  /-- Assign registers of a full cell. -/
  | modify (ws : List (ν × Write α))
  | keep

section Cells

variable {γ ν α κ : Type*} [DecidableEq ν] [DecidableEq κ] (cls : Option α → κ)

namespace CellOp

def act : CellOp γ ν α → Option (Cell γ ν α) → Option (Cell γ ν α)
  | reset s, _ => s
  | store _ xx body ws, none => if xx then none else some ⟨body, assignAll cls ws fun _ => none⟩
  | store nx _ body ws, some c => if nx then some c else some ⟨body, assignAll cls ws c.record⟩
  | modify _, none => none
  | modify ws, some c => some ⟨c.body, assignAll cls ws c.record⟩
  | keep, s => s

/-- The operation is in effect on this state. -/
def InEffect : CellOp γ ν α → Option (Cell γ ν α) → Prop
  | reset _, _ => True
  | store _ xx _ _, none => xx = false
  | store nx _ _ _, some _ => nx = false
  | modify _, s => s ≠ none
  | keep, _ => True

end CellOp

variable (ops : List (CellOp γ ν α)) (s : Option (Cell γ ν α))

def run : Option (Cell γ ν α) :=
  ops.foldl (fun s op => op.act cls s) s

/-- Every operation is in effect when its turn comes. -/
def Valid : List (CellOp γ ν α) → Option (Cell γ ν α) → Prop
  | [], _ => True
  | op :: ops, s => op.InEffect s ∧ Valid ops (op.act cls s)

/-- The two shapes of a log.  With a reset, the result does not depend on the
start.  Without one, full cells go through the assignments of the log; and an
empty start is either left alone by the whole log, or gives what some full
start gives. -/
def Shape : Prop :=
  (∀ x y, run cls ops x = run cls ops y) ∨
    (∃ (body : Option γ) (ws : List (ν × Write α)), ∀ c,
        run cls ops (some c) = some ⟨body.getD c.body, assignAll cls ws c.record⟩) ∧
      (s = none → (∀ x, run cls ops x = x) ∨ ∃ c, run cls ops none = run cls ops (some c))

variable {cls}

theorem run_append (ops ops' : List (CellOp γ ν α)) (s : Option (Cell γ ν α)) :
    run cls (ops ++ ops') s = run cls ops' (run cls ops s) := List.foldl_append

theorem run_concat (ops : List (CellOp γ ν α)) (op : CellOp γ ν α) (s : Option (Cell γ ν α)) :
    run cls (ops ++ [op]) s = op.act cls (run cls ops s) := run_append ops [op] s

variable {ops : List (CellOp γ ν α)} {s : Option (Cell γ ν α)}

theorem valid_concat {op : CellOp γ ν α} :
    Valid cls (ops ++ [op]) s ↔ Valid cls ops s ∧ op.InEffect (run cls ops s) := by
  induction ops generalizing s with
  | nil => simp [Valid, run]
  | cons o ops ih =>
    rw [List.cons_append, Valid, Valid, ih, and_assoc]
    rfl

/-- A reset on top makes the result constant; what follows keeps it so. -/
theorem Shape.step {op : CellOp γ ν α} (hvalid : op.InEffect (run cls ops s))
    (h : Shape cls ops s) :
    Shape cls (ops ++ [op]) s := by
  simp only [Shape, run_concat] at h ⊢
  rcases h with hconst | ⟨⟨body, ws, hfull⟩, hempty⟩
  · left
    intro x y
    rw [hconst x y]
  cases op with
  | reset s' => exact .inl fun _ _ => rfl
  | keep => exact .inr ⟨⟨body, ws, hfull⟩, hempty⟩
  | modify ws' =>
    refine .inr ⟨⟨body, ws ++ ws', fun c => ?_⟩, fun hs => ?_⟩
    · rw [hfull, CellOp.act, assignAll_append]
    · rcases hempty hs with hid | ⟨c, hc⟩
      · -- an assignment is not in effect on an empty cell
        subst hs
        exact absurd (hid none) hvalid
      · exact .inr ⟨c, by rw [hc]⟩
  | store nx xx body' ws' =>
    refine .inr ⟨?_, fun hs => ?_⟩
    · cases nx with
      | true => exact ⟨body, ws, fun c => by rw [hfull]; rfl⟩
      | false =>
        refine ⟨some body', ws ++ ws', fun c => ?_⟩
        rw [hfull, CellOp.act, assignAll_append]
        rfl
    · rcases hempty hs with hid | ⟨c, hc⟩
      · -- the store creates the cell: a full start that ends the same way
        subst hs
        rw [hid none] at hvalid
        have hxx : xx = false := hvalid
        subst hxx
        right
        cases nx with
        | true => exact ⟨⟨body', assignAll cls ws' fun _ => none⟩, by rw [hid, hid]; rfl⟩
        | false => exact ⟨⟨body', fun _ => none⟩, by rw [hid, hid]; rfl⟩
      · exact .inr ⟨c, by rw [hc]⟩

theorem shape_of_valid (h : Valid cls ops s) : Shape cls ops s := by
  induction ops using List.reverseRecOn with
  | nil =>
    right
    refine ⟨⟨none, [], fun c => rfl⟩, fun _ => .inl fun _ => rfl⟩
  | append_singleton ops op ih =>
    obtain ⟨hops, hop⟩ := valid_concat.mp h
    exact (ih hops).step hop

/-- **A log of operations in effect, replayed over the state it led to, changes
nothing.** -/
theorem run_run (h : Valid cls ops s) : run cls ops (run cls ops s) = run cls ops s := by
  rcases shape_of_valid h with hconst | ⟨⟨body, ws, hfull⟩, hempty⟩
  · exact hconst _ _
  -- on full cells the assignments are idempotent, and so is the choice of the body
  have hidem : ∀ c, run cls ops (run cls ops (some c)) = run cls ops (some c) := by
    intro c
    rw [hfull, hfull, assignAll_assignAll]
    cases body <;> rfl
  cases s with
  | some c => exact hidem c
  | none =>
    rcases hempty rfl with hid | ⟨c, hc⟩
    · rw [hid, hid]
    · rw [hc, hidem]

end Cells

/-! ## A store of cells -/

section Store

variable {ι γ ν α κ : Type*} [DecidableEq ν] [DecidableEq κ] (cls : Option α → κ)

/-- What a logged operation does to each cell. -/
abbrev StoreOp (ι γ ν α : Type*) := ι → CellOp γ ν α

/-- The log as one cell sees it. -/
def runAt (log : List (StoreOp ι γ ν α)) (i : ι) (s : Option (Cell γ ν α)) :
    Option (Cell γ ν α) := run cls (log.map fun op => op i) s

/-- What holds while cells are copied: `start` and `now` are the data at the
beginning and at present, `snap` the copy, and `passed` the cells that the copy
will not visit again. -/
structure Fuzzy (start now snap : ι → Option (Cell γ ν α)) (log : List (StoreOp ι γ ν α))
    (passed : ι → Prop) : Prop where
  valid : ∀ i, Valid cls (log.map fun op => op i) (start i)
  current : ∀ i, runAt cls log i (start i) = now i
  passed_eq : ∀ i, passed i → runAt cls log i (snap i) = now i
  pending_eq : ∀ i, ¬ passed i → snap i = none

variable {cls} {start now snap : ι → Option (Cell γ ν α)} {log : List (StoreOp ι γ ν α)}
  {passed : ι → Prop}

theorem runAt_concat (log : List (StoreOp ι γ ν α)) (op : StoreOp ι γ ν α) (i : ι)
    (s : Option (Cell γ ν α)) :
    runAt cls (log ++ [op]) i s = (op i).act cls (runAt cls log i s) := by
  rw [runAt, List.map_append]
  exact run_concat _ _ _

/-- Nothing is copied yet and nothing is logged. -/
theorem Fuzzy.init (start : ι → Option (Cell γ ν α)) (hpassed : ∀ i, ¬ passed i) :
    Fuzzy cls start start (fun _ => none) [] passed where
  valid := fun _ => trivial
  current := fun _ => rfl
  passed_eq := fun i hi => absurd hi (hpassed i)
  pending_eq := fun _ _ => rfl

section

variable (h : Fuzzy cls start now snap log passed)
include h

/-- An operation that is in effect on every cell, and logged. -/
theorem Fuzzy.client {op : StoreOp ι γ ν α} (hop : ∀ i, (op i).InEffect (now i)) :
    Fuzzy cls start (fun i => (op i).act cls (now i)) snap (log ++ [op]) passed where
  valid := by
    intro i
    rw [List.map_append]
    refine valid_concat.mpr ⟨h.valid i, ?_⟩
    have hnow : run cls (log.map fun op => op i) (start i) = now i := h.current i
    rw [hnow]
    exact hop i
  current := fun i => by rw [runAt_concat, h.current]
  passed_eq := fun i hi => by rw [runAt_concat, h.passed_eq i hi]
  pending_eq := h.pending_eq

/-- Copying some cells as they are now, and passing them. -/
theorem Fuzzy.snapshot {snap' : ι → Option (Cell γ ν α)} {passed' : ι → Prop}
    (hkeep : ∀ i, passed i → passed' i ∧ snap' i = snap i)
    (hnew : ∀ i, ¬ passed i → passed' i → snap' i = now i)
    (hrest : ∀ i, ¬ passed' i → snap' i = none) :
    Fuzzy cls start now snap' log passed' where
  valid := h.valid
  current := h.current
  passed_eq := by
    intro i hi
    by_cases hold : passed i
    · rw [(hkeep i hold).2]
      exact h.passed_eq i hold
    -- the log so far leaves the copied state alone
    rw [hnew i hold hi, ← h.current i]
    exact run_run (h.valid i)
  pending_eq := hrest

/-- **When every cell has been passed, the log over the copy gives the current
data.** -/
theorem Fuzzy.final (hall : ∀ i, passed i) (i : ι) :
    runAt cls log i (snap i) = now i := h.passed_eq i (hall i)

end

end Store

end SpatialDb.Lib
