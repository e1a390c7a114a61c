import Mathlib

/-!
# Redoing a log over a copy that already has part of it

A store of cells serves requests.  A request that its cell refuses changes
nothing; the others are logged.  Meanwhile the cells are copied, one at one
moment and another at the next.  Redoing the whole log over the copy repeats,
on every cell, what was logged before the cell was copied.  That changes
nothing when the states of a cell are made of parts and every request writes
one of them (`Parts`).  `Lib.FuzzySnapshot` treats assignments to registers.
-/

namespace SpatialDb.Lib.Redo

open List Function Option

/-! ## One cell -/

section Cell

variable {α σ : Type*} (step : α → σ → Option σ)

/-- One after the other, up to the first that is refused. -/
def redo : List α → σ → Option σ
  | [], s => some s
  | a :: ops, s => (step a s).bind (redo ops)

/-- States made of parts, for the operations `ops`: one that some state accepts
is accepted by all, it writes its value into its part, and where the part is
there already it changes nothing else. -/
structure Parts (ops : α → Prop) (π ν φ : Type*) [DecidableEq π] where
  Mem : σ → Prop
  part : α → π
  value : α → ν
  read : σ → π → Option ν
  /-- what there is besides the parts -/
  frame : σ → φ
  step_eq : ∀ a, ops a → (∃ s, Mem s ∧ step a s ≠ none) → ∀ s, Mem s → ∃ s', step a s = some s' ∧
    Mem s' ∧ read s' = update (read s) (part a) (some (value a)) ∧
      (read s (part a) ≠ none → frame s' = frame s)
  ext : ∀ s s', Mem s → Mem s' → read s = read s' → frame s = frame s' → s = s'

variable {step}

theorem redo_concat (log : List α) (a : α) (s : σ) :
    redo step (log ++ [a]) s = (redo step log s).bind (step a) := by
  induction log generalizing s with
  | nil => exact bind_fun_some (step a s)
  | cons b log ih =>
    rw [cons_append, redo, redo]
    cases step b s with
    | none => rfl
    | some s' => exact ih s'

variable {ops : α → Prop} {π ν φ : Type*} [DecidableEq π] (p : Parts step ops π ν φ)

namespace Parts

/-- An operation of which the parts are spoken of, and that is accepted. -/
def Accepts (a : α) : Prop := ops a ∧ ∃ s, p.Mem s ∧ step a s ≠ none

def writeAll (log : List α) (r : π → Option ν) : π → Option ν :=
  log.foldl (fun r a => update r (p.part a) (some (p.value a))) r

/-- Redoing the log changes nothing, and all its parts are there. -/
structure Settled (log : List α) (s : σ) : Prop where
  redo_eq : redo step log s = some s
  read_ne : ∀ a ∈ log, p.read s (p.part a) ≠ none

variable {p}

/-- A part depends on itself only. -/
theorem writeAll_congr (log : List α) {r r' : π → Option ν} {q : π} (h : r q = r' q) :
    p.writeAll log r q = p.writeAll log r' q := by
  induction log generalizing r r' with
  | nil => exact h
  | cons a log ih =>
    refine ih ?_
    show update r (p.part a) (some (p.value a)) q = update r' (p.part a) (some (p.value a)) q
    rw [update_apply, update_apply, h]

variable {log : List α} {s s' : σ} {a : α}

theorem read_ne_of_step {b : α} (hb : p.read s (p.part b) ≠ none)
    (h : p.read s' = update (p.read s) (p.part a) (some (p.value a))) :
    p.read s' (p.part b) ≠ none := by
  rw [h, update_apply]
  split_ifs
  · exact some_ne_none _
  · exact hb

theorem redo_spec (hlog : ∀ a ∈ log, p.Accepts a) (hs : p.Mem s) :
    ∃ s', redo step log s = some s' ∧ p.Mem s' ∧ p.read s' = p.writeAll log (p.read s) ∧
      ((∀ a ∈ log, p.read s (p.part a) ≠ none) → p.frame s' = p.frame s) := by
  induction log generalizing s with
  | nil => exact ⟨s, rfl, hs, rfl, fun _ => rfl⟩
  | cons a log ih =>
    obtain ⟨ha, hlog⟩ := forall_mem_cons.mp hlog
    obtain ⟨s₁, hstep, hs₁, hread, hframe⟩ := p.step_eq a ha.1 ha.2 s hs
    obtain ⟨s', hredo, hs', hread', hframe'⟩ := ih hlog hs₁
    refine ⟨s', ?_, hs', ?_, fun hall => ?_⟩
    · rw [redo, hstep]
      exact hredo
    · rw [hread', hread]
      rfl
    · obtain ⟨hpart, hall⟩ := forall_mem_cons.mp hall
      rw [hframe' fun b hb => read_ne_of_step (hall b hb) hread, hframe hpart]

/-- **A settled log stays settled when one more operation is done and logged.** -/
theorem Settled.concat (h : p.Settled log s) (hlog : ∀ a ∈ log, p.Accepts a) (hs : p.Mem s)
    (ha : p.Accepts a) (hstep : step a s = some s') : p.Settled (log ++ [a]) s' := by
  obtain ⟨s₁, hstep₁, hs', hread, -⟩ := p.step_eq a ha.1 ha.2 s hs
  rw [hstep, some.injEq] at hstep₁
  subst hstep₁
  have hpart : p.read s' (p.part a) = some (p.value a) := by rw [hread, update_self]
  have hall : ∀ b ∈ log ++ [a], p.read s' (p.part b) ≠ none := by
    rw [forall_mem_append, forall_mem_singleton, hpart]
    exact ⟨fun b hb => read_ne_of_step (h.read_ne b hb) hread, some_ne_none _⟩
  have hsame : p.writeAll log (p.read s) = p.read s := by
    obtain ⟨t, ht, -, hread, -⟩ := redo_spec hlog hs
    rw [h.redo_eq, some.injEq] at ht
    rw [← hread, ht]
  obtain ⟨t, ht, hmem, hreadt, hframe⟩ :=
    redo_spec (forall_mem_append.mpr ⟨hlog, forall_mem_singleton.mpr ha⟩) hs'
  refine ⟨ht.trans (congrArg some (p.ext t s' hmem hs' ?_ (hframe hall))), hall⟩
  rw [hreadt, writeAll, foldl_append]
  funext q
  show update (p.writeAll log (p.read s')) (p.part a) (some (p.value a)) q = p.read s' q
  by_cases hq : q = p.part a
  · rw [hq, update_self, hpart]
  · have hold : p.read s' q = p.read s q := by rw [hread, update_of_ne hq]
    rw [update_of_ne hq, writeAll_congr log hold, hsame, hold]

/-- What holds of a cell that is copied at some moment: its present state, the
copy, and what has been logged. -/
structure Copied (p : Parts step ops π ν φ) (now copy : σ) (log : List α) (pending : Prop) :
    Prop where
  mem : p.Mem now
  accepts : ∀ a ∈ log, p.Accepts a
  settled : pending → p.Settled log now
  redone : ¬ pending → redo step log copy = some now

variable {now copy : σ} {pending : Prop}

theorem Copied.request (h : Copied p now copy log pending) (ha : ops a)
    (hstep : step a now = some s) : Copied p s copy (log ++ [a]) pending := by
  have haccept : p.Accepts a := ⟨ha, now, h.mem, hstep ▸ some_ne_none s⟩
  obtain ⟨s', hstep', hmem, -⟩ := p.step_eq a ha haccept.2 now h.mem
  rw [hstep, some.injEq] at hstep'
  subst hstep'
  refine ⟨hmem, forall_mem_append.mpr ⟨h.accepts, forall_mem_singleton.mpr haccept⟩, ?_, ?_⟩
  · intro hpending
    exact (h.settled hpending).concat h.accepts h.mem haccept hstep
  · intro hcopied
    rw [redo_concat, h.redone hcopied]
    exact hstep

/-- The cell is copied now, or was before, or is still to be copied. -/
theorem Copied.snapshot (h : Copied p now copy log pending) {copy' : σ} {pending' : Prop}
    (hkeep : ¬ pending → ¬ pending' ∧ copy' = copy)
    (hnew : pending → ¬ pending' → copy' = now) : Copied p now copy' log pending' := by
  refine ⟨h.mem, h.accepts, fun hi => h.settled (by_contra fun hold => (hkeep hold).1 hi), ?_⟩
  intro hi
  by_cases hold : pending
  · rw [hnew hold hi]
    exact (h.settled hold).redo_eq
  · rw [(hkeep hold).2]
    exact h.redone hold

end Parts

end Cell

/-! ## A store of cells -/

section Store

variable {ι α σ : Type*} [DecidableEq ι] (step : α → σ → Option σ)

/-- The operations of a log on one cell. -/
def opsAt (i : ι) (log : List (ι × α)) : List α := (log.filter fun e => e.1 = i).map Prod.snd

/-- The whole log, up to the first operation that is refused. -/
def redoAll : List (ι × α) → (ι → σ) → Option (ι → σ)
  | [], cells => some cells
  | (i, a) :: log, cells => (step a (cells i)).bind fun s => redoAll log (update cells i s)

variable {step}

theorem opsAt_append (i : ι) (log log' : List (ι × α)) :
    opsAt i (log ++ log') = opsAt i log ++ opsAt i log' := by
  rw [opsAt, filter_append, map_append]
  rfl

theorem opsAt_cons_self (i : ι) (a : α) (log : List (ι × α)) :
    opsAt i ((i, a) :: log) = a :: opsAt i log := by
  rw [opsAt, filter_cons_of_pos (by simp), map_cons]
  rfl

theorem opsAt_cons_ne {i j : ι} (h : j ≠ i) (a : α) (log : List (ι × α)) :
    opsAt i ((j, a) :: log) = opsAt i log := by
  rw [opsAt, filter_cons_of_neg (by simpa using h)]
  rfl

/-- **A log redoes cell by cell.** -/
theorem redoAll_eq_some_iff {log : List (ι × α)} {cells cells' : ι → σ} :
    redoAll step log cells = some cells' ↔
      ∀ i, redo step (opsAt i log) (cells i) = some (cells' i) := by
  induction log generalizing cells with
  | nil =>
    rw [redoAll, some.injEq]
    exact ⟨fun h i => by rw [h]; rfl, fun h => funext fun i => some.inj (h i)⟩
  | cons e log ih =>
    obtain ⟨j, a⟩ := e
    rw [redoAll]
    cases hstep : step a (cells j) with
    | none =>
      refine ⟨fun h => (nomatch h), fun h => ?_⟩
      have hj := h j
      rw [opsAt_cons_self, redo, hstep] at hj
      cases hj
    | some s =>
      rw [bind_some, ih]
      refine forall_congr' fun i => ?_
      by_cases hi : i = j
      · subst hi
        rw [opsAt_cons_self, redo, hstep, update_self]
        rfl
      · rw [opsAt_cons_ne (Ne.symm hi), update_of_ne hi]

variable {ops : ι → α → Prop} {π ν φ : Type*} [DecidableEq π]

/-- The store while its cells are copied. -/
def Copying (parts : ∀ i, Parts step (ops i) π ν φ) (now copy : ι → σ) (log : List (ι × α))
    (pending : ι → Prop) : Prop :=
  ∀ i, (parts i).Copied (now i) (copy i) (opsAt i log) (pending i)

variable {parts : ∀ i, Parts step (ops i) π ν φ} {now copy : ι → σ} {log : List (ι × α)}
  {pending : ι → Prop}

theorem Copying.init (copy : ι → σ) (hmem : ∀ i, (parts i).Mem (now i))
    (hpending : ∀ i, pending i) : Copying parts now copy [] pending := fun i =>
  ⟨hmem i, forall_mem_nil _, fun _ => ⟨rfl, forall_mem_nil _⟩, fun hi => absurd (hpending i) hi⟩

/-- A request that is accepted and logged. -/
theorem Copying.request (h : Copying parts now copy log pending) {j : ι} {a : α} {s : σ}
    (ha : ops j a) (hstep : step a (now j) = some s) :
    Copying parts (update now j s) copy (log ++ [(j, a)]) pending := by
  intro i
  rw [opsAt_append]
  by_cases hj : j = i
  · subst hj
    rw [update_self, opsAt_cons_self]
    exact (h j).request ha hstep
  · rw [update_of_ne (Ne.symm hj), opsAt_cons_ne hj]
    exact (append_nil (opsAt i log)).symm ▸ h i

/-- **When every cell is copied, the log over the copy gives the current data.** -/
theorem Copying.redoAll_eq (h : Copying parts now copy log pending) (hall : ∀ i, ¬ pending i) :
    redoAll step log copy = some now :=
  redoAll_eq_some_iff.mpr fun i => (h i).redone (hall i)

end Store

end SpatialDb.Lib.Redo
