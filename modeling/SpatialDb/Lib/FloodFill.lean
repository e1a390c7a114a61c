import Mathlib.Data.List.Basic
import Mathlib.Data.List.Nodup
import Mathlib.Logic.Relation
import Mathlib.Order.Interval.Set.OrdConnected

/-!
# Flood fill

A queue of nodes still to look at, the nodes visited so far, and the result.  A
node that is kept joins the result and its unvisited neighbours the queue; the
others end the fill there.  A fill that grows beyond a limit is cut short.
-/

namespace SpatialDb.Lib.FloodFill

open List

variable {α : Type*}

/-- A neighbour joins the queue unless it has been visited. -/
def visit [DecidableEq α] (s : List α × List α) (a : α) : List α × List α :=
  if a ∈ s.2 then s else (s.1 ++ [a], s.2 ++ [a])

theorem foldl_visit [DecidableEq α] (ns queue visited : List α) :
    ∃ fresh : List α,
      ns.foldl visit (queue, visited) = (queue ++ fresh, visited ++ fresh) ∧
      fresh.Nodup ∧ fresh.length ≤ ns.length ∧
      (∀ a ∈ fresh, a ∈ ns ∧ a ∉ visited) ∧ ∀ a ∈ ns, a ∈ visited ++ fresh := by
  induction ns generalizing queue visited with
  | nil => exact ⟨[], by simp⟩
  | cons n ns ih =>
    rw [foldl_cons]
    by_cases hn : n ∈ visited
    · obtain ⟨fresh, heq, hnodup, hlen, hfresh, hall⟩ := ih queue visited
      rw [visit, if_pos hn]
      refine ⟨fresh, heq, hnodup, Nat.le_succ_of_le hlen, fun a ha => ?_, ?_⟩
      · exact ⟨mem_cons_of_mem n (hfresh a ha).1, (hfresh a ha).2⟩
      · exact forall_mem_cons.mpr ⟨mem_append_left fresh hn, hall⟩
    obtain ⟨fresh, heq, hnodup, hlen, hfresh, hall⟩ := ih (queue ++ [n]) (visited ++ [n])
    rw [visit, if_neg hn]
    simp only [append_assoc, singleton_append] at heq hall
    refine ⟨n :: fresh, heq, nodup_cons.mpr ⟨fun hmem => ?_, hnodup⟩, Nat.succ_le_succ hlen, ?_, ?_⟩
    · exact (hfresh n hmem).2 (mem_append_right visited (mem_singleton_self n))
    · refine forall_mem_cons.mpr ⟨⟨mem_cons_self, hn⟩, fun a ha => ?_⟩
      exact ⟨mem_cons_of_mem n (hfresh a ha).1,
        fun hmem => (hfresh a ha).2 (mem_append_left [n] hmem)⟩
    · refine forall_mem_cons.mpr ⟨?_, hall⟩
      exact mem_append_right visited mem_cons_self

section Run

variable (keep : α → Bool) (next : α → List α) (limit : ℕ)

/-- The rounds of the fill; `none` if they do not end in time. -/
def run [DecidableEq α] : ℕ → (queue visited result : List α) → Option (List α)
  | _, [], _, result => some result
  | 0, _ :: _, _, _ => none
  | fuel + 1, a :: queue, visited, result =>
    if keep a then
      let s := (next a).foldl visit (queue, visited)
      if limit < (result ++ [a]).length then some (result ++ [a])
      else run fuel s.1 s.2 (result ++ [a])
    else run fuel queue visited result

/-- Reachable from `start` through kept nodes. -/
def Reaches (start : α) : α → Prop :=
  Relation.ReflTransGen (fun a b => keep a = true ∧ b ∈ next a) start

/-- What holds at the head of every round. -/
structure Inv (start : α) (queue visited result : List α) : Prop where
  queue_nodup : queue.Nodup
  result_nodup : result.Nodup
  queue_visited : ∀ a ∈ queue, a ∈ visited
  result_visited : ∀ a ∈ result, a ∈ visited ∧ a ∉ queue
  kept : ∀ a ∈ result, keep a = true
  start_visited : start ∈ visited
  reaches : ∀ a ∈ visited, Reaches keep next start a
  handled : ∀ a ∈ visited, keep a = true → a ∈ queue ∨ a ∈ result
  closed : ∀ a ∈ result, ∀ b ∈ next a, b ∈ visited

variable {keep next limit}

theorem inv_start (start : α) : Inv keep next start [start] [start] [] where
  queue_nodup := nodup_singleton start
  result_nodup := nodup_nil
  queue_visited _ ha := ha
  result_visited := by simp
  kept := by simp
  start_visited := mem_singleton_self start
  reaches a ha := by
    rw [mem_singleton.mp ha]
    exact Relation.ReflTransGen.refl
  handled _ ha _ := Or.inl ha
  closed := by simp

variable {start : α} {queue visited result : List α}

/-- A node that is not kept is dropped. -/
theorem Inv.drop {a : α} (h : Inv keep next start (a :: queue) visited result)
    (hkeep : keep a = false) :
    Inv keep next start queue visited result where
  queue_nodup := h.queue_nodup.of_cons
  result_nodup := h.result_nodup
  queue_visited b hb := h.queue_visited b (mem_cons_of_mem a hb)
  result_visited b hb :=
    ⟨(h.result_visited b hb).1, fun hq => (h.result_visited b hb).2 (mem_cons_of_mem a hq)⟩
  kept := h.kept
  start_visited := h.start_visited
  reaches := h.reaches
  handled b hb hk := by
    rcases h.handled b hb hk with hq | hr
    · rcases mem_cons.mp hq with rfl | hq
      · rw [hk] at hkeep
        contradiction
      · exact Or.inl hq
    · exact Or.inr hr
  closed := h.closed

/-- A node that is kept joins the result, its neighbours the queue. -/
theorem Inv.take {a : α} {fresh : List α} (h : Inv keep next start (a :: queue) visited result)
    (hkeep : keep a = true) (hnodup : fresh.Nodup) (hfresh : ∀ b ∈ fresh, b ∈ next a ∧ b ∉ visited)
    (hall : ∀ b ∈ next a, b ∈ visited ++ fresh) :
    Inv keep next start (queue ++ fresh) (visited ++ fresh) (result ++ [a]) := by
  have hqueue := nodup_cons.mp h.queue_nodup
  have ha : a ∈ visited := h.queue_visited a mem_cons_self
  have hqv : ∀ b ∈ queue, b ∈ visited := fun b hb =>
    h.queue_visited b (mem_cons_of_mem a hb)
  refine ⟨?_, ?_, ?_, ?_, ?_, ?_, ?_, ?_, ?_⟩
  · refine nodup_append.mpr ⟨hqueue.2, hnodup, ?_⟩
    rintro b hb _ hf rfl
    exact (hfresh b hf).2 (hqv b hb)
  · refine nodup_append.mpr ⟨h.result_nodup, nodup_singleton a, ?_⟩
    rintro b hb _ hf rfl
    exact (h.result_visited b hb).2 (mem_singleton.mp hf ▸ mem_cons_self)
  · intro b hb
    rcases mem_append.mp hb with hb | hb
    · exact mem_append_left fresh (hqv b hb)
    · exact mem_append_right visited hb
  · intro b hb
    have hold : b ∈ visited ∧ b ∉ queue := by
      rcases mem_append.mp hb with hb | hb
      · exact ⟨(h.result_visited b hb).1,
          fun hq => (h.result_visited b hb).2 (mem_cons_of_mem a hq)⟩
      · rw [mem_singleton.mp hb]
        exact ⟨ha, hqueue.1⟩
    refine ⟨mem_append_left fresh hold.1, fun hmem => ?_⟩
    rcases mem_append.mp hmem with hq | hf
    · exact hold.2 hq
    · exact (hfresh b hf).2 hold.1
  · intro b hb
    rcases mem_append.mp hb with hb | hb
    · exact h.kept b hb
    · rw [mem_singleton.mp hb]
      exact hkeep
  · exact mem_append_left fresh h.start_visited
  · intro b hb
    rcases mem_append.mp hb with hb | hb
    · exact h.reaches b hb
    · exact (h.reaches a ha).tail ⟨hkeep, (hfresh b hb).1⟩
  · intro b hb hk
    rcases mem_append.mp hb with hb | hb
    · rcases h.handled b hb hk with hq | hr
      · rcases mem_cons.mp hq with rfl | hq
        · exact Or.inr (mem_append_right result (mem_singleton_self b))
        · exact Or.inl (mem_append_left fresh hq)
      · exact Or.inr (mem_append_left [a] hr)
    · exact Or.inl (mem_append_right queue hb)
  · intro b hb c hc
    rcases mem_append.mp hb with hb | hb
    · exact mem_append_left fresh (h.closed b hb c hc)
    · rw [mem_singleton.mp hb] at hc
      exact hall c hc

theorem Inv.mem_result (h : Inv keep next start queue visited result) {a : α} (ha : a ∈ result) :
    keep a = true ∧ Reaches keep next start a :=
  ⟨h.kept a ha, h.reaches a (h.result_visited a ha).1⟩

/-- With an empty queue nothing reachable is missing. -/
theorem Inv.mem_result_iff (h : Inv keep next start [] visited result) (a : α) :
    a ∈ result ↔ keep a = true ∧ Reaches keep next start a := by
  have hdone : ∀ b ∈ visited, keep b = true → b ∈ result := fun b hb hk =>
    (h.handled b hb hk).resolve_left not_mem_nil
  have hvisited : Reaches keep next start a → a ∈ visited := by
    intro hreach
    induction hreach with
    | refl => exact h.start_visited
    | tail _ hstep ih => exact h.closed _ (hdone _ ih hstep.1) _ hstep.2
  exact ⟨h.mem_result, fun ⟨hkeep, hreach⟩ => hdone a (hvisited hreach) hkeep⟩

/-- Every round takes one node from the queue, and only the nodes found put
nodes there. -/
theorem Inv.run_spec [DecidableEq α] {degree : ℕ}
    (hcount : ∀ l : List α, l.Nodup → (∀ a ∈ l, keep a = true ∧ Reaches keep next start a) →
      l.length ≤ limit)
    (hdegree : ∀ a, keep a = true → Reaches keep next start a → (next a).length ≤ degree)
    (fuel : ℕ) :
    ∀ {queue visited result : List α}, Inv keep next start queue visited result →
      queue.length + degree * (limit - result.length) ≤ fuel →
      ∃ out, run keep next limit fuel queue visited result = some out ∧ out.Nodup ∧
        ∀ a, a ∈ out ↔ keep a = true ∧ Reaches keep next start a := by
  induction fuel with
  | zero =>
    intro queue visited result h hfuel
    cases queue with
    | nil => exact ⟨result, by simp [run], h.result_nodup, h.mem_result_iff⟩
    | cons a queue =>
      rw [length_cons] at hfuel
      omega
  | succ fuel ih =>
    intro queue visited result h hfuel
    cases queue with
    | nil => exact ⟨result, by simp [run], h.result_nodup, h.mem_result_iff⟩
    | cons a queue =>
      rw [length_cons] at hfuel
      by_cases hkeep : keep a = true
      · obtain ⟨fresh, heq, hnodup, hlen, hfresh, hall⟩ := foldl_visit (next a) queue visited
        have hinv := h.take hkeep hnodup hfresh hall
        have hlimit := hcount _ hinv.result_nodup fun b hb => hinv.mem_result hb
        have hreach := h.reaches a (h.queue_visited a mem_cons_self)
        have hnext := hdegree a hkeep hreach
        rw [run, if_pos hkeep, heq, if_neg (Nat.not_lt.mpr hlimit)]
        refine ih hinv ?_
        simp only [length_append, length_singleton] at hlimit ⊢
        have hmul : degree * (limit - result.length) =
            degree * (limit - (result.length + 1)) + degree := by
          rw [← Nat.mul_succ]
          congr 1
          omega
        omega
      · rw [run, if_neg hkeep]
        exact ih (h.drop (Bool.eq_false_iff.mpr hkeep)) (by omega)

/-- **A fill from `start` finds the kept nodes reachable through kept nodes.** -/
theorem run_spec [DecidableEq α] {degree fuel : ℕ}
    (hcount : ∀ l : List α, l.Nodup → (∀ a ∈ l, keep a = true ∧ Reaches keep next start a) →
      l.length ≤ limit)
    (hdegree : ∀ a, keep a = true → Reaches keep next start a → (next a).length ≤ degree)
    (hfuel : 1 + degree * limit ≤ fuel) :
    ∃ out, run keep next limit fuel [start] [start] [] = some out ∧ out.Nodup ∧
      ∀ a, a ∈ out ↔ keep a = true ∧ Reaches keep next start a :=
  (inv_start start).run_spec hcount hdegree fuel hfuel

end Run

/-! ## Unbroken stretches -/

theorem line_induction {A : Set ℕ} (hA : A.OrdConnected) {P : ℕ → Prop} {i₀ : ℕ} (h₀ : i₀ ∈ A)
    (hstart : P i₀) (hup : ∀ i, i ∈ A → i + 1 ∈ A → P i → P (i + 1))
    (hdown : ∀ i, i ∈ A → i + 1 ∈ A → P (i + 1) → P i) {i : ℕ} (hi : i ∈ A) : P i := by
  rcases Nat.le_total i₀ i with hle | hle
  · induction i, hle using Nat.le_induction with
    | base => exact hstart
    | succ i hle ih =>
      have hmem : i ∈ A := hA.out h₀ hi ⟨hle, Nat.le_succ i⟩
      exact hup i hmem hi (ih hmem)
  induction hle using Nat.decreasingInduction with
  | self => exact hstart
  | of_succ i hlt ih =>
    have hmem : i + 1 ∈ A := hA.out hi h₀ ⟨Nat.le_succ i, hlt⟩
    exact hdown i hi hmem (ih hmem)

end SpatialDb.Lib.FloodFill
