import SpatialDb.Server.AreaTree
import SpatialDb.Server.Fence

/-!
# The trees of `parseAreaExpression`

The parser runs over the tokens of a chain without an error, and the node it
ends at has the value of `growTop`.  It writes to the current node and to new
ones only, so what it has built stays as it is.
-/

namespace SpatialDb.Server

open Lib Infix AreaTree ParseState AreaHeap Chain Bool

namespace AreaParse

/-! ## The nodes of `wrapLast` -/

section

variable {A : Type} {st : ParseState A} {p q : Nat}

@[simp] theorem length_wrapLast : (st.wrapLast p).heap.length = st.heap.length + 1 := by
  simp [ParseState.wrapLast]

theorem node_wrapLast_self (hp : p < st.heap.length) : (st.wrapLast p).heap.node p =
    { st.heap.node p with
      children := (st.heap.node p).children.dropLast ++ [st.heap.length] } := by
  rw [ParseState.wrapLast, node_update_self (by simpa using hp.trans (Nat.lt_succ_self _)),
    node_alloc hp, List.dropLast_eq_take]

theorem node_wrapLast_new (hp : p < st.heap.length) (hne : (st.heap.node p).children ≠ []) :
    (st.wrapLast p).heap.node st.heap.length =
      { op := .and, children := [(st.heap.node p).children.getLast hne] } := by
  rw [ParseState.wrapLast, node_update hp.ne', node_alloc_self, List.drop_length_sub_one hne]

theorem node_wrapLast (hq : q < st.heap.length) (hne : q ≠ p) :
    (st.wrapLast p).heap.node q = st.heap.node q := by
  rw [ParseState.wrapLast, node_update hne, node_alloc hq]

/-! ## Nodes and their values -/

variable (τ : A → Bool) (o : BinaryOp)

/-- The children of a node give `a` under the operator `o`. -/
def Gives (a : Bool) (bs : List Bool) : Prop :=
  match o with
  | .and => a = bs.all id
  | .or => a = bs.any id
  | .noop => True

/-- All that is below is in `S`. -/
def Closed (heap : AreaHeap A) (S : Set Nat) : Prop :=
  ∀ q ∈ S, q < heap.length ∧ ∀ c ∈ (heap.node q).children, c ∈ S

/-- The node `p` is that of a group or an operator.  Its children have the values
`bs`, and all below it is in `S`. -/
structure Holds (heap : AreaHeap A) (S : Set Nat) (p : Nat) (neg : Bool) (o : BinaryOp) (a : Bool)
    (bs : List Bool) : Prop where
  lt : p < heap.length
  negate : (heap.node p).negate = neg
  obj : (heap.node p).obj = none
  op : (heap.node p).op = o
  vals : List.Forall₂ (heap.Evals τ) (heap.node p).children bs
  gives : Gives o a bs
  below : ∀ c ∈ (heap.node p).children, c ∈ S
  apart : p ∉ S
  closed : Closed heap S

/-- The node waits for an operand. -/
def Open (bs : List Bool) : Prop := if o = .noop then bs = [] else bs ≠ []

/-- The node has its operands. -/
def Full (a : Bool) (bs : List Bool) : Prop :=
  if o = .noop then bs = [a] else 2 ≤ bs.length

variable {τ} {heap heap' : AreaHeap A} {S T : Set Nat} {c : Nat} {neg : Bool} {o : BinaryOp}
  {a v : Bool} {bs : List Bool}

theorem Closed.frame (h : Closed heap S) (hle : heap.length ≤ heap'.length)
    (hS : ∀ q ∈ S, heap'.node q = heap.node q) : Closed heap' S := by
  intro q hq
  rw [hS q hq]
  exact ⟨(h q hq).1.trans_le hle, (h q hq).2⟩

theorem Closed.union (hS : Closed heap S) (hT : Closed heap T) : Closed heap (S ∪ T) := by
  rintro q (hq | hq)
  · exact ⟨(hS q hq).1, fun c hc => .inl ((hS q hq).2 c hc)⟩
  · exact ⟨(hT q hq).1, fun c hc => .inr ((hT q hq).2 c hc)⟩

/-- A value stays while the nodes below stay. -/
theorem evals_frame (h : Closed heap S) (hS : ∀ q ∈ S, heap'.node q = heap.node q) (hc : c ∈ S)
    (hv : heap.Evals τ c v) : heap'.Evals τ c v := by
  obtain ⟨fuel, hfuel⟩ := hv
  exact ⟨fuel, (test_congr hS (fun q hq => (h q hq).2) hc fuel).trans hfuel⟩

namespace Holds

section

variable (h : Holds τ heap S p neg o a bs)
include h

theorem evals : heap.Evals τ p (neg ^^ (o ≠ .noop && a)) := by
  obtain ⟨fuel, hvals⟩ := exists_fuel h.vals
  refine ⟨fuel + 1, ?_⟩
  have hgives := h.gives
  rw [AreaHeap.test]
  simp only [h.obj, h.op]
  cases o with
  | noop => cases neg <;> simp [AreaNode.maybeNegate, h.negate]
  | and =>
    rw [allTrue_of_forall₂ hvals, ← show a = bs.all id from hgives]
    cases neg <;> simp [AreaNode.maybeNegate, h.negate]
  | or =>
    rw [anyTrue_of_forall₂ hvals, ← show a = bs.any id from hgives]
    cases neg <;> simp [AreaNode.maybeNegate, h.negate]

theorem vals_frame (hS : ∀ q ∈ S, heap'.node q = heap.node q) :
    List.Forall₂ (heap'.Evals τ) (heap.node p).children bs :=
  ((List.forall₂_and_left _ _).mpr ⟨h.below, h.vals⟩).imp fun _ _ hc =>
    evals_frame h.closed hS hc.1 hc.2

/-- A heap that is the same at `p` and below. -/
theorem frame (hle : heap.length ≤ heap'.length)
    (hp : heap'.node p = heap.node p) (hS : ∀ q ∈ S, heap'.node q = heap.node q) :
    Holds τ heap' S p neg o a bs where
  lt := h.lt.trans_le hle
  negate := hp ▸ h.negate
  obj := hp ▸ h.obj
  op := hp ▸ h.op
  vals := hp ▸ h.vals_frame hS
  gives := h.gives
  below := hp ▸ h.below
  apart := h.apart
  closed := h.closed.frame hle hS

/-- The node with what is below it. -/
theorem closed_insert : Closed heap (insert p S) := by
  rintro q (rfl | hq)
  · exact ⟨h.lt, fun c hc => .inr (h.below c hc)⟩
  · exact ⟨(h.closed q hq).1, fun c hc => .inr ((h.closed q hq).2 c hc)⟩

theorem push (hopen : Open o bs) (hle : heap.length ≤ heap'.length)
    (hp : heap'.node p = { heap.node p with children := (heap.node p).children ++ [c] })
    (hS : ∀ q ∈ S, heap'.node q = heap.node q) (hT : Closed heap' T) (hc : c ∈ T) (hpT : p ∉ T)
    (hv : heap'.Evals τ c v) :
    Holds τ heap' (S ∪ T) p neg o (AreaTree.push o a v) (bs ++ [v]) ∧
      Full o (AreaTree.push o a v) (bs ++ [v]) := by
  refine ⟨⟨h.lt.trans_le hle, ?_, ?_, ?_, ?_, ?_, ?_, ?_, (h.closed.frame hle hS).union hT⟩, ?_⟩
  · rw [hp]
    exact h.negate
  · rw [hp]
    exact h.obj
  · rw [hp]
    exact h.op
  · rw [hp]
    exact List.rel_append (h.vals_frame hS) (.cons hv .nil)
  · have hgives := h.gives
    cases o <;> simp_all [Gives, AreaTree.push]
  · rw [hp]
    intro d hd
    rcases List.mem_append.mp hd with hd | hd
    · exact .inl (h.below d hd)
    · rw [List.mem_singleton.mp hd]
      exact .inr hc
  · rintro (hpS | hpT')
    · exact h.apart hpS
    · exact hpT hpT'
  · cases o with
    | noop =>
      obtain rfl : bs = [] := hopen
      rfl
    | and | or =>
      have hpos : 0 < bs.length := List.length_pos_iff.mpr hopen
      change 2 ≤ (bs ++ [v]).length
      rw [List.length_append, List.length_singleton]
      omega

end

/-- A node with `c` as the only child. -/
theorem wrapper (hlt : p < heap.length) (hp : heap.node p = { op := o, children := [c] })
    (hc : c ∈ S) (hpS : p ∉ S) (hS : Closed heap S) (hv : heap.Evals τ c v) :
    Holds τ heap S p false o v [v] := by
  refine ⟨hlt, ?_, ?_, ?_, ?_, ?_, ?_, hpS, hS⟩
  · rw [hp]
  · rw [hp]
  · rw [hp]
  · rw [hp]
    exact .cons hv .nil
  · cases o <;> simp [Gives]
  · rw [hp]
    intro d hd
    rw [List.mem_singleton.mp hd]
    exact hc

/-- The operator of a node with one operand. -/
theorem setOp (h : Holds τ heap S p neg .noop a [a]) (op : BinaryOp) :
    Holds τ (heap.update p fun e => { e with op }) S p neg op a [a] := by
  have hp := node_update_self (f := fun e : AreaNode A => { e with op }) h.lt
  have hS : ∀ q ∈ S, (heap.update p fun e => { e with op }).node q = heap.node q := by
    intro q hq
    refine node_update ?_
    rintro rfl
    exact h.apart hq
  have hle : heap.length ≤ (heap.update p fun e => { e with op }).length := length_update.ge
  refine ⟨h.lt.trans_le hle, ?_, ?_, ?_, ?_, ?_, ?_, h.apart, h.closed.frame hle hS⟩
  · rw [hp]
    exact h.negate
  · rw [hp]
    exact h.obj
  · rw [hp]
  · rw [hp]
    exact h.vals_frame hS
  · cases op <;> simp [Gives]
  · rw [hp]
    exact h.below

/-- The last child of an OR moves into a new AND; the value stays. -/
theorem wrapLast {st : ParseState A} (h : Holds τ st.heap S p neg .or a bs) (hbs : 2 ≤ bs.length) :
    Holds τ (st.wrapLast p).heap (insert st.heap.length S) p neg .or a bs := by
  have hlen := h.vals.length_eq
  have hcs : (st.heap.node p).children ≠ [] := by
    rw [← List.length_pos_iff, hlen]
    omega
  have hne : bs ≠ [] := by
    rw [← List.length_pos_iff]
    omega
  have hp := node_wrapLast_self h.lt
  have hle : st.heap.length ≤ (st.wrapLast p).heap.length := by
    rw [length_wrapLast]
    exact Nat.le_succ _
  have hS : ∀ q ∈ S, (st.wrapLast p).heap.node q = st.heap.node q := by
    intro q hq
    refine node_wrapLast (h.closed q hq).1 ?_
    rintro rfl
    exact h.apart hq
  have hclosed := h.closed.frame hle hS
  -- the new node has the value of the last child
  have hlast := List.forall₂_drop ((st.heap.node p).children.length - 1) (h.vals_frame hS)
  rw [List.drop_length_sub_one hcs, hlen, List.drop_length_sub_one hne] at hlast
  have hnew : st.heap.length ∉ S := fun hmem => (h.closed _ hmem).1.false
  have hwrap : Holds τ (st.wrapLast p).heap S st.heap.length false .and (bs.getLast hne)
      [bs.getLast hne] :=
    wrapper (by simp) (node_wrapLast_new h.lt hcs) (h.below _ (List.getLast_mem hcs)) hnew hclosed
      (List.forall₂_cons.mp hlast).1
  have hinit := List.forall₂_take ((st.heap.node p).children.length - 1) (h.vals_frame hS)
  rw [← List.dropLast_eq_take, hlen, ← List.dropLast_eq_take] at hinit
  refine ⟨h.lt.trans_le hle, ?_, ?_, ?_, ?_, h.gives, ?_, ?_, hwrap.closed_insert⟩
  · rw [hp]
    exact h.negate
  · rw [hp]
    exact h.obj
  · rw [hp]
    exact h.op
  · rw [hp, ← List.dropLast_append_getLast hne]
    refine List.rel_append hinit (.cons ?_ .nil)
    simpa using hwrap.evals
  · rw [hp]
    intro d hd
    rcases List.mem_append.mp hd with hd | hd
    · exact .inr (h.below d (List.mem_of_mem_dropLast hd))
    · exact .inl (List.mem_singleton.mp hd)
  · rintro (heq | hmem)
    · exact h.lt.ne heq
    · exact h.apart hmem

end Holds

/-! ## One token -/

theorem run_nots (st : ParseState A) (k : Nat) :
    ∃ need, st.run (List.replicate k .not) =
      .ok { st with negate := st.negate ^^ k.bodd, needObj := need } := by
  induction k generalizing st with
  | zero => exact ⟨st.needObj, by simp⟩
  | succ k ih =>
    obtain ⟨need, hrun⟩ := ih st.not
    refine ⟨need, run_cons.mpr ⟨st.not, rfl, hrun.trans ?_⟩⟩
    simp [ParseState.not, Nat.bodd_succ]

/-- A new node, as a child of the current one if there is one. -/
def attach (heap : AreaHeap A) (ae : Option Nat) (e : AreaNode A) : AreaHeap A :=
  match ae with
  | some ae => (heap.alloc e).addChild ae heap.length
  | none => heap.alloc e

section Attach

variable {heap : AreaHeap A} {ae : Option Nat} {e : AreaNode A} {p q : Nat}

@[simp] theorem length_attach : (attach heap ae e).length = heap.length + 1 := by
  cases ae <;> simp [attach, AreaHeap.addChild]

theorem node_attach_self (hae : ∀ p, ae = some p → p < heap.length) :
    (attach heap ae e).node heap.length = e := by
  cases ae with
  | none => exact node_alloc_self
  | some p =>
    rw [attach, AreaHeap.addChild, node_update (hae p rfl).ne', node_alloc_self]

theorem node_attach_parent (hp : p < heap.length) : (attach heap (some p) e).node p =
    { heap.node p with children := (heap.node p).children ++ [heap.length] } := by
  have hlt : p < (heap.alloc e).length := by
    rw [length_alloc]
    exact hp.trans (Nat.lt_succ_self _)
  rw [attach, AreaHeap.addChild, node_update_self hlt, node_alloc hp]

theorem node_attach (hq : q < heap.length) (hae : ae ≠ some q) :
    (attach heap ae e).node q = heap.node q := by
  cases ae with
  | none => exact node_alloc hq
  | some p =>
    have hne : q ≠ p := by
      rintro rfl
      exact hae rfl
    rw [attach, AreaHeap.addChild, node_update hne, node_alloc hq]

/-- Behind a leaf. -/
def leafState (st : ParseState A) (negate : Bool) (obj : A) : ParseState A where
  heap := attach st.heap st.ae { negate, obj := some obj }
  ps := st.ps
  ae := st.ae.or (some st.heap.length)

/-- Inside of a group, but for the parent on the stack. -/
def groupState (st : ParseState A) (negate : Bool) : ParseState A where
  heap := attach st.heap st.ae { negate }
  ps := st.ps
  ae := some st.heap.length

theorem run_leaf (hneg : st.negate = false) (k : Nat) (x : A) :
    st.run (List.replicate k .not ++ [.leaf x]) = .ok (leafState st k.bodd x) := by
  obtain ⟨need, hrun⟩ := run_nots st k
  refine run_append hrun ?_
  rw [hneg, false_xor]
  obtain ⟨heap, ps, ae, negate, needObj⟩ := st
  cases ae <;> rfl

theorem run_lparen (hneg : st.negate = false) (k : Nat) :
    st.run (List.replicate k .not ++ [.lparen]) =
      .ok { groupState st k.bodd with ps := st.heap.length :: st.ps } := by
  obtain ⟨need, hrun⟩ := run_nots st k
  refine run_append hrun ?_
  rw [hneg, false_xor]
  rfl

variable (hae : st.ae = some p) (hneed : st.needObj = false)

include hae hneed

theorem step_op_leaf {x : A} (hobj : (st.heap.node p).obj = some x) (op : BoolOp) :
    st.step (.op op) = .ok ({ st with needObj := true }.wrap (binaryOp op) p) := by
  cases op <;> simp [ParseState.step, ParseState.and, ParseState.or, hae, hneed, hobj, binaryOp]

variable (hobj : (st.heap.node p).obj = none)

include hobj

theorem step_op_noop (hop : (st.heap.node p).op = .noop) (op : BoolOp) :
    st.step (.op op) = .ok ({ st with needObj := true }.setOp (binaryOp op) p) := by
  cases op <;>
    simp [ParseState.step, ParseState.and, ParseState.or, hae, hneed, hobj, hop, binaryOp]

theorem step_op_same {op : BoolOp} (hop : (st.heap.node p).op = binaryOp op) :
    st.step (.op op) = .ok { st with needObj := true } := by
  cases op <;> simp_all [ParseState.step, ParseState.and, ParseState.or, binaryOp]

theorem step_and_or (hop : (st.heap.node p).op = .or)
    (hlen : 2 ≤ (st.heap.node p).children.length) :
    st.step (.op .and) = .ok ({ st with needObj := true }.wrapLast p) := by
  simp [ParseState.step, ParseState.and, hae, hneed, hobj, hop, hlen.not_gt]

theorem step_or_and (hop : (st.heap.node p).op = .and)
    (hlen : 2 ≤ (st.heap.node p).children.length) :
    st.step (.op .or) = .ok ({ st with needObj := true }.wrap .or p) := by
  simp [ParseState.step, ParseState.or, hae, hneed, hobj, hop, hlen.not_gt]

end Attach

end

/-! ## Reading into a node -/

section

variable {A : Type} (τ : A → Bool)

/-- From `st` the parser writes to the node `p` and to new ones. -/
structure Moved (st st' : ParseState A) (p : Nat) : Prop where
  ps : st'.ps = st.ps
  negate : st'.negate = false
  le : st.heap.length ≤ st'.heap.length
  frame : ∀ q < st.heap.length, q ≠ p → st'.heap.node q = st.heap.node q

/-- The parser has read the operands of the node `p`; what is below it was there
before or is new. -/
structure Grown (st st' : ParseState A) (S : Set Nat) (p : Nat) (neg : Bool) (o : BinaryOp)
    (a : Bool) : Prop extends Moved st st' p where
  needObj : st'.needObj = false
  holds : ∃ S' bs, Holds τ st'.heap S' p neg o a bs ∧ Full o a bs ∧
    ∀ q ∈ S', q ∈ S ∨ st.heap.length ≤ q

/-- The operator of a node with the operator `o` once `e` has been read into it. -/
def endOp (o : BinaryOp) (e : Chain A) : BinaryOp := if o = .noop then rootOp e else o

/-- A chain can be read into each node that waits for an operand. -/
def TakeOk (e : Chain A) : Prop :=
  ∀ {st : ParseState A} {S : Set Nat} {p : Nat} {neg : Bool} {o : BinaryOp} {a : Bool}
    {bs : List Bool}, st.ae = some p → st.negate = false → Holds τ st.heap S p neg o a bs →
    Open o bs → ∃ st', st.run e.tokens = .ok st' ∧
      Grown τ st st' S p neg (endOp o e) (grow o a (e.map τ))

variable {τ} {st st' : ParseState A} {S : Set Nat} {p : Nat} {neg : Bool} {o : BinaryOp} {a : Bool}
  {bs : List Bool} {e rest : Chain A} {op : BoolOp}

theorem evals_leaf {heap : AreaHeap A} {b : Bool} {x : A}
    (hp : heap.node p = { negate := b, obj := some x }) : heap.Evals τ p (b ^^ τ x) := by
  refine ⟨1, ?_⟩
  rw [AreaHeap.test, hp]
  cases b <;> simp [AreaNode.maybeNegate]

theorem take_leaf (hae : st.ae = some p) (h : Holds τ st.heap S p neg o a bs) (hopen : Open o bs)
    (b : Bool) (x : A) : Grown τ st (leafState st b x) S p neg o (push o a (b ^^ τ x)) := by
  have hlt : ∀ p', st.ae = some p' → p' < st.heap.length := by
    intro p' hp'
    rw [hae] at hp'
    exact Option.some.inj hp' ▸ h.lt
  have hnode : (leafState st b x).heap.node st.heap.length = { negate := b, obj := some x } :=
    node_attach_self hlt
  have hframe : ∀ q < st.heap.length, q ≠ p → (leafState st b x).heap.node q = st.heap.node q := by
    intro q hq hne
    refine node_attach hq ?_
    rw [hae]
    exact fun heq => hne (Option.some.inj heq).symm
  have hle : st.heap.length ≤ (leafState st b x).heap.length := by simp [leafState]
  have hp : (leafState st b x).heap.node p =
      { st.heap.node p with children := (st.heap.node p).children ++ [st.heap.length] } := by
    rw [leafState, hae]
    exact node_attach_parent h.lt
  have hclosed : Closed (leafState st b x).heap {st.heap.length} := by
    rintro q rfl
    rw [hnode]
    exact ⟨by simp [leafState], by simp⟩
  have hpush := h.push hopen hle hp
    (fun q hq => hframe q (h.closed q hq).1 fun heq => h.apart (heq ▸ hq)) hclosed rfl h.lt.ne
    (evals_leaf hnode)
  refine ⟨⟨rfl, rfl, hle, hframe⟩, rfl, _, _, hpush.1, hpush.2, ?_⟩
  rintro q (hq | rfl)
  · exact .inl hq
  · exact .inr le_rfl

/-- The inside of a group. -/
theorem take_group (ih : TakeOk τ e) (hae : ∀ p, st.ae = some p → p < st.heap.length)
    (hneg : st.negate = false) (k : Nat) :
    ∃ st', st.run (List.replicate k .not ++ .lparen :: (e.tokens ++ [.rparen])) = .ok st' ∧
      st'.ae = some st.heap.length ∧
      Grown τ (groupState st k.bodd) st' ∅ st.heap.length k.bodd (rootOp e)
        (grow .noop false (e.map τ)) := by
  have hnode : (groupState st k.bodd).heap.node st.heap.length = { negate := k.bodd } :=
    node_attach_self hae
  have hholds : Holds τ (groupState st k.bodd).heap ∅ st.heap.length k.bodd .noop false [] := by
    refine ⟨by simp [groupState], ?_, ?_, ?_, ?_, trivial, ?_, id, ?_⟩
    · rw [hnode]
    · rw [hnode]
    · rw [hnode]
    · rw [hnode]
      exact .nil
    · rw [hnode]
      simp
    · simp [Closed]
  have hinside : Holds τ { groupState st k.bodd with ps := st.heap.length :: st.ps }.heap ∅
      st.heap.length k.bodd .noop false [] := hholds
  obtain ⟨st₁, hrun, hg⟩ := ih rfl rfl hinside rfl
  have hrparen : st₁.run [.rparen] = .ok { st₁ with ae := some st.heap.length, ps := st.ps } := by
    refine run_cons.mpr ⟨_, ?_, rfl⟩
    change st₁.rparen = _
    simp [ParseState.rparen, hg.needObj, hg.ps]
  refine ⟨{ st₁ with ae := some st.heap.length, ps := st.ps }, ?_, rfl,
    ⟨rfl, hg.negate, hg.le, hg.frame⟩, hg.needObj, hg.holds⟩
  rw [List.append_cons]
  exact run_append (run_lparen hneg k) (run_append hrun hrparen)

/-- A group becomes a child of the node it stands in. -/
theorem Grown.child {r : BinaryOp} {b v : Bool} (hae : st.ae = some p)
    (h : Holds τ st.heap S p neg o a bs) (hopen : Open o bs)
    (hg : Grown τ (groupState st b) st' ∅ st.heap.length b r v) :
    Grown τ st st' S p neg o (push o a (b ^^ (r ≠ .noop && v))) := by
  obtain ⟨T, vs, hh, -, hT⟩ := hg.holds
  have hlen : (groupState st b).heap.length = st.heap.length + 1 := length_attach
  have hle : st.heap.length ≤ st'.heap.length := by
    have hle := hg.le
    omega
  have hbefore : ∀ q < st.heap.length, st'.heap.node q = (groupState st b).heap.node q :=
    fun q hq => hg.frame q (by omega) hq.ne
  have hframe : ∀ q < st.heap.length, q ≠ p → st'.heap.node q = st.heap.node q := by
    intro q hq hne
    refine (hbefore q hq).trans (node_attach hq ?_)
    rw [hae]
    exact fun heq => hne (Option.some.inj heq).symm
  have hp : st'.heap.node p =
      { st.heap.node p with children := (st.heap.node p).children ++ [st.heap.length] } := by
    rw [hbefore p h.lt, groupState, hae]
    exact node_attach_parent h.lt
  have hnew : ∀ q ∈ insert st.heap.length T, st.heap.length ≤ q := by
    rintro q (rfl | hq)
    · exact le_rfl
    · rcases hT q hq with hempty | hq'
      · exact hempty.elim
      · omega
  have hpush := h.push hopen hle hp
    (fun q hq => hframe q (h.closed q hq).1 fun heq => h.apart (heq ▸ hq)) hh.closed_insert
    (.inl rfl) (fun hmem => (hnew p hmem).not_gt h.lt) hh.evals
  refine ⟨⟨hg.ps, hg.negate, hle, hframe⟩, hg.needObj, _, _, hpush.1, hpush.2, ?_⟩
  rintro q (hq | hq)
  · exact .inl hq
  · exact .inr (hnew q hq)

/-- An operator that stays in the node. -/
theorem op_attached (hae : st.ae = some p) (hneg : st.negate = false)
    (hneed : st.needObj = false) (h : Holds τ st.heap S p neg o a bs) (hfull : Full o a bs)
    (hdet : detaches o op = false) :
    ∃ st' S', st.run [.op op] = .ok st' ∧ st'.ae = some p ∧ Moved st st' p ∧
      Holds τ st'.heap S' p neg (joinOp o op) a bs ∧ Open (joinOp o op) bs ∧
      ∀ q ∈ S', q ∈ S ∨ st.heap.length ≤ q := by
  have hsame : ∀ q < st.heap.length, q ≠ p → st.heap.node q = st.heap.node q := fun _ _ _ => rfl
  cases o with
  | noop =>
    obtain rfl : bs = [a] := hfull
    have hstep := step_op_noop hae hneed h.obj h.op op
    refine ⟨_, S, run_cons.mpr ⟨_, hstep, rfl⟩, hae,
      ⟨rfl, hneg, length_update.ge, fun q _ hne => node_update hne⟩,
      h.setOp (binaryOp op), ?_, fun q hq => .inl hq⟩
    cases op <;> simp [Open, joinOp, binaryOp]
  | and =>
    have hbs : 2 ≤ bs.length := hfull
    cases op with
    | or => cases hdet
    | and =>
      have hstep : st.step (.op .and) = _ := step_op_same hae hneed h.obj h.op
      refine ⟨_, S, run_cons.mpr ⟨_, hstep, rfl⟩, hae, ⟨rfl, hneg, le_rfl, hsame⟩,
        h, ?_, fun q hq => .inl hq⟩
      exact List.length_pos_iff.mp (by omega)
  | or =>
    have hbs : 2 ≤ bs.length := hfull
    cases op with
    | or =>
      have hstep : st.step (.op .or) = _ := step_op_same hae hneed h.obj h.op
      refine ⟨_, S, run_cons.mpr ⟨_, hstep, rfl⟩, hae, ⟨rfl, hneg, le_rfl, hsame⟩,
        h, ?_, fun q hq => .inl hq⟩
      exact List.length_pos_iff.mp (by omega)
    | and =>
      have hstep := step_and_or hae hneed h.obj h.op (h.vals.length_eq ▸ hbs)
      refine ⟨_, _, run_cons.mpr ⟨_, hstep, rfl⟩, hae,
        ⟨rfl, hneg, ?_, fun q hq hne => node_wrapLast hq hne⟩, Holds.wrapLast h hbs, ?_, ?_⟩
      · rw [length_wrapLast]
        exact Nat.le_succ _
      · exact List.length_pos_iff.mp (by omega)
      · rintro q (rfl | hq)
        · exact .inr le_rfl
        · exact .inl hq

/-- OR behind an AND: a new node above. -/
theorem op_detached (hae : st.ae = some p) (hneg : st.negate = false)
    (hneed : st.needObj = false) (h : Holds τ st.heap S p neg .and a bs) (hfull : Full .and a bs) :
    ∃ st', st.run [.op .or] = .ok st' ∧ st'.ae = some st.heap.length ∧
      Moved st st' st.heap.length ∧
      Holds τ st'.heap (insert p S) st.heap.length false .or (neg ^^ a) [neg ^^ a] := by
  have hbs : 2 ≤ bs.length := hfull
  have hstep := step_or_and hae hneed h.obj h.op (h.vals.length_eq ▸ hbs)
  have hle : st.heap.length ≤ (st.heap.alloc { op := .or, children := [p] }).length := by
    rw [length_alloc]
    exact Nat.le_succ _
  have hframe : ∀ q ∈ insert p S,
      (st.heap.alloc { op := .or, children := [p] }).node q = st.heap.node q :=
    fun q hq => node_alloc (h.closed_insert q hq).1
  have hv : st.heap.Evals τ p (neg ^^ a) := by simpa using h.evals
  refine ⟨_, run_cons.mpr ⟨_, hstep, rfl⟩, rfl, ⟨rfl, hneg, hle, fun q hq _ => node_alloc hq⟩, ?_⟩
  exact Holds.wrapper (by simp [ParseState.wrap]) node_alloc_self (.inl rfl)
    (fun hmem => (h.closed_insert _ hmem).1.false) (h.closed_insert.frame hle hframe)
    (evals_frame h.closed_insert hframe (.inl rfl) hv)

theorem Moved.trans {st'' : ParseState A} (h : Moved st st' p) (h' : Moved st' st'' p) :
    Moved st st'' p where
  ps := h'.ps.trans h.ps
  negate := h'.negate
  le := h.le.trans h'.le
  frame q hq hne := (h'.frame q (hq.trans_le h.le) hne).trans (h.frame q hq hne)

/-- An operator and what follows it, behind the operands of `p`. -/
theorem take_next (ih : TakeOk τ rest) (hae : st'.ae = some p)
    (hg : Grown τ st st' S p neg o a) (op : BoolOp) :
    ∃ st'', st'.run (.op op :: rest.tokens) = .ok st'' ∧
      Grown τ st st'' S p neg (joinOp o op)
        (if detaches o op then a else grow (joinOp o op) a (rest.map τ)) := by
  obtain ⟨S₁, bs, hh, hfull, hS₁⟩ := hg.holds
  by_cases hdet : detaches o op = true
  · -- the rest goes into a node that nothing points to
    obtain ⟨rfl, rfl⟩ : o = .and ∧ op = .or := by
      cases o <;> cases op <;> first | exact ⟨rfl, rfl⟩ | cases hdet
    obtain ⟨st₁, hrun, hae₁, hmoved, hholds⟩ := op_detached hae hg.negate hg.needObj hh hfull
    obtain ⟨st₂, hrun', hg₂⟩ := ih hae₁ hmoved.negate hholds (List.cons_ne_nil _ _)
    refine ⟨st₂, run_append hrun hrun', ?_⟩
    have hframe : ∀ q < st'.heap.length, st₂.heap.node q = st'.heap.node q := by
      intro q hq
      exact (hg₂.frame q (hq.trans_le hmoved.le) hq.ne).trans (hmoved.frame q hq hq.ne)
    have hle : st'.heap.length ≤ st₂.heap.length := hmoved.le.trans hg₂.le
    have hrest : Moved st' st₂ p :=
      ⟨hg₂.ps.trans hmoved.ps, hg₂.negate, hle, fun q hq _ => hframe q hq⟩
    exact ⟨hg.toMoved.trans hrest, hg₂.needObj, S₁, bs,
      hh.frame hle (hframe p hh.lt) fun q hq => hframe q (hh.closed q hq).1, hfull, hS₁⟩
  rw [not_eq_true] at hdet
  obtain ⟨st₁, S₂, hrun, hae₁, hmoved, hholds, hopen, hS₂⟩ :=
    op_attached hae hg.negate hg.needObj hh hfull hdet
  obtain ⟨st₂, hrun', hg₂⟩ := ih hae₁ hmoved.negate hholds hopen
  obtain ⟨S₃, bs', hh', hfull', hS₃⟩ := hg₂.holds
  have hjoin : endOp (joinOp o op) rest = joinOp o op := by
    cases o <;> cases op <;> rfl
  rw [hdet, if_neg Bool.false_ne_true]
  rw [hjoin] at hh' hfull'
  refine ⟨st₂, run_append hrun hrun',
    hg.toMoved.trans (hmoved.trans hg₂.toMoved), hg₂.needObj, S₃, bs', hh', hfull', ?_⟩
  intro q hq
  rcases hS₃ q hq with hq | hq
  · rcases hS₂ q hq with hq | hq
    · exact hS₁ q hq
    · exact .inr (hg.le.trans hq)
  · exact .inr ((hg.le.trans hmoved.le).trans hq)

theorem takeOk (e : Chain A) : TakeOk τ e := by
  induction e with
  | leaf k x =>
    intro st S p neg o a bs hae hneg h hopen
    refine ⟨_, run_leaf hneg k x, ?_⟩
    have hend : endOp o (.leaf k x) = o := by
      cases o <;> rfl
    rw [hend]
    exact take_leaf hae h hopen k.bodd x
  | group k e ih =>
    intro st S p neg o a bs hae hneg h hopen
    obtain ⟨st', hrun, -, hg⟩ :=
      take_group ih (fun p' hp' => Option.some.inj (hae.symm.trans hp') ▸ h.lt) hneg k
    refine ⟨st', hrun, ?_⟩
    have hend : endOp o (.group k e) = o := by
      cases o <;> rfl
    rw [hend, Chain.map, grow, rootOp_map]
    exact hg.child hae h hopen
  | leafOp k x op rest ih =>
    intro st S p neg o a bs hae hneg h hopen
    have hae' : (leafState st k.bodd x).ae = some p := by simp [leafState, hae]
    obtain ⟨st', hrun, hg⟩ := take_next ih hae' (take_leaf hae h hopen k.bodd x) op
    refine ⟨st', ?_, ?_⟩
    · rw [Chain.tokens, List.append_cons]
      exact run_append (run_leaf hneg k x) hrun
    · have hend : endOp o (.leafOp k x op rest) = joinOp o op := by
        cases o <;> rfl
      rw [hend, Chain.map, grow]
      exact hg
  | groupOp k e op rest ihe ih =>
    intro st S p neg o a bs hae hneg h hopen
    obtain ⟨st₁, hrun, hae₁, hg⟩ :=
      take_group ihe (fun p' hp' => Option.some.inj (hae.symm.trans hp') ▸ h.lt) hneg k
    obtain ⟨st', hrun', hg'⟩ := take_next ih hae₁ hg op
    refine ⟨st', ?_, ?_⟩
    · rw [tokens_groupOp]
      exact run_append hrun hrun'
    · have hend : endOp o (.groupOp k e op rest) = o := by
        cases o <;> rfl
      have hchild := hg'.child hae h hopen
      rw [decide_eq_true (joinOp_ne_noop _ op), Bool.true_and] at hchild
      rw [hend, Chain.map, grow, rootOp_map]
      exact hchild

/-! ## The top level -/

variable (τ) in
/-- The parser may end here, and the root has the value `v`. -/
def Done (st : ParseState A) (v : Bool) : Prop := ∃ q, st.root = .ok q ∧ st.heap.Evals τ q v

variable (e : Chain A)

variable (τ) in
/-- A chain can be read behind an operator at the top level. -/
def TopOk : Prop :=
  ∀ {st : ParseState A} {S : Set Nat} {p : Nat} {neg : Bool} {o : BinaryOp} {a : Bool}
    {bs : List Bool}, st.ae = some p → st.ps = [] → st.negate = false →
    Holds τ st.heap S p neg o a bs → Open o bs → o ≠ .noop →
    ∃ st', st.run e.tokens = .ok st' ∧ Done τ st' (growTop neg o a (e.map τ))

theorem Grown.done (hg : Grown τ st st' S p neg o a) (hae : st'.ae = some p) (hps : st.ps = []) :
    Done τ st' (neg ^^ (o ≠ .noop && a)) := by
  obtain ⟨S', bs, hh, hfull, -⟩ := hg.holds
  refine ⟨p, ?_, hh.evals⟩
  have hchildren : (st'.heap.node p).children ≠ [] := by
    rw [← List.length_pos_iff, hh.vals.length_eq]
    cases o with
    | noop =>
      obtain rfl : bs = [a] := hfull
      exact Nat.one_pos
    | and | or => exact lt_of_lt_of_le Nat.two_pos hfull
  simp [ParseState.root, hg.ps, hps, hg.needObj, hae, hchildren]

/-- An operator and what follows it, behind the operands of `p`. -/
theorem top_next (ih : TopOk τ rest) (hae : st'.ae = some p) (hps : st.ps = [])
    (hg : Grown τ st st' S p neg o a) (op : BoolOp) :
    ∃ st'', st'.run (.op op :: rest.tokens) = .ok st'' ∧
      Done τ st'' (if detaches o op then growTop false .or (neg ^^ a) (rest.map τ)
        else growTop neg (joinOp o op) a (rest.map τ)) := by
  obtain ⟨S₁, bs, hh, hfull, -⟩ := hg.holds
  have hps' := hg.ps.trans hps
  by_cases hdet : detaches o op = true
  · obtain ⟨rfl, rfl⟩ : o = .and ∧ op = .or := by
      cases o <;> cases op <;> first | exact ⟨rfl, rfl⟩ | cases hdet
    obtain ⟨st₁, hrun, hae₁, hmoved, hholds⟩ := op_detached hae hg.negate hg.needObj hh hfull
    obtain ⟨st₂, hrun', hdone⟩ := ih hae₁ (hmoved.ps.trans hps') hmoved.negate hholds
      (List.cons_ne_nil _ _) BinaryOp.noConfusion
    exact ⟨st₂, run_append hrun hrun', hdone⟩
  rw [not_eq_true] at hdet
  obtain ⟨st₁, S₂, hrun, hae₁, hmoved, hholds, hopen, -⟩ :=
    op_attached hae hg.negate hg.needObj hh hfull hdet
  obtain ⟨st₂, hrun', hdone⟩ := ih hae₁ (hmoved.ps.trans hps') hmoved.negate hholds hopen
    (joinOp_ne_noop o op)
  rw [hdet, if_neg Bool.false_ne_true]
  exact ⟨st₂, run_append hrun hrun', hdone⟩

/-- A group at the top level, whatever stands before it. -/
theorem top_group (hae : ∀ p, st.ae = some p → p < st.heap.length)
    (hps : st.ps = []) (hneg : st.negate = false) (k : Nat) :
    ∃ st', st.run (Chain.group k e).tokens = .ok st' ∧
      Done τ st' (growTop neg o a ((Chain.group k e).map τ)) := by
  obtain ⟨st', hrun, hae', hg⟩ := take_group (takeOk e) hae hneg k
  refine ⟨st', hrun, ?_⟩
  rw [Chain.map, growTop, rootOp_map]
  exact hg.done hae' hps

theorem top_groupOp (ih : TopOk τ rest)
    (hae : ∀ p, st.ae = some p → p < st.heap.length) (hps : st.ps = []) (hneg : st.negate = false)
    (k : Nat) (op : BoolOp) :
    ∃ st', st.run (Chain.groupOp k e op rest).tokens = .ok st' ∧
      Done τ st' (growTop neg o a ((Chain.groupOp k e op rest).map τ)) := by
  obtain ⟨st₁, hrun, hae₁, hg⟩ := take_group (takeOk e) hae hneg k
  have hps₁ : (groupState st k.bodd).ps = [] := hps
  obtain ⟨st', hrun', hdone⟩ := top_next ih hae₁ hps₁ hg op
  refine ⟨st', ?_, ?_⟩
  · rw [tokens_groupOp]
    exact run_append hrun hrun'
  · rw [Chain.map, growTop, rootOp_map]
    exact hdone

theorem topOk : TopOk τ e := by
  induction e with
  | leaf k x =>
    intro st S p neg o a bs hae hps hneg h hopen hop
    refine ⟨_, run_leaf hneg k x, ?_⟩
    have hae' : (leafState st k.bodd x).ae = some p := by simp [leafState, hae]
    have hdone := (take_leaf hae h hopen k.bodd x).done hae' hps
    rw [decide_eq_true hop, Bool.true_and] at hdone
    exact hdone
  | group k e =>
    intro st S p neg o a bs hae hps hneg h hopen hop
    exact top_group e (fun p' hp' => Option.some.inj (hae.symm.trans hp') ▸ h.lt) hps hneg k
  | leafOp k x op rest ih =>
    intro st S p neg o a bs hae hps hneg h hopen hop
    have hae' : (leafState st k.bodd x).ae = some p := by simp [leafState, hae]
    obtain ⟨st', hrun, hdone⟩ := top_next ih hae' hps (take_leaf hae h hopen k.bodd x) op
    refine ⟨st', ?_, ?_⟩
    · rw [Chain.tokens, List.append_cons]
      exact run_append (run_leaf hneg k x) hrun
    · rw [Chain.map, growTop]
      exact hdone
  | groupOp k e op rest _ ih =>
    intro st S p neg o a bs hae hps hneg h hopen hop
    exact top_groupOp e ih (fun p' hp' => Option.some.inj (hae.symm.trans hp') ▸ h.lt) hps hneg k op

variable (τ) in
/-- An operator behind the first leaf. -/
theorem op_first (b : Bool) (x : A) (op : BoolOp) :
    ∃ st', (leafState {} b x).run [.op op] = .ok st' ∧ st'.ae = some 1 ∧ st'.ps = [] ∧
      st'.negate = false ∧ Holds τ st'.heap {0} 1 false (binaryOp op) (b ^^ τ x) [b ^^ τ x] := by
  have hstep : (leafState {} b x).step (.op op) = _ := step_op_leaf rfl rfl rfl op
  refine ⟨_, run_cons.mpr ⟨_, hstep, rfl⟩, rfl, rfl, rfl, ?_⟩
  refine Holds.wrapper Nat.one_lt_two rfl rfl Nat.one_ne_zero ?_ (evals_leaf rfl)
  rintro q rfl
  exact ⟨Nat.two_pos, List.forall_mem_nil _⟩

variable (τ) in
/-- The parser accepts each chain. -/
theorem run_tokens (e : Chain A) :
    ∃ st', ({} : ParseState A).run e.tokens = .ok st' ∧
      Done τ st' (growTop false .noop false (e.map τ)) := by
  have hae : ∀ p, ({} : ParseState A).ae = some p → p < ({} : ParseState A).heap.length := by
    intro p hp
    cases hp
  cases e with
  | leaf k x =>
    refine ⟨_, run_leaf rfl k x, 0, rfl, ?_⟩
    rw [Chain.map, growTop, false_xor]
    exact evals_leaf rfl
  | group k e => exact top_group e hae rfl rfl k
  | leafOp k x op rest =>
    obtain ⟨st₁, hrun, hae₁, hps, hneg, hholds⟩ := op_first τ k.bodd x op
    have hopen : Open (binaryOp op) [k.bodd ^^ τ x] := by
      cases op <;> simp [Open, binaryOp]
    obtain ⟨st', hrun', hdone⟩ := topOk rest hae₁ hps hneg hholds hopen (joinOp_ne_noop .noop op)
    refine ⟨st', ?_, hdone⟩
    rw [Chain.tokens, List.append_cons]
    exact run_append (run_leaf rfl k x) (run_append hrun hrun')
  | groupOp k e op rest => exact top_groupOp e (topOk rest) hae rfl rfl k op

end

end AreaParse

/-! ## Expressions as they are written -/

section Expressions

variable {N G : Type} [LinearOrder N] (lib : ServerLib N G) (alib : AreaParseLib N G)
  (s : ServerState G) (doClip : Bool) (tests : ObjectTests (Geometry G))

/-- All tokens are taken, and each object is tested against the expression as
against the formula. -/
def ReadsAs (f : Formula (AreaLeaf lib alib s doClip)) (vs : List Bytes) : Prop :=
  ∃ ae, parseAreaExpression lib alib s doClip vs = .ok ([], ae) ∧ ∀ o, ∃ enough, ∀ fuel ≥ enough,
    ae.Within tests fuel o = some (f.eval fun l => tests.within l.obj o) ∧
    ae.Intersects tests fuel o = some (f.eval fun l => tests.intersects l.obj o)

variable {lib alib s doClip}

open AreaParse

variable {c : Chain (AreaLeaf lib alib s doClip)} {vs : List Bytes}

/-- The tree of a spelled chain. -/
theorem parseAreaExpression_spelled (hvs : Spelled lib alib s doClip c.tokens vs) :
    ∃ ae, parseAreaExpression lib alib s doClip vs = .ok ([], ae) ∧
      ∀ τ, ae.heap.Evals τ ae.root (growTop false .noop false (c.map fun l => τ l.obj)) := by
  have hrun := fun τ => run_tokens τ (c.map AreaLeaf.obj)
  obtain ⟨st, hst, q, hq, -⟩ := hrun fun _ => true
  rw [tokens_map] at hst
  refine ⟨⟨st.heap, q⟩, ?_, fun τ => ?_⟩
  · rw [parseAreaExpression, parseLoop_spelled hvs hst]
    simp [bind, Except.bind, hq]
  · obtain ⟨st', hst', q', hq', hv⟩ := hrun τ
    rw [tokens_map, hst] at hst'
    obtain rfl := Except.ok.inj hst'
    obtain rfl := Except.ok.inj (hq.symm.trans hq')
    rw [map_map] at hv
    exact hv

theorem eval_of_prints {L : Type} {c : Chain L} {f : Formula L} (h : Prints .disj f c.tokens)
    (σ : L → Bool) : f.eval σ = (c.map σ).eval := by
  obtain ⟨c', -, htokens, heval⟩ := h.chain
  obtain rfl := tokens_injective htokens
  exact (heval σ).symm

/-- The words of a token. -/
def spell : Token (AreaLeaf lib alib s doClip) → List Bytes
  | .leaf l => l.toks
  | .not => [lit "NOT"]
  | .op .and => [lit "AND"]
  | .op .or => [lit "OR"]
  | .lparen => [lit "("]
  | .rparen => [lit ")"]

theorem spelled_flatMap (ts : List (Token (AreaLeaf lib alib s doClip))) :
    Spelled lib alib s doClip ts (ts.flatMap spell) := by
  induction ts with
  | nil => exact .nil
  | cons t ts ih =>
    refine .cons ?_ ih
    cases t with
    | leaf l => rfl
    | not => exact ⟨lit "NOT", rfl, by decide⟩
    | lparen => exact ⟨lit "(", rfl, by decide⟩
    | rparen => exact ⟨lit ")", rfl, by decide⟩
    | op o =>
      cases o with
      | and => exact ⟨lit "AND", rfl, by decide⟩
      | or => exact ⟨lit "OR", rfl, by decide⟩

variable {f : Formula (AreaLeaf lib alib s doClip)}

/-- The tree has the value of the chain, so the expression is read as written. -/
theorem readsAs_of_growTop (h : ∀ σ, growTop false .noop false (c.map σ) = (c.map σ).eval)
    (hf : Prints .disj f c.tokens)
    (hvs : Spelled lib alib s doClip c.tokens vs) : ReadsAs lib alib s doClip tests f vs := by
  obtain ⟨ae, hparse, hae⟩ := parseAreaExpression_spelled hvs
  have hvalue : ∀ τ : Geometry G → Bool, ae.heap.Evals τ ae.root (f.eval fun l => τ l.obj) := by
    intro τ
    rw [eval_of_prints hf, ← h]
    exact hae τ
  refine ⟨ae, hparse, fun o => ?_⟩
  obtain ⟨n, hwithin⟩ := (hvalue fun obj => tests.within obj o).exists_enough
  obtain ⟨m, hintersects⟩ := (hvalue fun obj => tests.intersects obj o).exists_enough
  refine ⟨max n m, fun fuel hfuel => ⟨hwithin fuel ?_, hintersects fuel ?_⟩⟩
  · exact (le_max_left n m).trans hfuel
  · exact (le_max_right n m).trans hfuel

/-- An expression that is read as written has the value of the chain in its tree. -/
theorem growTop_of_readsAs (hf : Prints .disj f c.tokens)
    (hvs : Spelled lib alib s doClip c.tokens vs) (h : ReadsAs lib alib s doClip tests f vs)
    (o : Geometry G) :
    growTop false .noop false (c.map fun l => tests.within l.obj o) =
      (c.map fun l => tests.within l.obj o).eval := by
  obtain ⟨ae, hparse, hae⟩ := parseAreaExpression_spelled hvs
  obtain ⟨ae', hparse', hae'⟩ := h
  obtain ⟨-, rfl⟩ := Prod.mk.inj (Except.ok.inj (hparse.symm.trans hparse'))
  obtain ⟨enough, htests⟩ := hae' o
  have hvalue : ae.heap.Evals (fun obj => tests.within obj o) ae.root
      (f.eval fun l => tests.within l.obj o) := ⟨enough, (htests enough le_rfl).1⟩
  rw [← eval_of_prints hf]
  exact (hae _).unique hvalue

/-- A parsed area expression is tested as it is written, whatever its areas are,
exactly for the arrangements of `good`.  The tests must tell two areas apart. -/
theorem parseAreaExpression_iff (e : Chain Unit)
    (hrich : ∃ o, ∃ l l' : AreaLeaf lib alib s doClip,
      tests.within l.obj o = true ∧ tests.within l'.obj o = false) :
    (∀ c : Chain (AreaLeaf lib alib s doClip), c.shape = e → ∀ f, Prints .disj f c.tokens →
      ∀ vs, Spelled lib alib s doClip c.tokens vs → ReadsAs lib alib s doClip tests f vs) ↔
    good e = true := by
  rw [← good_iff]
  constructor
  · obtain ⟨o, l, l', hl, hl'⟩ := hrich
    intro h b hb
    -- the leaves of the expression have the values of `b`
    have hc : (b.map fun v => if v then l else l').map (fun l => tests.within l.obj o) = b := by
      have hleaf : ∀ v : Bool, tests.within (if v then l else l').obj o = v := by
        intro v
        cases v with
        | true => exact hl
        | false => exact hl'
      rw [map_map]
      simp only [hleaf]
      exact b.map_id
    obtain ⟨f, hf⟩ := (b.map fun v => if v then l else l').exists_prints
    have hvs := spelled_flatMap (b.map fun v => if v then l else l').tokens
    have hshape : (b.map fun v => if v then l else l').shape = e := by
      rw [Chain.shape, map_map]
      exact hb.trans e.map_id
    have hvalue := growTop_of_readsAs tests hf hvs (h _ hshape f hf _ hvs) o
    rw [hc] at hvalue
    exact hvalue
  · rintro h c rfl f hf vs hvs
    refine readsAs_of_growTop tests (fun σ => h (c.map σ) ?_) hf hvs
    simp only [Chain.shape, map_map]

end Expressions

/-! ## A small instance

Areas of the yard, which hold all objects, and areas that hold none. -/

def yardAreaLib : AreaParseLib Int Bool where
  parseUint := fun _ => none
  sector := fun _ _ _ _ _ => .error []
  newCircle := fun _ _ _ => false
  boundingBox := fun _ => (.nan, .nan, .nan, .nan)
  quadKeyToBounds := fun _ => none
  tileXYToBounds := fun _ _ _ => (.nan, .nan, .nan, .nan)

def yardTests : ObjectTests (Geometry Bool) where
  within := fun area _ => area = .spatial true
  intersects := fun area _ => area = .spatial true

abbrev YardLeaf := AreaLeaf yardLib yardAreaLib ServerState.empty false

def yes : YardLeaf := ⟨[lit "OBJECT", lit "in"], .spatial true, by decide +kernel⟩

def no : YardLeaf := ⟨[lit "OBJECT", lit "out"], .spatial false, by decide +kernel⟩

/-- `( out AND ( in OR out ) )`. -/
theorem parseAreaExpression_iff_nested :
    good (.group 0 (.leafOp 0 () .and (.group 0 (.leafOp 0 () .or (.leaf 0 ()))))) = true ∧
    ReadsAs yardLib yardAreaLib ServerState.empty false yardTests
      (.and (.leaf no) (.or (.leaf yes) (.leaf no)))
      [lit "(", lit "OBJECT", lit "out", lit "AND", lit "(", lit "OBJECT", lit "in", lit "OR",
        lit "OBJECT", lit "out", lit ")", lit ")"] := by
  have hgood : good (.group 0 (.leafOp 0 () .and (.group 0 (.leafOp 0 () .or (.leaf 0 ()))))) =
      true := by decide
  have hrich : ∃ o, ∃ l l' : YardLeaf,
      yardTests.within l.obj o = true ∧ yardTests.within l'.obj o = false :=
    ⟨.spatial true, yes, no, rfl, rfl⟩
  refine ⟨hgood, (parseAreaExpression_iff yardTests _ hrich).mpr hgood
    (.group 0 (.leafOp 0 no .and (.group 0 (.leafOp 0 yes .or (.leaf 0 no))))) rfl _ ?_ _
    (spelled_flatMap _)⟩
  have hor : Prints .disj (.or (.leaf yes) (.leaf no)) [.leaf yes, .op .or, .leaf no] :=
    .or (.disj (.conj (.leaf yes))) (.disj (.conj (.leaf no)))
  exact .disj (.conj (.paren (.disj (.and (.conj (.leaf no)) (.conj (.paren hor))))))

/-- The words print the formula, and are read as something else. -/
def Misread (f : Formula YardLeaf) (vs : List Bytes) : Prop :=
  ∃ ts, Prints .disj f ts ∧ Spelled yardLib yardAreaLib ServerState.empty false ts vs ∧
    ¬ ReadsAs yardLib yardAreaLib ServerState.empty false yardTests f vs

theorem misread {f : Formula YardLeaf} (c : Chain YardLeaf) (hf : Prints .disj f c.tokens)
    (hne : growTop false .noop false (c.map fun l => yardTests.within l.obj (.spatial true)) ≠
      (c.map fun l => yardTests.within l.obj (.spatial true)).eval) :
    Misread f (c.tokens.flatMap spell) :=
  ⟨c.tokens, hf, spelled_flatMap _, fun hreads =>
    hne (growTop_of_readsAs yardTests hf (spelled_flatMap _) hreads (.spatial true))⟩

/-- What stands before a group is lost at the top level; AND behind an OR does not
bind tighter; a group of one area is false. -/
theorem parseAreaExpression_misreads : Misread (.and (.leaf no) (.or (.leaf yes) (.leaf no)))
      [lit "OBJECT", lit "out", lit "AND", lit "(", lit "OBJECT", lit "in", lit "OR",
        lit "OBJECT", lit "out", lit ")"] ∧
    Misread (.or (.leaf no) (.and (.leaf no) (.leaf yes)))
      [lit "OBJECT", lit "out", lit "OR", lit "OBJECT", lit "out", lit "AND", lit "OBJECT",
        lit "in"] ∧
    Misread (.leaf yes) [lit "(", lit "OBJECT", lit "in", lit ")"] := by
  have hyes : Prints .unary (.leaf yes) [.leaf yes] := .leaf yes
  have hno : Prints .unary (.leaf no) [.leaf no] := .leaf no
  refine ⟨?_, ?_, ?_⟩
  · have hor := Prints.or (.disj (.conj hyes)) (.disj (.conj hno))
    exact misread (.leafOp 0 no .and (.group 0 (.leafOp 0 yes .or (.leaf 0 no))))
      (.disj (.and (.conj hno) (.conj (.paren hor)))) (by decide)
  · exact misread (.leafOp 0 no .or (.leafOp 0 no .and (.leaf 0 yes)))
      (.or (.disj (.conj hno)) (.disj (.and (.conj hno) (.conj hyes)))) (by decide)
  · exact misread (.group 0 (.leaf 0 yes)) (.disj (.conj (.paren (.disj (.conj hyes))))) (by decide)

end SpatialDb.Server
