import SpatialDb.Server.Area

/-!
# Where the operands of an area expression go

`parseAreaExpression` goes on in the node that it has closed last.  Behind a
group, operators and operands go into the group and not behind it, until the
parenthesis around it is closed; at the top level, what stood before a group is
lost.  A node that gets no operator of its own is false.

This module says what the tree gives (`grow`, `growTop`) and for which
arrangements of operands that is the value of the expression.
-/

namespace SpatialDb.Server

open Lib Infix Chain

/-! ## The value of the tree -/

def binaryOp : BoolOp → BinaryOp
  | .and => .and
  | .or => .or

namespace AreaTree

variable {L : Type} (o : BinaryOp)

/-- The value of a node with the operator `o` and one more child; a node without
an operator has only one. -/
def push (a v : Bool) : Bool :=
  match o with
  | .and => a && v
  | .or => a || v
  | .noop => v

/-- The operator of a node once it has got `op`. -/
def joinOp : BinaryOp → BoolOp → BinaryOp
  | .noop, op => binaryOp op
  | .and, _ => .and
  | .or, _ => .or

theorem joinOp_ne_noop (op : BoolOp) : joinOp o op ≠ .noop := by
  cases o <;> cases op <;> simp [joinOp, binaryOp]

/-- OR behind an AND makes a new node, which the stack of parents does not know. -/
def detaches : BinaryOp → BoolOp → Bool
  | .and, .or => true
  | _, _ => false

theorem eq_or_of_detaches {o : BinaryOp} {op : BoolOp} (h : detaches o op = true) : op = .or := by
  cases o <;> cases op <;> first | rfl | cases h

/-- The operator of the node of a group. -/
def rootOp : Chain L → BinaryOp
  | .leafOp _ _ op _ => binaryOp op
  | _ => .noop

/-- What the children of a node give once a chain has been read into it. -/
def grow (o : BinaryOp) (a : Bool) : Chain Bool → Bool
  | .leaf k b => push o a (k.bodd ^^ b)
  | .group k e => push o a (k.bodd ^^ (rootOp e ≠ .noop && grow .noop false e))
  | .leafOp k b op rest =>
    if detaches o op then push o a (k.bodd ^^ b)
    else grow (joinOp o op) (push o a (k.bodd ^^ b)) rest
  | .groupOp k e op rest =>
    -- the rest is read into the group
    push o a (k.bodd ^^ (if detaches (rootOp e) op then grow .noop false e
      else grow (joinOp (rootOp e) op) (grow .noop false e) rest))

/-- The value of the tree at the top level, where a new node is kept. -/
def growTop (neg : Bool) (o : BinaryOp) (a : Bool) : Chain Bool → Bool
  | .leaf k b => neg ^^ push o a (k.bodd ^^ b)
  | .group k e => k.bodd ^^ (rootOp e ≠ .noop && grow .noop false e)
  | .leafOp k b op rest =>
    if detaches o op then growTop false .or (neg ^^ push o a (k.bodd ^^ b)) rest
    else growTop neg (joinOp o op) (push o a (k.bodd ^^ b)) rest
  | .groupOp k e op rest =>
    if detaches (rootOp e) op then growTop false .or (k.bodd ^^ grow .noop false e) rest
    else growTop k.bodd (joinOp (rootOp e) op) (grow .noop false e) rest

/-! ## Arrangements that come out right -/

/-- A chain fits into a node with the operator `o`: before its first group all
operators are the node's, and each group is not negated and takes what follows
with its own operator. -/
def fits (o : BinaryOp) : Chain L → Bool
  | .leaf _ _ => true
  | .group _ e => rootOp e ≠ .noop && fits .noop e
  | .leafOp _ _ op rest => (o = .noop || o = binaryOp op) && fits (binaryOp op) rest
  | .groupOp k e op rest =>
    !k.bodd && fits .noop e && (rootOp e = .noop || rootOp e = binaryOp op) &&
      fits (binaryOp op) rest && (o ≠ .and || op = .and && rest.andOnly)

/-- What may follow at the top level: leaves, with no AND behind an OR. -/
def goodRest (op : BoolOp) : Chain L → Bool
  | .leaf _ _ => true
  | .leafOp _ _ op' rest => (op = .and || op' = .or) && goodRest op' rest
  | .group _ _ | .groupOp _ _ _ _ => false

/-- The arrangements that the parser gets right. -/
def good : Chain L → Bool
  | .leaf _ _ => true
  | .group _ e => rootOp e ≠ .noop && fits .noop e
  | .leafOp _ _ op rest => goodRest op rest
  | .groupOp k e op rest =>
    fits .noop e && goodRest op rest &&
      (detaches (rootOp e) op || !k.bodd && (rootOp e = .noop || rootOp e = binaryOp op))

/-- The value of a chain behind `a`, as a node with the operator `o` has it. -/
def expected (a : Bool) (e : Chain Bool) : Bool :=
  match o with
  | .noop => e.eval
  | .and => e.evalFrom a
  | .or => a || e.eval

/-! ### What `grow` depends on -/

variable {M : Type} {e rest : Chain L} {o : BinaryOp} {op op' : BoolOp} {neg : Bool} {k : Nat}

variable (a : Bool) (f : L → M)

@[simp] theorem rootOp_map (e : Chain L) : rootOp (e.map f) = rootOp e := by
  cases e <;> rfl

theorem rootOp_of_shape {b : Chain M} (h : b.shape = e.shape) : rootOp b = rootOp e := by
  rw [← rootOp_map (fun _ => ()) e, ← rootOp_map (fun _ => ()) b]
  exact congrArg rootOp h

theorem grow_noop (a a' : Bool) (e : Chain Bool) : grow .noop a e = grow .noop a' e := by
  cases e <;> rfl

theorem grow_and (e : Chain Bool) : grow .and a e = (a && grow .and true e) := by
  induction e generalizing a with
  | leaf k b => simp [grow, push]
  | group k e => simp [grow, push]
  | leafOp k b op rest ih =>
    cases op with
    | or => simp [grow, detaches, push]
    | and =>
      simp only [grow, detaches, joinOp, push, Bool.false_eq_true, if_false]
      rw [ih (a && _), ih (true && _), Bool.true_and, Bool.and_assoc]
  | groupOp k e op rest => simp [grow, push]

theorem grow_or (e : Chain Bool) : grow .or a e = (a || grow .or false e) := by
  induction e generalizing a with
  | leaf k b => simp [grow, push]
  | group k e => simp [grow, push]
  | leafOp k b op rest ih =>
    simp only [grow, detaches, joinOp, push, Bool.false_eq_true, if_false]
    rw [ih (a || _), ih (false || _), Bool.false_or, Bool.or_assoc]
  | groupOp k e op rest => simp [grow, push]

theorem push_mono {a v v' : Bool} (hv : v = true → v' = true) (h : push o a v = true) :
    push o a v' = true := by
  cases o with
  | noop => exact hv h
  | and =>
    rw [push, Bool.and_eq_true] at h ⊢
    exact ⟨h.1, hv h.2⟩
  | or =>
    rw [push, Bool.or_eq_true] at h ⊢
    exact h.imp_right hv

theorem grow_mono {a a' : Bool} (ha : a = true → a' = true) {e : Chain Bool}
    (h : grow o a e = true) :
    grow o a' e = true := by
  cases o with
  | noop => exact (grow_noop a' a e).trans h
  | and =>
    rw [grow_and, Bool.and_eq_true] at h ⊢
    exact ⟨ha h.1, h.2⟩
  | or =>
    rw [grow_or, Bool.or_eq_true] at h ⊢
    exact h.imp_left ha

/-- A negation in front turns both the leaf and the value round. -/
theorem xor_mono {f : Bool → Bool} (hf : f false = true → f true = true) (neg : Bool) :
    (neg ^^ f (neg ^^ false)) = true → (neg ^^ f (neg ^^ true)) = true := by
  cases neg with
  | false => simpa using hf
  | true =>
    simp only [Bool.true_xor, Bool.not_false, Bool.not_true, Bool.not_eq_true']
    intro h
    cases hfalse : f false with
    | false => rfl
    | true => simp [hf hfalse] at h

/-- The first leaf of a chain does in the tree what it does in the chain, if
anything. -/
theorem grow_probe (e : Chain L) (o : BinaryOp) (a : Bool)
    (h : grow o a (e.probe false) = true) : grow o a (e.probe true) = true := by
  induction e generalizing o a with
  | leaf k l =>
    simp only [probe, grow] at h ⊢
    exact push_mono (by simp) h
  | group k e ih =>
    simp only [probe, grow, rootOp_of_shape (e.shape_probe _)] at h ⊢
    refine push_mono (xor_mono (f := fun v => rootOp e ≠ .noop && grow .noop false (e.probe v))
      ?_ k.bodd) h
    simp only [Bool.and_eq_true]
    exact fun hv => ⟨hv.1, ih _ _ hv.2⟩
  | leafOp k l op rest =>
    have hpush : push o a (k.bodd ^^ (k.bodd ^^ false)) = true →
        push o a (k.bodd ^^ (k.bodd ^^ true)) = true := push_mono (by simp)
    simp only [probe, grow] at h ⊢
    split_ifs at h with hdetach
    · rw [if_pos hdetach]
      exact hpush h
    · rw [if_neg hdetach]
      exact grow_mono hpush h
  | groupOp k e op rest ih =>
    simp only [probe, grow, rootOp_of_shape (e.shape_probe _)] at h ⊢
    refine push_mono (xor_mono (f := fun v => if detaches (rootOp e) op = true then
      grow .noop false (e.probe v) else
      grow (joinOp (rootOp e) op) (grow .noop false (e.probe v)) (rest.neutral op)) ?_ k.bodd) h
    split
    · exact ih _ _
    · exact grow_mono (ih _ _)

/-- If the value of a chain is a function of what its tree gives, then that is
its value. -/
theorem grow_of_factor (φ : Bool → Bool)
    (h : ∀ b, b.shape = e.shape → φ (grow .noop false b) = b.eval) {b : Chain Bool}
    (hb : b.shape = e.shape) : grow .noop false b = b.eval := by
  have htrue := h _ (e.shape_probe true)
  have hfalse := h _ (e.shape_probe false)
  rw [eval_probe] at htrue hfalse
  -- the two probes are told apart, in the right way
  have hmono := grow_probe e .noop false
  rw [← h b hb]
  cases hgrow : grow .noop false (e.probe false) <;>
    cases hgrow' : grow .noop false (e.probe true) <;>
    cases grow .noop false b <;> simp_all

/-! ### Inside of a group -/

theorem evalAfter_eq_expected (op : BoolOp) (a : Bool) (e : Chain Bool) :
    e.evalAfter op a = expected (binaryOp op) a e := by
  cases op <;> rfl

theorem expected_leafOp (o : BinaryOp) (a : Bool) (k : Nat) (b : Bool) (op : BoolOp)
    (rest : Chain Bool) (h : o = .noop ∨ o = binaryOp op) :
    expected o a (.leafOp k b op rest) = expected (binaryOp op) (push o a (k.bodd ^^ b)) rest := by
  rw [← evalAfter_eq_expected]
  rcases h with rfl | rfl
  · simp [expected, push, eval, evalFrom_leafOp]
  cases op with
  | and => rfl
  | or =>
    simp [expected, binaryOp, push, eval, evalFrom, evalAfter, Bool.or_assoc]

theorem join_of_root (h : o = .noop ∨ o = binaryOp op) :
    detaches o op = false ∧ joinOp o op = binaryOp op := by
  rcases h with rfl | rfl <;> cases op <;> exact ⟨rfl, rfl⟩

/-- What fits comes out right. -/
theorem grow_of_fits {e : Chain Bool} (h : fits o e = true) (a : Bool) :
    grow o a e = expected o a e := by
  induction e generalizing o a with
  | leaf k b => cases o <;> simp [grow, push, expected, eval, evalFrom]
  | group k e ih =>
    simp only [fits, Bool.and_eq_true] at h
    have he : grow .noop false e = e.eval := ih h.2 false
    rw [grow, h.1, he, Bool.true_and]
    cases o <;> simp [push, expected, eval, evalFrom]
  | leafOp k b op rest ih =>
    simp only [fits, Bool.and_eq_true, Bool.or_eq_true, decide_eq_true_eq] at h
    obtain ⟨hroot, hrest⟩ := h
    obtain ⟨hdetach, hjoin⟩ := join_of_root hroot
    rw [grow, hdetach, hjoin, expected_leafOp o a k b op rest hroot]
    exact ih hrest _
  | groupOp k e op rest ih ih' =>
    simp only [fits, Bool.and_eq_true, Bool.or_eq_true, decide_eq_true_eq] at h
    obtain ⟨⟨⟨⟨hneg, he⟩, hroot⟩, hrest⟩, hand⟩ := h
    obtain ⟨hdetach, hjoin⟩ := join_of_root hroot
    have heval : grow .noop false e = e.eval := ih he false
    have hneg' : k.bodd = false := by simpa using hneg
    rw [grow, hdetach, hjoin, heval, ih' hrest, ← evalAfter_eq_expected, hneg']
    cases o with
    | noop => simp [push, expected, eval, evalFrom_groupOp, hneg']
    | or => simp [push, expected, eval, evalFrom_groupOp, hneg']
    | and =>
      -- the node is a conjunction, so no OR may follow
      obtain ⟨rfl, honly⟩ : op = .and ∧ rest.andOnly = true := by simpa using hand
      simp only [push, expected, evalFrom_groupOp, hneg', Bool.false_xor, evalAfter,
        Bool.false_eq_true, if_false]
      rw [evalFrom_of_andOnly honly (a && _), evalFrom_of_andOnly honly, Bool.and_assoc]

/-- What follows a group: the tree is right for all leaves only if the group is
not negated and right itself, and goes on with its own operator. -/
theorem next_right (h : ∀ b b', b.shape = e.shape → b'.shape = rest.shape →
      (neg ^^ (if detaches (rootOp e) op then grow .noop false b
        else grow (joinOp (rootOp e) op) (grow .noop false b) b')) =
        b'.evalAfter op (neg ^^ b.eval)) :
    neg = false ∧ (rootOp e = .noop ∨ rootOp e = binaryOp op) ∧
      (∀ b, b.shape = e.shape → grow .noop false b = b.eval) ∧
      ∀ b', b'.shape = rest.shape → ∀ a, grow (binaryOp op) a b' = b'.evalAfter op a := by
  cases hdetach : detaches (rootOp e) op with
  | true =>
    -- the value would not depend on what follows
    obtain rfl := eq_or_of_detaches hdetach
    have htrue := h (e.fill neg) (rest.fill true) (e.shape_fill _) (rest.shape_fill _)
    have hfalse := h (e.fill neg) (rest.fill false) (e.shape_fill _) (rest.shape_fill _)
    rw [hdetach, if_pos rfl] at htrue hfalse
    rw [htrue] at hfalse
    simp [evalAfter] at hfalse
  | false =>
    simp only [hdetach, Bool.false_eq_true, if_false] at h
    have hgrow : ∀ b, b.shape = e.shape → grow .noop false b = b.eval := by
      intro b hb
      refine grow_of_factor (fun x => grow (joinOp (rootOp e) op) x (rest.neutral op)) ?_ hb
      intro b hb
      have hb' := h b (rest.neutral op) hb (rest.shape_neutral op)
      rw [evalAfter_neutral] at hb'
      simpa using hb'
    have hall : ∀ x b', b'.shape = rest.shape →
        (neg ^^ grow (joinOp (rootOp e) op) x b') = b'.evalAfter op (neg ^^ x) := by
      intro x b' hb'
      have hx := h (e.fill x) b' (e.shape_fill x) hb'
      rwa [hgrow _ (e.shape_fill x), eval_fill] at hx
    have hop : joinOp (rootOp e) op = binaryOp op ∧ (rootOp e = .noop ∨ rootOp e = binaryOp op) ∨
        joinOp (rootOp e) op = .or ∧ op = .and := by
      revert hdetach
      cases rootOp e <;> cases op <;> simp [detaches, joinOp, binaryOp]
    rcases hop with ⟨hjoin, hroot⟩ | ⟨hjoin, rfl⟩
    · rw [hjoin] at hall
      have hneg : neg = false := by
        cases neg with
        | false => rfl
        | true =>
          cases op with
          | and =>
            have hx := hall false (rest.fill false) (rest.shape_fill _)
            rw [binaryOp, grow_and] at hx
            simp [evalAfter, evalFrom_fill] at hx
          | or =>
            have hx := hall true (rest.fill true) (rest.shape_fill _)
            rw [binaryOp, grow_or] at hx
            simp [evalAfter] at hx
      subst hneg
      exact ⟨rfl, hroot, hgrow, fun b' hb' a => by simpa using hall a b' hb'⟩
    -- AND behind a group of ORs
    rw [hjoin] at hall
    cases neg with
    | false =>
      have hx := hall true (rest.fill false) (rest.shape_fill _)
      rw [grow_or] at hx
      simp [evalAfter, evalFrom_fill] at hx
    | true =>
      have hmono := grow_probe rest .or false
      have heval : ∀ v, (rest.probe v).evalFrom true = v := rest.eval_probe
      simp_all [evalAfter]

/-- The value that a node with the operator `o` begins with. -/
def unit (o : BinaryOp) : Bool := o = .and

theorem push_unit (o : BinaryOp) (v : Bool) : push o (unit o) v = v := by
  cases o <;> simp [push, unit]

theorem expected_unit (o : BinaryOp) (e : Chain Bool) : expected o (unit o) e = e.eval := by
  cases o <;> simp [expected, unit, eval]

/-- A group that ends without an operator is right for no leaves. -/
theorem group_right
    (h : ∀ b, b.shape = e.shape → (rootOp e ≠ .noop && grow .noop false b) = b.eval) :
    rootOp e ≠ .noop ∧ ∀ b, b.shape = e.shape → ∀ a, grow .noop a b = expected .noop a b := by
  have hroot : rootOp e ≠ .noop := by
    intro hnoop
    have htrue := h (e.fill true) (e.shape_fill true)
    simp [hnoop] at htrue
  refine ⟨hroot, fun b hb a => ?_⟩
  have hval := h b hb
  rw [decide_eq_true hroot, Bool.true_and] at hval
  exact (grow_noop a false b).trans hval

/-- A leaf in front of an operator: the node above has no other operator, and the
rest is right behind this one. -/
theorem leafOp_right {l : L}
    (h : ∀ b, b.shape = (leafOp k l op rest).shape → ∀ a, grow o a b = expected o a b) :
    (o = .noop ∨ o = binaryOp op) ∧
      ∀ b', b'.shape = rest.shape → ∀ a, grow (binaryOp op) a b' = expected (binaryOp op) a b' := by
  have hleaf : ∀ v b', b'.shape = rest.shape → ∀ a,
      (if detaches o op then push o a v else grow (joinOp o op) (push o a v) b') =
        expected o a (.leafOp k (k.bodd ^^ v) op b') := by
    intro v b' hb' a
    have hb := h (.leafOp k (k.bodd ^^ v) op b') (shape_leafOp hb') a
    rw [grow] at hb
    simpa using hb
  by_cases hroot : o = .noop ∨ o = binaryOp op
  · refine ⟨hroot, fun b' hb' a => ?_⟩
    obtain ⟨hdetach, hjoin⟩ := join_of_root hroot
    have hb := hleaf a b' hb' (unit o)
    rw [expected_leafOp _ _ _ _ _ _ hroot, hdetach, hjoin, push_unit] at hb
    simpa [push_unit] using hb
  exfalso
  cases o with
  | noop => exact hroot (.inl rfl)
  | and =>
    cases op with
    | and => exact hroot (.inr rfl)
    | or =>
      have hb := hleaf false (rest.fill true) (rest.shape_fill _) true
      simp [detaches, push, expected, evalFrom, evalFrom_fill] at hb
  | or =>
    cases op with
    | or => exact hroot (.inr rfl)
    | and =>
      have hb := hleaf true (rest.fill false) (rest.shape_fill _) false
      have htrue : grow .or true (rest.fill false) = true := by
        rw [grow_or]
        rfl
      simp [detaches, joinOp, push, htrue, expected, eval, evalFrom,
        evalFrom_fill] at hb

/-- A group in front of an operator below a node. -/
theorem groupOp_value
    (h : ∀ b, b.shape = (groupOp k e op rest).shape → ∀ a, grow o a b = expected o a b)
    {b b' : Chain Bool} (hb : b.shape = e.shape) (hb' : b'.shape = rest.shape) (a : Bool) :
    push o a (k.bodd ^^ (if detaches (rootOp e) op then grow .noop false b
        else grow (joinOp (rootOp e) op) (grow .noop false b) b')) =
      expected o a (.groupOp k b op b') := by
  have hval := h (.groupOp k b op b') (shape_groupOp hb hb') a
  rwa [grow, rootOp_of_shape hb] at hval

/-- Below an AND there are no other operators behind the group. -/
theorem groupOp_andOnly
    (h : ∀ b, b.shape = (groupOp k e op rest).shape →
      ∀ a, grow .and a b = expected .and a b) :
    op = .and ∧ rest.andOnly = true := by
  have hval := groupOp_value h (e.shape_fill (k.bodd ^^ true)) (rest.shape_fill true) false
  have hfill := evalFrom_fill (.groupOp k e op rest) true false
  rw [Chain.fill] at hfill
  rw [expected, hfill, push, Bool.false_and, Bool.true_and, Bool.false_or] at hval
  exact andOnly_groupOp.mp (by simpa using hval.symm)

/-- What does not fit goes wrong for some leaves. -/
theorem fits_of_grow (h : ∀ b, b.shape = e.shape → ∀ a, grow o a b = expected o a b) :
    fits o e = true := by
  induction e generalizing o with
  | leaf k l => rfl
  | group k e ih =>
    have hval : ∀ b, b.shape = e.shape → (rootOp e ≠ .noop && grow .noop false b) = b.eval := by
      intro b hb
      have hgroup := h (.group k b) (shape_group hb) (unit o)
      rw [grow, push_unit, expected_unit, eval_group, rootOp_of_shape hb] at hgroup
      simpa using hgroup
    obtain ⟨hroot, hgrow⟩ := group_right hval
    simp [fits, hroot, ih hgrow]
  | leafOp k l op rest ih =>
    obtain ⟨hroot, hrest⟩ := leafOp_right h
    simp [fits, hroot, ih hrest]
  | groupOp k e op rest ih ih' =>
    have hnext : ∀ b b', b.shape = e.shape → b'.shape = rest.shape →
        (k.bodd ^^ (if detaches (rootOp e) op then grow .noop false b
          else grow (joinOp (rootOp e) op) (grow .noop false b) b')) =
          b'.evalAfter op (k.bodd ^^ b.eval) := by
      intro b b' hb hb'
      have hval := groupOp_value h hb hb' (unit o)
      rwa [push_unit, expected_unit, eval_groupOp] at hval
    obtain ⟨hneg, hroot, hgrow, hrest⟩ := next_right hnext
    have he : fits .noop e = true := ih fun b hb a => (grow_noop a false b).trans (hgrow b hb)
    have hrest' : fits (binaryOp op) rest = true := ih' fun b' hb' a => by
      rw [hrest b' hb' a, evalAfter_eq_expected]
    have hand : o = .and → op = .and ∧ rest.andOnly = true := by
      rintro rfl
      exact groupOp_andOnly h
    simp only [fits, hneg, he, hrest', hroot, Bool.and_true, Bool.true_and, Bool.not_false,
      Bool.or_eq_true, decide_eq_true_eq, Bool.and_eq_true]
    exact ⟨trivial, not_or_of_imp hand⟩

/-! ### At the top level -/

theorem evalAfter_leaf (op : BoolOp) (a : Bool) (k : Nat) (v : Bool) :
    (leaf k v).evalAfter op a = push (binaryOp op) a (k.bodd ^^ v) := by
  cases op <;> simp [evalAfter, eval, evalFrom, binaryOp, push]

theorem evalAfter_leafOp (op : BoolOp) (a : Bool) (k : Nat) (v : Bool) (op' : BoolOp)
    (rest : Chain Bool) (h : op = .and ∨ op' = .or) :
    (leafOp k v op' rest).evalAfter op a =
      rest.evalAfter op' (push (binaryOp op) a (k.bodd ^^ v)) := by
  cases op with
  | and => simp [evalAfter, evalFrom_leafOp, binaryOp, push]
  | or =>
    obtain rfl : op' = .or := h.resolve_left (by decide)
    simp [evalAfter, eval, evalFrom, binaryOp, push, Bool.or_assoc]

theorem evalAfter_leafOp_neutral (op : BoolOp) (a : Bool) (k : Nat) (v : Bool) (op' : BoolOp)
    (rest : Chain L) :
    (leafOp k v op' (rest.neutral op')).evalAfter op a =
      push (binaryOp op) a (k.bodd ^^ v) := by
  cases op with
  | and =>
    rw [evalAfter, evalFrom_leafOp, evalAfter_neutral]
    rfl
  | or =>
    rw [evalAfter, eval_leafOp, evalAfter_neutral]
    rfl

theorem growTop_of_goodRest {e : Chain Bool} (h : goodRest op e = true) (a : Bool) :
    growTop false (binaryOp op) a e = e.evalAfter op a := by
  induction e generalizing op a with
  | leaf k b => rw [growTop, evalAfter_leaf, Bool.false_xor]
  | group k e => cases h
  | leafOp k b op' rest ih =>
    simp only [goodRest, Bool.and_eq_true, Bool.or_eq_true, decide_eq_true_eq] at h
    obtain ⟨hop, hrest⟩ := h
    rw [evalAfter_leafOp op a k b op' rest hop, growTop]
    cases op with
    | and =>
      cases op' with
      | and => exact ih hrest _
      | or =>
        rw [Bool.false_xor]
        exact ih hrest _
    | or =>
      obtain rfl : op' = .or := hop.resolve_left (by decide)
      exact ih hrest _
  | groupOp k e op' rest => cases h

/-- The operators are told apart by their values. -/
theorem push_factor (ψ : Bool → Bool)
    (h : ∀ x v, ψ (push (binaryOp op') x v) = push (binaryOp op) (neg ^^ x) v) :
    neg = false ∧ op' = op := by
  have htf := h true false
  cases neg <;> cases op' <;> cases op <;> simp_all [binaryOp, push]

/-- What stands before a group is lost. -/
theorem top_lost (hlost : ∀ b, b.shape = e.shape → growTop neg o true b = growTop neg o false b)
    (h : ∀ x b, b.shape = e.shape → growTop neg o x b = b.evalAfter op (neg ^^ x)) : False := by
  have hb := hlost _ (e.shape_neutral op)
  rw [h true _ (e.shape_neutral op), h false _ (e.shape_neutral op), evalAfter_neutral,
    evalAfter_neutral] at hb
  cases neg <;> cases hb

/-- What follows a leaf at the top level. -/
def growRest (neg : Bool) (op' op : BoolOp) (y : Bool) (b : Chain Bool) : Bool :=
  if detaches (binaryOp op') op then growTop false .or (neg ^^ y) b
  else growTop neg (binaryOp op') y b

theorem growTop_leafOp (neg : Bool) (op' : BoolOp) (x : Bool) (k : Nat) (v : Bool) (op : BoolOp)
    (b : Chain Bool) :
    growTop neg (binaryOp op') x (.leafOp k (k.bodd ^^ v) op b) =
      growRest neg op' op (push (binaryOp op') x v) b := by
  have hjoin : joinOp (binaryOp op') op = binaryOp op' := by cases op' <;> rfl
  rw [growTop, hjoin, growRest]
  simp

/-- The node that goes on has the new operator. -/
theorem growRest_eq (hop : op' = .and ∨ op = .or) (y : Bool) (b : Chain Bool) :
    growRest false op' op y b = growTop false (binaryOp op) y b := by
  have hnode : (if detaches (binaryOp op') op then BinaryOp.or else binaryOp op') =
      binaryOp op := by
    revert hop
    cases op' <;> cases op <;> simp [detaches, binaryOp]
  rw [growRest, ← hnode, Bool.false_xor]
  split <;> rfl

/-- AND behind an OR: the last operand stays an operand of the OR. -/
theorem leafOp_operators
    (h : ∀ x v b, b.shape = rest.shape → growRest false op' op (push (binaryOp op') x v) b =
      (leafOp k (k.bodd ^^ v) op b).evalAfter op' x) :
    op' = .and ∨ op = .or := by
  cases op' with
  | and => exact .inl rfl
  | or =>
    cases op with
    | or => exact .inr rfl
    | and =>
      exfalso
      have hft := h false true _ (rest.shape_fill false)
      have htf := h true false _ (rest.shape_fill false)
      simp [growRest, detaches, binaryOp, push, evalAfter, eval, evalFrom,
        evalFrom_fill] at hft htf
      rw [hft] at htf
      cases htf

/-- A leaf in front of an operator at the top level. -/
theorem top_leafOp {op₂ : BoolOp} {l : L} (h : ∀ x b, b.shape = (leafOp k l op₂ rest).shape →
      growTop neg (binaryOp op') x b = b.evalAfter op (neg ^^ x)) :
    neg = false ∧ op' = op ∧ (op' = .and ∨ op₂ = .or) ∧
      ∀ y b, b.shape = rest.shape → growTop false (binaryOp op₂) y b = b.evalAfter op₂ y := by
  have hleaf : ∀ x v b, b.shape = rest.shape → growRest neg op' op₂ (push (binaryOp op') x v) b =
      (leafOp k (k.bodd ^^ v) op₂ b).evalAfter op (neg ^^ x) := by
    intro x v b hb
    rw [← growTop_leafOp]
    exact h x _ (shape_leafOp hb)
  have hneutral : ∀ x v, growRest neg op' op₂ (push (binaryOp op') x v) (rest.neutral op₂) =
      push (binaryOp op) (neg ^^ x) v := by
    intro x v
    rw [hleaf x v _ (rest.shape_neutral op₂), evalAfter_leafOp_neutral]
    simp
  obtain ⟨rfl, rfl⟩ := push_factor (fun y => growRest neg op' op₂ y (rest.neutral op₂)) hneutral
  have hop : op' = .and ∨ op₂ = .or := leafOp_operators fun x v b hb => by
    rw [hleaf x v b hb, Bool.false_xor]
  refine ⟨rfl, rfl, hop, fun y b hb => ?_⟩
  have hval := hleaf (unit (binaryOp op')) y b hb
  rw [evalAfter_leafOp _ _ _ _ _ _ hop, growRest_eq hop] at hval
  simpa [push_unit] using hval

/-- What follows at the top level: the tree is right for all leaves only if the
node is not negated and has the operator, and there are leaves only, with no AND
behind an OR. -/
theorem top_right
    (h : ∀ x b, b.shape = e.shape → growTop neg (binaryOp op') x b = b.evalAfter op (neg ^^ x)) :
    neg = false ∧ op' = op ∧ goodRest op e = true := by
  induction e generalizing neg op' op with
  | leaf k l =>
    have hleaf : ∀ x v, (neg ^^ push (binaryOp op') x v) = push (binaryOp op) (neg ^^ x) v := by
      intro x v
      have hb := h x (.leaf k (k.bodd ^^ v)) rfl
      rw [growTop, evalAfter_leaf] at hb
      simpa using hb
    obtain ⟨hneg, hop⟩ := push_factor _ hleaf
    exact ⟨hneg, hop, rfl⟩
  | group k e =>
    refine (top_lost ?_ h).elim
    intro b hb
    cases b with
    | group k' b => rfl
    | leaf k' b => cases hb
    | leafOp k' b op₂ rest => cases hb
    | groupOp k' b op₂ rest => cases hb
  | leafOp k l op₂ rest ih =>
    obtain ⟨rfl, rfl, hop, hrest⟩ := top_leafOp h
    have hgood : ∀ y b, b.shape = rest.shape →
        growTop false (binaryOp op₂) y b = b.evalAfter op₂ (false ^^ y) := by
      intro y b hb
      rw [Bool.false_xor]
      exact hrest y b hb
    simp [goodRest, hop, (ih hgood).2.2]
  | groupOp k e op₂ rest =>
    refine (top_lost ?_ h).elim
    intro b hb
    cases b with
    | groupOp k' b op₂ rest => rfl
    | leaf k' b => cases hb
    | leafOp k' b op₂ rest => cases hb
    | group k' b => cases hb

theorem fits_map (o : BinaryOp) (e : Chain L) : fits o (e.map f) = fits o e := by
  induction e generalizing o with
  | leaf k l => rfl
  | group k e ih => simp [map, fits, ih]
  | leafOp k l op rest ih => simp [map, fits, ih]
  | groupOp k e op rest ih ih' => simp [map, fits, ih, ih']

theorem goodRest_map (op : BoolOp) (e : Chain L) : goodRest op (e.map f) = goodRest op e := by
  induction e generalizing op with
  | leaf k l => rfl
  | group k e => rfl
  | leafOp k l op' rest ih => simp [map, goodRest, ih]
  | groupOp k e op' rest => rfl

theorem good_map (e : Chain L) : good (e.map f) = good e := by
  cases e with
  | leaf k l => rfl
  | group k e => simp [map, good, fits_map]
  | leafOp k l op rest => exact goodRest_map f op rest
  | groupOp k e op rest => simp [map, good, fits_map, goodRest_map]

theorem growTop_of_good {e : Chain Bool} (h : good e = true) :
    growTop false .noop false e = e.eval := by
  cases e with
  | leaf k b => simp [growTop, push, eval, evalFrom]
  | group k e =>
    simp only [good, Bool.and_eq_true] at h
    have he : grow .noop false e = e.eval := grow_of_fits h.2 false
    rw [growTop, h.1, he, Bool.true_and, eval_group]
  | leafOp k b op rest =>
    rw [eval_leafOp, ← growTop_of_goodRest h]
    rfl
  | groupOp k e op rest =>
    simp only [good, Bool.and_eq_true, Bool.or_eq_true] at h
    obtain ⟨⟨he, hrest⟩, hop⟩ := h
    have heval : grow .noop false e = e.eval := grow_of_fits he false
    rw [growTop, heval, eval_groupOp, ← growTop_of_goodRest hrest]
    cases hdetach : detaches (rootOp e) op with
    | true =>
      obtain rfl := eq_or_of_detaches hdetach
      rfl
    | false =>
      simp only [hdetach, Bool.false_eq_true, false_or, Bool.not_eq_true', decide_eq_true_eq] at hop
      rw [(join_of_root hop.2).2, hop.1, Bool.false_xor]
      rfl

/-- A group at the top level: it is right itself, and what follows is right for
both of its values. -/
theorem top_groupOp (h : ∀ b b', b.shape = e.shape → b'.shape = rest.shape →
      (if detaches (rootOp e) op then growTop false .or (neg ^^ grow .noop false b) b'
      else growTop neg (joinOp (rootOp e) op) (grow .noop false b) b') =
        b'.evalAfter op (neg ^^ b.eval)) :
    (∀ b, b.shape = e.shape → grow .noop false b = b.eval) ∧
      ∀ x b', b'.shape = rest.shape →
        (if detaches (rootOp e) op then growTop false .or (neg ^^ x) b'
        else growTop neg (joinOp (rootOp e) op) x b') = b'.evalAfter op (neg ^^ x) := by
  have hgrow : ∀ b, b.shape = e.shape → grow .noop false b = b.eval := by
    intro b hb
    refine grow_of_factor (fun x => neg ^^ (if detaches (rootOp e) op then
      growTop false .or (neg ^^ x) (rest.neutral op)
      else growTop neg (joinOp (rootOp e) op) x (rest.neutral op))) ?_ hb
    intro b hb
    rw [h b _ hb (rest.shape_neutral op), evalAfter_neutral]
    simp
  refine ⟨hgrow, fun x b' hb' => ?_⟩
  have hx := h (e.fill x) b' (e.shape_fill x) hb'
  rwa [hgrow _ (e.shape_fill x), eval_fill] at hx

theorem good_of_growTop (h : ∀ b, b.shape = e.shape → growTop false .noop false b = b.eval) :
    good e = true := by
  cases e with
  | leaf k l => rfl
  | group k e =>
    have hval : ∀ b, b.shape = e.shape → (rootOp e ≠ .noop && grow .noop false b) = b.eval := by
      intro b hb
      have hgroup := h (.group k b) (shape_group hb)
      rw [growTop, eval_group, rootOp_of_shape hb] at hgroup
      simpa using hgroup
    obtain ⟨hroot, hgrow⟩ := group_right hval
    simp [good, hroot, fits_of_grow hgrow]
  | leafOp k l op rest =>
    have hrest : ∀ x b, b.shape = rest.shape →
        growTop false (binaryOp op) x b = b.evalAfter op (false ^^ x) := by
      intro x b hb
      have hleaf := h (.leafOp k (k.bodd ^^ x) op b) (shape_leafOp hb)
      rw [eval_leafOp] at hleaf
      simpa [growTop, detaches, joinOp, push] using hleaf
    exact (top_right hrest).2.2
  | groupOp k e op rest =>
    have hval : ∀ b b', b.shape = e.shape → b'.shape = rest.shape →
        (if detaches (rootOp e) op then growTop false .or (k.bodd ^^ grow .noop false b) b'
        else growTop k.bodd (joinOp (rootOp e) op) (grow .noop false b) b') =
          b'.evalAfter op (k.bodd ^^ b.eval) := by
      intro b b' hb hb'
      have hgroup := h (.groupOp k b op b') (shape_groupOp hb hb')
      rwa [growTop, eval_groupOp, rootOp_of_shape hb] at hgroup
    obtain ⟨hgrow, hall⟩ := top_groupOp hval
    have he : fits .noop e = true :=
      fits_of_grow fun b hb a => (grow_noop a false b).trans (hgrow b hb)
    cases hdetach : detaches (rootOp e) op with
    | true =>
      obtain rfl := eq_or_of_detaches hdetach
      have hrest : ∀ y b', b'.shape = rest.shape →
          growTop false (binaryOp .or) y b' = b'.evalAfter .or (false ^^ y) := by
        intro y b' hb'
        have hy := hall (k.bodd ^^ y) b' hb'
        rw [hdetach, if_pos rfl] at hy
        simpa [binaryOp] using hy
      simp [good, he, hdetach, (top_right hrest).2.2]
    | false =>
      obtain ⟨op', hjoin⟩ : ∃ op', joinOp (rootOp e) op = binaryOp op' := by
        cases rootOp e with
        | noop => exact ⟨op, rfl⟩
        | and => exact ⟨.and, rfl⟩
        | or => exact ⟨.or, rfl⟩
      simp only [hdetach, Bool.false_eq_true, if_false, hjoin] at hall
      obtain ⟨hneg, rfl, hrest⟩ := top_right hall
      have hroot : rootOp e = .noop ∨ rootOp e = binaryOp op' := by
        revert hjoin
        cases rootOp e <;> simp [joinOp]
      simp [good, he, hrest, hneg, hroot]

/-- The arrangements that come out right for all leaves. -/
theorem good_iff :
    (∀ b, b.shape = e.shape → growTop false .noop false b = b.eval) ↔ good e = true := by
  refine ⟨good_of_growTop, fun h b hb => growTop_of_good ?_⟩
  rw [← h, ← good_map (fun _ => ()) b, ← good_map (fun _ => ()) e]
  exact congrArg good hb

end AreaTree

end SpatialDb.Server
