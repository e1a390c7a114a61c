import Mathlib

/-!
# Infix formulas

Boolean formulas and their printings: `not` binds tighter than `and`, `and`
tighter than `or`, and parentheses stand where that asks for them and wherever
else one likes.  A `Chain` is what stands between two parentheses, as it is
read: operands, each a leaf or a group under some `not`s, with operators
between them.
-/

namespace SpatialDb.Lib.Infix

open List

variable {L M : Type}

inductive BoolOp where
  | and
  | or
  deriving DecidableEq

inductive Formula (L : Type) where
  | leaf (l : L)
  | not (f : Formula L)
  | and (f g : Formula L)
  | or (f g : Formula L)

def Formula.eval (σ : L → Bool) : Formula L → Bool
  | leaf l => σ l
  | not f => !f.eval σ
  | and f g => f.eval σ && g.eval σ
  | or f g => f.eval σ || g.eval σ

inductive Token (L : Type) where
  | leaf (l : L)
  | not
  | op (o : BoolOp)
  | lparen
  | rparen

def Token.map (f : L → M) : Token L → Token M
  | leaf l => leaf (f l)
  | not => not
  | op o => op o
  | lparen => lparen
  | rparen => rparen

/-- What may stand without parentheses. -/
inductive Level where
  | unary
  | conj
  | disj

/-- The printings of a formula. -/
inductive Prints : Level → Formula L → List (Token L) → Prop where
  | leaf (l : L) : Prints .unary (.leaf l) [.leaf l]
  | not {f ts} (h : Prints .unary f ts) : Prints .unary (.not f) (.not :: ts)
  | paren {f ts} (h : Prints .disj f ts) : Prints .unary f (.lparen :: (ts ++ [.rparen]))
  | and {f g ts us} (h : Prints .conj f ts) (h' : Prints .conj g us) :
      Prints .conj (.and f g) (ts ++ .op .and :: us)
  | or {f g ts us} (h : Prints .disj f ts) (h' : Prints .disj g us) :
      Prints .disj (.or f g) (ts ++ .op .or :: us)
  | conj {f ts} (h : Prints .unary f ts) : Prints .conj f ts
  | disj {f ts} (h : Prints .conj f ts) : Prints .disj f ts

/-- Operands and operators in turn, from the left. -/
inductive Chain (L : Type) where
  | leaf (nots : Nat) (l : L)
  | group (nots : Nat) (e : Chain L)
  | leafOp (nots : Nat) (l : L) (op : BoolOp) (rest : Chain L)
  | groupOp (nots : Nat) (e : Chain L) (op : BoolOp) (rest : Chain L)

variable (f : L → M) (op : BoolOp) (e : Chain L) {rest : Chain L}

namespace Chain

def tokens : Chain L → List (Token L)
  | leaf k l => List.replicate k .not ++ [.leaf l]
  | group k e => List.replicate k .not ++ .lparen :: (e.tokens ++ [.rparen])
  | leafOp k l op rest => List.replicate k .not ++ .leaf l :: .op op :: rest.tokens
  | groupOp k e op rest =>
    List.replicate k .not ++ .lparen :: (e.tokens ++ .rparen :: .op op :: rest.tokens)

def map (f : L → M) : Chain L → Chain M
  | leaf k l => leaf k (f l)
  | group k e => group k (e.map f)
  | leafOp k l op rest => leafOp k (f l) op (rest.map f)
  | groupOp k e op rest => groupOp k (e.map f) op (rest.map f)

theorem tokens_groupOp (op : BoolOp) (rest : Chain L) :
    (groupOp k e op rest).tokens = (group k e).tokens ++ .op op :: rest.tokens := by
  simp [tokens]

/-- How the operands are arranged, without the leaves. -/
def shape (e : Chain L) : Chain Unit := e.map fun _ => ()

/-- No `or` stands outside of a group. -/
def andOnly : Chain L → Bool
  | leaf _ _ | group _ _ => true
  | leafOp _ _ op rest | groupOp _ _ op rest => op = .and && rest.andOnly

/-- The value of a chain that begins with a conjunct `acc`. -/
def evalFrom (acc : Bool) : Chain Bool → Bool
  | leaf k b => acc && (k.bodd ^^ b)
  | group k e => acc && (k.bodd ^^ e.evalFrom true)
  | leafOp k b .and rest => rest.evalFrom (acc && (k.bodd ^^ b))
  | leafOp k b .or rest => acc && (k.bodd ^^ b) || rest.evalFrom true
  | groupOp k e .and rest => rest.evalFrom (acc && (k.bodd ^^ e.evalFrom true))
  | groupOp k e .or rest => acc && (k.bodd ^^ e.evalFrom true) || rest.evalFrom true

def eval (e : Chain Bool) : Bool := e.evalFrom true

/-- Two chains with an operator between them. -/
def append : Chain L → BoolOp → Chain L → Chain L
  | leaf k l, op, e' => leafOp k l op e'
  | group k e, op, e' => groupOp k e op e'
  | leafOp k l o rest, op, e' => leafOp k l o (rest.append op e')
  | groupOp k e o rest, op, e' => groupOp k e o (rest.append op e')

variable (e e' : Chain L)

@[simp] theorem tokens_append :
    (e.append op e').tokens = e.tokens ++ .op op :: e'.tokens := by
  induction e with
  | leaf k l => simp [append, tokens]
  | group k e => simp [append, tokens]
  | leafOp k l o rest ih => simp [append, tokens, ih]
  | groupOp k e o rest _ ih => simp [append, tokens, ih]

theorem map_map {K : Type} (g : M → K) (f : L → M) (e : Chain L) :
    (e.map f).map g = e.map fun l => g (f l) := by
  induction e with
  | leaf k l => rfl
  | group k e ih => simp [map, ih]
  | leafOp k l o rest ih => simp [map, ih]
  | groupOp k e o rest ih ih' => simp [map, ih, ih']

theorem map_id : (e.map fun l => l) = e := by
  induction e with
  | leaf k l => rfl
  | group k e ih => simp [map, ih]
  | leafOp k l o rest ih => simp [map, ih]
  | groupOp k e o rest ih ih' => simp [map, ih, ih']

theorem tokens_map : (e.map f).tokens = e.tokens.map (Token.map f) := by
  induction e with
  | leaf k l => simp [map, tokens, Token.map]
  | group k e ih => simp [map, tokens, Token.map, ih]
  | leafOp k l o rest ih => simp [map, tokens, Token.map, ih]
  | groupOp k e o rest ih ih' => simp [map, tokens, Token.map, ih, ih']

theorem map_append : (e.append op e').map f = (e.map f).append op (e'.map f) := by
  induction e with
  | leaf k l => rfl
  | group k e => rfl
  | leafOp k l o rest ih => simp [append, map, ih]
  | groupOp k e o rest _ ih => simp [append, map, ih]

theorem evalFrom_append_or (e e' : Chain Bool) (acc : Bool) :
    (e.append .or e').evalFrom acc = (e.evalFrom acc || e'.evalFrom true) := by
  induction e generalizing acc with
  | leaf k b => rfl
  | group k e => rfl
  | leafOp k b o rest ih => cases o <;> simp [append, evalFrom, ih, Bool.or_assoc]
  | groupOp k e o rest _ ih => cases o <;> simp [append, evalFrom, ih, Bool.or_assoc]

theorem andOnly_leafOp {k : Nat} {l : L} {op : BoolOp} :
    (leafOp k l op rest).andOnly = true ↔ op = .and ∧ rest.andOnly = true := by
  simp [andOnly]

theorem andOnly_groupOp {k : Nat} {e : Chain L} {op : BoolOp} :
    (groupOp k e op rest).andOnly = true ↔ op = .and ∧ rest.andOnly = true := by
  simp [andOnly]

theorem evalFrom_append_and {e : Chain Bool} (he : e.andOnly = true) (e' : Chain Bool)
    (acc : Bool) : (e.append .and e').evalFrom acc = e'.evalFrom (e.evalFrom acc) := by
  induction e generalizing acc with
  | leaf k b => rfl
  | group k e => rfl
  | leafOp k b o rest ih =>
    obtain ⟨rfl, hrest⟩ := andOnly_leafOp.mp he
    simp [append, evalFrom, ih hrest]
  | groupOp k e o rest _ ih =>
    obtain ⟨rfl, hrest⟩ := andOnly_groupOp.mp he
    simp [append, evalFrom, ih hrest]

theorem evalFrom_of_andOnly {e : Chain Bool} (he : e.andOnly = true) (acc : Bool) :
    e.evalFrom acc = (acc && e.evalFrom true) := by
  induction e generalizing acc with
  | leaf k b => simp [evalFrom]
  | group k e => simp [evalFrom]
  | leafOp k b o rest ih =>
    obtain ⟨rfl, hrest⟩ := andOnly_leafOp.mp he
    rw [evalFrom, evalFrom, ih hrest, ih hrest (true && _), Bool.true_and, Bool.and_assoc]
  | groupOp k e o rest _ ih =>
    obtain ⟨rfl, hrest⟩ := andOnly_groupOp.mp he
    rw [evalFrom, evalFrom, ih hrest, ih hrest (true && _), Bool.true_and, Bool.and_assoc]

theorem andOnly_append :
    (e.append .and e').andOnly = (e.andOnly && e'.andOnly) := by
  induction e with
  | leaf k l => simp [append, andOnly]
  | group k e => simp [append, andOnly]
  | leafOp k l o rest ih => simp [append, andOnly, ih, Bool.and_assoc]
  | groupOp k e o rest _ ih => simp [append, andOnly, ih, Bool.and_assoc]

@[simp] theorem andOnly_map : (e.map f).andOnly = e.andOnly := by
  induction e with
  | leaf k l => rfl
  | group k e => rfl
  | leafOp k l o rest ih => simp [map, andOnly, ih]
  | groupOp k e o rest _ ih => simp [map, andOnly, ih]

/-! ## Printings -/

/-- The chains of a level. -/
def Of : Level → Chain L → Prop
  | .unary, leaf _ _ | .unary, group _ _ => True
  | .unary, leafOp _ _ _ _ | .unary, groupOp _ _ _ _ => False
  | .conj, e => e.andOnly = true
  | .disj, _ => True

/-- An operand under one more `not`. -/
theorem Of.not {e : Chain L} (he : e.Of .unary) :
    ∃ e' : Chain L, e'.Of .unary ∧ e'.tokens = .not :: e.tokens ∧
      ∀ σ, (e'.map σ).eval = !(e.map σ).eval := by
  cases e with
  | leaf k l =>
    exact ⟨leaf (k + 1) l, trivial, rfl, fun σ => by simp [map, eval, evalFrom]⟩
  | group k e =>
    exact ⟨group (k + 1) e, trivial, rfl, fun σ => by simp [map, eval, evalFrom]⟩
  | leafOp k l op rest => exact he.elim
  | groupOp k e op rest => exact he.elim

end Chain

variable {ts : List (Token L)}

/-- A printing is that of a chain with the value of the formula. -/
theorem Prints.chain {level : Level} {f : Formula L} (h : Prints level f ts) :
    ∃ e : Chain L, e.Of level ∧ e.tokens = ts ∧ ∀ σ, (e.map σ).eval = f.eval σ := by
  induction h with
  | leaf l =>
    refine ⟨.leaf 0 l, trivial, rfl, fun σ => ?_⟩
    simp [Chain.map, Chain.eval, Chain.evalFrom, Formula.eval]
  | not h ih =>
    obtain ⟨e, he, rfl, heval⟩ := ih
    obtain ⟨e', he', htokens, hnot⟩ := he.not
    refine ⟨e', he', htokens, fun σ => ?_⟩
    rw [hnot, heval, Formula.eval]
  | paren h ih =>
    obtain ⟨e, -, rfl, heval⟩ := ih
    refine ⟨.group 0 e, trivial, rfl, fun σ => ?_⟩
    rw [← heval]
    simp [Chain.map, Chain.eval, Chain.evalFrom]
  | and h h' ih ih' =>
    obtain ⟨e, he, rfl, heval⟩ := ih
    obtain ⟨e', he', rfl, heval'⟩ := ih'
    refine ⟨e.append .and e', ?_, e.tokens_append .and e', fun σ => ?_⟩
    · rw [Chain.Of, Chain.andOnly_append, he, he', Bool.and_self]
    · have hand : (e.map σ).andOnly = true := by rw [Chain.andOnly_map, he]
      have hand' : (e'.map σ).andOnly = true := by rw [Chain.andOnly_map, he']
      rw [Chain.map_append, Chain.eval, Chain.evalFrom_append_and hand,
        Chain.evalFrom_of_andOnly hand', Formula.eval, ← heval, ← heval']
      rfl
  | or h h' ih ih' =>
    obtain ⟨e, -, rfl, heval⟩ := ih
    obtain ⟨e', -, rfl, heval'⟩ := ih'
    refine ⟨e.append .or e', trivial, e.tokens_append .or e', fun σ => ?_⟩
    rw [Chain.map_append, Chain.eval, Chain.evalFrom_append_or, Formula.eval, ← heval, ← heval']
    rfl
  | conj h ih =>
    obtain ⟨e, he, htokens⟩ := ih
    refine ⟨e, ?_, htokens⟩
    cases e with
    | leaf k l => rfl
    | group k e => rfl
    | leafOp k l op rest => exact he.elim
    | groupOp k e op rest => exact he.elim
  | disj h ih =>
    obtain ⟨e, -, htokens⟩ := ih
    exact ⟨e, trivial, htokens⟩

theorem Prints.nots {f : Formula L} (h : Prints .unary f ts) (k : Nat) :
    ∃ g, Prints .unary g (List.replicate k .not ++ ts) := by
  induction k with
  | zero => exact ⟨f, h⟩
  | succ k ih =>
    obtain ⟨g, hg⟩ := ih
    exact ⟨.not g, hg.not⟩

namespace Chain

variable (ts : List (Token L))

/-- A first conjunction, and what comes after the first `or`. -/
def Splits : Prop :=
  ∃ f us, Prints .conj f us ∧ (ts = us ∨ ∃ g vs, Prints .disj g vs ∧ ts = us ++ .op .or :: vs)

theorem Splits.prints (h : Splits ts) : ∃ f, Prints .disj f ts := by
  obtain ⟨f, us, hf, rfl | ⟨g, vs, hg, rfl⟩⟩ := h
  · exact ⟨f, hf.disj⟩
  · exact ⟨.or f g, hf.disj.or hg⟩

theorem Splits.cons {f : Formula L} {us ts : List (Token L)} (hf : Prints .unary f us)
    (h : Splits ts) (op : BoolOp) : Splits (us ++ .op op :: ts) := by
  cases op with
  | and =>
    obtain ⟨g, vs, hg, hts⟩ := h
    refine ⟨.and f g, _, hf.conj.and hg, ?_⟩
    rcases hts with rfl | ⟨g', ws, hg', rfl⟩
    · exact .inl rfl
    · exact .inr ⟨g', ws, hg', by simp⟩
  | or =>
    obtain ⟨g, hg⟩ := h.prints
    exact ⟨f, us, hf.conj, .inr ⟨g, ts, hg, rfl⟩⟩

theorem splits : Splits e.tokens := by
  induction e with
  | leaf k l =>
    obtain ⟨f, hf⟩ := (Prints.leaf l).nots k
    exact ⟨f, _, hf.conj, .inl rfl⟩
  | group k e ih =>
    obtain ⟨g, hg⟩ := ih.prints
    obtain ⟨f, hf⟩ := hg.paren.nots k
    exact ⟨f, _, hf.conj, .inl rfl⟩
  | leafOp k l op rest ih =>
    obtain ⟨f, hf⟩ := (Prints.leaf l).nots k
    have hsplits := ih.cons hf op
    rwa [append_assoc] at hsplits
  | groupOp k e op rest ih ih' =>
    obtain ⟨g, hg⟩ := ih.prints
    obtain ⟨f, hf⟩ := hg.paren.nots k
    have hsplits := ih'.cons hf op
    rwa [append_assoc, cons_append, append_assoc] at hsplits

/-- Every chain is a printing. -/
theorem exists_prints : ∃ f, Prints .disj f e.tokens := e.splits.prints

/-- The number of `not`s in front of an operand. -/
theorem replicate_not_inj {k k' : Nat} {t t' : Token L} {ts ts' : List (Token L)}
    (ht : t ≠ .not) (ht' : t' ≠ .not)
    (h : List.replicate k Token.not ++ t :: ts = List.replicate k' .not ++ t' :: ts') :
    k = k' ∧ t = t' ∧ ts = ts' := by
  induction k generalizing k' with
  | zero =>
    cases k' with
    | zero => simpa using h
    | succ k' => exact absurd (cons.inj h).1 ht
  | succ k ih =>
    cases k' with
    | zero => exact absurd (cons.inj h).1.symm ht'
    | succ k' =>
      obtain ⟨rfl, hts⟩ := ih (cons.inj h).2
      exact ⟨rfl, hts⟩

/-- The end of a chain: no operator follows. -/
def Ends : Prop := ∀ op us, ts ≠ .op op :: us

theorem ends_nil : Ends ([] : List (Token L)) := by simp [Ends]

theorem ends_rparen : Ends (.rparen :: ts) := by simp [Ends]

/-- Where a chain ends it is read in one way. -/
theorem tokens_append_inj {e e' : Chain L} {ts ts' : List (Token L)} (hts : Ends ts)
    (hts' : Ends ts') (h : e.tokens ++ ts = e'.tokens ++ ts') : e = e' ∧ ts = ts' := by
  induction e generalizing e' ts ts' <;> cases e' <;>
    simp only [tokens, append_assoc, cons_append, nil_append] at h <;>
    obtain ⟨rfl, hhead, htail⟩ := replicate_not_inj (by simp) (by simp) h <;> cases hhead
  case leaf.leaf => exact ⟨rfl, htail⟩
  case leaf.leafOp => exact absurd htail (hts _ _)
  case group.group ih _ =>
    obtain ⟨rfl, hrest⟩ := ih (ends_rparen _) (ends_rparen _) htail
    exact ⟨rfl, (cons.inj hrest).2⟩
  case group.groupOp ih _ _ _ =>
    obtain ⟨rfl, hrest⟩ := ih (ends_rparen _) (ends_rparen _) htail
    exact absurd (cons.inj hrest).2 (hts _ _)
  case leafOp.leaf => exact absurd htail.symm (hts' _ _)
  case leafOp.leafOp ih _ _ =>
    rw [cons.injEq, Token.op.injEq] at htail
    obtain ⟨rfl, htail⟩ := htail
    obtain ⟨rfl, hrest⟩ := ih hts hts' htail
    exact ⟨rfl, hrest⟩
  case groupOp.group ih _ _ =>
    obtain ⟨rfl, hrest⟩ := ih (ends_rparen _) (ends_rparen _) htail
    exact absurd (cons.inj hrest).2.symm (hts' _ _)
  case groupOp.groupOp ih ih' _ _ _ =>
    obtain ⟨rfl, hrest⟩ := ih (ends_rparen _) (ends_rparen _) htail
    rw [cons.injEq, cons.injEq, Token.op.injEq] at hrest
    obtain ⟨-, rfl, hrest⟩ := hrest
    obtain ⟨rfl, hends⟩ := ih' hts hts' hrest
    exact ⟨rfl, hends⟩

theorem tokens_injective {e e' : Chain L} (h : e.tokens = e'.tokens) : e = e' :=
  (tokens_append_inj ends_nil ends_nil (by rw [h])).1

/-! ## Values of the leaves -/

variable (v acc : Bool) (k : Nat)

/-- The leaves such that every operand has the value `v`. -/
def fill (v : Bool) : Chain L → Chain Bool
  | leaf k _ => leaf k (k.bodd ^^ v)
  | group k e => group k (e.fill (k.bodd ^^ v))
  | leafOp k _ op rest => leafOp k (k.bodd ^^ v) op (rest.fill v)
  | groupOp k e op rest => groupOp k (e.fill (k.bodd ^^ v)) op (rest.fill v)

@[simp] theorem shape_fill : (e.fill v).shape = e.shape := by
  induction e generalizing v with
  | leaf k l => rfl
  | group k e ih => simpa [fill, shape, map] using ih _
  | leafOp k l op rest ih => simpa [fill, shape, map] using ih _
  | groupOp k e op rest ih ih' => simpa [fill, shape, map] using ⟨ih _, ih' _⟩

theorem evalFrom_fill (acc : Bool) : (e.fill v).evalFrom acc = (v && (acc || !e.andOnly)) := by
  induction e generalizing v acc with
  | leaf k l => cases v <;> simp [fill, evalFrom, andOnly]
  | group k e ih => cases v <;> simp [fill, evalFrom, andOnly, ih]
  | leafOp k l op rest ih => cases v <;> cases op <;> simp [fill, evalFrom, andOnly, ih]
  | groupOp k e op rest ih ih' => cases v <;> cases op <;> simp [fill, evalFrom, andOnly, ih, ih']

@[simp] theorem eval_fill : (e.fill v).eval = v := by
  simp [eval, evalFrom_fill]

/-- The value of `acc`, the operator, and the chain. -/
def evalAfter : BoolOp → Bool → Chain Bool → Bool
  | .and, acc, e => e.evalFrom acc
  | .or, acc, e => acc || e.eval

theorem evalFrom_leafOp (b : Bool) (op : BoolOp) (rest : Chain Bool) :
    (leafOp k b op rest).evalFrom acc = rest.evalAfter op (acc && (k.bodd ^^ b)) := by
  cases op <;> rfl

theorem evalFrom_groupOp (e : Chain Bool) (op : BoolOp) (rest : Chain Bool) :
    (groupOp k e op rest).evalFrom acc = rest.evalAfter op (acc && (k.bodd ^^ e.eval)) := by
  cases op <;> rfl

theorem eval_group (e : Chain Bool) : (group k e).eval = (k.bodd ^^ e.eval) :=
  Bool.true_and _

theorem eval_leafOp (b : Bool) (op : BoolOp) (rest : Chain Bool) :
    (leafOp k b op rest).eval = rest.evalAfter op (k.bodd ^^ b) := by
  rw [eval, evalFrom_leafOp, Bool.true_and]

theorem eval_groupOp (e : Chain Bool) (op : BoolOp) (rest : Chain Bool) :
    (groupOp k e op rest).eval = rest.evalAfter op (k.bodd ^^ e.eval) := by
  rw [eval, evalFrom_groupOp, Bool.true_and]

/-- The leaves such that the first conjunction is true and the others are not. -/
def fillHead : Chain L → Chain Bool
  | leaf k _ => leaf k (k.bodd ^^ true)
  | group k e => group k (e.fill (k.bodd ^^ true))
  | leafOp k _ .and rest => leafOp k (k.bodd ^^ true) .and rest.fillHead
  | leafOp k _ .or rest => leafOp k (k.bodd ^^ true) .or (rest.fill false)
  | groupOp k e .and rest => groupOp k (e.fill (k.bodd ^^ true)) .and rest.fillHead
  | groupOp k e .or rest => groupOp k (e.fill (k.bodd ^^ true)) .or (rest.fill false)

/-- The leaves such that the chain leaves the value before it as it is. -/
def neutral : BoolOp → Chain L → Chain Bool
  | .and, e => e.fillHead
  | .or, e => e.fill false

/-- The leaves such that all depends on the first one, and the value is `v`. -/
def probe (v : Bool) : Chain L → Chain Bool
  | leaf k _ => leaf k (k.bodd ^^ v)
  | group k e => group k (e.probe (k.bodd ^^ v))
  | leafOp k _ op rest => leafOp k (k.bodd ^^ v) op (rest.neutral op)
  | groupOp k e op rest => groupOp k (e.probe (k.bodd ^^ v)) op (rest.neutral op)

theorem shape_leafOp {k : Nat} {x : L} {y : M} {op : BoolOp} {rest' : Chain M}
    (h : rest.shape = rest'.shape) : (leafOp k x op rest).shape = (leafOp k y op rest').shape := by
  rw [shape, shape, map, map]
  exact congrArg _ h

theorem shape_group {k : Nat} {e : Chain L} {e' : Chain M} (h : e.shape = e'.shape) :
    (group k e).shape = (group k e').shape :=
  congrArg (group k) h

theorem shape_groupOp {k : Nat} {e : Chain L} {e' : Chain M} {op : BoolOp}
    {rest' : Chain M} (h : e.shape = e'.shape) (h' : rest.shape = rest'.shape) :
    (groupOp k e op rest).shape = (groupOp k e' op rest').shape :=
  congrArg₂ (groupOp k · op ·) h h'

@[simp] theorem shape_fillHead : e.fillHead.shape = e.shape := by
  induction e with
  | leaf k l => rfl
  | group k e => exact shape_group (shape_fill e _)
  | leafOp k l op rest ih =>
    cases op with
    | and => exact shape_leafOp ih
    | or => exact shape_leafOp (shape_fill rest _)
  | groupOp k e op rest _ ih =>
    cases op with
    | and => exact shape_groupOp (shape_fill e _) ih
    | or => exact shape_groupOp (shape_fill e _) (shape_fill rest _)

@[simp] theorem shape_neutral : (e.neutral op).shape = e.shape := by
  cases op with
  | and => exact shape_fillHead e
  | or => exact shape_fill e _

@[simp] theorem shape_probe : (e.probe v).shape = e.shape := by
  induction e generalizing v with
  | leaf k l => rfl
  | group k e ih => exact shape_group (ih _)
  | leafOp k l op rest => exact shape_leafOp (shape_neutral op rest)
  | groupOp k e op rest ih => exact shape_groupOp (ih _) (shape_neutral op rest)

theorem evalFrom_fillHead (acc : Bool) : e.fillHead.evalFrom acc = acc := by
  induction e generalizing acc with
  | leaf k l => simp [fillHead, evalFrom]
  | group k e => simp [fillHead, evalFrom, evalFrom_fill]
  | leafOp k l op rest ih => cases op <;> simp [fillHead, evalFrom, ih, evalFrom_fill]
  | groupOp k e op rest _ ih => cases op <;> simp [fillHead, evalFrom, ih, evalFrom_fill]

@[simp] theorem evalAfter_neutral (acc : Bool) : (e.neutral op).evalAfter op acc = acc := by
  cases op with
  | and => exact evalFrom_fillHead e acc
  | or => simp [neutral, evalAfter]

@[simp] theorem eval_probe : (e.probe v).eval = v := by
  induction e generalizing v with
  | leaf k l => simp [probe, eval, evalFrom]
  | group k e ih => simp [probe, eval_group, ih]
  | leafOp k l op rest => simp [probe, eval_leafOp]
  | groupOp k e op rest ih => simp [probe, eval_groupOp, ih]

end Chain

end SpatialDb.Lib.Infix
