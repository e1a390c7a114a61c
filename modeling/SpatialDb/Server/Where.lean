import SpatialDb.Lib.WeakOrder
import SpatialDb.Server.FieldText

/-!
# The comparisons of WHERE and WHEREIN

Model of `whereT.matchField` and `whereinT.match` of `token.go`, which compare
field values by `Less`.  `Less` compares the keys of values by kind, except for
NaN: it is neither less nor greater than any number, and so `Equals` takes it
for the same as each of them.
-/

namespace SpatialDb.Server

open Lib

/-! ## Model -/

variable {N : Type*} [LinearOrder N] (a b : Value N)

def mLT : Bool := a.less b
def mLTE : Bool := !mLT b a
def mGT : Bool := mLT b a
def mGTE : Bool := !mLT a b
def mEQ : Bool := a.equals b

/-- `whereT`, of a field. -/
structure WhereT (N : Type*) where
  minx : Bool
  min : Value N
  maxx : Bool
  max : Value N

def WhereT.matchField (w : WhereT N) (value : Value N) : Bool :=
  if w.min.data = lit "<" then mLT value w.max
  else if w.min.data = lit "<=" then mLTE value w.max
  else if w.min.data = lit ">" then mGT value w.max
  else if w.min.data = lit ">=" then mGTE value w.max
  else if w.min.data = lit "==" then mEQ value w.max
  else if w.min.data = lit "!=" then !mEQ value w.max
  else if (if !w.minx then mLT value w.min else mLTE value w.min) then false
  else if (if !w.maxx then mGT value w.max else mGTE value w.max) then false
  else true

/-- `whereinT`. -/
structure WhereinT (N : Type*) where
  valArr : List (Value N)

def WhereinT.matchValue (w : WhereinT N) (value : Value N) : Bool :=
  w.valArr.any fun val => mEQ val value

/-! ## Keys -/

/-- The number, with `c` for NaN. -/
def F64.orNaN (c : N) : F64 N → N
  | .nan => c
  | .num x => x

/-- NaN, or the number `c`. -/
def F64.NearNaN (c : N) (a : F64 N) : Prop := a = .nan ∨ a = .num c

/-- Where a NaN meets only NaN and `c`, it may be taken for `c`. -/
theorem F64.less_iff_orNaN (c : N) {a b : F64 N} (ha : a = .nan → b.NearNaN c)
    (hb : b = .nan → a.NearNaN c) : a.less b = true ↔ a.orNaN c < b.orNaN c := by
  cases a with
  | nan =>
    obtain rfl | rfl := ha rfl <;> simp [less, orNaN]
  | num x =>
    cases b with
    | nan =>
      obtain h | h := hb rfl
      · cases h
      · cases h
        simp [less, orNaN]
    | num y => simp [less, orNaN]

variable {v w : Value N}

namespace Value

/-- What `Less` compares: the kind, then the number or the text. -/
def key (c : N) (v : Value N) : ℕ ×ₗ N ×ₗ Bytes :=
  toLex (v.kind.code, toLex (if v.kind = .number then (v.num.orNaN c, [])
    else (c, if v.kind = .string then v.data.map lowerByte else v.data)))

theorem less_iff_key (c : N) (hv : v.isNaN = true → w.kind = .number → w.num.NearNaN c)
    (hw : w.isNaN = true → v.kind = .number → v.num.NearNaN c) :
    v.less w = true ↔ v.key c < w.key c := by
  simp only [isNaN, Bool.and_eq_true, decide_eq_true_eq] at hv hw
  unfold less key
  rw [Prod.Lex.toLex_lt_toLex]
  by_cases hkind : v.kind = w.kind
  · simp only [hkind, lt_irrefl, if_false, false_or, true_and, Prod.Lex.toLex_lt_toLex]
    by_cases hnum : w.kind = .number
    · have hless := F64.less_iff_orNaN c (fun h => hv ⟨hkind.trans hnum, h⟩ hnum)
        (fun h => hw ⟨hnum, h⟩ (hkind.trans hnum))
      simp only [hnum, if_true, hless, lt_irrefl, and_false, or_false]
    by_cases hstr : w.kind = .string
    · simp only [hstr, stringLessInsensitive_eq, reduceCtorEq, if_false, if_true,
        decide_eq_true_eq, lt_irrefl, false_or, true_and]
    · simp only [hnum, hstr, if_false, decide_eq_true_eq, lt_irrefl, false_or, true_and]
  · have hcode : v.kind.code ≠ w.kind.code := fun h => hkind (Kind.code_injective h)
    rcases lt_or_gt_of_ne hcode with hlt | hgt
    · simp only [hlt, if_true, true_or]
    · simp only [hgt, not_lt_of_gt hgt, hcode, if_false, if_true, false_and, or_self,
        Bool.false_eq_true]

/-- The value is the number `x`. -/
def IsNum (v : Value N) (x : N) : Prop := v.kind = .number ∧ v.num = .num x

theorem tied_of_isNaN {x : N} (hv : v.IsNum x) (hw : w.isNaN = true) : tied less v w = true := by
  simp only [isNaN, Bool.and_eq_true, decide_eq_true_eq] at hw
  rw [tied_iff]
  unfold less
  simp [hv.1, hv.2, hw.1, hw.2, F64.less]

theorem eq_of_tied {x y : N} (hv : v.IsNum x) (hw : w.IsNum y)
    (h : tied less v w = true) : x = y := by
  rw [tied_iff] at h
  unfold less at h
  simp only [hv.1, hv.2, hw.1, hw.2, lt_irrefl, if_false, if_true, F64.less,
    decide_eq_false_iff_not, not_lt] at h
  exact le_antisymm h.2 h.1

end Value

/-! ## The comparisons together -/

/-- WHERE with an operator: the lower bound is the text of one. -/
def WhereT.operator (w : WhereT N) : Prop :=
  w.min.data ∈ [lit "<", lit "<=", lit ">", lit ">=", lit "==", lit "!="]

/-- `Less` is a strict weak order on the values and `Equals` an equivalence;
exactly one of less, equal and greater holds, at most and at least are that or
equal, and at most is transitive; equal values match alike. -/
structure Consistent (s : Set (Value N)) : Prop where
  order : WeakOrderOn Value.less s
  equals : Equivalence fun a b : s => a.1.equals b.1 = true
  oneOf : ∀ a ∈ s, ∀ b ∈ s,
    (mLT a b = true ∧ mEQ a b = false ∧ mGT a b = false) ∨
    (mLT a b = false ∧ mEQ a b = true ∧ mGT a b = false) ∨
    (mLT a b = false ∧ mEQ a b = false ∧ mGT a b = true)
  atMost : ∀ a ∈ s, ∀ b ∈ s, mLTE a b = (mLT a b || mEQ a b)
  atLeast : ∀ a ∈ s, ∀ b ∈ s, mGTE a b = (mGT a b || mEQ a b)
  atMost_trans : ∀ a ∈ s, ∀ b ∈ s, ∀ c ∈ s, mLTE a b = true → mLTE b c = true → mLTE a c = true
  whereField : ∀ w : WhereT N, w.min ∈ s ∨ w.operator → w.max ∈ s → ∀ a ∈ s, ∀ b ∈ s,
    mEQ a b = true → w.matchField a = w.matchField b
  wherein : ∀ w : WhereinT N, (∀ val ∈ w.valArr, val ∈ s) → ∀ a ∈ s, ∀ b ∈ s,
    mEQ a b = true → w.matchValue a = w.matchValue b

variable {s : Set (Value N)} {a b : Value N}

section

variable (h : WeakOrderOn Value.less s)
include h

theorem mEQ_congr (ha : a ∈ s) (hb : b ∈ s)
    (hab : mEQ a b = true) {c : Value N} (hc : c ∈ s) : mEQ a c = mEQ b c := by
  unfold mEQ Value.equals
  rw [h.less_congr_left ha hb hc hab, h.less_congr_right ha hb hc hab]

theorem matchField_congr (w : WhereT N)
    (hmin : w.min ∈ s ∨ w.operator) (hmax : w.max ∈ s) (ha : a ∈ s) (hb : b ∈ s)
    (hab : mEQ a b = true) : w.matchField a = w.matchField b := by
  have hlt : mLT a w.max = mLT b w.max := h.less_congr_left ha hb hmax hab
  have hgt : mLT w.max a = mLT w.max b := h.less_congr_right ha hb hmax hab
  have heq := mEQ_congr h ha hb hab hmax
  unfold WhereT.matchField mLTE mGT mGTE
  rw [hlt, hgt, heq]
  obtain hmin | hop := hmin
  · have hlt' : mLT a w.min = mLT b w.min := h.less_congr_left ha hb hmin hab
    have hgt' : mLT w.min a = mLT w.min b := h.less_congr_right ha hb hmin hab
    rw [hlt', hgt']
  -- the bound itself is not compared
  simp only [WhereT.operator, List.mem_cons, List.not_mem_nil, or_false] at hop
  rcases hop with hop | hop | hop | hop | hop | hop <;> simp only [hop] <;> rfl

theorem matchValue_congr (w : WhereinT N)
    (hvals : ∀ val ∈ w.valArr, val ∈ s) (ha : a ∈ s) (hb : b ∈ s) (hab : mEQ a b = true) :
    w.matchValue a = w.matchValue b := by
  unfold WhereinT.matchValue
  rw [Bool.eq_iff_iff, List.any_eq_true, List.any_eq_true]
  apply exists_congr
  intro val
  apply and_congr_right
  intro hval
  have hcomm : ∀ c, mEQ val c = mEQ c val := fun c => Bool.and_comm _ _
  rw [hcomm a, hcomm b, mEQ_congr h ha hb hab (hvals val hval)]

/-- Everything follows from the order. -/
theorem Consistent.of_order : Consistent s where
  order := h
  equals := h.equivalence
  oneOf := fun _ ha _ hb => h.trichotomy ha hb
  atMost := by
    intro a ha b hb
    unfold mLTE mLT mEQ Value.equals
    cases hab : a.less b with
    | true => rw [h.asymm ha hb hab]; rfl
    | false => rfl
  atLeast := by
    intro a ha b hb
    unfold mGTE mGT mLT mEQ Value.equals
    cases hba : b.less a with
    | true => rw [h.asymm hb ha hba]; rfl
    | false => exact (Bool.and_true _).symm
  atMost_trans := by
    intro a ha b hb c hc hab hbc
    unfold mLTE mLT at *
    rw [Bool.not_eq_true'] at *
    exact h.not_less_trans ha hb hc hab hbc
  whereField := fun w hmin hmax _ ha _ hb => matchField_congr h w hmin hmax ha hb
  wherein := fun w hvals _ ha _ hb => matchValue_congr h w hvals ha hb

end

/-- A set without NaN, or with NaN and at most one number. -/
def FewNumbers (s : Set (Value N)) : Prop :=
  ∀ a ∈ s, a.isNaN = true → ∀ b ∈ s, ∀ c ∈ s, ∀ x y, b.IsNum x → c.IsNum y → x = y

theorem FewNumbers.order [Nonempty N] (h : FewNumbers s) : WeakOrderOn Value.less s := by
  -- the number that NaN may be taken for
  obtain ⟨c, hc⟩ : ∃ c, ∀ a ∈ s, a.isNaN = true → ∀ b ∈ s, b.kind = .number → b.num.NearNaN c := by
    by_cases hex : ∃ b ∈ s, ∃ x, b.IsNum x
    · obtain ⟨b₀, hb₀, x, hx⟩ := hex
      refine ⟨x, ?_⟩
      intro a ha hnan b hb hkind
      cases hnum : b.num with
      | nan => exact .inl rfl
      | num y => exact .inr (congrArg _ (h a ha hnan b hb b₀ hb₀ y x ⟨hkind, hnum⟩ hx))
    refine ⟨Classical.arbitrary N, ?_⟩
    intro a ha hnan b hb hkind
    cases hnum : b.num with
    | nan => exact .inl rfl
    | num y => exact absurd ⟨b, hb, y, hkind, hnum⟩ hex
  apply WeakOrderOn.of_key (Value.key c)
  intro a ha b hb
  exact Value.less_iff_key c (fun hnan => hc a ha hnan b hb) (fun hnan => hc b hb hnan a ha)

variable (lib : FieldLib N)

/-- The comparisons of the values of a set of strings fit together exactly if
there is no NaN beside two different numbers among them. -/
theorem consistent_iff (strings : Set Bytes) :
    Consistent (valueOf lib '' strings) ↔ FewNumbers (valueOf lib '' strings) := by
  constructor
  · intro h a ha hnan b hb c hc x y hx hy
    have hba := Value.tied_of_isNaN hx hnan
    have hac := tied_comm.trans (Value.tied_of_isNaN hy hnan)
    exact Value.eq_of_tied hx hy (h.order.tied_trans b hb a ha c hc hba hac)
  · intro h
    have : Nonempty N := ⟨lib.zero⟩
    exact .of_order h.order

/-- NaN equals 1 and 2, which are not equal. -/
theorem consistent_nan :
    mEQ (valueOf smallLib (lit "1")) (valueOf smallLib (lit "NaN")) = true ∧
      mEQ (valueOf smallLib (lit "NaN")) (valueOf smallLib (lit "2")) = true ∧
      mEQ (valueOf smallLib (lit "1")) (valueOf smallLib (lit "2")) = false ∧
      ¬ Consistent (valueOf smallLib '' {lit "1", lit "NaN", lit "2"}) := by
  have h1 : mEQ (valueOf smallLib (lit "1")) (valueOf smallLib (lit "NaN")) = true := by
    decide +kernel
  have h2 : mEQ (valueOf smallLib (lit "NaN")) (valueOf smallLib (lit "2")) = true := by
    decide +kernel
  have h12 : mEQ (valueOf smallLib (lit "1")) (valueOf smallLib (lit "2")) = false := by
    decide +kernel
  refine ⟨h1, h2, h12, ?_⟩
  intro h
  have hmem : ∀ s ∈ ({lit "1", lit "NaN", lit "2"} : Set Bytes),
      valueOf smallLib s ∈ valueOf smallLib '' {lit "1", lit "NaN", lit "2"} :=
    fun s hs => Set.mem_image_of_mem _ hs
  have htrans := h.order.tied_trans _ (hmem (lit "1") (by simp)) _ (hmem (lit "NaN") (by simp)) _
    (hmem (lit "2") (by simp)) h1 h2
  exact Bool.false_ne_true (h12.symm.trans htrans)

end SpatialDb.Server
