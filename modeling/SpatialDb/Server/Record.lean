import SpatialDb.Lib.Assignment
import SpatialDb.Server.Crud

/-!
# Field lists as records of registers

The loops of SET and FSET over a field list are assignments in the sense of
`Lib.Assignment`, with the values that `Equals` cannot tell apart as classes.

Three things stand between a field list and such a record, and are excluded by
`CleanField` and `Plain`: NaN, which `Equals` takes to be equal to everything;
names that `isReservedFieldName` turns down once they are trimmed; and the
names of FSET that `List.Get` looks up inside a JSON field.
-/

namespace SpatialDb.Server

open Lib List OrdMap

section

variable {N : Type} [LinearOrder N] (lib : FieldLib N) (docs : List Bytes)

/-- What `Equals` compares; no entry reads as zero. -/
def fieldCls (v : Option StoredValue) : Kind × Option (F64 N) × Bytes :=
  ((v.map (bfield lib)).getD (zeroValue lib)).cls

/-- What a list keeps of a value: nothing of zero. -/
def toStored (v : Value N) : Option StoredValue := if v.isZero lib then none else some v.stored

/-- A field that a dump of the data writes back as it is: its name is not
reserved, it is not NaN, and if it is a document, its name is among `docs`. -/
structure CleanField (name : Bytes) (v : Value N) : Prop where
  name_ok : isReservedFieldName name = false
  not_nan : v.isNaN = false
  doc : v.kind = .json → name ∈ docs

instance (name : Bytes) (v : Value N) : Decidable (CleanField docs name v) :=
  decidable_of_iff
    (isReservedFieldName name = false ∧ v.isNaN = false ∧ (v.kind = .json → name ∈ docs))
    ⟨fun h => ⟨h.1, h.2.1, h.2.2⟩, fun h => ⟨h.name_ok, h.not_nan, h.doc⟩⟩

/-- A name that `List.Get` does not look up inside a document: it has no dot,
or no document's name lies between its first part and itself. -/
def Plain (name : Bytes) : Prop :=
  ∀ p ∈ FieldList.splitDot name, ∀ doc ∈ docs, doc < p.1 ∨ name < doc

instance (name : Bytes) : Decidable (Plain docs name) :=
  inferInstanceAs (Decidable (∀ p ∈ FieldList.splitDot name, ∀ doc ∈ docs, doc < p.1 ∨ name < doc))

/-- A field as `field.Make` makes it, and clean. -/
structure Made (f : Field N) : Prop where
  value : ∃ data, f.value = valueOf lib data
  name : trimSpace f.name = f.name
  clean : CleanField docs f.name f.value

/-- The entries of a list: clean, made by `field.Make`, not zero. -/
def GoodList (fields : FieldList) : Prop :=
  ∀ name sv, fields.get? name = some sv →
    ∃ v, sv = Value.stored v ∧ v.isZero lib = false ∧ Made lib docs ⟨name, v⟩

variable {lib docs}

variable {f : Field N} {fields : FieldList}

section

variable (hlib : lib.ReadsSpecials)
include hlib

theorem Made.bfield_stored (h : Made lib docs f) : bfield lib f.value.stored = f.value := by
  obtain ⟨data, hdata⟩ := h.value
  rw [hdata]
  exact bfield_stored_valueOf hlib data

/-- The class of what is kept is the class of the value. -/
theorem Made.fieldCls_toStored (h : Made lib docs f) :
    fieldCls lib (toStored lib f.value) = f.value.cls := by
  unfold toStored
  split_ifs with hzero
  · -- a zero value is the number 0, since `ValueOf` never returns the blank
    obtain ⟨data, hdata⟩ := h.value
    have hblank : f.value ≠ Value.blank lib := by
      rw [hdata]
      exact valueOf_ne_blank data
    simp only [Value.isZero, Bool.or_eq_true, Bool.and_eq_true, decide_eq_true_eq, hblank,
      or_false] at hzero
    obtain ⟨⟨hkind, -⟩, hnum⟩ := hzero
    simp [fieldCls, zeroValue, Value.cls, hkind, hnum]
  · show (bfield lib f.value.stored).cls = f.value.cls
    rw [h.bfield_stored hlib]

/-- Reading a good entry gives a value that is not NaN. -/
theorem GoodList.not_nan (h : GoodList lib docs fields) (name : Bytes) :
    (((fields.get? name).map (bfield lib)).getD (zeroValue lib)).isNaN = false := by
  cases hget : fields.get? name with
  | none => rfl
  | some sv =>
    obtain ⟨v, rfl, -, hmade⟩ := h name sv hget
    show (bfield lib v.stored).isNaN = false
    rw [hmade.bfield_stored hlib]
    exact hmade.clean.not_nan

/-- `List.Set` is the assignment `put`. -/
theorem get?_setField (h : GoodList lib docs fields) (hf : Made lib docs f) (name : Bytes) :
    (fields.setField lib f).get? name =
      assign (fieldCls lib) fields.get? (f.name, .put (toStored lib f.value)) name := by
  have hequal : ∀ prev, fields.get? f.name = some prev →
      ((bfield lib prev).equals f.value = true ↔
        fieldCls lib (some prev) = fieldCls lib (toStored lib f.value)) := by
    intro prev hprev
    have hnan : (bfield lib prev).isNaN = false := by
      simpa [hprev] using h.not_nan hlib f.name
    rw [Value.equals_iff_cls hnan hf.clean.not_nan, hf.fieldCls_toStored hlib]
    rfl
  unfold FieldList.setField assign
  by_cases hname : name = f.name
  · subst hname
    rw [Function.update_self]
    cases hprev : fields.get? f.name with
    | none =>
      cases hzero : f.value.isZero lib with
      | true => simp [toStored, hzero, Write.apply, hprev]
      | false => simp [toStored, hzero, Write.apply]
    | some prev =>
      have hiff := hequal prev hprev
      cases hzero : f.value.isZero lib with
      | true => simp [toStored, hzero, Write.apply]
      | false =>
        simp only [toStored, hzero, Bool.false_eq_true, if_false] at hiff ⊢
        rw [Write.apply]
        by_cases heq : (bfield lib prev).equals f.value = true
        · rw [if_pos heq, if_pos (hiff.mp heq), hprev]
        · rw [if_neg heq, if_neg fun h => heq (hiff.mpr h), get?_set_self]
  rw [Function.update_of_ne hname]
  repeat' split
  all_goals first
    | rfl
    | exact get?_delete_ne _ hname
    | exact get?_set_ne _ _ hname

end

theorem GoodList.setField (h : GoodList lib docs fields) (hf : Made lib docs f) :
    GoodList lib docs (fields.setField lib f) := by
  have hset : f.value.isZero lib = false →
      GoodList lib docs (fields.set f.name f.value.stored) := by
    intro hzero
    exact forall_get?_set h ⟨f.value, rfl, hzero, hf⟩
  have hdelete : GoodList lib docs (fields.delete f.name) := forall_get?_delete h f.name
  unfold FieldList.setField
  cases hzero : f.value.isZero lib with
  | true =>
    cases fields.get? f.name with
    | none => exact h
    | some prev => exact hdelete
  | false =>
    cases fields.get? f.name with
    | none => exact hset hzero
    | some prev =>
      dsimp only
      rw [if_neg Bool.false_ne_true]
      split
      · exact h
      · exact hset hzero

/-! ### Looking a field up -/

omit [LinearOrder N] in
theorem getLoop_eq_lookupEntry {name : Bytes} {entries : List (Bytes × StoredValue)}
    (hsorted : entries.Pairwise fun a b => a.1 < b.1)
    (hplain : ∀ p ∈ FieldList.splitDot name, ∀ e ∈ entries, e.2.kind = .json →
      e.1 < p.1 ∨ name < e.1) :
    FieldList.getLoop lib name (FieldList.splitDot name) entries =
      (lookupEntry name entries).map (bfield lib) := by
  induction entries with
  | nil => rfl
  | cons e entries ih =>
    obtain ⟨fname, sv⟩ := e
    rw [pairwise_cons] at hsorted
    have ih := ih hsorted.2 fun p hp e he => hplain p hp e (mem_cons_of_mem _ he)
    -- below the entry there is nothing more to find
    have hbelow : name < fname → lookupEntry name ((fname, sv) :: entries) = none := by
      intro hlt
      rw [lookupEntry_eq_none_iff]
      intro e he
      rcases mem_cons.mp he with rfl | he
      · exact (ne_of_lt hlt).symm
      · exact (ne_of_lt (hlt.trans (hsorted.1 e he))).symm
    by_cases hdoc : sv.kind ≠ .json ∨ FieldList.splitDot name = none
    · rw [FieldList.getLoop_plain lib hdoc, ih]
      by_cases hlt : name < fname
      · rw [if_pos hlt, hbelow hlt]
        rfl
      rw [if_neg hlt, lookupEntry]
      by_cases hname : fname = name
      · rw [if_pos hname, if_pos hname.symm]
        rfl
      · rw [if_neg hname, if_neg (Ne.symm hname)]
    -- a document, and the name has a dot: the entry lies outside
    obtain ⟨hkind, hsome⟩ := not_or.mp hdoc
    obtain ⟨⟨jname, jpath⟩, hsplit⟩ := Option.ne_none_iff_exists'.mp hsome
    have hkind : sv.kind = .json := not_not.mp hkind
    have hout : fname < jname ∨ name < fname :=
      hplain (jname, jpath) hsplit (fname, sv) mem_cons_self hkind
    have hle : jname ≤ name := (splitDot_lt hsplit).le
    rw [hsplit] at ih ⊢
    rw [FieldList.getLoop_json lib hkind, ih]
    by_cases hlt : jname < fname
    · rw [if_pos hlt, hbelow (hout.resolve_left (not_lt_of_gt hlt))]
      rfl
    have hlow : fname < jname := hout.resolve_right fun hname => hlt (lt_of_le_of_lt hle hname)
    have hne : name ≠ fname := (ne_of_lt (lt_of_lt_of_le hlow hle)).symm
    rw [if_neg hlt, if_neg (ne_of_lt hlow), lookupEntry, if_neg hne]

/-- The value of a plain name is its own entry. -/
theorem GoodList.getValue (h : GoodList lib docs fields) {name : Bytes} (hplain : Plain docs name) :
    fields.getValue lib name = ((fields.get? name).map (bfield lib)).getD (zeroValue lib) := by
  unfold FieldList.getValue
  rw [getLoop_eq_lookupEntry fields.sorted]
  · rfl
  · intro p hp e he hkind
    obtain ⟨v, hv, -, hmade⟩ := h e.1 e.2 ((fields.mem_entries_iff e.1 e.2).mp he)
    refine hplain p hp e.1 (hmade.clean.doc ?_)
    rw [hv] at hkind
    exact hkind

/-! ### The field loops -/

/-- The fields of a SET as assignments. -/
def puts (lib : FieldLib N) (fields : List (Field N)) : List (Bytes × Write StoredValue) :=
  fields.map fun f => (f.name, .put (toStored lib f.value))

/-- The fields of an FSET as assignments. -/
def updates (lib : FieldLib N) (fields : List (Field N)) : List (Bytes × Write StoredValue) :=
  fields.map fun f => (f.name, .update (toStored lib f.value))

/-- The loop over the fields of SET. -/
theorem foldl_setField (hlib : lib.ReadsSpecials) {fs : List (Field N)}
    (h : GoodList lib docs fields) (hfs : ∀ f ∈ fs, Made lib docs f) :
    GoodList lib docs (fs.foldl (FieldList.setField lib) fields) ∧
      (fs.foldl (FieldList.setField lib) fields).get? =
        assignAll (fieldCls lib) (puts lib fs) fields.get? := by
  induction fs generalizing fields with
  | nil => exact ⟨h, rfl⟩
  | cons f fs ih =>
    have hf := hfs f mem_cons_self
    obtain ⟨hgood, hget⟩ := ih (h.setField hf) (forall_mem_cons.mp hfs).2
    refine ⟨hgood, hget.trans ?_⟩
    rw [funext fun name => get?_setField hlib h hf name]
    rfl

end

variable {N G : Type} [LinearOrder N] {lib : ServerLib N G} {docs : List Bytes}

/-- One round of the loop of FSET is the assignment `update`. -/
theorem fsetField_cells (hlib : lib.ReadsSpecials) {acc : FieldList × Nat} {f : Field N}
    (h : GoodList lib.toFieldLib docs acc.1) (hf : Made lib.toFieldLib docs f)
    (hplain : Plain docs f.name) :
    GoodList lib.toFieldLib docs (fsetField lib acc f).1 ∧
      (fsetField lib acc f).1.get? = assign (fieldCls lib.toFieldLib) acc.1.get?
          (f.name, .update (toStored lib.toFieldLib f.value)) := by
  have hiff : (acc.1.getValue lib.toFieldLib f.name).equals f.value = true ↔
      fieldCls lib.toFieldLib (acc.1.get? f.name) =
        fieldCls lib.toFieldLib (toStored lib.toFieldLib f.value) := by
    rw [h.getValue hplain, Value.equals_iff_cls (h.not_nan hlib f.name) hf.clean.not_nan,
      hf.fieldCls_toStored hlib]
    rfl
  unfold fsetField
  split_ifs with heq
  · rw [assign_update_of_eq (hiff.mp heq)]
    exact ⟨h, rfl⟩
  refine ⟨h.setField hf, ?_⟩
  rw [← assign_put_of_ne fun h => heq (hiff.mpr h)]
  exact funext fun name => get?_setField hlib h hf name

/-- The loop over the fields of FSET. -/
theorem fsetFields_eq (hlib : lib.ReadsSpecials) {fs : List (Field N)} {fields : FieldList}
    (h : GoodList lib.toFieldLib docs fields)
    (hfs : ∀ f ∈ fs, Made lib.toFieldLib docs f ∧ Plain docs f.name) :
    GoodList lib.toFieldLib docs (fsetFields lib fs fields).1 ∧
      (fsetFields lib fs fields).1.get? =
        assignAll (fieldCls lib.toFieldLib) (updates lib.toFieldLib fs) fields.get? := by
  have hloop : ∀ (fs : List (Field N)) (acc : FieldList × Nat),
      (∀ f ∈ fs, Made lib.toFieldLib docs f ∧ Plain docs f.name) →
      GoodList lib.toFieldLib docs acc.1 →
      GoodList lib.toFieldLib docs (fs.foldl (fsetField lib) acc).1 ∧
        (fs.foldl (fsetField lib) acc).1.get? =
          assignAll (fieldCls lib.toFieldLib) (updates lib.toFieldLib fs) acc.1.get? := by
    intro fs
    induction fs with
    | nil =>
      intro acc _ hacc
      exact ⟨hacc, rfl⟩
    | cons f fs ih =>
      intro acc hfs hacc
      obtain ⟨hmade, hplain⟩ := hfs f mem_cons_self
      obtain ⟨hgood, hget⟩ := fsetField_cells hlib hacc hmade hplain
      obtain ⟨hgood', hget'⟩ := ih (fsetField lib acc f) (forall_mem_cons.mp hfs).2 hgood
      refine ⟨hgood', hget'.trans ?_⟩
      rw [hget]
      rfl
  exact hloop fs (fields, 0) hfs h

end SpatialDb.Server
