import SpatialDb.Server.FieldText

/-!
# Reading a field back

`List.Get` walks over the entries in the order of their names.  For a name with
a dot it takes a JSON entry for the document that the part before the dot names,
and compares that part with the entry's name: the walk ends at the first JSON
entry behind it, be it the entry of the whole name.

`List.Set` keeps the old entry if its value equals the new one, and two values
that are equal need not have the same data.
-/

namespace SpatialDb.Server

open Lib OrdMap List

/-! ## Kind and data -/

section Same

variable {N : Type*}

/-- The same kind and data. -/
def Value.Same (v w : Value N) : Prop := v.kind = w.kind ∧ v.data = w.data

instance (v w : Value N) : Decidable (v.Same w) :=
  inferInstanceAs (Decidable (v.kind = w.kind ∧ v.data = w.data))

theorem bfield_kind (lib : FieldLib N) (s : StoredValue) : (bfield lib s).kind = s.kind := by
  unfold bfield
  cases hkind : s.kind <;> rfl

theorem Guessed.bfield_stored_same {lib : FieldLib N} {v : Value N} (h : Guessed lib v) :
    (bfield lib v.stored).Same v := by
  cases h with
  | special hv =>
    simp only [mem_cons, not_mem_nil, or_false] at hv
    rcases hv with rfl | rfl | rfl <;> exact ⟨rfl, rfl⟩
  | number => exact ⟨rfl, rfl⟩
  | word _ _ hword =>
    simp only [mem_cons, not_mem_nil, or_false, Prod.mk.injEq] at hword
    rcases hword with ⟨rfl, rfl⟩ | ⟨rfl, rfl⟩ | ⟨rfl, rfl⟩ <;> exact ⟨rfl, rfl⟩
  | json => exact ⟨rfl, rfl⟩
  | text => exact ⟨rfl, rfl⟩

/-- No other value is written as zero is. -/
theorem Guessed.not_same_zero [DecidableEq N] {lib : FieldLib N}
    (hlib : (lib.parseFloat (lit "0")).1 = .num lib.zero) {v : Value N} (h : Guessed lib v)
    (hzero : v.isZero lib = false) : ¬ (zeroValue lib).Same v := by
  rintro ⟨hkind, hdata⟩
  cases h with
  | special hv =>
    have hspecial : ∀ w ∈ [lit "NaN", lit "+Inf", lit "-Inf"], lit "0" ≠ w := by decide
    simp only [mem_cons, not_mem_nil, or_false] at hv
    rcases hv with rfl | rfl | rfl
    · exact hspecial (lit "NaN") (by simp) hdata
    · exact hspecial (lit "+Inf") (by simp) hdata
    · exact hspecial (lit "-Inf") (by simp) hdata
  | number _ hfloat =>
    have hd : lit "0" = _ := hdata
    subst hd
    have hnum := hlib
    rw [hfloat] at hnum
    have hnum : _ = F64.num lib.zero := hnum
    subst hnum
    simp [Value.isZero] at hzero
  | word _ _ hword =>
    simp only [mem_cons, not_mem_nil, or_false, Prod.mk.injEq] at hword
    rcases hword with ⟨rfl, -⟩ | ⟨rfl, -⟩ | ⟨rfl, -⟩ <;> cases hkind
  | json => cases hkind
  | text => cases hkind

theorem Value.kind_eq_of_equals [LinearOrder N] {v w : Value N} (h : v.equals w = true) :
    v.kind = w.kind := by
  by_contra hkind
  have hcode : v.kind.code ≠ w.kind.code := fun hcode => hkind (Kind.code_injective hcode)
  unfold Value.equals Value.less at h
  rcases lt_or_gt_of_ne hcode with hlt | hgt
  · simp [hlt] at h
  · simp [hgt] at h

end Same

namespace FieldList

section

variable {N : Type*} (lib : FieldLib N) {name fname jname jpath : Bytes}
  {path : Option (Bytes × Bytes)} {s : StoredValue}

/-! ## The walk -/

/-- The walk passes over an entry. -/
def Skips (name : Bytes) (path : Option (Bytes × Bytes)) (e : Bytes × StoredValue) : Prop :=
  ∀ rest, getLoop lib name path (e :: rest) = getLoop lib name path rest

variable {lib}

theorem skips_plain (h : s.kind ≠ .json ∨ path = none) (hlt : fname < name) :
    Skips lib name path (fname, s) := by
  intro rest
  rw [getLoop_plain lib h, if_neg (not_lt_of_gt hlt), if_neg (ne_of_lt hlt)]

theorem skips_json (hkind : s.kind = .json)
    (h : fname < jname ∨ (fname = jname ∧ lib.get s.data jpath = none)) :
    Skips lib name (some (jname, jpath)) (fname, s) := by
  intro rest
  rw [getLoop_json lib hkind]
  obtain hlt | ⟨rfl, hnone⟩ := h
  · rw [if_neg (not_lt_of_gt hlt), if_neg (ne_of_lt hlt)]
  · rw [if_neg (lt_irrefl _), if_pos rfl, hnone]

theorem getLoop_append {before : List (Bytes × StoredValue)}
    (h : ∀ e ∈ before, Skips lib name path e) (rest : List (Bytes × StoredValue)) :
    getLoop lib name path (before ++ rest) = getLoop lib name path rest := by
  induction before with
  | nil => rfl
  | cons e before ih =>
    obtain ⟨he, hbefore⟩ := forall_mem_cons.mp h
    rw [cons_append, he, ih hbefore]

/-! ## What `Get` returns -/

variable (lib) in
/-- What the document before the dot answers. -/
def jsonAnswer (fields : FieldList) (name : Bytes) : Option (Kind × Bytes) :=
  match splitDot name with
  | none => none
  | some (jname, jpath) =>
    match fields.get? jname with
    | none => none
    | some s => if s.kind = .json then lib.get s.data jpath else none

/-- A JSON entry between the part before the dot and the name. -/
def Between (fields : FieldList) (jname name : Bytes) : Prop :=
  ∃ f s, fields.get? f = some s ∧ s.kind = .json ∧ jname < f ∧ f < name

variable {fields : FieldList}

theorem getValue_of_answer {answer : Kind × Bytes} (h : jsonAnswer lib fields name = some answer) :
    getValue lib fields name = bfield lib ⟨answer.1, answer.2⟩ := by
  unfold jsonAnswer at h
  split at h
  · cases h
  rename_i jname jpath hsplit
  split at h
  · cases h
  rename_i s hget
  split at h
  · rename_i hkind
    obtain ⟨before, after, hentries, hbefore, -⟩ := exists_entries_eq hget
    have hskip : ∀ e ∈ before, Skips lib name (some (jname, jpath)) e := by
      intro e he
      by_cases hjson : e.2.kind = .json
      · exact skips_json hjson (.inl (hbefore e he))
      · exact skips_plain (.inl hjson) ((hbefore e he).trans (splitDot_lt hsplit))
    rw [getValue, hsplit, hentries, getLoop_append hskip, getLoop_json lib hkind,
      if_neg (lt_irrefl _), if_pos rfl, h]
    rfl
  · cases h

/-- Without an answer, the entries below a bound that no JSON entry has in
between are passed over. -/
theorem skips_of_below (hanswer : jsonAnswer lib fields name = none) {jname jpath : Bytes}
    (hsplit : splitDot name = some (jname, jpath)) {f : Bytes} {s : StoredValue}
    (hget : fields.get? f = some s) (hname : f < name) (hjson : s.kind = .json → ¬ jname < f) :
    Skips lib name (some (jname, jpath)) (f, s) := by
  by_cases hkind : s.kind = .json
  · obtain hlt | heq := lt_or_eq_of_le (not_lt.mp (hjson hkind))
    · exact skips_json hkind (.inl hlt)
    refine skips_json hkind (.inr ⟨heq, ?_⟩)
    subst heq
    simp only [jsonAnswer, hsplit, hget, hkind, if_true] at hanswer
    exact hanswer
  · exact skips_plain (.inl hkind) hname

/-- Behind a JSON entry in between nothing is found. -/
theorem getLoop_of_blocked {before after : List (Bytes × StoredValue)} {f : Bytes}
    (hkind : s.kind = .json) (hf : jname < f)
    (h : ∀ e ∈ before, Skips lib name (some (jname, jpath)) e ∨ (e.2.kind = .json ∧ jname < e.1)) :
    getLoop lib name (some (jname, jpath)) (before ++ (f, s) :: after) = none := by
  induction before with
  | nil => rw [nil_append, getLoop_json lib hkind, if_pos hf]
  | cons e before ih =>
    obtain ⟨he, hbefore⟩ := forall_mem_cons.mp h
    obtain hskip | ⟨hjson, hlt⟩ := he
    · rw [cons_append, hskip, ih hbefore]
    · rw [cons_append, ← Prod.mk.eta (p := e), getLoop_json lib hjson, if_pos hlt]

theorem getValue_of_blocked (hanswer : jsonAnswer lib fields name = none)
    (hsplit : splitDot name = some (jname, jpath)) {f : Bytes} (hget : fields.get? f = some s)
    (hkind : s.kind = .json) (hf : jname < f) (hname : f ≤ name) :
    getValue lib fields name = zeroValue lib := by
  obtain ⟨before, after, hentries, hbefore, -⟩ := exists_entries_eq hget
  have hwalk : ∀ e ∈ before,
      Skips lib name (some (jname, jpath)) e ∨ (e.2.kind = .json ∧ jname < e.1) := by
    intro e he
    by_cases hblock : e.2.kind = .json ∧ jname < e.1
    · exact .inr hblock
    have hentry : fields.get? e.1 = some e.2 := by
      rw [← fields.mem_entries_iff, hentries]
      exact mem_append_left _ he
    exact .inl (skips_of_below hanswer hsplit hentry (lt_of_lt_of_le (hbefore e he) hname)
      fun hjson hlt => hblock ⟨hjson, hlt⟩)
  rw [getValue, hsplit, hentries, getLoop_of_blocked hkind hf hwalk]
  rfl

theorem getValue_of_entry (hanswer : jsonAnswer lib fields name = none)
    (hget : fields.get? name = some s)
    (hdot : ∀ p, splitDot name = some p → s.kind ≠ .json ∧ ¬ Between fields p.1 name) :
    getValue lib fields name = bfield lib s := by
  obtain ⟨before, after, hentries, hbefore, -⟩ := exists_entries_eq hget
  have hwalk : ∀ e ∈ before, Skips lib name (splitDot name) e := by
    intro e he
    cases hsplit : splitDot name with
    | none => exact skips_plain (.inr rfl) (hbefore e he)
    | some p =>
      have hentry : fields.get? e.1 = some e.2 := by
        rw [← fields.mem_entries_iff, hentries]
        exact mem_append_left _ he
      refine skips_of_below hanswer hsplit hentry (hbefore e he) ?_
      intro hjson hlt
      exact (hdot p hsplit).2 ⟨e.1, e.2, hentry, hjson, hlt, hbefore e he⟩
  have hplain : s.kind ≠ .json ∨ splitDot name = none := by
    cases hsplit : splitDot name with
    | none => exact .inr rfl
    | some p => exact .inl (hdot p hsplit).1
  rw [getValue, hentries, getLoop_append hwalk, getLoop_plain lib hplain, if_neg (lt_irrefl _),
    if_pos rfl]
  rfl

end

/-! ## After `Set` -/

variable {N : Type*} [LinearOrder N] (lib : FieldLib N)

/-- Whether `Set` leaves what is there. -/
def Unchanged (fields : FieldList) (name : Bytes) (v : Value N) : Prop :=
  ∃ prev, fields.get? name = some prev ∧ (bfield lib prev).equals v = true

variable {lib} {fields : FieldList} {name : Bytes} {v : Value N}

theorem setField_of_unchanged (hzero : v.isZero lib = false) (h : Unchanged lib fields name v) :
    setField lib fields ⟨name, v⟩ = fields := by
  obtain ⟨prev, hget, heq⟩ := h
  simp only [setField, hget, hzero, heq, Bool.false_eq_true, if_false, if_true]

theorem setField_of_changed (hzero : v.isZero lib = false) (h : ¬ Unchanged lib fields name v) :
    setField lib fields ⟨name, v⟩ = fields.set name v.stored := by
  unfold setField
  cases hget : fields.get? name with
  | none => simp only [hzero, Bool.false_eq_true, if_false]
  | some prev =>
    have hne : ¬ (bfield lib prev).equals v = true := fun heq => h ⟨prev, hget, heq⟩
    simp only [hzero, hne, Bool.false_eq_true, if_false]

theorem setField_of_zero {f : Field N} (hzero : f.value.isZero lib = true) :
    setField lib fields f = fields.delete f.name := by
  unfold setField
  cases hget : fields.get? f.name with
  | none => simp only [hzero, if_true, delete_eq_self hget]
  | some prev => simp only [hzero, if_true]

theorem get?_setField_ne {f : Field N} {g : Bytes} (hg : g ≠ f.name) :
    (setField lib fields f).get? g = fields.get? g := by
  cases hzero : f.value.isZero lib with
  | true => rw [setField_of_zero hzero, get?_delete_ne _ hg]
  | false =>
    by_cases h : Unchanged lib fields f.name f.value
    · rw [setField_of_unchanged hzero h]
    · rw [setField_of_changed hzero h, get?_set_ne _ _ hg]

theorem jsonAnswer_setField :
    jsonAnswer lib (setField lib fields ⟨name, v⟩) name = jsonAnswer lib fields name := by
  unfold jsonAnswer
  cases hsplit : splitDot name with
  | none => rfl
  | some p =>
    dsimp only
    rw [get?_setField_ne (ne_of_lt (splitDot_lt hsplit))]

theorem between_setField (jname : Bytes) :
    Between (setField lib fields ⟨name, v⟩) jname name ↔ Between fields jname name := by
  have hother : ∀ f, f < name → (setField lib fields ⟨name, v⟩).get? f = fields.get? f :=
    fun f hf => get?_setField_ne (ne_of_lt hf)
  constructor
  · rintro ⟨f, s, hget, hkind, hlow, hhigh⟩
    rw [hother f hhigh] at hget
    exact ⟨f, s, hget, hkind, hlow, hhigh⟩
  · rintro ⟨f, s, hget, hkind, hlow, hhigh⟩
    rw [← hother f hhigh] at hget
    exact ⟨f, s, hget, hkind, hlow, hhigh⟩

/-- The entry after `Set` has the kind of the value, and is what `Set` wrote or
left. -/
theorem get?_setField_self (fields : FieldList) (name : Bytes) (hzero : v.isZero lib = false) :
    ∃ s, (setField lib fields ⟨name, v⟩).get? name = some s ∧ s.kind = v.kind ∧
      ((fields.get? name = some s ∧ (bfield lib s).equals v = true) ∨
        (s = v.stored ∧ ¬ Unchanged lib fields name v)) := by
  by_cases h : Unchanged lib fields name v
  · obtain ⟨prev, hget, heq⟩ := id h
    rw [setField_of_unchanged hzero h]
    refine ⟨prev, hget, ?_, .inl ⟨hget, heq⟩⟩
    rw [← bfield_kind lib prev]
    exact Value.kind_eq_of_equals heq
  · rw [setField_of_changed hzero h]
    exact ⟨v.stored, get?_set_self _ _ _, rfl, .inr ⟨rfl, h⟩⟩

variable (lib) in
/-- Whether a value can be read back once it is set.  The document before a dot
must not answer with something else; a value already there that is equal must
be the same; and for a name with a dot the value must not be JSON, nor may a
JSON entry stand between the part before the dot and the name. -/
def Recoverable (fields : FieldList) (name : Bytes) (v : Value N) : Prop :=
  match jsonAnswer lib fields name with
  | some answer => (bfield lib ⟨answer.1, answer.2⟩).Same v
  | none =>
    (∀ prev, fields.get? name = some prev → (bfield lib prev).equals v = true →
      (bfield lib prev).Same v) ∧
    ∀ p, splitDot name = some p → v.kind ≠ .json ∧ ¬ Between fields p.1 name

/-- Something stands in the way of a dotted name. -/
theorem getValue_setField_blocked (hzero : v.isZero lib = false)
    (hanswer : jsonAnswer lib fields name = none) {p : Bytes × Bytes}
    (hsplit : splitDot name = some p) (h : v.kind = .json ∨ Between fields p.1 name) :
    getValue lib (setField lib fields ⟨name, v⟩) name = zeroValue lib := by
  rw [← jsonAnswer_setField] at hanswer
  obtain hkind | hbetween := h
  · obtain ⟨s, hget, hs, -⟩ := get?_setField_self fields name hzero
    exact getValue_of_blocked hanswer hsplit hget (hs.trans hkind) (splitDot_lt hsplit) le_rfl
  have hafter : Between (setField lib fields ⟨name, v⟩) p.1 name :=
    (between_setField p.1).mpr hbetween
  obtain ⟨f, s, hget, hs, hlow, hhigh⟩ := hafter
  exact getValue_of_blocked hanswer hsplit hget hs hlow hhigh.le

/-- After a value is set under a name, `Get` of that name returns its kind and
data exactly if the value is recoverable there. -/
theorem getValue_setField_iff (hlib : (lib.parseFloat (lit "0")).1 = .num lib.zero)
    (fields : FieldList) (name data : Bytes) (hzero : (valueOf lib data).isZero lib = false) :
    (getValue lib (setField lib fields ⟨name, valueOf lib data⟩) name).Same (valueOf lib data) ↔
      Recoverable lib fields name (valueOf lib data) := by
  have hguess := guessed_valueOf lib data
  generalize valueOf lib data = v at hzero hguess ⊢
  have hnotZero : ¬ (zeroValue lib).Same v := hguess.not_same_zero hlib hzero
  unfold Recoverable
  cases hanswer : jsonAnswer lib fields name with
  | some answer =>
    rw [getValue_of_answer (jsonAnswer_setField.trans hanswer)]
  | none =>
    by_cases hblock : ∃ p, splitDot name = some p ∧ (v.kind = .json ∨ Between fields p.1 name)
    · obtain ⟨p, hsplit, hway⟩ := hblock
      rw [getValue_setField_blocked hzero hanswer hsplit hway]
      refine ⟨fun h => absurd h hnotZero, ?_⟩
      rintro ⟨-, hdot⟩
      obtain ⟨hkind, hbetween⟩ := hdot p hsplit
      exact absurd hway (not_or.mpr ⟨hkind, hbetween⟩)
    have hdot : ∀ p, splitDot name = some p → v.kind ≠ .json ∧ ¬ Between fields p.1 name :=
      fun p hsplit => not_or.mp fun hway => hblock ⟨p, hsplit, hway⟩
    obtain ⟨s, hget, hs, hprev⟩ := get?_setField_self fields name hzero
    have hvalue := getValue_of_entry (jsonAnswer_setField.trans hanswer) hget
      fun p hsplit => ⟨hs ▸ (hdot p hsplit).1,
        fun hbetween => (hdot p hsplit).2 ((between_setField p.1).mp hbetween)⟩
    rw [hvalue]
    obtain ⟨hold, heq⟩ | ⟨rfl, hnew⟩ := hprev
    · refine ⟨fun hsame => ⟨?_, hdot⟩, fun h => h.1 s hold heq⟩
      intro prev hprev _
      cases hold.symm.trans hprev
      exact hsame
    · refine ⟨fun _ => ⟨?_, hdot⟩, fun _ => hguess.bfield_stored_same⟩
      exact fun prev hprev heq => absurd ⟨prev, hprev, heq⟩ hnew

theorem getValue_setField_speed : (getValue smallLib (setField smallLib
      (setField smallLib empty ⟨lit "speed", valueOf smallLib (lit "90")⟩)
      ⟨lit "speed", valueOf smallLib (lit "7")⟩) (lit "speed")).Same
      (valueOf smallLib (lit "7")) := by
  rw [getValue_setField_iff (by decide +kernel) _ _ _ (by decide +kernel)]
  refine ⟨?_, ?_⟩
  · intro prev hprev heq
    have hget : (setField smallLib empty ⟨lit "speed", valueOf smallLib (lit "90")⟩).get?
        (lit "speed") = some ⟨.number, lit "90"⟩ := by decide +kernel
    have hne :
        (bfield smallLib ⟨.number, lit "90"⟩).equals (valueOf smallLib (lit "7")) = false := by
      decide +kernel
    cases hget.symm.trans hprev
    rw [hne] at heq
    cases heq
  · have hplain : splitDot (lit "speed") = none := by decide
    rintro p hp
    cases hplain.symm.trans hp

/-- A text that differs in case only, NaN over a number, and JSON under a dotted
name: what is read is the old value, twice, and zero. -/
theorem getValue_setField_lost : getValue smallLib (setField smallLib
        (setField smallLib empty ⟨lit "color", valueOf smallLib (lit "Red")⟩)
        ⟨lit "color", valueOf smallLib (lit "red")⟩) (lit "color") = ⟨.string, lit "Red", .num 0⟩ ∧
      getValue smallLib (setField smallLib
        (setField smallLib empty ⟨lit "speed", valueOf smallLib (lit "5")⟩)
        ⟨lit "speed", valueOf smallLib (lit "NaN")⟩) (lit "speed") = ⟨.number, lit "5", .num 5⟩ ∧
      getValue smallLib (setField smallLib empty
        ⟨lit "a.b", valueOf smallLib (lit "[1]")⟩) (lit "a.b") = zeroValue smallLib := by
  decide +kernel

end FieldList

end SpatialDb.Server
