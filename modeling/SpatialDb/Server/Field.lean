import SpatialDb.Lib.OrdMap
import SpatialDb.Server.GoStrings

/-!
# Field values and field lists

Model of `internal/legacy/field`.  Floats are a linear order with a separate
NaN; the functions of `strconv`, `gjson` and `pretty` are parameters
(`FieldLib`).  A list keeps, per name in order, the kind and data that the
binary encoding keeps, and re-reads the number from the data (`bfield`).
-/

namespace SpatialDb.Server

open Lib

/-- A float: NaN, or a number of the linear order `N`. -/
inductive F64 (N : Type*) where
  | nan
  | num (x : N)
  deriving DecidableEq

/-- The kinds of `gjson`, in the order of their codes. -/
inductive Kind where
  | null
  | false
  | number
  | string
  | true
  | json
  deriving DecidableEq

def Kind.code : Kind → Nat
  | .null => 0
  | .false => 1
  | .number => 2
  | .string => 3
  | .true => 4
  | .json => 5

theorem Kind.code_injective {a b : Kind} (h : a.code = b.code) : a = b := by
  cases a <;> cases b <;> first | rfl | cases h

/-- What the field package takes from `strconv`, `gjson` and `pretty`. -/
structure FieldLib (N : Type*) where
  zero : N
  pinf : N
  ninf : N
  /-- `strconv.ParseFloat`: the number, and whether the error is nil. -/
  parseFloat : Bytes → F64 N × Bool
  /-- `gjson.Valid`. -/
  valid : Bytes → Bool
  /-- `gjson.Parse`: type and `String()`. -/
  parse : Bytes → Kind × Bytes
  /-- `gjson.Get`: type and `String()` of an existing result. -/
  get : Bytes → Bytes → Option (Kind × Bytes)
  /-- `gjson.AppendJSONString` to an empty slice. -/
  quote : Bytes → Bytes
  /-- `pretty.Ugly`. -/
  ugly : Bytes → Bytes

/-- `field.Value`. -/
structure Value (N : Type*) where
  kind : Kind
  data : Bytes
  num : F64 N
  deriving DecidableEq

/-- The part of a value that a list stores. -/
structure StoredValue where
  kind : Kind
  data : Bytes
  deriving DecidableEq

/-! ## Comparison -/

def isUpper (b : UInt8) : Bool := 65 ≤ b && b ≤ 90

/-- The loop of `stringLessInsensitive`. -/
def stringLessInsensitive : Bytes → Bytes → Bool
  | a :: as, b :: bs =>
    if isUpper a then
      if isUpper b then
        if a < b then true else if a > b then false else stringLessInsensitive as bs
      else
        if a + 32 < b then true else if a + 32 > b then false
        else stringLessInsensitive as bs
    else if isUpper b then
      if a < b + 32 then true else if a > b + 32 then false
      else stringLessInsensitive as bs
    else
      if a < b then true else if a > b then false else stringLessInsensitive as bs
  | as, bs => as.length < bs.length

private theorem lowerByte_of_upper {b : UInt8} (h : isUpper b = true) : lowerByte b = b + 32 := by
  simp only [isUpper, Bool.and_eq_true, decide_eq_true_eq] at h
  simp [lowerByte, h]

private theorem lowerByte_of_not_upper {b : UInt8} (h : ¬ isUpper b = true) : lowerByte b = b := by
  simp only [isUpper, Bool.and_eq_true, decide_eq_true_eq] at h
  simp [lowerByte, h]

private theorem add_lt_add_of_upper {a b : UInt8} (ha : isUpper a = true)
    (hb : isUpper b = true) : a + 32 < b + 32 ↔ a < b := by
  simp only [isUpper, Bool.and_eq_true, decide_eq_true_eq] at ha hb
  have ha' := UInt8.le_iff_toNat_le.mp ha.2
  have hb' := UInt8.le_iff_toNat_le.mp hb.2
  have h90 : (90 : UInt8).toNat = 90 := rfl
  have h32 : (32 : UInt8).toNat = 32 := rfl
  rw [UInt8.lt_iff_toNat_lt, UInt8.lt_iff_toNat_lt, UInt8.toNat_add, UInt8.toNat_add]
  omega

/-- One round of the loop compares the lowered bytes. -/
theorem stringLessInsensitive_cons (a b : UInt8) (as bs : Bytes) :
    stringLessInsensitive (a :: as) (b :: bs) =
      if lowerByte a < lowerByte b then true
      else if lowerByte a > lowerByte b then false
      else stringLessInsensitive as bs := by
  rw [stringLessInsensitive]
  by_cases ha : isUpper a = true <;> by_cases hb : isUpper b = true
  · simp only [ha, hb, if_true, lowerByte_of_upper ha, lowerByte_of_upper hb, gt_iff_lt,
      add_lt_add_of_upper ha hb, add_lt_add_of_upper hb ha]
  · simp [ha, hb, lowerByte_of_upper ha, lowerByte_of_not_upper hb]
  · simp [ha, hb, lowerByte_of_not_upper ha, lowerByte_of_upper hb]
  · simp [ha, hb, lowerByte_of_not_upper ha, lowerByte_of_not_upper hb]

/-- The loop decides the lexicographic order of the lowered strings. -/
theorem stringLessInsensitive_eq (a b : Bytes) :
    stringLessInsensitive a b = decide (a.map lowerByte < b.map lowerByte) := by
  induction a generalizing b with
  | nil => cases b <;> simp [stringLessInsensitive]
  | cons x a ih =>
    cases b with
    | nil => simp [stringLessInsensitive]
    | cons y b =>
      rw [stringLessInsensitive_cons]
      simp only [List.map_cons, List.cons_lt_cons_iff]
      rcases lt_trichotomy (lowerByte x) (lowerByte y) with h | h | h
      · simp [h]
      · simp [h, ih]
      · simp [not_lt_of_gt h, h, ne_of_gt h]

/-- **The comparison is the lexicographic one up to ASCII case.** -/
theorem stringLessInsensitive_iff (a b : Bytes) :
    (stringLessInsensitive a b = true ↔ a.map lowerByte < b.map lowerByte) ∧
      (stringLessInsensitive a b = false ∧ stringLessInsensitive b a = false ↔
        a.map lowerByte = b.map lowerByte) := by
  simp only [stringLessInsensitive_eq, decide_eq_true_eq, decide_eq_false_iff_not, not_lt, true_and]
  exact ⟨fun h => le_antisymm h.2 h.1, fun h => ⟨h.ge, h.le⟩⟩

section Order

variable {N : Type*} [LinearOrder N]

/-- `<` on floats: false as soon as a side is NaN. -/
def F64.less : F64 N → F64 N → Bool
  | .num a, .num b => a < b
  | _, _ => false

namespace Value

/-- `LessCase` without case sensitivity, which is `Less`. -/
def less (v b : Value N) : Bool :=
  if v.kind.code < b.kind.code then true
  else if v.kind.code > b.kind.code then false
  else if v.kind = .number then v.num.less b.num
  else if v.kind = .string then stringLessInsensitive v.data b.data
  else v.data < b.data

def equals (v b : Value N) : Bool := !v.less b && !b.less v

/-- A number that is NaN. -/
def isNaN (v : Value N) : Bool := v.kind = .number && v.num = .nan

/-- What `Equals` compares: the kind, and the number, the lowered text or the
text, by kind. -/
def cls (v : Value N) : Kind × Option (F64 N) × Bytes :=
  (v.kind,
    if v.kind = .number then some v.num else none,
    if v.kind = .number then [] else if v.kind = .string then v.data.map lowerByte
    else v.data)

private theorem not_lt_and_not_lt {α : Type*} [LinearOrder α] {a b : α} :
    (!decide (a < b) && !decide (b < a)) = true ↔ a = b := by
  simp only [Bool.and_eq_true, Bool.not_eq_true', decide_eq_false_iff_not, not_lt]
  exact ⟨fun h => le_antisymm h.2 h.1, fun h => ⟨h.ge, h.le⟩⟩

/-- **Away from NaN, `Equals` is equality of the compared parts.** -/
theorem equals_iff_cls {v w : Value N} (hv : v.isNaN = false) (hw : w.isNaN = false) :
    v.equals w = true ↔ v.cls = w.cls := by
  unfold equals less cls
  by_cases hkind : v.kind = w.kind
  · simp only [hkind, lt_irrefl, if_false]
    by_cases hnum : w.kind = .number
    · simp only [isNaN, hkind, hnum, decide_true, Bool.true_and, decide_eq_false_iff_not] at hv hw
      simp only [hnum, if_true]
      cases hvn : v.num with
      | nan => exact absurd hvn hv
      | num a =>
        cases hwn : w.num with
        | nan => exact absurd hwn hw
        | num b => simpa [F64.less] using not_lt_and_not_lt (a := a) (b := b)
    by_cases hstr : w.kind = .string
    · simp only [hstr, stringLessInsensitive_eq]
      simpa using not_lt_and_not_lt (a := v.data.map lowerByte) (b := w.data.map lowerByte)
    · simp only [hnum, hstr, if_false]
      simpa using not_lt_and_not_lt (a := v.data) (b := w.data)
  · have hcode : v.kind.code ≠ w.kind.code := fun h => hkind (Kind.code_injective h)
    rcases lt_or_gt_of_ne hcode with hlt | hgt
    · simp [hlt, hkind]
    · simp [hgt, not_lt_of_gt hgt, hkind]

end Value

end Order

/-! ## Parsing and printing -/

section

variable {N : Type*} [DecidableEq N] (lib : FieldLib N)

/-- `Value{}`. -/
def Value.blank : Value N := ⟨.null, [], .num lib.zero⟩

/-- `ZeroValue`. -/
def zeroValue : Value N := ⟨.number, lit "0", .num lib.zero⟩

variable (v : Value N)

def Value.isZero : Bool :=
  (v.kind = .number && v.data = lit "0" && v.num = .num lib.zero) || v = Value.blank lib

/-- `Value.JSON`. -/
def Value.json : Bytes :=
  match v.kind with
  | .number =>
    if v.data = lit "NaN" then lit "\"NaN\""
    else if v.data = lit "+Inf" then lit "\"+Inf\""
    else if v.data = lit "-Inf" then lit "\"-Inf\""
    else v.data
  | .string => lib.quote v.data
  | .true => lit "true"
  | .false => lit "false"
  | .null => if v ≠ Value.blank lib then lit "null" else lit "0"
  | .json => v.data

def nanValue : Value N := ⟨.number, lit "NaN", .nan⟩
def pinfValue : Value N := ⟨.number, lit "+Inf", .num lib.pinf⟩
def ninfValue : Value N := ⟨.number, lit "-Inf", .num lib.ninf⟩

/-- The end of `ValueOf`: a text, unless it spells NaN or an infinity. -/
def textValue (data : Bytes) : Value N :=
  let text : Value N := ⟨.string, data, .num lib.zero⟩
  if 3 ≤ data.length ∧ data.length ≤ 9 ∧
      data.head? ∈ [some 45, some 43, some 73, some 105, some 78, some 110] then
    let low := toLower data
    if low = lit "nan" then nanValue
    else if low ∈ [lit "inf", lit "+inf", lit "infinity", lit "+infinity"] then pinfValue lib
    else if low ∈ [lit "-inf", lit "-infinity"] then ninfValue lib
    else text
  else text

def valueOf (data : Bytes) : Value N :=
  let data := trimSpace data
  let (num, ok) := lib.parseFloat data
  if ok then
    if num = .num lib.pinf then pinfValue lib
    else if num = .num lib.ninf then ninfValue lib
    else if num = .nan then nanValue
    else if lib.valid data then ⟨.number, data, num⟩
    else textValue lib data
  else if lib.valid data then
    let data := trimSpace data
    let (kind, str) := lib.parse data
    match kind with
    | .null => ⟨.null, lit "null", .num lib.zero⟩
    | .json => ⟨.json, lib.ugly data, .num lib.zero⟩
    | .true => ⟨.true, lit "true", .num lib.zero⟩
    | .false => ⟨.false, lit "false", .num lib.zero⟩
    | .number => textValue lib str
    | .string => textValue lib str
  else textValue lib data

/-- `field.Field`. -/
structure Field (N : Type*) where
  name : Bytes
  value : Value N
  deriving DecidableEq

/-- `field.Make`. -/
def Field.make (name data : Bytes) : Field N := ⟨trimSpace name, valueOf lib data⟩

/-! ## Lists -/

def datakind : Kind → Bool
  | .number | .string | .json => true
  | _ => false

/-- What `putfield` writes for a value. -/
def Value.stored : StoredValue :=
  ⟨v.kind, if datakind v.kind then v.data else []⟩

/-- `bfield`: the value read back from a list entry. -/
def bfield (s : StoredValue) : Value N :=
  match s.kind with
  | .number => ⟨.number, s.data, (lib.parseFloat s.data).1⟩
  | .null => ⟨.null, lit "null", .num lib.zero⟩
  | .false => ⟨.false, lit "false", .num lib.zero⟩
  | .true => ⟨.true, lit "true", .num lib.zero⟩
  | .string => ⟨.string, s.data, .num lib.zero⟩
  | .json => ⟨.json, s.data, .num lib.zero⟩

/-- The texts under which infinities and NaN are stored read back as such. -/
structure FieldLib.ReadsSpecials (lib : FieldLib N) : Prop where
  nan : (lib.parseFloat (lit "NaN")).1 = .nan
  pinf : (lib.parseFloat (lit "+Inf")).1 = .num lib.pinf
  ninf : (lib.parseFloat (lit "-Inf")).1 = .num lib.ninf

variable {lib}

omit [DecidableEq N] in
theorem FieldLib.ReadsSpecials.stored (h : lib.ReadsSpecials) {v : Value N}
    (hv : v ∈ [nanValue, pinfValue lib, ninfValue lib]) : bfield lib v.stored = v := by
  simp only [List.mem_cons, List.not_mem_nil, or_false] at hv
  rcases hv with rfl | rfl | rfl
  · simp [nanValue, Value.stored, datakind, bfield, h.nan]
  · simp [pinfValue, Value.stored, datakind, bfield, h.pinf]
  · simp [ninfValue, Value.stored, datakind, bfield, h.ninf]

omit [DecidableEq N] in
theorem bfield_stored_textValue (h : lib.ReadsSpecials) (data : Bytes) :
    bfield lib (textValue lib data).stored = textValue lib data := by
  unfold textValue
  dsimp only
  repeat' split
  all_goals first | rfl | (apply h.stored; simp)

/-- A list gives back the value it was given. -/
theorem bfield_stored_valueOf (h : lib.ReadsSpecials) (data : Bytes) :
    bfield lib (valueOf lib data).stored = valueOf lib data := by
  unfold valueOf
  dsimp only
  repeat' split
  all_goals first
    | exact bfield_stored_textValue h _
    | rfl
    | (apply h.stored; simp)

theorem valueOf_ne_blank (data : Bytes) : valueOf lib data ≠ Value.blank lib := by
  have htext : ∀ data, textValue lib data ≠ Value.blank lib := by
    intro data
    unfold textValue
    dsimp only
    repeat' split
    all_goals simp [nanValue, pinfValue, ninfValue, Value.blank]
  have hnull : lit "null" ≠ [] := by decide
  unfold valueOf
  dsimp only
  repeat' split
  all_goals first
    | exact htext _
    | simp [nanValue, pinfValue, ninfValue, Value.blank, hnull]

end

/-- `field.List`: names in order, each with what is stored for it. -/
abbrev FieldList := OrdMap Bytes StoredValue

namespace FieldList

variable {N : Type*} [LinearOrder N] (lib : FieldLib N)

/-- `List.Set`: a zero value deletes, an equal value keeps the entry. -/
def setField (fields : FieldList) (f : Field N) : FieldList :=
  match fields.get? f.name with
  | some prev =>
    if f.value.isZero lib then fields.delete f.name
    else if (bfield lib prev).equals f.value then fields
    else fields.set f.name f.value.stored
  | none => if f.value.isZero lib then fields else fields.set f.name f.value.stored

/-- The loop of `List.Get`.  A JSON entry answers only for the part of a dotted
name in front of the dot, with what the rest of the name selects in it. -/
def getLoop (name : Bytes) (path : Option (Bytes × Bytes)) :
    List (Bytes × StoredValue) → Option (Value N)
  | [] => none
  | (fname, s) :: rest =>
    match s.kind, path with
    | .json, some (jname, jpath) =>
      if jname < fname then none
      else if fname = jname then
        match lib.get s.data jpath with
        | some (kind, data) => some (bfield lib ⟨kind, data⟩)
        | none => getLoop name path rest
      else getLoop name path rest
    | _, _ =>
      if name < fname then none
      else if fname = name then some (bfield lib s)
      else getLoop name path rest

omit [LinearOrder N] in
/-- A round of the loop on a JSON entry, for a dotted name. -/
theorem getLoop_json {s : StoredValue} (h : s.kind = .json) (name fname jname jpath : Bytes)
    (rest : List (Bytes × StoredValue)) :
    getLoop lib name (some (jname, jpath)) ((fname, s) :: rest) =
      if jname < fname then none
      else if fname = jname then
        match lib.get s.data jpath with
        | some (kind, data) => some (bfield lib ⟨kind, data⟩)
        | none => getLoop lib name (some (jname, jpath)) rest
      else getLoop lib name (some (jname, jpath)) rest := by
  rw [getLoop]
  exact h

omit [LinearOrder N] in
/-- A round of the loop on any other entry, or for a name without a dot. -/
theorem getLoop_plain {s : StoredValue} {path : Option (Bytes × Bytes)}
    (h : s.kind ≠ .json ∨ path = none) (name fname : Bytes) (rest : List (Bytes × StoredValue)) :
    getLoop lib name path ((fname, s) :: rest) =
      if name < fname then none
      else if fname = name then some (bfield lib s)
      else getLoop lib name path rest := by
  rw [getLoop]
  rintro jname jpath hkind hpath
  rcases h with h | h
  · exact h hkind
  · rw [h] at hpath
    cases hpath

/-- A dotted name, cut at its first dot. -/
def splitDot (name : Bytes) : Option (Bytes × Bytes) :=
  if 46 ∈ name then
    some (name.takeWhile (· ≠ 46), (name.dropWhile (· ≠ 46)).drop 1)
  else none

/-- The value of `List.Get`: `ZeroValue` when there is none. -/
def getValue (fields : FieldList) (name : Bytes) : Value N :=
  (getLoop lib name (splitDot name) fields.entries).getD (zeroValue lib)

end FieldList

/-- The first part of a dotted name is below the name. -/
theorem splitDot_lt {name : Bytes} {p : Bytes × Bytes} (h : FieldList.splitDot name = some p) :
    p.1 < name := by
  unfold FieldList.splitDot at h
  split at h
  · rename_i hdot
    cases h
    have hsplit := List.takeWhile_append_dropWhile (p := fun b => decide (b ≠ 46)) (l := name)
    have hrest : name.dropWhile (fun b => decide (b ≠ 46)) ≠ [] := by
      rw [ne_eq, List.dropWhile_eq_nil_iff]
      intro hall
      exact absurd (hall 46 hdot) (by decide)
    refine lt_of_le_of_ne ?_ ?_
    · conv_rhs => rw [← hsplit]
      exact le_append _ _
    · intro heq
      have hname : name.takeWhile (fun b => decide (b ≠ 46)) = name := heq
      rw [hname] at hsplit
      exact hrest (List.append_right_eq_self.mp hsplit)
  · cases h

end SpatialDb.Server
