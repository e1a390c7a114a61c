import SpatialDb.Server.Object

/-!
# Command arguments

The ">> Args" part of the handlers in `internal/legacy/server/crud.go` and
`json.go`: what each command makes of its argument list, with its errors.

A loop `for i := 3; i < len(args); i++` that also advances `i` is a recursion
on the rest of the list with a count of arguments still to skip.  The loop
inside RETURN looks ahead without consuming: it returns by how much it has
advanced `i`.
-/

namespace SpatialDb.Server

open Lib List

/-- What the handlers take from other packages and libraries. -/
structure ServerLib (N G : Type) extends FieldLib N where
  /-- `strconv.ParseInt(s, 10, 64)`. -/
  parseInt : Bytes → Option Int
  /-- `int64(float64(time.Second) * x)`. -/
  nanos : F64 N → Int
  newPoint : (x y : F64 N) → G
  newPointZ : (x y z : F64 N) → G
  newRect : (minX minY maxX maxY : F64 N) → G
  /-- `geohash.Decode`: latitude and longitude. -/
  geohashDecode : Bytes → F64 N × F64 N
  /-- `geojson.Parse`, as `object.New` keeps the result; or the error text. -/
  geoParse : Bytes → Except Bytes G
  /-- `String()` of a spatial geometry. -/
  geoString : G → Bytes
  /-- `sjson.Set`, document, path and value. -/
  sjsonSet : Bytes → Bytes → Bytes → Except Bytes Bytes
  sjsonSetRaw : Bytes → Bytes → Bytes → Except Bytes Bytes
  sjsonDelete : Bytes → Bytes → Except Bytes Bytes
  /-- `glob.Parse(pattern, false).Limits`. -/
  globLimits : Bytes → Bytes × Bytes
  globMatch : Bytes → Bytes → Bool

/-- The errors of the handlers. -/
inductive Err where
  | invalidNumberOfArguments
  | invalidArgument (arg : Bytes)
  | keyNotFound
  | idNotFound
  | idAlreadyExists
  | pathNotFound
  | keyHasHooksSet
  | keyHasChannelsSet
  | oom
  | unknownCommand (name : Bytes)
  /-- An error of a library, by its text. -/
  | other (text : Bytes)
  deriving DecidableEq

def Err.text : Err → Bytes
  | invalidNumberOfArguments => lit "invalid number of arguments"
  | invalidArgument arg => lit "invalid argument '" ++ arg ++ lit "'"
  | keyNotFound => lit "key not found"
  | idNotFound => lit "id not found"
  | idAlreadyExists => lit "id already exists"
  | pathNotFound => lit "path not found"
  | keyHasHooksSet => lit "key has hooks set"
  | keyHasChannelsSet => lit "key has channels set"
  | oom => lit "OOM command not allowed when used memory > 'maxmemory'"
  | unknownCommand name => lit "unknown command '" ++ name ++ lit "'"
  | other text => text

def isReservedFieldName (field : Bytes) : Bool :=
  field = lit "z" || field = lit "lat" || field = lit "lon"

/-! ## RETURN -/

/-- The output kinds of RETURN. -/
inductive OutKind where
  | object
  | point
  | bounds
  | hash
  deriving DecidableEq

/-- What RETURN asks for. -/
structure RetOpts where
  withfields : Bool := false
  kind : OutKind := .object
  precision : Int := 0
  deriving DecidableEq

variable {N G : Type} [LinearOrder N] (lib : ServerLib N G)

/-- The loop `for j := i; j < i+3; j++` of RETURN, from `j = i + 1` on.
`budget` is `i + 3 - j`; a match advances `i` with `j`.  Returns the options
and the total advance of `i`. -/
def parseReturn (o : RetOpts) (advance : Nat) :
    (budget : Nat) → List Bytes → Except Err (RetOpts × Nat)
  | 0, _ => .ok (o, advance)
  | _ + 1, [] => .ok (o, advance)
  | budget + 1, arg :: rest =>
    let low := toLower arg
    if low = lit "withfields" then
      parseReturn { o with withfields := true } (advance + 1) (budget + 1) rest
    else if low = lit "object" then
      parseReturn { o with kind := .object } (advance + 1) (budget + 1) rest
    else if low = lit "point" then
      parseReturn { o with kind := .point } (advance + 1) (budget + 1) rest
    else if low = lit "bounds" then
      parseReturn { o with kind := .bounds } (advance + 1) (budget + 1) rest
    else if low = lit "hash" then
      match rest with
      | [] => .error .invalidNumberOfArguments
      | sprecision :: rest =>
        match lib.parseInt sprecision with
        | none => .error (.invalidArgument sprecision)
        | some precision =>
          if precision < 1 ∨ precision > 12 then .error (.invalidArgument sprecision)
          else
            parseReturn { o with kind := .hash, precision } (advance + 2) (budget + 1) rest
    else parseReturn o advance budget rest

/-! ## SET -/

/-- What SET has collected from its arguments. -/
structure SetArgs (N G : Type) where
  key : Bytes
  id : Bytes
  fields : List (Field N) := []
  /-- The seconds of the last EX. -/
  ex : Option (F64 N) := none
  xx : Bool := false
  nx : Bool := false
  /-- RETURN, with its options. -/
  ret : Option RetOpts := none
  geo : Option (Geometry G) := none
  deriving DecidableEq

/-- Parse a float argument, or fail with it. -/
def parseFloatArg (s : Bytes) : Except Err (F64 N) :=
  match lib.parseFloat s with
  | (x, true) => .ok x
  | (_, false) => .error (.invalidArgument s)

/-- POINT: two coordinates, and a third if the next argument is a number.
Returns the geometry and the number of arguments taken. -/
def parsePoint : List Bytes → Except Err (Geometry G × Nat)
  | slat :: slon :: rest =>
    -- the probe for z comes before the coordinates are parsed
    let z := match rest with
      | sz :: _ => if (lib.parseFloat sz).2 then some (lib.parseFloat sz).1 else none
      | [] => none
    do
      let y ← parseFloatArg lib slat
      let x ← parseFloatArg lib slon
      match z with
      | none => .ok (.spatial (lib.newPoint x y), 2)
      | some z => .ok (.spatial (lib.newPointZ x y z), 3)
  | _ => .error .invalidNumberOfArguments

def parseBounds : List Bytes → Except Err (Geometry G)
  | s0 :: s1 :: s2 :: s3 :: _ => do
      let v0 ← parseFloatArg lib s0
      let v1 ← parseFloatArg lib s1
      let v2 ← parseFloatArg lib s2
      let v3 ← parseFloatArg lib s3
      .ok (.spatial (lib.newRect v1 v0 v3 v2))
  | _ => .error .invalidNumberOfArguments

/-- The loop over the options of SET. -/
def parseSetLoop : (skip : Nat) → List Bytes → SetArgs N G → Except Err (SetArgs N G)
  | _, [], a => .ok a
  | skip + 1, _ :: rest, a => parseSetLoop skip rest a
  | 0, arg :: rest, a =>
    let low := toLower arg
    if low = lit "field" then
      match rest with
      | fkey :: fval :: _ =>
        if isReservedFieldName fkey then .error (.invalidArgument fkey)
        else parseSetLoop 2 rest
          { a with fields := a.fields ++ [Field.make lib.toFieldLib fkey fval] }
      | _ => .error .invalidNumberOfArguments
    else if low = lit "ex" then
      match rest with
      | exval :: _ =>
        match parseFloatArg lib exval with
        | .error e => .error e
        | .ok x => parseSetLoop 1 rest { a with ex := some x }
      | [] => .error .invalidNumberOfArguments
    else if low = lit "nx" then
      if a.xx then .error (.invalidArgument arg) else parseSetLoop 0 rest { a with nx := true }
    else if low = lit "xx" then
      if a.nx then .error (.invalidArgument arg) else parseSetLoop 0 rest { a with xx := true }
    else if low = lit "return" then
      if a.ret.isSome then .error (.invalidArgument arg)
      else
        match parseReturn lib {} 0 2 rest with
        | .error e => .error e
        | .ok (o, advance) => parseSetLoop advance rest { a with ret := some o }
    else if low = lit "string" then
      match rest with
      | str :: _ => parseSetLoop 1 rest { a with geo := some (.string str) }
      | [] => .error .invalidNumberOfArguments
    else if low = lit "point" then
      match parsePoint lib rest with
      | .error e => .error e
      | .ok (geo, n) => parseSetLoop n rest { a with geo := some geo }
    else if low = lit "bounds" then
      match parseBounds lib rest with
      | .error e => .error e
      | .ok geo => parseSetLoop 4 rest { a with geo := some geo }
    else if low = lit "hash" then
      match rest with
      | shash :: _ =>
        let (lat, lon) := lib.geohashDecode shash
        parseSetLoop 1 rest { a with geo := some (.spatial (lib.newPoint lon lat)) }
      | [] => .error .invalidNumberOfArguments
    else if low = lit "object" then
      match rest with
      | json :: _ =>
        match lib.geoParse json with
        | .error text => .error (.other text)
        | .ok g => parseSetLoop 1 rest { a with geo := some (.spatial g) }
      | [] => .error .invalidNumberOfArguments
    else .error (.invalidArgument arg)

/-! The loop on the options that the server itself writes. -/

variable {arg key id : Bytes} {skip : Nat} {rest args : List Bytes} {a : SetArgs N G}
  {geo : Geometry G}

theorem parseSetLoop_field (h : toLower arg = lit "field") (fkey fval : Bytes) (rest : List Bytes)
    (a : SetArgs N G) :
    parseSetLoop lib 0 (arg :: fkey :: fval :: rest) a =
      if isReservedFieldName fkey then .error (.invalidArgument fkey)
      else parseSetLoop lib 0 rest
        { a with fields := a.fields ++ [Field.make lib.toFieldLib fkey fval] } := by
  simp only [parseSetLoop, h, if_true]

theorem parseSetLoop_ex (h : toLower arg = lit "ex") (exval : Bytes) (rest : List Bytes)
    (a : SetArgs N G) {x : F64 N} (hx : parseFloatArg lib exval = .ok x) :
    parseSetLoop lib 0 (arg :: exval :: rest) a =
      parseSetLoop lib 0 rest { a with ex := some x } := by
  simp +decide only [parseSetLoop, h, if_true, if_false, hx]

theorem parseSetLoop_string (h : toLower arg = lit "string") (str : Bytes) (rest : List Bytes)
    (a : SetArgs N G) :
    parseSetLoop lib 0 (arg :: str :: rest) a =
      parseSetLoop lib 0 rest { a with geo := some (.string str) } := by
  simp +decide only [parseSetLoop, h, if_true, if_false]

theorem parseSetLoop_object (h : toLower arg = lit "object") (json : Bytes) (rest : List Bytes)
    (a : SetArgs N G) :
    parseSetLoop lib 0 (arg :: json :: rest) a =
      match lib.geoParse json with
      | .error text => .error (.other text)
      | .ok g => parseSetLoop lib 0 rest { a with geo := some (.spatial g) } := by
  simp +decide only [parseSetLoop, h, if_true, if_false]

theorem parseSetLoop_point (h : toLower arg = lit "point") (rest : List Bytes) (a : SetArgs N G) :
    parseSetLoop lib 0 (arg :: rest) a =
      match parsePoint lib rest with
      | .error e => .error e
      | .ok (geo, n) => parseSetLoop lib n rest { a with geo := some geo } := by
  simp +decide only [parseSetLoop, h, if_true, if_false]

theorem parseSetLoop_flatMap_field {fields : List (Bytes × Bytes)}
    (h : ∀ f ∈ fields, isReservedFieldName f.1 = false) (rest : List Bytes) (a : SetArgs N G) :
    parseSetLoop lib 0 (fields.flatMap (fun f => [lit "FIELD", f.1, f.2]) ++ rest) a =
      parseSetLoop lib 0 rest { a with
        fields := a.fields ++ fields.map fun f => Field.make lib.toFieldLib f.1 f.2 } := by
  have hfield : toLower (lit "FIELD") = lit "field" := by decide
  induction fields generalizing a with
  | nil => simp
  | cons f fields ih =>
    rw [flatMap_cons, append_assoc, cons_append, cons_append, cons_append, nil_append]
    rw [parseSetLoop_field lib hfield, h f mem_cons_self, if_neg Bool.false_ne_true,
      ih (forall_mem_cons.mp h).2]
    simp

/-- The arguments of SET; the geometry is present in a successful result. -/
def parseSET : List Bytes → Except Err (SetArgs N G × Geometry G)
  | _ :: key :: id :: rest =>
    match parseSetLoop lib 0 rest { key, id } with
    | .error e => .error e
    | .ok a =>
      match a.geo with
      | none => .error .invalidNumberOfArguments
      | some geo => .ok (a, geo)
  | _ => .error .invalidNumberOfArguments

/-! ## FSET -/

structure FsetArgs (N : Type) where
  key : Bytes
  id : Bytes
  fields : List (Field N) := []
  xx : Bool := false
  ret : Option RetOpts := none
  deriving DecidableEq

/-- The loop over the arguments of FSET. -/
def parseFsetLoop : (skip : Nat) → List Bytes → FsetArgs N → Except Err (FsetArgs N)
  | _, [], a => .ok a
  | skip + 1, _ :: rest, a => parseFsetLoop skip rest a
  | 0, arg :: rest, a =>
    let low := toLower arg
    if low = lit "xx" then parseFsetLoop 0 rest { a with xx := true }
    else if low = lit "return" then
      if a.ret.isSome then .error (.invalidArgument arg)
      else
        match parseReturn lib {} 0 2 rest with
        | .error e => .error e
        | .ok (o, advance) => parseFsetLoop advance rest { a with ret := some o }
    else
      match rest with
      | [] => .error .invalidNumberOfArguments
      | fval :: _ =>
        if isReservedFieldName arg then .error (.invalidArgument arg)
        else parseFsetLoop 1 rest
          { a with fields := a.fields ++ [Field.make lib.toFieldLib arg fval] }

def parseFSET (args : List Bytes) : Except Err (FsetArgs N) :=
  if args.length < 5 then .error .invalidNumberOfArguments
  else
    match args with
    | _ :: key :: id :: rest => parseFsetLoop lib 0 rest { key, id }
    | _ => .error .invalidNumberOfArguments

/-! SET and FSET are about the object that the first two arguments name, and
their fields come from `field.Make`. -/

def AllMade (fields : List (Field N)) : Prop :=
  ∀ f ∈ fields, ∃ name data, f = Field.make lib.toFieldLib name data

theorem AllMade.concat {fields : List (Field N)} (h : AllMade lib fields) (name data : Bytes) :
    AllMade lib (fields ++ [Field.make lib.toFieldLib name data]) := by
  intro f hf
  rcases mem_append.mp hf with hf | hf
  · exact h f hf
  · exact ⟨name, data, mem_singleton.mp hf⟩

theorem parseSetLoop_spec {b : SetArgs N G} (h : parseSetLoop lib skip rest a = .ok b)
    (ha : a.key = key ∧ a.id = id ∧ AllMade lib a.fields) :
    b.key = key ∧ b.id = id ∧ AllMade lib b.fields := by
  induction rest generalizing skip a with
  | nil =>
    cases h
    exact ha
  | cons arg rest ih =>
    cases skip with
    | succ skip => exact ih h ha
    | zero =>
      unfold parseSetLoop at h
      by_cases hfield : toLower arg = lit "field"
      · rw [if_pos hfield] at h
        repeat' split at h
        all_goals first | cases h | skip
        exact ih h ⟨ha.1, ha.2.1, ha.2.2.concat lib _ _⟩
      -- none of the nine other options touches the fields
      rw [if_neg hfield] at h
      iterate 9
        rcases ite_eq_iff.mp h with ⟨-, h⟩ | ⟨-, h⟩
        · repeat' split at h
          all_goals first | cases h | exact ih h ha
      cases h

/-- A command that SET accepts has run through the loop. -/
theorem parseSET_loop (h : parseSET lib args = .ok (a, geo)) :
    ∃ name key id rest, args = name :: key :: id :: rest ∧
      parseSetLoop lib 0 rest { key, id } = .ok a := by
  unfold parseSET at h
  split at h
  · rename_i name key id rest
    refine ⟨name, key, id, rest, rfl, ?_⟩
    split at h
    · cases h
    rename_i hloop
    split at h <;> cases h
    exact hloop
  · cases h

theorem parseSET_fields (h : parseSET lib args = .ok (a, geo)) :
    AllMade lib a.fields := by
  obtain ⟨name, key, id, rest, -, hloop⟩ := parseSET_loop lib h
  exact (parseSetLoop_spec lib hloop ⟨rfl, rfl, by simp [AllMade]⟩).2.2

theorem parseSET_cell {name : Bytes} (h : parseSET lib (name :: key :: id :: rest) = .ok (a, geo)) :
    a.key = key ∧ a.id = id := by
  obtain ⟨_, _, _, _, hargs, hloop⟩ := parseSET_loop lib h
  cases hargs
  obtain ⟨hkey, hid, -⟩ := parseSetLoop_spec lib hloop ⟨rfl, rfl, by simp [AllMade]⟩
  exact ⟨hkey, hid⟩

theorem parseFsetLoop_spec {a b : FsetArgs N} (h : parseFsetLoop lib skip rest a = .ok b)
    (ha : a.key = key ∧ a.id = id ∧ AllMade lib a.fields) :
    b.key = key ∧ b.id = id ∧ AllMade lib b.fields := by
  induction rest generalizing skip a with
  | nil =>
    cases h
    exact ha
  | cons arg rest ih =>
    cases skip with
    | succ skip => exact ih h ha
    | zero =>
      unfold parseFsetLoop at h
      dsimp only at h
      repeat' split at h
      all_goals first | cases h | exact ih h ha | skip
      exact ih h ⟨ha.1, ha.2.1, ha.2.2.concat lib _ _⟩

theorem parseFSET_fields {a : FsetArgs N} (h : parseFSET lib args = .ok a) :
    AllMade lib a.fields := by
  unfold parseFSET at h
  repeat' split at h
  all_goals first | cases h | skip
  exact (parseFsetLoop_spec lib h ⟨rfl, rfl, by simp [AllMade]⟩).2.2

theorem parseFSET_cell {name : Bytes} {a : FsetArgs N}
    (h : parseFSET lib (name :: key :: id :: rest) = .ok a) : a.key = key ∧ a.id = id := by
  rw [parseFSET] at h
  split at h
  · cases h
  · obtain ⟨hkey, hid, -⟩ := parseFsetLoop_spec lib h ⟨rfl, rfl, by simp [AllMade]⟩
    exact ⟨hkey, hid⟩

/-! ## DEL and JSET -/

/-- The options of DEL: only ERRON404. -/
def parseErron404 : List Bytes → Bool → Except Err Bool
  | [], erron404 => .ok erron404
  | arg :: rest, _ =>
    if toLower arg = lit "erron404" then parseErron404 rest true
    else .error (.invalidArgument arg)

def isDigit (b : UInt8) : Bool := 48 ≤ b && b ≤ 57

/-- From the exponent part of `isJSONNumber` to its end. -/
def isJSONExp : Bytes → Bool
  | [] => true
  | b :: rest =>
    if b = 101 ∨ b = 69 then
      let rest := match rest with
        | c :: rest' => if c = 43 ∨ c = 45 then rest' else rest
        | [] => rest
      match rest with
      | [] => false
      | c :: rest => isDigit c && (rest.dropWhile isDigit).isEmpty
    else false

/-- From the fraction part of `isJSONNumber` to its end. -/
def isJSONFrac : Bytes → Bool
  | [] => true
  | b :: rest =>
    if b = 46 then
      match rest with
      | [] => false
      | c :: rest => isDigit c && isJSONExp (rest.dropWhile isDigit)
    else isJSONExp (b :: rest)

def isJSONNumber (data : Bytes) : Bool :=
  match data with
  | [] => false
  | b :: rest =>
    match (if b = 45 then rest else data) with
    | [] => false
    | c :: rest => if c = 48 then isJSONFrac rest else isJSONFrac ((c :: rest).dropWhile isDigit)

structure JsetArgs where
  key : Bytes
  id : Bytes
  path : Bytes
  val : Bytes
  raw : Bool
  deriving DecidableEq

def parseJSET : List Bytes → Except Err JsetArgs
  | [_, key, id, path, val] => .ok (decided key id path val)
  | [_, key, id, path, val, mode] =>
    if toLower mode = lit "raw" then .ok { key, id, path, val, raw := true }
    else if toLower mode = lit "str" then .ok { key, id, path, val, raw := false }
    else .error (.invalidArgument mode)
  | _ => .error .invalidNumberOfArguments
where
  /-- Without a mode, the value itself decides. -/
  decided (key id path val : Bytes) : JsetArgs :=
    { key, id, path, val
      raw := val = lit "true" || val = lit "false" || val = lit "null" || isJSONNumber val }

end SpatialDb.Server
