import SpatialDb.Server.Cells

/-!
# Rewriting the append-only file

Model of `aofshrink` (`internal/legacy/server/aofshrink.go`).  It walks the
keys and the ids in order, a batch under each hold of the lock, and writes a
SET for every object; then a line for every hook; then it appends what
`writeAOF` has put into the shrink log meanwhile, and swaps the files.  Between
two holds of the lock any number of commands can run.

Hooks that expire are left out, as they are in `cmdSetHook`.
-/

namespace SpatialDb.Server

open Lib List OrdMap

/-! ## Model -/

def maxkeys : Nat := 8

def maxids : Nat := 32

/-- What `aofshrink` takes from the libraries to print an object. -/
structure ShrinkLib (G : Type) where
  /-- `AppendJSON`. -/
  geoJSON : G → Bytes
  /-- The remaining seconds of a deadline, at least 0.1. -/
  formatTTL : (expires now : Int) → Bytes

/-- Where `aofshrink` is. -/
inductive Stage where
  /-- In the loop over keys and ids. -/
  | objects
  /-- With these hook names still to write. -/
  | hooks (names : List Bytes)
  /-- The files are swapped. -/
  | swapped
  deriving DecidableEq

/-- A leader while `aofshrink` runs: its variables, and the commands it has
written to the new file. -/
structure Shrink (G : Type) where
  l : Leader G
  stage : Stage
  keys : List Bytes
  nextkey : Bytes
  keysdone : Bool
  nextid : Bytes
  file : List (List Bytes)

/-- The beginning: a shrink log, and nothing visited. -/
def Shrink.start {G : Type} (l : Leader G) : Shrink G where
  l := { l with shrinking := true, shrinklog := [] }
  stage := .objects
  keys := []
  nextkey := []
  keysdone := false
  nextid := []
  file := []

/-- The line of a hook. -/
def hookValues (name : Bytes) (hook : Hook) : List Bytes :=
  (if hook.channel then lit "setchan" else lit "sethook") :: name :: hook.desc

section Model

variable {N G : Type} [LinearOrder N] (lib : ServerLib N G) (hlib : HookLib G) (slib : ShrinkLib G)

/-- The FIELD arguments for a list. -/
def fieldValues (fields : FieldList) : List Bytes :=
  fields.entries.flatMap fun e =>
    let v : Value N := bfield lib.toFieldLib e.2
    if v.isZero lib.toFieldLib then [] else [lit "field", e.1, v.json lib.toFieldLib]

def geoValues (geo : Geometry G) : List Bytes :=
  match geo with
  | .spatial g => [lit "object", slib.geoJSON g]
  | .string s => [lit "string", s]

/-- The line of an object. -/
def objectValues (now : Int) (key id : Bytes) (o : Object G) : List Bytes :=
  [lit "set", key, id] ++ fieldValues lib o.fields ++
    (if o.expires ≠ 0 then [lit "ex", slib.formatTTL o.expires now] else []) ++
    geoValues slib o.geo

variable (x : Shrink G)

/-- Load more keys. -/
def loadKeys : Shrink G :=
  let found := (x.l.st.cols.ascend x.nextkey).map Prod.fst
  match found.drop maxkeys with
  | [] => { x with keys := found.take maxkeys, keysdone := true }
  | key :: _ => { x with keys := found.take maxkeys, nextkey := key }

/-- Load more objects of the first key, and leave the key when there are no
more. -/
def loadIds (now : Int) (x : Shrink G) (key : Bytes) (rest : List Bytes) : Shrink G :=
  match x.l.st.cols.get? key with
  | none => { x with keys := rest, nextid := [] }
  | some col =>
    let found := col.ascend x.nextid
    let lines := (found.take maxids).map fun e => objectValues lib slib now key e.1 e.2
    match found.drop maxids with
    | [] => { x with keys := rest, nextid := [], file := x.file ++ lines }
    | e :: _ => { x with nextid := e.1, file := x.file ++ lines }

/-- Append the shrink log and swap the files. -/
def swapFiles : Shrink G :=
  { x with
    stage := .swapped
    l := { x.l with
      aof := (x.file ++ x.l.shrinklog).flatMap encodeCommand
      shrinking := false
      shrinklog := [] } }

/-- One hold of the lock by `aofshrink`. -/
def shrinkStep (now : Int) (x : Shrink G) : Shrink G :=
  match x.stage with
  | .objects =>
    match x.keys with
    | [] =>
      if x.keysdone then { x with stage := .hooks x.l.st.hooks.keys } else loadKeys x
    | key :: rest => loadIds lib slib now x key rest
  | .hooks (name :: names) =>
    match x.l.st.hooks.get? name with
    | none => { x with stage := .hooks names }
    | some hook => { x with stage := .hooks names, file := x.file ++ [hookValues name hook] }
  | .hooks [] => swapFiles x
  | .swapped => x

/-- A client command, or a hold of the lock by `aofshrink`. -/
inductive ShrinkEvent where
  | client (env : Env) (args : List Bytes)
  | shrink (now : Int)

def shrinkEvent : ShrinkEvent → Shrink G
  | .client env args => { x with l := handleInputCommand lib hlib x.l env args }
  | .shrink now => shrinkStep lib slib now x

def shrinkRun (events : List ShrinkEvent) : Shrink G :=
  events.foldl (shrinkEvent lib hlib slib) x

end Model

/-! ## The line of an object -/

/-- Printing and parsing back lose nothing. -/
structure Lossless {N G : Type} [LinearOrder N] (lib : ServerLib N G) (slib : ShrinkLib G) : Prop
    extends lib.ReadsSpecials where
  value : ∀ data, valueOf lib.toFieldLib ((valueOf lib.toFieldLib data).json lib.toFieldLib) =
    valueOf lib.toFieldLib data
  geo : ∀ g, lib.geoParse (slib.geoJSON g) = .ok g
  ttl : ∀ expires now, (lib.parseFloat (slib.formatTTL expires now)).2 = true

variable {N G : Type} [LinearOrder N] {lib : ServerLib N G} {slib : ShrinkLib G} {docs : List Bytes}

variable (lib slib) in
/-- Printing and parsing back lose nothing of this object. -/
structure PrintsBack (o : Object G) : Prop where
  value : ∀ e ∈ o.fields.entries, valueOf lib.toFieldLib
    ((bfield lib.toFieldLib e.2).json lib.toFieldLib) = bfield lib.toFieldLib e.2
  geo : ∀ g, o.geo = .spatial g → lib.geoParse (slib.geoJSON g) = .ok g
  ttl : o.expires ≠ 0 → ∀ now, (lib.parseFloat (slib.formatTTL o.expires now)).2 = true

/-- The fields of a list, as values. -/
def listFields (lib : ServerLib N G) (fields : FieldList) : List (Field N) :=
  fields.entries.map fun e => ⟨e.1, bfield lib.toFieldLib e.2⟩

theorem parseSetLoop_fieldValues (h : lib.ReadsSpecials) {entries : List (Bytes × StoredValue)}
    (hback : ∀ e ∈ entries, valueOf lib.toFieldLib
      ((bfield lib.toFieldLib e.2).json lib.toFieldLib) = bfield lib.toFieldLib e.2)
    (hgood : ∀ e ∈ entries, ∃ v, e.2 = Value.stored v ∧ v.isZero lib.toFieldLib = false ∧
      Made lib.toFieldLib docs ⟨e.1, v⟩) (rest : List Bytes) (a : SetArgs N G) :
    parseSetLoop lib 0 (entries.flatMap (fun e =>
        let v : Value N := bfield lib.toFieldLib e.2
        if v.isZero lib.toFieldLib then [] else [lit "field", e.1, v.json lib.toFieldLib]) ++
          rest) a =
      parseSetLoop lib 0 rest
        { a with fields := a.fields ++ entries.map fun e => ⟨e.1, bfield lib.toFieldLib e.2⟩ } := by
  induction entries generalizing a with
  | nil => simp
  | cons e entries ih =>
    obtain ⟨v, hv, hzero, hmade⟩ := hgood e mem_cons_self
    have hread : bfield lib.toFieldLib e.2 = v := by
      rw [hv]
      exact hmade.bfield_stored h
    have hfield : toLower (lit "field") = lit "field" := by decide
    have hmake : Field.make lib.toFieldLib e.1 (v.json lib.toFieldLib) = ⟨e.1, v⟩ := by
      have hname : trimSpace e.1 = e.1 := hmade.name
      rw [Field.make, hname, ← hread, hback e mem_cons_self]
    rw [flatMap_cons]
    simp only [hread, hzero, Bool.false_eq_true, if_false, cons_append, nil_append]
    rw [parseSetLoop_field lib hfield, hmade.clean.name_ok, if_neg Bool.false_ne_true, hmake,
      ih (forall_mem_cons.mp hback).2 (forall_mem_cons.mp hgood).2]
    simp [hread]

/-- What the line of an object parses to. -/
def lineArgs (lib : ServerLib N G) (slib : ShrinkLib G) (now : Int) (key id : Bytes)
    (o : Object G) : SetArgs N G where
  key := key
  id := id
  fields := listFields lib o.fields
  ex := if o.expires ≠ 0 then some (lib.parseFloat (slib.formatTTL o.expires now)).1 else none
  geo := some o.geo

variable {o : Object G}

theorem Lossless.printsBack (h : Lossless lib slib)
    (hgood : GoodList lib.toFieldLib docs o.fields) :
    PrintsBack lib slib o where
  value := by
    intro e he
    obtain ⟨v, hv, -, hmade⟩ := hgood e.1 e.2 ((o.fields.mem_entries_iff e.1 e.2).mp he)
    obtain ⟨data, hdata⟩ := hmade.value
    have hdata : v = valueOf lib.toFieldLib data := hdata
    rw [hv, hmade.bfield_stored h.toReadsSpecials, hdata, h.value]
  geo := fun g _ => h.geo g
  ttl := fun _ => h.ttl o.expires

theorem parseSET_objectValues (h : lib.ReadsSpecials) (hback : PrintsBack lib slib o) (now : Int)
    (key id : Bytes) (hgood : GoodList lib.toFieldLib docs o.fields) :
    parseSET lib (objectValues lib slib now key id o) =
      .ok (lineArgs lib slib now key id o, o.geo) := by
  have hentries : ∀ e ∈ o.fields.entries, ∃ v, e.2 = Value.stored v ∧
      v.isZero lib.toFieldLib = false ∧ Made lib.toFieldLib docs ⟨e.1, v⟩ :=
    fun e he => hgood e.1 e.2 ((o.fields.mem_entries_iff e.1 e.2).mp he)
  have hex : toLower (lit "ex") = lit "ex" := by decide
  have hstring : toLower (lit "string") = lit "string" := by decide
  have hobject : toLower (lit "object") = lit "object" := by decide
  have hgeo : ∀ a : SetArgs N G, parseSetLoop lib 0 (geoValues slib o.geo) a =
      .ok { a with geo := some o.geo } := by
    intro a
    cases hg : o.geo with
    | spatial g =>
      rw [geoValues, parseSetLoop_object lib hobject, hback.geo g hg]
      rfl
    | string str =>
      rw [geoValues, parseSetLoop_string lib hstring]
      rfl
  rw [objectValues, fieldValues, append_assoc, append_assoc]
  simp only [cons_append, nil_append, parseSET]
  rw [parseSetLoop_fieldValues h hback.value hentries]
  by_cases hexp : o.expires ≠ 0
  · have hfloat : parseFloatArg lib (slib.formatTTL o.expires now) =
        .ok (lib.parseFloat (slib.formatTTL o.expires now)).1 := by
      have httl := hback.ttl hexp now
      unfold parseFloatArg
      split
      · rename_i hparse
        rw [hparse]
      rename_i hparse
      rw [hparse] at httl
      cases httl
    rw [if_pos hexp, cons_append, cons_append, nil_append,
      parseSetLoop_ex lib hex _ _ _ hfloat, hgeo]
    simp [lineArgs, listFields, hexp]
  · rw [if_neg hexp, nil_append, hgeo]
    simp [lineArgs, listFields, hexp]

theorem parseCmd_objectValues (h : lib.ReadsSpecials) (hback : PrintsBack lib slib o) (now : Int)
    (key id : Bytes) (hgood : GoodList lib.toFieldLib docs o.fields) :
    parseCmd lib (objectValues lib slib now key id o) =
      some (.set (lineArgs lib slib now key id o) o.geo) := by
  have hhandler : handlerOf (commandName (objectValues lib slib now key id o)) = some .set := by
    show handlerOf (toLower (lit "set")) = some .set
    decide
  rw [parseCmd, hhandler, Option.bind_some, Handler.parse,
    parseSET_objectValues h hback now key id hgood]

theorem lineArgs_safe (h : lib.ReadsSpecials) (now : Int) (key id : Bytes)
    (hgood : GoodList lib.toFieldLib docs o.fields) :
    (DataCmd.set (lineArgs lib slib now key id o) o.geo).Safe docs := by
  refine ⟨rfl, fun f hf => ?_⟩
  obtain ⟨e, he, rfl⟩ := mem_map.mp hf
  obtain ⟨v, hv, -, hmade⟩ := hgood e.1 e.2 ((o.fields.mem_entries_iff e.1 e.2).mp he)
  rw [hv, hmade.bfield_stored h]
  exact hmade.clean

/-- Assigning the entries of a list to blank registers gives the list. -/
theorem assignAll_listFields (h : lib.ReadsSpecials) {fields : FieldList}
    (hgood : GoodList lib.toFieldLib docs fields) :
    assignAll (fieldCls lib.toFieldLib) (puts lib.toFieldLib (listFields lib fields))
      (fun _ => none) = fields.get? := by
  have hstored : ∀ e ∈ fields.entries,
      toStored lib.toFieldLib (bfield lib.toFieldLib e.2) = some e.2 := by
    intro e he
    obtain ⟨v, hv, hzero, hmade⟩ := hgood e.1 e.2 ((fields.mem_entries_iff e.1 e.2).mp he)
    rw [hv, hmade.bfield_stored h, toStored, hzero]
    rfl
  have hentries : ∀ (entries : List (Bytes × StoredValue)) (n : Bytes),
      entries.Pairwise (fun a b => a.1 < b.1) →
      (∀ e ∈ entries, toStored lib.toFieldLib (bfield lib.toFieldLib e.2) = some e.2) →
      runWrites (fieldCls lib.toFieldLib)
        (((entries.map fun e => (e.1, Write.put (toStored lib.toFieldLib
          (bfield lib.toFieldLib e.2)))).filter fun w => w.1 = n).map Prod.snd) none =
        lookupEntry n entries := by
    intro entries n hsorted hall
    induction entries with
    | nil => rfl
    | cons e entries ih =>
      obtain ⟨hhead, htail⟩ := pairwise_cons.mp hsorted
      have ih := ih htail (forall_mem_cons.mp hall).2
      by_cases hn : e.1 = n
      · -- the name does not come again
        have hnone : (entries.map fun e => (e.1, Write.put (toStored lib.toFieldLib
            (bfield lib.toFieldLib e.2)))).filter (fun w => w.1 = n) = [] := by
          rw [filter_eq_nil_iff]
          intro w hw
          obtain ⟨e', he', rfl⟩ := mem_map.mp hw
          have hlt := hhead e' he'
          rw [hn] at hlt
          simpa using (ne_of_lt hlt).symm
        obtain ⟨k, sv⟩ := e
        have hk : k = n := hn
        have hsv := hall (k, sv) mem_cons_self
        subst hk
        rw [map_cons, filter_cons_of_pos (by simp), hnone]
        simp only [map_cons, map_nil, runWrites, foldl_cons, foldl_nil, hsv,
          Write.apply, lookupEntry, if_true]
      · obtain ⟨k, sv⟩ := e
        have hk : ¬ n = k := fun h => hn h.symm
        rw [map_cons, filter_cons_of_neg (by simpa using hn), ih, lookupEntry, if_neg hk]
  funext n
  rw [assignAll_apply]
  have hputs : puts lib.toFieldLib (listFields lib fields) =
      fields.entries.map fun e => (e.1, Write.put (toStored lib.toFieldLib
        (bfield lib.toFieldLib e.2))) := by
    rw [puts, listFields, map_map]
    rfl
  rw [hputs]
  exact hentries fields.entries n fields.sorted hstored

end SpatialDb.Server
