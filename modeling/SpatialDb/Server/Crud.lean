import SpatialDb.Server.Args

/-!
# The data commands

Model of the write handlers of `internal/legacy/server/crud.go` and `json.go`.
A handler takes the server state and the argument list and returns its result
together with the state it leaves behind, also on the paths that return an
error.  A collection is its id index; `Server.Collection` shows that the other
indexes and the counters follow it.
-/

namespace SpatialDb.Server

open Lib OrdMap Option

/-- A collection, as its id index. -/
abbrev Col (G : Type) := OrdMap Bytes (Object G)

/-- `s.cols`. -/
abbrev Dataset (G : Type) := OrdMap Bytes (Col G)

/-- The part of a hook or channel that the data commands read, and the texts
that `Hook.Equals` compares. -/
structure Hook where
  key : Bytes
  channel : Bool
  desc : List Bytes
  deriving DecidableEq

/-- The collections, and the hooks by name. -/
structure ServerState (G : Type) where
  cols : Dataset G
  hooks : OrdMap Bytes Hook
  deriving DecidableEq

/-- `Type`, the connection and output types. -/
inductive OutputType where
  | null
  | resp
  | telnet
  | native
  | http
  | webSocket
  | json
  deriving DecidableEq

/-- What a handler reads besides its arguments and the state. -/
structure Env where
  out : OutputType := .null
  /-- `time.Now().UnixNano()`. -/
  now : Int := 0
  /-- `s.config.maxMemory() > 0 && s.outOfMemory.Load()`. -/
  oom : Bool := false
  deriving DecidableEq

/-- `commandDetails` without its timestamp; an object comes with its id. -/
structure Details (G : Type) where
  command : Bytes := []
  key : Bytes := []
  newKey : Bytes := []
  obj : Option (Bytes × Object G) := none
  old : Option (Object G) := none
  updated : Bool := false
  parent : Bool := false
  pattern : Bytes := []
  /-- The objects of the `del` children. -/
  children : List (Bytes × Option (Object G)) := []
  deriving DecidableEq

/-- The `resp.Value` of a handler, without elapsed times. -/
inductive Reply (G : Type) where
  | none
  | null
  | okJson
  | okText
  | int (n : Int)
  | object (o : Object G) (opts : RetOpts) (json : Bool)
  /-- The bounds of a nil object, a zero rectangle. -/
  | noBounds
  deriving DecidableEq

/-- How a handler ends. -/
inductive Result (G : Type) where
  | ok (reply : Reply G) (d : Details G)
  | err (e : Err)
  /-- A nil dereference while building the reply. -/
  | crash
  deriving DecidableEq

/-- `d.updated` of a call that returned without an error. -/
def Result.updated {G : Type} : Result G → Bool
  | ok _ d => d.updated
  | _ => false

section

variable {N G : Type} [LinearOrder N] (lib : ServerLib N G) (env : Env)

/-- `retwerr`: an error, with the state the handler has reached. -/
abbrev retwerr (s : ServerState G) (e : Err) : Result G × ServerState G := (.err e, s)

/-- The reply of most handlers: a JSON object, or the given RESP value. -/
def reply (resp : Reply G) : Reply G :=
  match env.out with
  | .json => .okJson
  | .resp => resp
  | _ => .none

theorem reply_ne_noBounds {resp : Reply G} (h : resp ≠ .noBounds) : reply env resp ≠ .noBounds := by
  unfold reply
  split
  · simp
  · exact h
  · simp

/-- `buildObjectResponse` as far as the call itself can fail: on a nil object,
of which only `Rect` returns. -/
def objectResponse (obj : Option (Bytes × Object G)) (opts : RetOpts) (d : Details G) : Result G :=
  match obj with
  | none =>
    if opts.kind = .bounds ∧ env.out ≠ .json ∧ !opts.withfields then .ok .noBounds d else .crash
  | some (_, o) => .ok (.object o opts (env.out = .json)) d

theorem objectResponse_none (opts : RetOpts) (d : Details G) :
    objectResponse env none opts d = .ok .noBounds d ∨ objectResponse env none opts d = .crash :=
  ite_eq_or_eq _ _ _

/-! ## DEL, PDEL, DROP -/

def cmdDEL (s : ServerState G) (args : List Bytes) : Result G × ServerState G :=
  match args with
  | _ :: key :: id :: rest =>
    match parseErron404 rest false with
    | .error e => retwerr s e
    | .ok erron404 =>
      let done (old : Option (Object G)) (updated : Bool) (s : ServerState G) :
          Result G × ServerState G :=
        let d : Details G :=
          { command := lit "del", key, obj := old.map fun o => (id, o), updated }
        (.ok (reply env (.int (if updated then 1 else 0))) d, s)
      match s.cols.get? key with
      | some col =>
        match col.get? id with
        | some old =>
          let col := col.delete id
          if col.size = 0 then
            done (some old) true { s with cols := s.cols.delete key }
          else done (some old) true { s with cols := s.cols.set key col }
        | none => if erron404 then retwerr s .idNotFound else done none false s
      | none => if erron404 then retwerr s .keyNotFound else done none false s
  | _ => retwerr s .invalidNumberOfArguments

/-- The ids PDEL visits: all of them, or a range up to the upper limit. -/
def scanIds (limits : Bytes × Bytes) (col : Col G) : List Bytes :=
  if limits.1 = [] ∧ limits.2 = [] then col.keys
  else ((col.ascend limits.1).map Prod.fst).takeWhile fun id => ¬ limits.2 ≤ id

/-- The ids PDEL deletes. -/
def pdelIds (pattern : Bytes) (col : Col G) : List Bytes :=
  (scanIds (lib.globLimits pattern) col).filter (lib.globMatch pattern)

def cmdPDEL (s : ServerState G) (args : List Bytes) : Result G × ServerState G :=
  match args with
  | [_, key, pattern] =>
    let done (children : List (Bytes × Option (Object G))) (s : ServerState G) :
        Result G × ServerState G :=
      let d : Details G :=
        { command := lit "pdel", key, pattern, children, parent := true
          updated := children.length > 0 }
      (.ok (reply env (.int children.length)) d, s)
    match s.cols.get? key with
    | none => done [] s
    | some col =>
      let ids := pdelIds lib pattern col
      let children := ids.map fun id => (id, col.get? id)
      let col := ids.foldl delete col
      if col.size = 0 then done children { s with cols := s.cols.delete key }
      else done children { s with cols := s.cols.set key col }
  | _ => retwerr s .invalidNumberOfArguments

/-- `cmdDROPop`. -/
def dropKey (cols : Dataset G) (key : Bytes) : Option (Col G) × Dataset G :=
  match cols.get? key with
  | some col => (some col, cols.delete key)
  | none => (none, cols)

def cmdDROP (s : ServerState G) (args : List Bytes) : Result G × ServerState G :=
  match args with
  | [_, key] =>
    let (col, cols) := dropKey s.cols key
    let updated := col.isSome
    (.ok (reply env (.int (if updated then 1 else 0)))
      { command := lit "drop", key, updated }, { s with cols })
  | _ => retwerr s .invalidNumberOfArguments

/-! ## RENAME and FLUSHDB -/

/-- RENAME and RENAMENX. -/
def cmdRENAME (s : ServerState G) (args : List Bytes) : Result G × ServerState G :=
  match args with
  | [name, key, newKey] =>
    let nx := toLower name = lit "renamenx"
    match s.cols.get? key with
    | none => retwerr s .keyNotFound
    | some col =>
      let on (h : Hook) : Bool := h.key = key || h.key = newKey
      if s.hooks.values.any fun h => on h && !h.channel then retwerr s .keyHasHooksSet
      else if s.hooks.values.any fun h => on h && h.channel then
        retwerr s .keyHasChannelsSet
      else
        let (updated, cols) := match s.cols.get? newKey with
          | none => (true, s.cols)
          | some _ => if !nx then (true, s.cols.delete newKey) else (false, s.cols)
        let cols := if updated then (cols.delete key).set newKey col else cols
        let resp := if !nx then Reply.okText else .int (if updated then 1 else 0)
        (.ok (reply env resp) { command := lit "rename", key, newKey, updated },
          { s with cols })
  | _ => retwerr s .invalidNumberOfArguments

def cmdFLUSHDB (s : ServerState G) (args : List Bytes) : Result G × ServerState G :=
  match args with
  | [_] =>
    let resp := match env.out with
      | .json => Reply.okJson
      | _ => .okText
    (.ok resp { command := lit "flushdb", updated := true },
      { cols := empty, hooks := empty })
  | _ => retwerr s .invalidNumberOfArguments

/-! ## SET and FSET -/

/-- The time in `x` seconds, an `int64`. -/
def expiresAt (x : F64 N) : Int := (env.now + lib.nanos x).bmod (2 ^ 64)

/-- The deadline of a SET: none is zero. -/
def deadline (ex : Option (F64 N)) : Int :=
  match ex with
  | none => 0
  | some x => expiresAt lib env x

/-- The ">> Operation" and ">> Response" parts of SET. -/
def execSET (s : ServerState G) (a : SetArgs N G) (geo : Geometry G) : Result G × ServerState G :=
  let nada (s : ServerState G) : Result G × ServerState G :=
    if env.out = .json then
      if a.nx then retwerr s .idAlreadyExists else retwerr s .idNotFound
    else (.ok .null {}, s)
  let insert (s : ServerState G) (col : Col G) : Result G × ServerState G :=
    if (a.xx ∨ a.nx) ∧ col.get? a.id = none ∧ a.xx then nada s
    else if (a.xx ∨ a.nx) ∧ col.get? a.id ≠ none ∧ a.nx then nada s
    else
      let old := col.get? a.id
      let flist : FieldList := (old.map Object.fields).getD empty
      let fields := a.fields.foldl (FieldList.setField lib.toFieldLib) flist
      let obj : Object G := ⟨geo, deadline lib env a.ex, fields⟩
      let s := { s with cols := s.cols.set a.key (col.set a.id obj) }
      let d : Details G :=
        { command := lit "set", key := a.key, obj := some (a.id, obj), old, updated := true }
      match a.ret with
      | some opts => (objectResponse env d.obj opts d, s)
      | none => (.ok (reply env .okText) d, s)
  match s.cols.get? a.key with
  | some col => insert s col
  | none =>
    if a.xx then nada s
    else insert { s with cols := s.cols.set a.key empty } empty

def cmdSET (s : ServerState G) (args : List Bytes) : Result G × ServerState G :=
  if env.oom then retwerr s .oom
  else
    match parseSET lib args with
    | .error e => retwerr s e
    | .ok (a, geo) => execSET lib env s a geo

/-- One round of the loop of FSET: the list and the number of changes. -/
def fsetField (acc : FieldList × Nat) (f : Field N) : FieldList × Nat :=
  if (acc.1.getValue lib.toFieldLib f.name).equals f.value then acc
  else (acc.1.setField lib.toFieldLib f, acc.2 + 1)

/-- The loop over the fields of FSET. -/
def fsetFields (fields : List (Field N)) (flist : FieldList) : FieldList × Nat :=
  fields.foldl (fsetField lib) (flist, 0)

def execFSET (s : ServerState G) (a : FsetArgs N) : Result G × ServerState G :=
  match s.cols.get? a.key with
  | none => retwerr s .keyNotFound
  | some col =>
    let respond (d : Details G) (updateCount : Nat) (s : ServerState G) :
      Result G × ServerState G :=
      match a.ret with
      | some opts => (objectResponse env d.obj opts d, s)
      | none => (.ok (reply env (.int updateCount)) d, s)
    match col.get? a.id with
    | none => if a.xx then respond {} 0 s else retwerr s .idNotFound
    | some o =>
      let (fields, updateCount) := fsetFields lib a.fields o.fields
      let obj : Object G := ⟨o.geo, o.expires, fields⟩
      let d : Details G :=
        { command := lit "fset", key := a.key, obj := some (a.id, obj)
          updated := updateCount > 0 }
      respond d updateCount { s with cols := s.cols.set a.key (col.set a.id obj) }

def cmdFSET (s : ServerState G) (args : List Bytes) : Result G × ServerState G :=
  if env.oom then retwerr s .oom
  else
    match parseFSET lib args with
    | .error e => retwerr s e
    | .ok a => execFSET lib env s a

/-! ## EXPIRE and PERSIST -/

def cmdEXPIRE (s : ServerState G) (args : List Bytes) : Result G × ServerState G :=
  match args with
  | [_, key, id, svalue] =>
    match parseFloatArg lib svalue with
    | .error e => retwerr s e
    | .ok value =>
      let missing (e : Err) : Result G × ServerState G :=
        match env.out with
        | .json => retwerr s e
        | .resp => (.ok (.int 0) {}, s)
        | _ => (.ok .none {}, s)
      match s.cols.get? key with
      | none => missing .keyNotFound
      | some col =>
        match col.get? id with
        | none => missing .idNotFound
        | some o =>
          let obj : Object G := ⟨o.geo, expiresAt lib env value, o.fields⟩
          (.ok (reply env (.int 1))
            { command := lit "expire", key, obj := some (id, obj), updated := true },
            { s with cols := s.cols.set key (col.set id obj) })
  | _ => retwerr s .invalidNumberOfArguments

def cmdPERSIST (s : ServerState G) (args : List Bytes) : Result G × ServerState G :=
  match args with
  | [_, key, id] =>
    let missing (e : Err) : Result G × ServerState G :=
      if env.out = .resp then (.ok (.int 0) {}, s) else retwerr s e
    match s.cols.get? key with
    | none => missing .keyNotFound
    | some col =>
      match col.get? id with
      | none => missing .idNotFound
      | some o =>
        if o.expires ≠ 0 then
          let obj : Object G := ⟨o.geo, 0, o.fields⟩
          (.ok (reply env (.int 1))
            { command := lit "persist", key, obj := some (id, obj), updated := true },
            { s with cols := s.cols.set key (col.set id obj) })
        else (.ok (reply env (.int 0)) { command := lit "persist", key }, s)
  | _ => retwerr s .invalidNumberOfArguments

/-! ## JSET and JDEL -/

/-- `Geo().String()`. -/
def geoText (geo : Geometry G) : Bytes :=
  match geo with
  | .spatial g => lib.geoString g
  | .string str => str

/-- The end of JSET and JDEL: a geometry goes through SET, anything else is
stored as a string without a deadline. -/
def storeJSON (s : ServerState G) (key id : Bytes) (o : Option (Object G)) (col : Col G)
    (json : Bytes) (resp : Reply G) : Result G × ServerState G :=
  if (o.map fun o => o.geo.isSpatial).getD false then
    cmdSET lib env s [lit "SET", key, id, lit "OBJECT", json]
  else
    let obj : Object G := ⟨.string json, 0, (o.map Object.fields).getD empty⟩
    (.ok (reply env resp) { key, obj := some (id, obj), updated := true },
      { s with cols := s.cols.set key (col.set id obj) })

def cmdJset (s : ServerState G) (args : List Bytes) : Result G × ServerState G :=
  match parseJSET args with
  | .error e => retwerr s e
  | .ok a =>
    let col := (s.cols.get? a.key).getD empty
    let o := col.get? a.id
    let json := (o.map fun o => geoText lib o.geo).getD []
    match (if a.raw then lib.sjsonSetRaw json a.path a.val
        else lib.sjsonSet json a.path a.val) with
    | .error text => retwerr s (.other text)
    | .ok json => storeJSON lib env s a.key a.id o col json .okText

def cmdJdel (s : ServerState G) (args : List Bytes) : Result G × ServerState G :=
  match args with
  | [_, key, id, path] =>
    match s.cols.get? key with
    | none => if env.out = .resp then (.ok (.int 0) {}, s) else retwerr s .keyNotFound
    | some col =>
      let o := col.get? id
      let json := (o.map fun o => geoText lib o.geo).getD []
      match lib.sjsonDelete json path with
      | .error text => retwerr s (.other text)
      | .ok njson =>
        if njson = json then
          match env.out with
          | .json => retwerr s .pathNotFound
          | .resp => (.ok (.int 0) {}, s)
          | _ => (.ok .none {}, s)
        else storeJSON lib env s key id o col njson (.int 1)
  | _ => retwerr s .invalidNumberOfArguments

/-! ## The handlers by name -/

/-- The handlers that change data. -/
inductive Handler where
  | set
  | fset
  | del
  | pdel
  | drop
  | rename
  | flushdb
  | expire
  | persist
  | jset
  | jdel
  deriving DecidableEq

def Handler.call (s : ServerState G) (args : List Bytes) : Handler → Result G × ServerState G
  | set => cmdSET lib env s args
  | fset => cmdFSET lib env s args
  | del => cmdDEL env s args
  | pdel => cmdPDEL lib env s args
  | drop => cmdDROP env s args
  | rename => cmdRENAME env s args
  | flushdb => cmdFLUSHDB env s args
  | expire => cmdEXPIRE lib env s args
  | persist => cmdPERSIST env s args
  | jset => cmdJset lib env s args
  | jdel => cmdJdel lib env s args

end

/-! ## Frame -/

section Frame

variable {N G : Type} [LinearOrder N] {lib : ServerLib N G} {env : Env}

/-- No key holds an empty collection. -/
def NoEmpty (cols : Dataset G) : Prop := ∀ key col, cols.get? key = some col → col ≠ empty

theorem noEmpty_empty : NoEmpty (empty : Dataset G) := by
  intro key col hget
  cases hget

variable {cols : Dataset G}

theorem NoEmpty.set (h : NoEmpty cols) (key : Bytes) {col : Col G}
    (hcol : col ≠ empty) : NoEmpty (cols.set key col) :=
  forall_get?_set h hcol

theorem NoEmpty.delete (h : NoEmpty cols) (key : Bytes) : NoEmpty (cols.delete key) :=
  forall_get?_delete h key

/-- What every return of a handler satisfies: it reports what it changed, and
leaves no empty collection. -/
structure Frame (s : ServerState G) (r : Result G × ServerState G) : Prop where
  unchanged : r.1.updated = false → r.2.cols = s.cols
  noEmpty : NoEmpty r.2.cols

variable {s : ServerState G}

/-- The object under a key and an id. -/
def lookup (cols : Dataset G) (i : Bytes × Bytes) : Option (Object G) :=
  (cols.get? i.1).bind fun col => col.get? i.2

theorem lookup_of_get? {key : Bytes} {col : Col G}
    (h : cols.get? key = some col) (id : Bytes) : lookup cols (key, id) = col.get? id := by
  rw [lookup, h]
  rfl

theorem lookup_of_none {key : Bytes} (h : cols.get? key = none) (id : Bytes) :
    lookup cols (key, id) = none := by
  rw [lookup, h]
  rfl

/-- The collection that a key has, or would get. -/
theorem get?_getD (cols : Dataset G) (key id : Bytes) :
    ((cols.get? key).getD empty).get? id = lookup cols (key, id) := by
  unfold lookup
  cases cols.get? key <;> rfl

/-- The object that a SET stores. -/
def setObject (lib : ServerLib N G) (env : Env) (s : ServerState G) (a : SetArgs N G)
    (geo : Geometry G) : Object G :=
  let old : FieldList := ((lookup s.cols (a.key, a.id)).map Object.fields).getD empty
  ⟨geo, deadline lib env a.ex, a.fields.foldl (FieldList.setField lib.toFieldLib) old⟩

variable (lib env s) in
/-- NX or XX turns a SET down, or it stores its object. -/
theorem execSET_cases (a : SetArgs N G) (geo : Geometry G) :
    ((a.xx = true ∧ lookup s.cols (a.key, a.id) = none ∨
        a.nx = true ∧ lookup s.cols (a.key, a.id) ≠ none) ∧
      ∃ r, execSET lib env s a geo = (r, s) ∧
        (r = .ok .null {} ∨ env.out = .json ∧ ∃ e, r = .err e)) ∨
    ((lookup s.cols (a.key, a.id) = none → a.xx = false) ∧
      (lookup s.cols (a.key, a.id) ≠ none → a.nx = false) ∧
      ∃ r : Reply G, (r = reply env .okText ∨ ∃ o opts json, r = .object o opts json) ∧
        execSET lib env s a geo = (.ok r {
            command := lit "set", key := a.key, obj := some (a.id, setObject lib env s a geo)
            old := lookup s.cols (a.key, a.id), updated := true },
          { s with
            cols := s.cols.set a.key (((s.cols.get? a.key).getD empty).set a.id
              (setObject lib env s a geo)) })) := by
  have hnada : ∃ r, (if env.out = .json then
      if a.nx then retwerr s .idAlreadyExists else retwerr s .idNotFound
      else (.ok .null {}, s)) = (r, s) ∧
        (r = .ok .null {} ∨ env.out = .json ∧ ∃ e, r = .err e) := by
    split
    · split <;> exact ⟨_, rfl, .inr ⟨‹_›, _, rfl⟩⟩
    · exact ⟨_, rfl, .inl rfl⟩
  unfold execSET setObject
  cases hcol : s.cols.get? a.key with
  | some col =>
    rw [lookup_of_get? hcol]
    dsimp only [getD_some]
    split
    · rename_i h
      exact .inl ⟨.inl ⟨h.2.2, h.2.1⟩, hnada⟩
    rename_i hxx
    split
    · rename_i h
      exact .inl ⟨.inr ⟨h.2.2, h.2.1⟩, hnada⟩
    rename_i hnx
    refine .inr ⟨fun hnone => ?_, fun hsome => ?_, ?_⟩
    · by_contra hne
      exact hxx ⟨.inl (by simpa using hne), hnone, by simpa using hne⟩
    · by_contra hne
      exact hnx ⟨.inr (by simpa using hne), hsome, by simpa using hne⟩
    · cases a.ret with
      | none => exact ⟨_, .inl rfl, rfl⟩
      | some opts => exact ⟨_, .inr ⟨_, _, _, rfl⟩, rfl⟩
  | none =>
    rw [lookup_of_none hcol]
    cases hxx : a.xx with
    | true => exact .inl ⟨.inl ⟨rfl, rfl⟩, hnada⟩
    | false =>
      -- the collection was just created, and neither XX nor NX turns it down
      simp only [Bool.false_eq_true, and_false, if_false, get?_empty, ne_eq,
        not_true_eq_false, false_and, set_set, getD_none]
      refine .inr ⟨fun _ => trivial, False.elim, ?_⟩
      cases a.ret with
      | none => exact ⟨_, .inl rfl, rfl⟩
      | some opts => exact ⟨_, .inr ⟨_, _, _, rfl⟩, rfl⟩

/-- The counter of FSET counts every change of the list. -/
theorem foldl_fsetField (fields : List (Field N)) (acc : FieldList × Nat) :
    acc.2 ≤ (fields.foldl (fsetField lib) acc).2 ∧
      ((fields.foldl (fsetField lib) acc).2 = acc.2 → fields.foldl (fsetField lib) acc = acc) := by
  induction fields generalizing acc with
  | nil => exact ⟨le_rfl, fun _ => rfl⟩
  | cons f fields ih =>
    obtain ⟨hle, heq⟩ := ih (fsetField lib acc f)
    rw [List.foldl_cons]
    by_cases hkeep : (acc.1.getValue lib.toFieldLib f.name).equals f.value = true
    · have hacc : fsetField lib acc f = acc := by rw [fsetField, if_pos hkeep]
      rw [hacc] at hle heq ⊢
      exact ⟨hle, heq⟩
    have hcount : (fsetField lib acc f).2 = acc.2 + 1 := by rw [fsetField, if_neg hkeep]
    rw [hcount] at hle
    exact ⟨by omega, fun h => by omega⟩

theorem fsetFields_of_zero {fields : List (Field N)} {flist : FieldList}
    (h : (fsetFields lib fields flist).2 = 0) : (fsetFields lib fields flist).1 = flist :=
  congrArg Prod.fst ((foldl_fsetField fields (flist, 0)).2 h)

/-- A return that stores nothing, and at which a load goes on. -/
inductive Missed : Result G → Prop where
  | key : Missed (.err .keyNotFound)
  | id : Missed (.err .idNotFound)
  | ok (r : Reply G) {d : Details G} (hd : d.updated = false) : Missed (.ok r d)

theorem Missed.updated {r : Result G} (h : Missed r) : r.updated = false := by
  cases h with
  | key => rfl
  | id => rfl
  | ok r hd => exact hd

theorem get?_of_lookup_none {key id : Bytes} (h : lookup cols (key, id) = none) :
    cols.get? key = none ∨ ∃ col, cols.get? key = some col ∧ col.get? id = none := by
  cases hcol : cols.get? key with
  | none => exact .inl rfl
  | some col => exact .inr ⟨col, rfl, (lookup_of_get? hcol id).symm.trans h⟩

/-! DEL, EXPIRE, PERSIST and FSET of an object that is there, and of one that is
not. -/

section Objects

variable (env) {key id : Bytes} {col : Col G} {o : Object G} (name : Bytes)

theorem cmdDEL_of_none {rest : List Bytes} {e : Bool} (hparse : parseErron404 rest false = .ok e)
    (h : lookup s.cols (key, id) = none) :
    ∃ r, Missed r ∧ cmdDEL env s (name :: key :: id :: rest) = (r, s) := by
  rcases get?_of_lookup_none h with hcol | ⟨col, hcol, hid⟩
  · simp only [cmdDEL, hparse, hcol]
    split
    · exact ⟨_, .key, rfl⟩
    · exact ⟨_, .ok _ rfl, rfl⟩
  simp only [cmdDEL, hparse, hcol, hid]
  split
  · exact ⟨_, .id, rfl⟩
  · exact ⟨_, .ok _ rfl, rfl⟩

theorem cmdDEL_of_some {rest : List Bytes} {e : Bool} (hparse : parseErron404 rest false = .ok e)
    (hcol : s.cols.get? key = some col) (hid : col.get? id = some o) :
    cmdDEL env s (name :: key :: id :: rest) =
      (.ok (reply env (.int 1)) {
          command := lit "del", key, obj := some (id, o), updated := true },
        { s with cols :=
            if (col.delete id).size = 0 then s.cols.delete key
            else s.cols.set key (col.delete id) }) := by
  simp only [cmdDEL, hparse, hcol, hid]
  split <;> rfl

omit [LinearOrder N] in
theorem cmdEXPIRE_of_none {svalue : Bytes} {x : F64 N} (hparse : parseFloatArg lib svalue = .ok x)
    (h : lookup s.cols (key, id) = none) :
    ∃ r, Missed r ∧ cmdEXPIRE lib env s [name, key, id, svalue] = (r, s) := by
  rcases get?_of_lookup_none h with hcol | ⟨col, hcol, hid⟩
  · simp only [cmdEXPIRE, hparse, hcol]
    split
    · exact ⟨_, .key, rfl⟩
    · exact ⟨_, .ok _ rfl, rfl⟩
    · exact ⟨_, .ok _ rfl, rfl⟩
  simp only [cmdEXPIRE, hparse, hcol, hid]
  split
  · exact ⟨_, .id, rfl⟩
  · exact ⟨_, .ok _ rfl, rfl⟩
  · exact ⟨_, .ok _ rfl, rfl⟩

theorem cmdPERSIST_of_none (h : lookup s.cols (key, id) = none) :
    ∃ r, Missed r ∧ cmdPERSIST env s [name, key, id] = (r, s) := by
  rcases get?_of_lookup_none h with hcol | ⟨col, hcol, hid⟩
  · simp only [cmdPERSIST, hcol]
    split
    · exact ⟨_, .ok _ rfl, rfl⟩
    · exact ⟨_, .key, rfl⟩
  simp only [cmdPERSIST, hcol, hid]
  split
  · exact ⟨_, .ok _ rfl, rfl⟩
  · exact ⟨_, .id, rfl⟩

variable (lib) in
/-- Without RETURN a missing object is no reason to stop. -/
theorem execFSET_of_none {a : FsetArgs N} (h : lookup s.cols (a.key, a.id) = none) :
    ∃ r, r.updated = false ∧ (a.ret = none → Missed r) ∧ execFSET lib env s a = (r, s) := by
  rcases get?_of_lookup_none h with hcol | ⟨col, hcol, hid⟩
  · exact ⟨_, rfl, fun _ => .key, by rw [execFSET, hcol]⟩
  simp only [execFSET, hcol, hid]
  split
  · cases a.ret with
    | none => exact ⟨_, rfl, fun _ => .ok _ rfl, rfl⟩
    | some opts =>
      refine ⟨_, ?_, fun hret => absurd hret (some_ne_none _), rfl⟩
      rcases objectResponse_none env opts ({} : Details G) with hreply | hreply <;> rw [hreply] <;>
        rfl
  · exact ⟨_, rfl, fun _ => .id, rfl⟩

variable (lib) in
theorem execFSET_of_some {a : FsetArgs N} (hcol : s.cols.get? a.key = some col)
    (hid : col.get? a.id = some o) :
    let fields := fsetFields lib a.fields o.fields
    let obj : Object G := ⟨o.geo, o.expires, fields.1⟩
    ∃ r : Reply G, r ≠ .noBounds ∧ execFSET lib env s a =
      (.ok r {
          command := lit "fset", key := a.key, obj := some (a.id, obj), updated := fields.2 > 0 },
        { s with cols := s.cols.set a.key (col.set a.id obj) }) := by
  simp only [execFSET, hcol, hid]
  cases a.ret with
  | none => exact ⟨_, reply_ne_noBounds env (by simp), rfl⟩
  | some opts => exact ⟨_, by simp, rfl⟩

end Objects

theorem Frame.same (h : NoEmpty s.cols) (r : Result G) : Frame s (r, s) := ⟨fun _ => rfl, h⟩

/-- A return that reports an update. -/
theorem Frame.changed {s' : ServerState G} {r : Result G} (hr : r.updated = true)
    (h : NoEmpty s'.cols) : Frame s (r, s') :=
  ⟨fun hr' => absurd (hr.symm.trans hr') (by simp), h⟩

section Handlers

variable (h : NoEmpty s.cols) (args : List Bytes)
include h

theorem cmdDEL_frame : Frame s (cmdDEL env s args) := by
  unfold cmdDEL
  split
  · split
    · exact .same h _
    split
    · split
      · dsimp only
        split
        · exact .changed rfl (h.delete _)
        rename_i hsize
        refine .changed rfl (h.set _ fun hempty => hsize ?_)
        rw [hempty]
        rfl
      · split <;> exact .same h _
    · split <;> exact .same h _
  · exact .same h _

omit [LinearOrder N] in
theorem cmdPDEL_frame : Frame s (cmdPDEL lib env s args) := by
  unfold cmdPDEL
  split
  · rename_i key pattern
    split
    · exact .same h _
    rename_i col hcol
    have hne : col.size ≠ 0 := fun hzero => h key col hcol ((col.size_eq_zero_iff).mp hzero)
    -- no match: the collection is as before, and it was not empty
    have hnone : (pdelIds lib pattern col).length = 0 →
        (pdelIds lib pattern col).foldl delete col = col := by
      intro hlen
      rw [List.length_eq_zero_iff.mp hlen]
      rfl
    dsimp only
    split_ifs with hsize
    · refine ⟨fun hr => ?_, h.delete _⟩
      have hlen : (pdelIds lib pattern col).length = 0 := by
        simpa [Result.updated] using hr
      rw [hnone hlen] at hsize
      exact absurd hsize hne
    refine ⟨fun hr => ?_, h.set _ fun hempty => hsize ?_⟩
    · have hlen : (pdelIds lib pattern col).length = 0 := by
        simpa [Result.updated] using hr
      show s.cols.set key _ = s.cols
      rw [hnone hlen]
      exact set_eq_self hcol
    · rw [hempty]
      rfl
  · exact .same h _

theorem cmdDROP_frame : Frame s (cmdDROP env s args) := by
  unfold cmdDROP dropKey
  split
  · rename_i key
    cases s.cols.get? key with
    | none => exact .same h _
    | some col => exact .changed rfl (h.delete _)
  · exact .same h _

theorem cmdRENAME_frame : Frame s (cmdRENAME env s args) := by
  unfold cmdRENAME
  split
  · rename_i name key newKey
    split
    · exact .same h _
    rename_i col hcol
    dsimp only
    split
    · exact .same h _
    split
    · exact .same h _
    have hne := h key col hcol
    cases s.cols.get? newKey with
    | none => exact .changed rfl ((h.delete _).set _ hne)
    | some _ =>
      by_cases hnx : toLower name = lit "renamenx"
      · simp only [hnx, decide_true]
        exact .same h _
      · simp only [hnx, decide_false]
        exact .changed rfl (((h.delete _).delete _).set _ hne)
  · exact .same h _

theorem cmdFLUSHDB_frame : Frame s (cmdFLUSHDB env s args) := by
  unfold cmdFLUSHDB
  split
  · exact .changed rfl noEmpty_empty
  · exact .same h _

theorem execSET_frame (a : SetArgs N G) (geo : Geometry G) : Frame s (execSET lib env s a geo) := by
  rcases execSET_cases lib env s a geo with ⟨-, r, heq, -⟩ | ⟨-, -, r, -, heq⟩
  · rw [heq]
    exact .same h _
  · rw [heq]
    exact .changed rfl (h.set _ (set_ne_empty _ _ _))

theorem cmdSET_frame : Frame s (cmdSET lib env s args) := by
  unfold cmdSET
  split
  · exact .same h _
  split
  · exact .same h _
  · exact execSET_frame h _ _

theorem execFSET_frame (a : FsetArgs N) : Frame s (execFSET lib env s a) := by
  cases ho : lookup s.cols (a.key, a.id) with
  | none =>
    obtain ⟨r, -, -, heq⟩ := execFSET_of_none lib env ho
    rw [heq]
    exact .same h r
  | some o =>
    obtain ⟨col, hcol, hid⟩ := bind_eq_some_iff.mp ho
    obtain ⟨r, -, heq⟩ := execFSET_of_some lib env hcol hid
    rw [heq]
    refine ⟨fun hr => ?_, h.set a.key (set_ne_empty col a.id _)⟩
    -- no change counted: the object is stored again as it was
    have hzero : (fsetFields lib a.fields o.fields).2 = 0 := by simpa [Result.updated] using hr
    show s.cols.set a.key (col.set a.id _) = s.cols
    rw [fsetFields_of_zero hzero, set_eq_self hid, set_eq_self hcol]

theorem cmdFSET_frame : Frame s (cmdFSET lib env s args) := by
  unfold cmdFSET
  split
  · exact .same h _
  split
  · exact .same h _
  · exact execFSET_frame h _

omit [LinearOrder N] in
theorem cmdEXPIRE_frame : Frame s (cmdEXPIRE lib env s args) := by
  unfold cmdEXPIRE
  split
  · split
    · exact .same h _
    dsimp only
    split
    · split <;> exact .same h _
    split
    · split <;> exact .same h _
    · exact .changed rfl (h.set _ (set_ne_empty _ _ _))
  · exact .same h _

theorem cmdPERSIST_frame : Frame s (cmdPERSIST env s args) := by
  unfold cmdPERSIST
  split
  · dsimp only
    split
    · split <;> exact .same h _
    split
    · split <;> exact .same h _
    split
    · exact .changed rfl (h.set _ (set_ne_empty _ _ _))
    · exact .same h _
  · exact .same h _

theorem storeJSON_frame (key id : Bytes) (o : Option (Object G)) (col : Col G) (json : Bytes)
    (resp : Reply G) : Frame s (storeJSON lib env s key id o col json resp) := by
  unfold storeJSON
  split
  · exact cmdSET_frame h _
  · exact .changed rfl (h.set _ (set_ne_empty _ _ _))

theorem cmdJset_frame : Frame s (cmdJset lib env s args) := by
  unfold cmdJset
  split
  · exact .same h _
  dsimp only
  split
  · exact .same h _
  · exact storeJSON_frame h _ _ _ _ _ _

theorem cmdJdel_frame : Frame s (cmdJdel lib env s args) := by
  unfold cmdJdel
  split
  · split
    · split <;> exact .same h _
    dsimp only
    split
    · exact .same h _
    split
    · split <;> exact .same h _
    · exact storeJSON_frame h _ _ _ _ _ _
  · exact .same h _

/-- **Every handler, on every argument list: an error or `updated = false`
means an unchanged dataset, and no empty collection is left behind.** -/
theorem call_frame (handler : Handler) (args : List Bytes) :
    Frame s (handler.call lib env s args) := by
  cases handler with
  | set => exact cmdSET_frame h args
  | fset => exact cmdFSET_frame h args
  | del => exact cmdDEL_frame h args
  | pdel => exact cmdPDEL_frame h args
  | drop => exact cmdDROP_frame h args
  | rename => exact cmdRENAME_frame h args
  | flushdb => exact cmdFLUSHDB_frame h args
  | expire => exact cmdEXPIRE_frame h args
  | persist => exact cmdPERSIST_frame h args
  | jset => exact cmdJset_frame h args
  | jdel => exact cmdJdel_frame h args

end Handlers

end Frame

/-! ## Reachable datasets -/

variable {N G : Type} [LinearOrder N] (lib : ServerLib N G)

/-- A call of a handler, or a change of the hooks by their own commands. -/
inductive Event where
  | call (handler : Handler) (env : Env) (args : List Bytes)
  | hooks (hooks : OrdMap Bytes Hook)

def stepEvent (s : ServerState G) : Event → ServerState G
  | .call handler env args => (handler.call lib env s args).2
  | .hooks hooks => { s with hooks }

variable (events : List Event)

/-- The state after a history of events, from an empty server. -/
def runEvents : ServerState G :=
  events.foldl (stepEvent lib) ⟨empty, empty⟩

theorem runEvents_noEmpty : NoEmpty (runEvents lib events : ServerState G).cols := by
  have hfold : ∀ (events : List Event) (s : ServerState G), NoEmpty s.cols →
      NoEmpty (events.foldl (stepEvent lib) s).cols := by
    intro events
    induction events with
    | nil =>
      intro s h
      exact h
    | cons e events ih =>
      intro s h
      cases e with
      | call handler env args => exact ih _ (call_frame h handler args).noEmpty
      | hooks hooks => exact ih _ h
  exact hfold events _ noEmpty_empty

/-- **In every reachable state and for every handler and argument list: if the
call returns an error or reports no update, the dataset is exactly what it
was; and no call leaves an empty collection in the key map.** -/
theorem reachable_call_frame (handler : Handler) (env : Env)
    (args : List Bytes) :
    let s : ServerState G := runEvents lib events
    let r := handler.call lib env s args
    (r.1.updated = false → r.2.cols = s.cols) ∧
      ∀ key col, r.2.cols.get? key = some col → col.size ≠ 0 := by
  have hframe : Frame _ (handler.call lib env (runEvents lib events : ServerState G) args) :=
    call_frame (runEvents_noEmpty lib events) handler args
  refine ⟨hframe.unchanged, fun key col hget hsize => ?_⟩
  exact hframe.noEmpty key col hget ((col.size_eq_zero_iff).mp hsize)

end SpatialDb.Server
