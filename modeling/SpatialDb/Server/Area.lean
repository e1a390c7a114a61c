import SpatialDb.Lib.Infix
import SpatialDb.Lib.TokenReader
import SpatialDb.Server.Crud

/-!
# Area expressions

Model of `parseArea` (`test.go`), of `parseAreaExpression` (`token.go`) and of the
tests of an `areaExpression` (`expression.go`).  The parser changes nodes in
place, through `ae` and through the stack of parents, so the nodes are kept in
a heap and a pointer is an index of it.
-/

namespace SpatialDb.Server

open Lib TokenReader Infix List Option

/-! ## Areas -/

variable {vs vs' : List Bytes}

section

variable {N G : Type} [LinearOrder N]

/-- What `parseArea` takes from the libraries, besides `ServerLib`; rectangles
are given by their least and their greatest latitude and longitude. -/
structure AreaParseLib (N G : Type) where
  /-- `strconv.ParseUint(s, 10, 64)`. -/
  parseUint : Bytes → Option Nat
  /-- The object of a sector, by its GeoJSON. -/
  sector : (lat lon meters b1 b2 : F64 N) → Except Bytes G
  newCircle : (x y meters : F64 N) → G
  boundingBox : Bytes → F64 N × F64 N × F64 N × F64 N
  quadKeyToBounds : Bytes → Option (F64 N × F64 N × F64 N × F64 N)
  tileXYToBounds : Int → Int → Nat → F64 N × F64 N × F64 N × F64 N

variable (lib : ServerLib N G) (alib : AreaParseLib N G)

/-- `tokenval`, and the check that the token is not empty. -/
def argToken : TokenReader Bytes Err Bytes
  | [] => .error .invalidNumberOfArguments
  | token :: nvs => if token = [] then .error .invalidNumberOfArguments else .ok (token, nvs)

def noClip (doClip : Bool) (typ : Bytes) : Except Err Unit :=
  if doClip then .error (.other (lit "invalid clip type '" ++ typ ++ lit "'")) else .ok ()

def floatArg (s : Bytes) : TokenReader Bytes Err (F64 N) := check (parseFloatArg lib s)

/-- The value, or an error about the argument. -/
def orInvalid {α : Type} (s : Bytes) : Option α → Except Err α
  | some a => .ok a
  | none => .error (.invalidArgument s)

/-- `==` of floats. -/
def F64.eq : F64 N → F64 N → Bool
  | .num a, .num b => a = b
  | _, _ => false

def rectOf (b : F64 N × F64 N × F64 N × F64 N) : Geometry G :=
  .spatial (lib.newRect b.2.1 b.1 b.2.2.2 b.2.2.1)

/-- `parseArea`: the object is nil for a type that it does not know. -/
def parseArea (s : ServerState G) (doClip : Bool) :
    TokenReader Bytes Err (Option (Geometry G)) := do
  let typ ← argToken
  let ltyp := toLower typ
  if ltyp = lit "point" then
    let slat ← argToken
    let slon ← argToken
    let lat ← floatArg lib slat
    let lon ← floatArg lib slon
    return some (.spatial (lib.newPoint lon lat))
  else if ltyp = lit "sector" then
    check (noClip doClip typ)
    let slat ← argToken
    let slon ← argToken
    let smeters ← argToken
    let sb1 ← argToken
    let sb2 ← argToken
    let lat ← floatArg lib slat
    let lon ← floatArg lib slon
    let meters ← floatArg lib smeters
    let b1 ← floatArg lib sb1
    let b2 ← floatArg lib sb2
    check (if F64.eq b1 b2 then
      .error (.other (lit "equal bearings (" ++ sb1 ++ lit " == " ++ sb2 ++
        lit "), use CIRCLE instead")) else .ok ())
    let o ← check ((alib.sector lat lon meters b1 b2).mapError .other)
    return some (.spatial o)
  else if ltyp = lit "circle" then
    check (noClip doClip typ)
    let slat ← argToken
    let slon ← argToken
    let lat ← floatArg lib slat
    let lon ← floatArg lib slon
    let smeters ← argToken
    let meters ← floatArg lib smeters
    check (if meters.less (.num lib.zero) then .error (.invalidArgument smeters) else .ok ())
    return some (.spatial (alib.newCircle lon lat meters))
  else if ltyp = lit "object" then
    check (noClip doClip typ)
    let obj ← argToken
    let o ← check ((lib.geoParse obj).mapError .other)
    return some (.spatial o)
  else if ltyp = lit "bounds" then
    let sminLat ← argToken
    let sminLon ← argToken
    let smaxlat ← argToken
    let smaxlon ← argToken
    let minLat ← floatArg lib sminLat
    let minLon ← floatArg lib sminLon
    let maxLat ← floatArg lib smaxlat
    let maxLon ← floatArg lib smaxlon
    return some (rectOf lib (minLat, minLon, maxLat, maxLon))
  else if ltyp = lit "hash" then
    let hash ← argToken
    return some (rectOf lib (alib.boundingBox hash))
  else if ltyp = lit "quadkey" then
    let key ← argToken
    let bounds ← check (orInvalid key (alib.quadKeyToBounds key))
    return some (rectOf lib bounds)
  else if ltyp = lit "tile" then
    let sx ← argToken
    let sy ← argToken
    let sz ← argToken
    let x ← check (orInvalid sx (lib.parseInt sx))
    let y ← check (orInvalid sy (lib.parseInt sy))
    let z ← check (orInvalid sz (alib.parseUint sz))
    return some (rectOf lib (alib.tileXYToBounds x y z))
  else if ltyp = lit "get" then
    check (noClip doClip typ)
    let key ← argToken
    let id ← argToken
    check (match s.cols.get? key with
      | none => .error .keyNotFound
      | some col =>
        match col.get? id with
        | none => .error .idNotFound
        | some o => .ok (some o.geo))
  else return none

theorem argToken_eq_ok_iff {token : Bytes} :
    argToken vs = .ok (token, vs') ↔ vs = token :: vs' ∧ token ≠ [] := by
  cases vs with
  | nil => simp [argToken]
  | cons t vs =>
    rw [argToken]
    split <;> grind

theorem local_argToken : Local argToken := by
  intro vs token vs' h
  obtain ⟨rfl, hne⟩ := argToken_eq_ok_iff.mp h
  exact ⟨[token], rfl, fun rest => argToken_eq_ok_iff.mpr ⟨rfl, hne⟩⟩

variable {lib alib} {s : ServerState G} {doClip : Bool}

theorem parseArea_local : Local (parseArea lib alib s doClip) := by
  unfold parseArea floatArg
  refine local_argToken.bind fun typ => ?_
  -- every branch takes its tokens one by one and then converts them
  repeat' first
    | exact local_pure _
    | exact local_check _
    | refine local_argToken.bind fun _ => ?_
    | refine (local_check _).bind fun _ => ?_
    | refine Local.ite ?_ ?_

theorem length_parseArea {o : Option (Geometry G)}
    (h : parseArea lib alib s doClip vs = .ok (o, vs')) : vs'.length < vs.length := by
  obtain ⟨w, rfl, hw⟩ := parseArea_local vs o vs' h
  have hne : w ≠ [] := by
    rintro rfl
    cases hw []
  simpa using length_pos_iff.mpr hne

/-! ## Nodes -/

inductive BinaryOp where
  | noop
  | and
  | or
  deriving DecidableEq

/-- `areaExpression`; the children are pointers. -/
structure AreaNode (A : Type) where
  negate : Bool := false
  obj : Option A := none
  op : BinaryOp := .noop
  children : List Nat := []

/-- The nodes, by their pointers. -/
abbrev AreaHeap (A : Type) := List (AreaNode A)

namespace AreaHeap

variable {A : Type} (heap : AreaHeap A)

def node (p : Nat) : AreaNode A := heap[p]?.getD {}

def alloc (e : AreaNode A) : AreaHeap A := heap ++ [e]

def update (p : Nat) (f : AreaNode A → AreaNode A) : AreaHeap A :=
  heap.modify p f

def addChild (p c : Nat) : AreaHeap A :=
  heap.update p fun e => { e with children := e.children ++ [c] }

variable {heap : AreaHeap A} {p q : Nat} {e : AreaNode A} {f : AreaNode A → AreaNode A}

@[simp] theorem length_alloc : (heap.alloc e).length = heap.length + 1 := by simp [alloc]

@[simp] theorem length_update : (heap.update p f).length = heap.length := by simp [update]

@[simp] theorem node_alloc_self : (heap.alloc e).node heap.length = e := by simp [node, alloc]

theorem node_alloc (h : p < heap.length) : (heap.alloc e).node p = heap.node p := by
  simp [node, alloc, getElem?_append_left h]

theorem node_update_self (h : p < heap.length) : (heap.update p f).node p = f (heap.node p) := by
  simp [node, update, h]

theorem node_update (h : q ≠ p) : (heap.update p f).node q = heap.node q := by
  simp [node, update, h.symm]

end AreaHeap

/-! ## The parser -/

/-- The variables of `parseAreaExpression`; the top of the stack comes first. -/
structure ParseState (A : Type) where
  heap : AreaHeap A := []
  ps : List Nat := []
  ae : Option Nat := none
  negate : Bool := false
  needObj : Bool := false

namespace ParseState

variable {A : Type} (st : ParseState A)

def lparen : ParseState A :=
  let newExpr := st.heap.length
  let heap := st.heap.alloc { negate := st.negate }
  let heap := match st.ae with
    | some ae => heap.addChild ae newExpr
    | none => heap
  { heap, ps := newExpr :: st.ps, ae := some newExpr }

def rparen : Except Err (ParseState A) :=
  if st.needObj then .error (.invalidArgument (lit ")"))
  else
    match st.ps with
    | [] => .error (.invalidArgument (lit ")"))
    | parent :: ps => .ok { st with ae := some parent, ps }

def not : ParseState A := { st with negate := !st.negate, needObj := true }

/-- `&areaExpression{op: op, children: {ae}}` becomes the current node. -/
def wrap (op : BinaryOp) (ae : Nat) : ParseState A :=
  { st with heap := st.heap.alloc { op, children := [ae] }, ae := some st.heap.length }

def setOp (op : BinaryOp) (ae : Nat) : ParseState A :=
  { st with heap := st.heap.update ae fun e => { e with op } }

/-- The last child of an OR becomes an AND with it as the only child. -/
def wrapLast (ae : Nat) : ParseState A :=
  let children := (st.heap.node ae).children
  let last := children.length - 1
  let heap := st.heap.alloc { op := .and, children := children.drop last }
  { st with heap := heap.update ae fun e =>
      { e with children := children.take last ++ [st.heap.length] } }

def and : Except Err (ParseState A) :=
  if st.needObj then .error (.invalidArgument (lit "and"))
  else
    let st := { st with needObj := true }
    match st.ae with
    | none => .error (.invalidArgument (lit "and"))
    | some ae =>
      if (st.heap.node ae).obj.isNone then
        match (st.heap.node ae).op with
        | .or =>
          if (st.heap.node ae).children.length < 2 then .error .invalidNumberOfArguments
          else .ok (st.wrapLast ae)
        | .noop => .ok (st.setOp .and ae)
        | .and => .ok st
      else .ok (st.wrap .and ae)

def or : Except Err (ParseState A) :=
  if st.needObj then .error (.invalidArgument (lit "or"))
  else
    let st := { st with needObj := true }
    match st.ae with
    | none => .error (.invalidArgument (lit "or"))
    | some ae =>
      if (st.heap.node ae).obj.isNone then
        match (st.heap.node ae).op with
        | .and =>
          if (st.heap.node ae).children.length < 2 then .error .invalidNumberOfArguments
          else .ok (st.wrap .or ae)
        | .noop => .ok (st.setOp .or ae)
        | .or => .ok st
      else .ok (st.wrap .or ae)

/-- The node of an area. -/
def area (obj : Option A) : ParseState A :=
  let newExpr := st.heap.length
  let heap := st.heap.alloc { negate := st.negate, obj }
  match st.ae with
  | none => { st with heap, ae := some newExpr, negate := false, needObj := false }
  | some ae => { st with heap := heap.addChild ae newExpr, negate := false, needObj := false }

/-- The check at the end: the root. -/
def root : Except Err Nat :=
  if st.ps ≠ [] || st.needObj then .error .invalidNumberOfArguments
  else
    match st.ae with
    | none => .error .invalidNumberOfArguments
    | some ae =>
      if (st.heap.node ae).obj.isNone && (st.heap.node ae).children.length = 0 then
        .error .invalidNumberOfArguments
      else .ok ae

end ParseState

/-- The words that begin an area. -/
def areaWords : List Bytes :=
  [lit "point", lit "circle", lit "object", lit "bounds", lit "hash", lit "quadkey", lit "tile",
    lit "get", lit "sector"]

variable (lib alib s doClip)

/-- The loop of `parseAreaExpression`. -/
def parseLoop (st : ParseState (Geometry G)) (vsout : List Bytes) :
    Except Err (List Bytes × ParseState (Geometry G)) :=
  match vsout with
  | [] => .ok ([], st)
  | wtok :: nvs =>
    if wtok = [] then .ok (wtok :: nvs, st)
    else if toLower wtok = lit "(" then parseLoop st.lparen nvs
    else if toLower wtok = lit ")" then
      match st.rparen with
      | .error e => .error e
      | .ok st => parseLoop st nvs
    else if toLower wtok = lit "not" then parseLoop st.not nvs
    else if toLower wtok = lit "and" then
      match st.and with
      | .error e => .error e
      | .ok st => parseLoop st nvs
    else if toLower wtok = lit "or" then
      match st.or with
      | .error e => .error e
      | .ok st => parseLoop st nvs
    else if toLower wtok ∈ areaWords then
      match _h : parseArea lib alib s doClip (wtok :: nvs) with
      | .error e => .error e
      | .ok (obj, parsedVs) => parseLoop (st.area obj) parsedVs
    else .ok (wtok :: nvs, st)
termination_by vsout.length
decreasing_by
  all_goals first
    | exact length_parseArea _h
    | simp

/-- An area expression: the nodes, and the pointer to the root. -/
structure AreaExpression (A : Type) where
  heap : AreaHeap A
  root : Nat

/-- `parseAreaExpression`: the tokens that are left, and the expression. -/
def parseAreaExpression (vsin : List Bytes) :
    Except Err (List Bytes × AreaExpression (Geometry G)) := do
  let (vsout, st) ← parseLoop lib alib s doClip {} vsin
  let root ← st.root
  .ok (vsout, ⟨st.heap, root⟩)

/-! ### Token by token -/

/-- The tokens of an area. -/
structure AreaLeaf where
  toks : List Bytes
  obj : Geometry G
  parse : parseArea lib alib s doClip toks = .ok (some obj, [])

/-- A spelling of a token; the case of the letters does not matter. -/
def Spells : Token (AreaLeaf lib alib s doClip) → List Bytes → Prop
  | .leaf l, ws => ws = l.toks
  | .not, ws => ∃ w, ws = [w] ∧ toLower w = lit "not"
  | .op .and, ws => ∃ w, ws = [w] ∧ toLower w = lit "and"
  | .op .or, ws => ∃ w, ws = [w] ∧ toLower w = lit "or"
  | .lparen, ws => ∃ w, ws = [w] ∧ toLower w = lit "("
  | .rparen, ws => ∃ w, ws = [w] ∧ toLower w = lit ")"

inductive Spelled : List (Token (AreaLeaf lib alib s doClip)) → List Bytes → Prop where
  | nil : Spelled [] []
  | cons {t ts ws vs} (ht : Spells lib alib s doClip t ws) (hts : Spelled ts vs) :
      Spelled (t :: ts) (ws ++ vs)

variable {A : Type} (st : ParseState A)

/-- One round of the loop. -/
def ParseState.step : Token A → Except Err (ParseState A)
  | .leaf a => .ok (st.area (some a))
  | .not => .ok st.not
  | .op .and => st.and
  | .op .or => st.or
  | .lparen => .ok st.lparen
  | .rparen => st.rparen

def ParseState.run (ts : List (Token A)) : Except Err (ParseState A) :=
  ts.foldlM ParseState.step st

@[simp] theorem ParseState.run_nil : st.run [] = .ok st := rfl

theorem ParseState.run_cons {st st' : ParseState A} {t : Token A} {ts : List (Token A)} :
    st.run (t :: ts) = .ok st' ↔ ∃ mid, st.step t = .ok mid ∧ mid.run ts = .ok st' := by
  change (st.step t >>= fun mid => mid.run ts) = .ok st' ↔ _
  cases st.step t with
  | error e => simp [bind, Except.bind]
  | ok mid => simp [bind, Except.bind]

theorem ParseState.run_append {st mid st' : ParseState A} {ts us : List (Token A)}
    (hts : st.run ts = .ok mid) (hus : mid.run us = .ok st') : st.run (ts ++ us) = .ok st' := by
  induction ts generalizing st with
  | nil =>
    obtain rfl := Except.ok.inj hts
    exact hus
  | cons t ts ih =>
    obtain ⟨next, hstep, hrun⟩ := run_cons.mp hts
    exact run_cons.mpr ⟨next, hstep, ih hrun⟩

variable {lib alib s doClip}

/-- An area begins with its word. -/
theorem word_of_parseArea {o : Geometry G}
    (h : parseArea lib alib s doClip vs = .ok (some o, vs')) :
    ∃ wtok nvs, vs = wtok :: nvs ∧ wtok ≠ [] ∧ toLower wtok ∈ areaWords := by
  obtain ⟨typ, mid, htyp, hrest⟩ := bind_eq_ok_iff.mp h
  obtain ⟨rfl, hne⟩ := argToken_eq_ok_iff.mp htyp
  refine ⟨typ, mid, rfl, hne, ?_⟩
  by_contra hnot
  simp only [areaWords, mem_cons, not_mem_nil, or_false, not_or] at hnot
  simp only [hnot, if_false] at hrest
  cases hrest

/-- A round of the loop, by the word it is at. -/
theorem parseLoop_cons {wtok : Bytes} (hne : toLower wtok ≠ []) (nvs : List Bytes)
    (st : ParseState (Geometry G)) :
    parseLoop lib alib s doClip st (wtok :: nvs) =
      if toLower wtok = lit "(" then parseLoop lib alib s doClip st.lparen nvs
      else if toLower wtok = lit ")" then
        st.rparen >>= fun st => parseLoop lib alib s doClip st nvs
      else if toLower wtok = lit "not" then parseLoop lib alib s doClip st.not nvs
      else if toLower wtok = lit "and" then
        st.and >>= fun st => parseLoop lib alib s doClip st nvs
      else if toLower wtok = lit "or" then st.or >>= fun st => parseLoop lib alib s doClip st nvs
      else if toLower wtok ∈ areaWords then
        parseArea lib alib s doClip (wtok :: nvs) >>= fun r =>
          parseLoop lib alib s doClip (st.area r.1) r.2
      else .ok (wtok :: nvs, st) := by
  have hwtok : wtok ≠ [] := by
    rintro rfl
    exact hne rfl
  rw [parseLoop, if_neg hwtok]
  cases st.rparen <;> cases st.and <;> cases st.or <;>
    cases parseArea lib alib s doClip (wtok :: nvs) <;> rfl

variable {st st' : ParseState (Geometry G)}

/-- The loop takes a spelled token as its step says. -/
theorem parseLoop_spells {t : Token (AreaLeaf lib alib s doClip)} {ws : List Bytes}
    (ht : Spells lib alib s doClip t ws) (vs : List Bytes)
    (hst : st.step (t.map AreaLeaf.obj) = .ok st') :
    parseLoop lib alib s doClip st (ws ++ vs) = parseLoop lib alib s doClip st' vs := by
  cases t with
  | leaf l =>
    obtain rfl := Except.ok.inj hst
    obtain ⟨wtok, nvs, htoks, -, hword⟩ := word_of_parseArea l.parse
    obtain ⟨w, hw, hlocal⟩ := parseArea_local _ _ _ l.parse
    have hparse : parseArea lib alib s doClip (wtok :: (nvs ++ vs)) = .ok (some l.obj, vs) := by
      rw [← cons_append, ← htoks, hw, append_nil]
      exact hlocal vs
    have hwords : ∀ w ∈ areaWords, w ≠ [] ∧ w ≠ lit "(" ∧ w ≠ lit ")" ∧ w ≠ lit "not" ∧
        w ≠ lit "and" ∧ w ≠ lit "or" := by
      decide
    obtain ⟨hne, h1, h2, h3, h4, h5⟩ := hwords _ hword
    rw [show ws = l.toks from ht, htoks, cons_append, parseLoop_cons hne, if_neg h1,
      if_neg h2, if_neg h3, if_neg h4, if_neg h5, if_pos hword, hparse]
    rfl
  | not =>
    obtain ⟨w, rfl, hw⟩ := ht
    obtain rfl := Except.ok.inj hst
    rw [singleton_append, parseLoop_cons (hw ▸ by decide), hw]
    rfl
  | op o =>
    cases o with
    | and =>
      obtain ⟨w, rfl, hw⟩ := ht
      have hand : st.and = .ok st' := hst
      rw [singleton_append, parseLoop_cons (hw ▸ by decide), hw, hand]
      rfl
    | or =>
      obtain ⟨w, rfl, hw⟩ := ht
      have hor : st.or = .ok st' := hst
      rw [singleton_append, parseLoop_cons (hw ▸ by decide), hw, hor]
      rfl
  | lparen =>
    obtain ⟨w, rfl, hw⟩ := ht
    obtain rfl := Except.ok.inj hst
    rw [singleton_append, parseLoop_cons (hw ▸ by decide), hw]
    rfl
  | rparen =>
    obtain ⟨w, rfl, hw⟩ := ht
    have hrparen : st.rparen = .ok st' := hst
    rw [singleton_append, parseLoop_cons (hw ▸ by decide), hw, hrparen]
    rfl

theorem parseLoop_spelled {ts : List (Token (AreaLeaf lib alib s doClip))} {vs : List Bytes}
    (hts : Spelled lib alib s doClip ts vs)
    (hst : st.run (ts.map (Token.map AreaLeaf.obj)) = .ok st') :
    parseLoop lib alib s doClip st vs = .ok ([], st') := by
  induction hts generalizing st with
  | nil =>
    obtain rfl := Except.ok.inj hst
    rw [parseLoop]
  | cons ht hts ih =>
    rw [map_cons] at hst
    obtain ⟨mid, hstep, hrun⟩ := ParseState.run_cons.mp hst
    rw [parseLoop_spells ht _ hstep]
    exact ih hrun

end

/-! ## Tests -/

variable {A : Type}

/-- The tests of `geojson`. -/
structure ObjectTests (A : Type) where
  within : A → A → Bool
  intersects : A → A → Bool

/-- The loop of an AND over its children. -/
def allTrue (test : Nat → Option Bool) : List Nat → Option Bool
  | [] => some true
  | c :: cs => (test c).bind fun val => if !val then some false else allTrue test cs

/-- The loop of an OR over its children. -/
def anyTrue (test : Nat → Option Bool) : List Nat → Option Bool
  | [] => some false
  | c :: cs => (test c).bind fun val => if val then some true else anyTrue test cs

def AreaNode.maybeNegate (e : AreaNode A) (val : Bool) : Bool := if e.negate then !val else val

/-- `testObject` and `maybeNegate` at the node `p`, when the areas are tested by
`objTest`; the fuel bounds the depth of the recursion. -/
def AreaHeap.test (heap : AreaHeap A) (objTest : A → Bool) : (fuel : Nat) → Nat → Option Bool
  | 0, _ => none
  | fuel + 1, p =>
    let e := heap.node p
    let val := match e.obj with
      | some obj => some (objTest obj)
      | none =>
        match e.op with
        | .and => allTrue (heap.test objTest fuel) e.children
        | .or => anyTrue (heap.test objTest fuel) e.children
        | .noop => some false
    val.map e.maybeNegate

variable (tests : ObjectTests A)

def AreaExpression.Within (fuel : Nat) (ae : AreaExpression A) (o : A) : Option Bool :=
  ae.heap.test (fun obj => tests.within obj o) fuel ae.root

def AreaExpression.Intersects (fuel : Nat) (ae : AreaExpression A) (o : A) : Option Bool :=
  ae.heap.test (fun obj => tests.intersects obj o) fuel ae.root

variable {f g : Nat → Option Bool} {heap heap' : AreaHeap A} {objTest : A → Bool}

variable {cs : List Nat} {b : Bool} {p : Nat} {bs : List Bool}

theorem allTrue_mono (h : ∀ c b, f c = some b → g c = some b) (hall : allTrue f cs = some b) :
    allTrue g cs = some b := by
  induction cs with
  | nil => exact hall
  | cons c cs ih =>
    obtain ⟨val, hval, hrest⟩ := bind_eq_some_iff.mp hall
    refine bind_eq_some_iff.mpr ⟨val, h c val hval, ?_⟩
    cases val with
    | false => exact hrest
    | true => exact ih hrest

theorem anyTrue_mono (h : ∀ c b, f c = some b → g c = some b) (hany : anyTrue f cs = some b) :
    anyTrue g cs = some b := by
  induction cs with
  | nil => exact hany
  | cons c cs ih =>
    obtain ⟨val, hval, hrest⟩ := bind_eq_some_iff.mp hany
    refine bind_eq_some_iff.mpr ⟨val, h c val hval, ?_⟩
    cases val with
    | true => exact hrest
    | false => exact ih hrest

theorem AreaHeap.test_mono {fuel fuel' : Nat} (hle : fuel ≤ fuel')
    (h : heap.test objTest fuel p = some b) : heap.test objTest fuel' p = some b := by
  induction fuel generalizing fuel' p b with
  | zero => cases h
  | succ fuel ih =>
    obtain ⟨fuel', rfl⟩ := Nat.exists_eq_add_one_of_ne_zero (by omega : fuel' ≠ 0)
    have hmono : ∀ c b, heap.test objTest fuel c = some b → heap.test objTest fuel' c = some b :=
      fun c b => ih (Nat.le_of_succ_le_succ hle)
    rw [AreaHeap.test, map_eq_some_iff] at h ⊢
    obtain ⟨val, hval, hb⟩ := h
    refine ⟨val, ?_, hb⟩
    cases hobj : (heap.node p).obj with
    | some obj => simpa only [hobj] using hval
    | none =>
      cases hop : (heap.node p).op with
      | noop => simpa only [hobj, hop] using hval
      | and =>
        simp only [hobj, hop] at hval ⊢
        exact allTrue_mono hmono hval
      | or =>
        simp only [hobj, hop] at hval ⊢
        exact anyTrue_mono hmono hval

theorem allTrue_congr (h : ∀ c ∈ cs, f c = g c) : allTrue f cs = allTrue g cs := by
  induction cs with
  | nil => rfl
  | cons c cs ih =>
    obtain ⟨hc, hcs⟩ := forall_mem_cons.mp h
    rw [allTrue, allTrue, hc, ih hcs]

theorem anyTrue_congr (h : ∀ c ∈ cs, f c = g c) : anyTrue f cs = anyTrue g cs := by
  induction cs with
  | nil => rfl
  | cons c cs ih =>
    obtain ⟨hc, hcs⟩ := forall_mem_cons.mp h
    rw [anyTrue, anyTrue, hc, ih hcs]

/-- A value depends on the nodes below only. -/
theorem AreaHeap.test_congr {S : Set Nat} (hnode : ∀ q ∈ S, heap'.node q = heap.node q)
    (hclosed : ∀ q ∈ S, ∀ c ∈ (heap.node q).children, c ∈ S) (hp : p ∈ S) (fuel : Nat) :
    heap'.test objTest fuel p = heap.test objTest fuel p := by
  induction fuel generalizing p with
  | zero => rfl
  | succ fuel ih =>
    have hchild : ∀ c ∈ (heap.node p).children,
        heap'.test objTest fuel c = heap.test objTest fuel c := fun c hc => ih (hclosed p hp c hc)
    rw [AreaHeap.test, AreaHeap.test, hnode p hp, allTrue_congr hchild, anyTrue_congr hchild]

/-- The node has the value `b`, with enough fuel. -/
def AreaHeap.Evals (heap : AreaHeap A) (objTest : A → Bool) (p : Nat) (b : Bool) : Prop :=
  ∃ fuel, heap.test objTest fuel p = some b

theorem AreaHeap.Evals.unique {b' : Bool} (h : heap.Evals objTest p b)
    (h' : heap.Evals objTest p b') : b = b' := by
  obtain ⟨fuel, hb⟩ := h
  obtain ⟨fuel', hb'⟩ := h'
  have hmax := AreaHeap.test_mono (le_max_left fuel fuel') hb
  exact some.inj (hmax.symm.trans (AreaHeap.test_mono (le_max_right fuel fuel') hb'))

theorem AreaHeap.Evals.exists_enough (h : heap.Evals objTest p b) :
    ∃ enough, ∀ fuel ≥ enough, heap.test objTest fuel p = some b := by
  obtain ⟨enough, hb⟩ := h
  exact ⟨enough, fun fuel hfuel => AreaHeap.test_mono hfuel hb⟩

theorem exists_fuel (h : List.Forall₂ (heap.Evals objTest) cs bs) :
    ∃ fuel, List.Forall₂ (fun c b => heap.test objTest fuel c = some b) cs bs := by
  induction h with
  | nil => exact ⟨0, .nil⟩
  | cons hc _ ih =>
    obtain ⟨fuel, hc⟩ := hc
    obtain ⟨fuel', hcs⟩ := ih
    refine ⟨max fuel fuel', .cons (AreaHeap.test_mono (le_max_left _ _) hc) ?_⟩
    exact hcs.imp fun _ _ => AreaHeap.test_mono (le_max_right _ _)

theorem allTrue_of_forall₂ (h : List.Forall₂ (fun c b => f c = some b) cs bs) :
    allTrue f cs = some (bs.all id) := by
  induction h with
  | nil => rfl
  | @cons c b cs bs hc _ ih =>
    rw [allTrue, hc, ih]
    cases b <;> rfl

theorem anyTrue_of_forall₂ (h : List.Forall₂ (fun c b => f c = some b) cs bs) :
    anyTrue f cs = some (bs.any id) := by
  induction h with
  | nil => rfl
  | @cons c b cs bs hc _ ih =>
    rw [anyTrue, hc, ih]
    cases b <;> rfl

end SpatialDb.Server
