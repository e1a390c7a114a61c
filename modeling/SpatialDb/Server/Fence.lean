import SpatialDb.Server.Expire
import SpatialDb.Server.Scan
import SpatialDb.Server.Sparse

/-!
# Geofences

Model of `FenceMatch` and `fenceMatch` of `internal/legacy/server/fence.go`:
the messages that a fence has for the details of a command.  A static fence
compares where the old and the new object of the details are; a roaming fence
lists the objects around it, a parameter that `roamFenceLib` fills in.  A message
is the data it is written from; its group and its time are left out.

Only SET fills in the old object.  EXPIRE and PERSIST give the object as a new
one, and to the fence it enters once more.
-/

namespace SpatialDb.Server

open Lib List Option

/-! ## Fences -/

inductive Detect where
  | inside
  | outside
  | enter
  | exit
  | cross
  | roam
  deriving DecidableEq

inductive FenceCmd where
  | nearby
  | within
  | intersects
  deriving DecidableEq

/-- `liveFenceSwitches.obj` with the command, or the roaming switches. -/
inductive FenceArea (A R : Type) where
  | static (cmd : FenceCmd) (obj : A)
  | roaming (roam : R)

/-- `liveFenceSwitches`, as far as `fenceMatch` and its `scanWriter` read it.
DETECT does not take `roam`. -/
structure Fence (G A R : Type) where
  key : Bytes
  area : FenceArea A R
  detect : Option (List Detect) := none
  accept : List Bytes := []
  globs : List Bytes := []
  filters : Filters G := {}
  nofields : Bool := false
  output : Output := .objects
  no_roam : ∀ l ∈ detect, Detect.roam ∉ l := by simp

/-- What `fenceMatch` takes from `geojson`, and `fenceMatchRoam`: the objects
that have come near and those that are far away now. -/
structure FenceLib (G A R M K : Type) extends AreaLib G A K where
  objRect : Geometry G → Rect K
  center : Geometry G → K × K
  /-- Whether the line between two points intersects the area. -/
  lineIntersects : K × K → K × K → A → Bool
  fenceMatchRoam : R → Item G → Option (Object G) → List M × List M

/-- The messages; `roam` is an object message with an object near or far away. -/
inductive FenceMsg (G M : Type) where
  | drop (hook key : Bytes)
  | del (hook key id : Bytes)
  | object (command : Bytes) (detect : Detect) (hook key : Bytes) (o : Item G)
  | roam (command : Bytes) (hook key : Bytes) (o : Item G) (nearby : Bool) (other : M)

namespace FenceMsg

variable {G M : Type}

/-- The field `command`. -/
def command : FenceMsg G M → Bytes
  | drop _ _ => lit "drop"
  | del _ _ _ => lit "del"
  | object command _ _ _ _ | roam command _ _ _ _ _ => command

/-- The field `hook`. -/
def hook : FenceMsg G M → Bytes
  | drop hook _ | del hook _ _ | object _ _ hook _ _ | roam _ hook _ _ _ _ => hook

end FenceMsg

section Model

variable {G A R M K : Type}

def multiGlobMatch (globs : List Bytes) (s : Bytes) : Bool :=
  globs.length = 0 || globs = [lit "*"] ||
    globs.any fun pattern => Glob.wildcardMatch pattern s = .ok true

variable (fence : Fence G A R)

/-- `sw.fieldMatch`, with its error ignored. -/
def Fence.fieldMatch (o : Item G) : Bool :=
  Server.fieldMatch fence.filters o = .ok true

/-- `sw.testObject`, with its error ignored. -/
def Fence.testObject (o : Item G) : Bool :=
  multiGlobMatch fence.globs o.1 && fence.fieldMatch o

/-- `fence.detect == nil || fence.detect[detect]`. -/
def Fence.wants (detect : Detect) : Bool :=
  match fence.detect with
  | none => true
  | some l => detect ∈ l

variable (lib : FenceLib G A R M K)

/-- `fenceMatchObject`, for a static fence. -/
def fenceMatchObject (cmd : FenceCmd) (area : A) : Option (Object G) → Bool
  | none => false
  | some o =>
    match cmd with
    | .nearby => lib.intersects o.geo area
    | .within => lib.within o.geo area
    | .intersects => lib.intersects o.geo area

/-- The branch of `fenceMatch` for a static fence. -/
def staticDetect (fence : Fence G A R) (cmd : FenceCmd) (area : A) (command id : Bytes)
    (old : Option (Object G)) (o : Object G) : Option Detect :=
  let geo1 := fenceMatchObject lib cmd area old
  let match1 := geo1 && old.any fun old => fence.testObject (id, old)
  let nocross := geo1 && !match1
  let geo2 := fenceMatchObject lib cmd area (some o)
  let match2 := geo2 && fence.testObject (id, o)
  let nocross := if geo2 then !match2 else nocross
  if match1 && match2 then some .inside
  else if match1 && !match2 then some .exit
  else if !match1 && match2 then some (if command = lit "fset" then .inside else .enter)
  else if command ≠ lit "fset" then
    if !fence.fieldMatch (id, o) then none
    else
      match old with
      | none => some .outside
      | some old =>
        if !nocross && lib.lineIntersects (lib.center old.geo) (lib.center o.geo) area then
          some .cross
        else some .outside
  else some .outside

/-- The loop that falls back on `inside` and `outside`. -/
def settle (fence : Fence G A R) (detect : Detect) : Option Detect :=
  if fence.wants detect then some detect
  else
    match detect with
    | .enter => if fence.wants .inside then some .inside else none
    | .exit | .cross => if fence.wants .outside then some .outside else none
    | _ => none

variable (hook : Bytes) (fence : Fence G A R) (d : Details G)

/-- The messages for a detection: a fence that counts writes none. -/
def detectMsgs (o : Item G)
    (roamed : List M × List M) (detect : Detect) : List (FenceMsg G M) :=
  let msg (detect : Detect) : FenceMsg G M := .object d.command detect hook d.key o
  if fence.output = .count then []
  else
    match detect with
    | .enter => msg .enter :: if fence.wants .inside then [msg .inside] else []
    | .exit | .cross => msg detect :: if fence.wants .outside then [msg .outside] else []
    | .roam =>
      (if d.command ≠ lit "set" then [msg .roam] else []) ++
        (roamed.1.map fun m => .roam d.command hook d.key o true m) ++
        roamed.2.map fun m => .roam d.command hook d.key o false m
    | _ => [msg detect]

def fenceMatch : List (FenceMsg G M) :=
  if d.command = lit "drop" then [.drop hook d.key]
  else
    match d.obj with
    | none => []
    | some (id, o) =>
      if !multiGlobMatch fence.globs id then []
      else if !o.geo.isSpatial then []
      else if d.command = lit "fset" ∧ fence.nofields then []
      else if d.command = lit "del" then [.del hook d.key id]
      else
        let send (roamed : List M × List M) (detect : Detect) : List (FenceMsg G M) :=
          match settle fence detect with
          | none => []
          | some detect => detectMsgs hook fence d (id, o) roamed detect
        match fence.area with
        | .roaming roam =>
          let roamed :=
            if d.command = lit "set" then lib.fenceMatchRoam roam (id, o) d.old else ([], [])
          if d.command = lit "set" ∧ roamed.1.length = 0 ∧ roamed.2.length = 0 then []
          else send roamed .roam
        | .static cmd area =>
          match staticDetect lib fence cmd area d.command id d.old o with
          | none => []
          | some detect => send ([], []) detect

/-- `FenceMatch`: COMMANDS leaves out the messages of other commands. -/
def FenceMatch : List (FenceMsg G M) :=
  let msgs := fenceMatch lib hook fence d
  if fence.accept.length = 0 then msgs else msgs.filter fun msg => msg.command ∈ fence.accept

end Model

/-! ## Commands on one object -/

section Effects

variable {N G : Type} [LinearOrder N]

/-- A command as a handler gets it. -/
structure ObjectOp where
  handler : Handler
  env : Env
  args : List Bytes

/-- What `writeAOF` hands to the fences. -/
def Result.notice : Result G → Option (Details G)
  | .ok _ d => if d.updated then some d else none
  | _ => none

/-- What the command `name` does to an object that stays spatial, and the
details that it gives. -/
inductive ObjectEffect (name key id : Bytes) (before : Option (Object G)) :
    Option (Details G) → Option (Object G) → Prop where
  | idle : ObjectEffect name key id before none before
  | set (o : Object G) (hname : name = lit "set") (hspatial : o.geo.isSpatial = true) :
      ObjectEffect name key id before
        (some { command := name, key, obj := some (id, o), old := before, updated := true })
        (some o)
  | touch (o o' : Object G) (hname : name ∈ [lit "fset", lit "expire", lit "persist"])
      (hbefore : before = some o) (hgeo : o'.geo = o.geo) :
      ObjectEffect name key id before
        (some { command := name, key, obj := some (id, o'), updated := true }) (some o')
  | del (o : Object G) (hname : name = lit "del") (hbefore : before = some o) :
      ObjectEffect name key id before
        (some { command := name, key, obj := some (id, o), updated := true }) none

variable (lib : ServerLib N G)

/-- The name under which a command gives the object `o` as a new one, without
the old one: an EXPIRE, or a PERSIST of an object with a deadline. -/
def ObjectOp.regives (op : ObjectOp) (o : Object G) : Option Bytes :=
  match op.handler, op.args with
  | .expire, [_, _, _, svalue] => if (lib.parseFloat svalue).2 then some (lit "expire") else none
  | .persist, [_, _, _] => if o.expires ≠ 0 then some (lit "persist") else none
  | _, _ => none

/-- The same, read off the details. -/
def regiven (d : Option (Details G)) : Option Bytes :=
  (d.map Details.command).filter fun command => command ∈ [lit "expire", lit "persist"]

/-- A SET with these arguments stores no string. -/
def storesSpatial (args : List Bytes) : Bool :=
  match parseSET lib args with
  | .ok (_, geo) => geo.isSpatial
  | .error _ => true

/-- SET, FSET, EXPIRE, PERSIST and DEL, on one object that stays spatial. -/
structure ObjectOp.On (key id : Bytes) (op : ObjectOp) : Prop where
  handler : op.handler ∈ [Handler.set, .fset, .expire, .persist, .del]
  args : ∃ name rest, op.args = name :: key :: id :: rest
  spatial : op.handler = .set → storesSpatial lib op.args = true

def ObjectOp.call (op : ObjectOp) (s : ServerState G) : Result G × ServerState G :=
  op.handler.call lib op.env s op.args

variable {lib} {s : ServerState G} {name key id : Bytes} {env : Env}

/-- The effect of a handler that ends in `r`. -/
def HasEffect (s : ServerState G) (name key id : Bytes) (r : Result G × ServerState G) : Prop :=
  ObjectEffect name key id (lookup s.cols (key, id)) r.1.notice (lookup r.2.cols (key, id))

theorem HasEffect.same {r : Result G} (h : r.updated = false) : HasEffect s name key id (r, s) := by
  have hnotice : r.notice = none := by
    cases r with
    | ok reply d => exact if_neg (by simpa [Result.updated] using h)
    | _ => rfl
  rw [HasEffect, hnotice]
  exact .idle

variable {o : Object G}

/-- A stored object is given as a new one, with or without the old one. -/
theorem HasEffect.put {col : Col G} (hcol : ∀ id, col.get? id = lookup s.cols (key, id))
    {r : Result G} {d : Details G} (hr : r.notice = some d)
    (heffect : ObjectEffect name key id (lookup s.cols (key, id)) (some d) (some o)) :
    HasEffect s name key id (r, { s with cols := s.cols.set key (col.set id o) }) := by
  rw [HasEffect, hr, lookup_put hcol, if_pos rfl]
  exact heffect

theorem execSET_effect (a : SetArgs N G) {geo : Geometry G} (hgeo : geo.isSpatial = true) :
    HasEffect s (lit "set") a.key a.id (execSET lib env s a geo) := by
  rcases execSET_cases lib env s a geo with ⟨-, r, heq, hr⟩ | ⟨-, -, r, -, heq⟩
  · rw [heq]
    rcases hr with rfl | ⟨-, e, rfl⟩
    · exact .same rfl
    · exact .same rfl
  · -- RETURN changes the reply, not the details
    rw [heq]
    exact .put (get?_getD s.cols a.key) rfl (.set _ rfl hgeo)

theorem execFSET_effect (a : FsetArgs N) :
    HasEffect s (lit "fset") a.key a.id (execFSET lib env s a) := by
  cases ho : lookup s.cols (a.key, a.id) with
  | none =>
    obtain ⟨r, hupd, -, heq⟩ := execFSET_of_none lib env ho
    rw [heq]
    exact .same hupd
  | some o =>
    obtain ⟨col, hcol, hid⟩ := bind_eq_some_iff.mp ho
    obtain ⟨r, -, heq⟩ := execFSET_of_some lib env hcol hid
    rw [heq]
    cases hcount : (fsetFields lib a.fields o.fields).2 with
    | zero =>
      rw [fsetFields_of_zero hcount, OrdMap.set_eq_self hid, OrdMap.set_eq_self hcol]
      exact .same rfl
    | succ n =>
      exact .put (fun id => (lookup_of_get? hcol id).symm) rfl
        (.touch o _ (mem_cons_self ..) ho rfl)

omit [LinearOrder N] in
theorem cmdEXPIRE_effect (cmd svalue : Bytes) :
    HasEffect s (lit "expire") key id (cmdEXPIRE lib env s [cmd, key, id, svalue]) := by
  cases hparse : parseFloatArg lib svalue with
  | error e =>
    simp only [cmdEXPIRE, hparse]
    exact .same rfl
  | ok x =>
    cases ho : lookup s.cols (key, id) with
    | none =>
      obtain ⟨r, hr, heq⟩ := cmdEXPIRE_of_none env cmd hparse ho
      rw [heq]
      exact .same hr.updated
    | some o =>
      obtain ⟨col, hcol, hid⟩ := bind_eq_some_iff.mp ho
      simp only [cmdEXPIRE, hparse, hcol, hid]
      exact .put (fun id => (lookup_of_get? hcol id).symm) rfl (.touch o _ (by simp) ho rfl)

theorem cmdPERSIST_effect (cmd : Bytes) :
    HasEffect s (lit "persist") key id (cmdPERSIST env s [cmd, key, id]) := by
  cases ho : lookup s.cols (key, id) with
  | none =>
    obtain ⟨r, hr, heq⟩ := cmdPERSIST_of_none env cmd ho
    rw [heq]
    exact .same hr.updated
  | some o =>
    obtain ⟨col, hcol, hid⟩ := bind_eq_some_iff.mp ho
    simp only [cmdPERSIST, hcol, hid]
    split
    · exact .put (fun id => (lookup_of_get? hcol id).symm) rfl (.touch o _ (by simp) ho rfl)
    · exact .same rfl

theorem cmdDEL_effect (cmd : Bytes) (rest : List Bytes) :
    HasEffect s (lit "del") key id (cmdDEL env s (cmd :: key :: id :: rest)) := by
  cases hparse : parseErron404 rest false with
  | error e =>
    simp only [cmdDEL, hparse]
    exact .same rfl
  | ok e =>
    cases ho : lookup s.cols (key, id) with
    | none =>
      obtain ⟨r, hr, heq⟩ := cmdDEL_of_none env cmd hparse ho
      rw [heq]
      exact .same hr.updated
    | some o =>
      obtain ⟨col, hcol, hid⟩ := bind_eq_some_iff.mp ho
      rw [cmdDEL_of_some env cmd hparse hcol hid, HasEffect, lookup_takeOut hcol id, if_pos rfl]
      exact .del o rfl ho

theorem regiven_some (d : Details G) :
    regiven (some d) =
      if d.command ∈ [lit "expire", lit "persist"] then some d.command else none := by
  simp [regiven, Option.filter]

variable {before after : Option (Object G)}

theorem ObjectEffect.regiven_eq_none {d : Option (Details G)}
    (h : ObjectEffect name key id before d after)
    (hname : name ∉ [lit "expire", lit "persist"]) : regiven d = none := by
  cases h with
  | idle => rfl
  | set | touch | del => exact (regiven_some _).trans (if_neg hname)

theorem cmdSET_effect {cmd : Bytes} {rest : List Bytes}
    (hspatial : storesSpatial lib (cmd :: key :: id :: rest) = true) :
    HasEffect s (lit "set") key id (cmdSET lib env s (cmd :: key :: id :: rest)) := by
  unfold cmdSET
  split
  · exact .same rfl
  split
  · exact .same rfl
  rename_i a geo hparse
  rw [storesSpatial, hparse] at hspatial
  obtain ⟨rfl, rfl⟩ := parseSET_cell lib hparse
  exact execSET_effect a hspatial

theorem cmdFSET_effect (cmd : Bytes) (rest : List Bytes) :
    HasEffect s (lit "fset") key id (cmdFSET lib env s (cmd :: key :: id :: rest)) := by
  unfold cmdFSET
  split
  · exact .same rfl
  split
  · exact .same rfl
  rename_i a hparse
  obtain ⟨rfl, rfl⟩ := parseFSET_cell lib hparse
  exact execFSET_effect a

omit [LinearOrder N] in
theorem regiven_cmdEXPIRE (cmd svalue : Bytes) (ho : lookup s.cols (key, id) = some o) :
    regiven (cmdEXPIRE lib env s [cmd, key, id, svalue]).1.notice =
      if (lib.parseFloat svalue).2 then some (lit "expire") else none := by
  obtain ⟨col, hcol, hid⟩ := bind_eq_some_iff.mp ho
  rcases hparse : lib.parseFloat svalue with ⟨x, ok⟩
  cases ok with
  | false => simp [cmdEXPIRE, parseFloatArg, hparse, Result.notice, regiven]
  | true =>
    simp only at hcol hid
    simp [cmdEXPIRE, parseFloatArg, hparse, hcol, hid, Result.notice, regiven, Option.filter]

theorem regiven_cmdPERSIST (cmd : Bytes) (ho : lookup s.cols (key, id) = some o) :
    regiven (cmdPERSIST env s [cmd, key, id]).1.notice =
      if o.expires ≠ 0 then some (lit "persist") else none := by
  obtain ⟨col, hcol, hid⟩ := bind_eq_some_iff.mp ho
  simp only at hcol hid
  by_cases hexpires : o.expires = 0
  · simp [cmdPERSIST, hcol, hid, hexpires, Result.notice, regiven]
  · simp [cmdPERSIST, hcol, hid, hexpires, Result.notice, regiven, Option.filter]

theorem ObjectEffect.spatial {d : Option (Details G)} (h : ObjectEffect name key id before d after)
    (hbefore : ∀ o, before = some o → o.geo.isSpatial = true) :
    ∀ o, after = some o → o.geo.isSpatial = true := by
  cases h with
  | idle => exact hbefore
  | set o _ hspatial =>
    intro _ hsome
    exact some.inj hsome ▸ hspatial
  | touch o o' _ ho hgeo =>
    intro _ hsome
    exact some.inj hsome ▸ hgeo ▸ hbefore o ho
  | del o =>
    intro _ hnone
    cases hnone

/-- Every command on the object has an effect on it, and gives it as a new one
as expected. -/
theorem ObjectOp.On.effect {op : ObjectOp} (hop : op.On lib key id) (s : ServerState G) :
    ∃ name, HasEffect s name key id (op.call lib s) ∧
      ∀ o, lookup s.cols (key, id) = some o →
        op.regives lib o = regiven (op.call lib s).1.notice := by
  obtain ⟨handler, env, args⟩ := op
  obtain ⟨hhandler, ⟨cmd, rest, rfl⟩, hspatial⟩ := hop
  simp only [mem_cons, not_mem_nil, or_false] at hhandler
  rcases hhandler with rfl | rfl | rfl | rfl | rfl
  · have heffect : HasEffect s (lit "set") key id (cmdSET lib env s (cmd :: key :: id :: rest)) :=
      cmdSET_effect (hspatial rfl)
    exact ⟨_, heffect, fun o _ => (heffect.regiven_eq_none (by decide)).symm⟩
  · have heffect : HasEffect s (lit "fset") key id (cmdFSET lib env s (cmd :: key :: id :: rest)) :=
      cmdFSET_effect cmd rest
    exact ⟨_, heffect, fun o _ => (heffect.regiven_eq_none (by decide)).symm⟩
  · refine ⟨lit "expire", ?_⟩
    cases rest with
    | nil => exact ⟨.same rfl, fun _ _ => rfl⟩
    | cons svalue rest =>
      cases rest with
      | nil =>
        exact ⟨cmdEXPIRE_effect cmd svalue, fun o ho => (regiven_cmdEXPIRE cmd svalue ho).symm⟩
      | cons => exact ⟨.same rfl, fun _ _ => rfl⟩
  · refine ⟨lit "persist", ?_⟩
    cases rest with
    | nil => exact ⟨cmdPERSIST_effect cmd, fun o ho => (regiven_cmdPERSIST cmd ho).symm⟩
    | cons => exact ⟨.same rfl, fun _ _ => rfl⟩
  · have heffect : HasEffect s (lit "del") key id (cmdDEL env s (cmd :: key :: id :: rest)) :=
      cmdDEL_effect cmd rest
    exact ⟨_, heffect, fun o _ => (heffect.regiven_eq_none (by decide)).symm⟩

end Effects

/-! ## Entering and leaving -/

inductive Crossing where
  | enter
  | exit
  deriving DecidableEq

/-- Enter and exit in turn; the flag says whether the next is an exit. -/
def AlternatesFrom : Bool → List Crossing → Prop
  | _, [] => True
  | false, .enter :: l => AlternatesFrom true l
  | true, .exit :: l => AlternatesFrom false l
  | false, .exit :: _ | true, .enter :: _ => False

def FenceMsg.crossing {G M : Type} : FenceMsg G M → Option Crossing
  | .object _ .enter _ _ _ => some .enter
  | .object _ .exit _ _ _ => some .exit
  | _ => none

section Static

variable {G A R M K : Type} (flib : FenceLib G A R M K)

/-- The enter and exit notifications for the details of a command; a DEL of an
object inside counts as its exit. -/
def crossings (hook : Bytes) (fence : Fence G A R) (inside : Object G → Bool) :
    Option (Details G) → List Crossing
  | none => []
  | some d =>
    (FenceMatch flib hook fence d).filterMap FenceMsg.crossing ++
      if d.command = lit "del" ∧ d.obj.any (fun o => inside o.2) then [.exit] else []

/-- A fence without WHERE clauses, with DETECT empty or with both. -/
structure Fence.Plain (fence : Fence G A R) (cmd : FenceCmd) (area : A) : Prop where
  area : fence.area = .static cmd area
  filters : fence.filters = {}
  enter : fence.wants .enter = true
  exit : fence.wants .exit = true

def Fence.accepts (fence : Fence G A R) (command : Bytes) : Bool :=
  fence.accept.length = 0 || command ∈ fence.accept

/-- The notifications of SET are delivered. -/
structure Fence.Delivers (fence : Fence G A R) : Prop where
  set : fence.accepts (lit "set") = true
  output : fence.output ≠ .count

variable {flib} {hook : Bytes} {fence : Fence G A R} {cmd : FenceCmd} {area : A}

theorem Fence.Plain.testObject (h : fence.Plain cmd area) {o : Item G}
    (hglobs : multiGlobMatch fence.globs o.1 = true) : fence.testObject o = true := by
  simp [Fence.testObject, hglobs, Fence.fieldMatch, h.filters, Server.fieldMatch, evalMatch]

theorem FenceMatch_eq (hook : Bytes) (fence : Fence G A R) (d : Details G) :
    FenceMatch flib hook fence d =
      (fenceMatch flib hook fence d).filter fun msg => fence.accepts msg.command := by
  unfold FenceMatch Fence.accepts
  split
  · simp [*]
  · simp [*]

/-- What the detection says about entering and leaving. -/
def Detect.crossing : Detect → List Crossing
  | .enter => [.enter]
  | .exit => [.exit]
  | _ => []

variable (flib) in
/-- What a static fence makes of an old and a new object. -/
theorem Fence.Plain.staticDetect_eq (h : fence.Plain cmd area) (command : Bytes) {id : Bytes}
    (old : Option (Object G)) (o : Object G) (hglobs : multiGlobMatch fence.globs id = true) :
    ∃ detect, staticDetect flib fence cmd area command id old o = some detect ∧ detect ≠ .roam ∧
      detect.crossing =
        match fenceMatchObject flib cmd area old, fenceMatchObject flib cmd area (some o) with
        | false, true => if command = lit "fset" then [] else [.enter]
        | true, false => [.exit]
        | _, _ => [] := by
  have htest : ∀ o, fence.testObject (id, o) = true := fun o => h.testObject hglobs
  have hfield : fence.fieldMatch (id, o) = true := by
    have ho := htest o
    rw [Fence.testObject, Bool.and_eq_true] at ho
    exact ho.2
  have hold : (fenceMatchObject flib cmd area old &&
      old.any fun old => fence.testObject (id, old)) = fenceMatchObject flib cmd area old := by
    cases old with
    | none => rfl
    | some old => simp [htest]
  unfold staticDetect
  simp only [hold]
  simp only [htest, hfield, Bool.and_true]
  cases fenceMatchObject flib cmd area old with
  | true =>
    cases fenceMatchObject flib cmd area (some o) with
    | true => exact ⟨.inside, rfl, by decide, rfl⟩
    | false => exact ⟨.exit, rfl, by decide, rfl⟩
  | false =>
    cases fenceMatchObject flib cmd area (some o) with
    | true =>
      by_cases hfset : command = lit "fset"
      · exact ⟨.inside, by simp [hfset], by decide, by simp [hfset, Detect.crossing]⟩
      · exact ⟨.enter, by simp [hfset], by decide, by simp [hfset, Detect.crossing]⟩
    | false =>
      by_cases hfset : command = lit "fset"
      · exact ⟨.outside, by simp [hfset], by decide, rfl⟩
      cases old with
      | none => exact ⟨.outside, by simp [hfset], by decide, rfl⟩
      | some old =>
        cases hline : flib.lineIntersects (flib.center old.geo) (flib.center o.geo) area with
        | true => exact ⟨.cross, by simp [hfset, hline], by decide, rfl⟩
        | false => exact ⟨.outside, by simp [hfset, hline], by decide, rfl⟩

/-- The fallback touches neither enter nor exit. -/
theorem Fence.Plain.settle_crossing (h : fence.Plain cmd area) (detect : Detect) :
    ((settle fence detect).toList.flatMap Detect.crossing) = detect.crossing := by
  cases detect with
  | enter => simp [settle, h.enter]
  | exit => simp [settle, h.exit]
  | inside => cases hw : fence.wants .inside <;> simp [settle, hw, Detect.crossing]
  | outside => cases hw : fence.wants .outside <;> simp [settle, hw, Detect.crossing]
  | roam => cases hw : fence.wants .roam <;> simp [settle, hw, Detect.crossing]
  | cross =>
    cases hw : fence.wants .cross <;> cases hw' : fence.wants .outside <;>
      simp [settle, hw, hw', Detect.crossing]

theorem settle_eq_roam {detect : Detect} (h : settle fence detect = some .roam) :
    detect = .roam := by
  unfold settle at h
  split at h
  · exact some.inj h
  split at h
  · split at h <;> cases h
  · split at h <;> cases h
  · split at h <;> cases h
  · cases h

theorem detectMsgs_crossing (hout : fence.output ≠ .count) (d : Details G) (o : Item G)
    {detect : Detect} (hroam : detect ≠ .roam) :
    ((detectMsgs hook fence d o (([], []) : List M × List M) detect).filter
      fun msg => fence.accepts msg.command).filterMap FenceMsg.crossing =
      if fence.accepts d.command then detect.crossing else [] := by
  have hone : ∀ (l : List (FenceMsg G M)), (∀ msg ∈ l, msg.command = d.command) →
      (l.filter fun msg => fence.accepts msg.command).filterMap FenceMsg.crossing =
        if fence.accepts d.command then l.filterMap FenceMsg.crossing else [] := by
    intro l hl
    rw [filter_congr fun msg hmsg => congrArg fence.accepts (hl msg hmsg)]
    split <;> simp [*]
  unfold detectMsgs
  rw [if_neg hout]
  cases detect with
  | roam => exact absurd rfl hroam
  | inside | outside => exact hone _ (by simp [FenceMsg.command])
  | enter | exit | cross =>
    dsimp only
    split <;> exact hone _ (by simp [FenceMsg.command])

/-- The notifications of a command that stores a spatial object. -/
theorem Fence.Plain.crossings_object (h : fence.Plain cmd area) (hout : fence.output ≠ .count)
    {d : Details G} {id : Bytes} {o : Object G} (hobj : d.obj = some (id, o))
    (hspatial : o.geo.isSpatial = true) (hglobs : multiGlobMatch fence.globs id = true)
    (hdrop : d.command ≠ lit "drop") (hdel : d.command ≠ lit "del") (inside : Object G → Bool) :
    crossings flib hook fence inside (some d) =
      if fence.accepts d.command ∧ ¬ (d.command = lit "fset" ∧ fence.nofields) then
        match fenceMatchObject flib cmd area d.old, fenceMatchObject flib cmd area (some o) with
        | false, true => if d.command = lit "fset" then [] else [.enter]
        | true, false => [.exit]
        | _, _ => []
      else [] := by
  obtain ⟨detect, hdetect, hroam, hcrossing⟩ := h.staticDetect_eq flib d.command d.old o hglobs
  rw [crossings, if_neg fun hboth => hdel hboth.1, append_nil, FenceMatch_eq, fenceMatch,
    if_neg hdrop, hobj, ← hcrossing]
  simp only [hglobs, hspatial, Bool.not_true, Bool.false_eq_true, if_false, if_neg hdel, h.area,
    hdetect]
  by_cases hfset : d.command = lit "fset" ∧ fence.nofields = true
  · rw [if_pos hfset, if_neg fun hboth => hboth.2 hfset]
    rfl
  rw [if_neg hfset, ← h.settle_crossing detect]
  simp only [hfset, not_false_eq_true, and_true]
  cases hsettle : settle fence detect with
  | none => simp
  | some detect' =>
    have hroam' : detect' ≠ .roam := by
      rintro rfl
      exact hroam (settle_eq_roam hsettle)
    rw [detectMsgs_crossing hout d (id, o) hroam']
    simp

theorem crossings_del {name key id : Bytes} {o : Object G} (hname : name = lit "del")
    (inside : Object G → Bool) :
    crossings flib hook fence inside
        (some { command := name, key, obj := some (id, o), updated := true }) =
      if inside o then [.exit] else [] := by
  have hmsgs : ∀ msg ∈ fenceMatch flib hook fence
      ({ command := name, key, obj := some (id, o), updated := true } : Details G),
      msg.crossing = none := by
    subst hname
    have hdrop : lit "del" ≠ lit "drop" := by decide
    have hfset : lit "del" ≠ lit "fset" := by decide
    intro msg hmsg
    unfold fenceMatch at hmsg
    rw [if_neg hdrop] at hmsg
    dsimp only at hmsg
    split at hmsg
    · exact absurd hmsg not_mem_nil
    split at hmsg
    · exact absurd hmsg not_mem_nil
    rw [if_neg fun hboth => hfset hboth.1, if_pos rfl, mem_singleton] at hmsg
    rw [hmsg]
    rfl
  rw [crossings, FenceMatch_eq, filterMap_eq_nil_iff.mpr fun msg hmsg =>
    hmsgs msg (mem_of_mem_filter hmsg), nil_append]
  simp [hname]

/-- One command: the notifications go on in turn exactly if the object is not
given as a new one while it is inside, or the fence leaves such a command out. -/
theorem Fence.Plain.effect_alternates (h : fence.Plain cmd area) (hdel : fence.Delivers)
    {name key id : Bytes} {before after : Option (Object G)} {d : Option (Details G)}
    (heffect : ObjectEffect name key id before d after)
    (hspatial : ∀ o, before = some o → o.geo.isSpatial = true)
    (hglobs : multiGlobMatch fence.globs id = true) (rest : List Crossing) :
    AlternatesFrom (fenceMatchObject flib cmd area before)
        (crossings flib hook fence (fun o => fenceMatchObject flib cmd area (some o)) d ++ rest) ↔
      (fenceMatchObject flib cmd area before = true →
        ∀ command ∈ regiven d, fence.accepts command = false) ∧
      AlternatesFrom (fenceMatchObject flib cmd area after) rest := by
  cases heffect with
  | idle => simp [crossings, regiven]
  | set o hname hspatial' =>
    subst hname
    have hne : lit "set" ∉ [lit "drop", lit "del", lit "fset"] := by decide
    have hregives : lit "set" ∉ [lit "expire", lit "persist"] := by decide
    simp only [mem_cons, not_mem_nil, or_false, not_or] at hne
    rw [h.crossings_object hdel.output rfl hspatial' hglobs hne.1 hne.2.1, regiven_some,
      if_neg hregives, if_pos ⟨hdel.set, fun hboth => hne.2.2 hboth.1⟩]
    cases fenceMatchObject flib cmd area before <;>
      cases fenceMatchObject flib cmd area (some o) <;> simp [AlternatesFrom, hne.2.2]
  | touch o o' hname hbefore hgeo =>
    have hspatial' : o'.geo.isSpatial = true := hgeo ▸ hspatial o hbefore
    have hsame : fenceMatchObject flib cmd area (some o') =
        fenceMatchObject flib cmd area before := by
      rw [hbefore]
      simp only [fenceMatchObject, hgeo]
    have hold : fenceMatchObject flib cmd area none = false := rfl
    have hnames : ∀ name ∈ [lit "fset", lit "expire", lit "persist"],
        name ≠ lit "drop" ∧ name ≠ lit "del" := by decide
    have hne := hnames name hname
    rw [h.crossings_object hdel.output rfl hspatial' hglobs hne.1 hne.2, regiven_some, hsame]
    -- without an old object there is nothing to leave
    cases hin : fenceMatchObject flib cmd area before with
    | false => simp [hold]
    | true =>
      simp only [hold, true_imp_iff]
      by_cases hfset : name = lit "fset"
      · have hregives : lit "fset" ∉ [lit "expire", lit "persist"] := by decide
        subst hfset
        simp [hregives]
      have hregives : name ∈ [lit "expire", lit "persist"] := by
        simpa [hfset] using hname
      cases haccept : fence.accepts name <;> simp [haccept, hfset, hregives, AlternatesFrom]
  | del o hname hbefore =>
    have hregives : lit "del" ∉ [lit "expire", lit "persist"] := by decide
    subst hname
    rw [regiven_some, if_neg hregives, crossings_del rfl, hbefore]
    cases fenceMatchObject flib cmd area (some o) <;> simp [AlternatesFrom, fenceMatchObject]

end Static

/-! ## Whole runs -/

section Run

variable {N G A R M K : Type} [LinearOrder N] (lib : ServerLib N G) (flib : FenceLib G A R M K)
  (hook : Bytes) (fence : Fence G A R) (cmd : FenceCmd) (area : A)

/-- The enter and exit notifications of a run. -/
def runCrossings (s : ServerState G) : List ObjectOp → List Crossing
  | [] => []
  | op :: ops =>
    let (r, s) := op.call lib s
    crossings flib hook fence (fun o => fenceMatchObject flib cmd area (some o)) r.notice ++
      runCrossings s ops

/-- The command does not give the object `id` as a new one while it is inside,
or the fence leaves out such commands. -/
def Uneventful (id : Bytes) (s : ServerState G) (op : ObjectOp) : Prop :=
  ∀ o, lookup s.cols (fence.key, id) = some o → fenceMatchObject flib cmd area (some o) = true →
    ∀ command ∈ op.regives lib o, fence.accepts command = false

variable {lib flib fence cmd area}

theorem runCrossings_alternates (hplain : fence.Plain cmd area) (hdel : fence.Delivers) {id : Bytes}
    (hglobs : multiGlobMatch fence.globs id = true) {ops : List ObjectOp}
    (hops : ∀ op ∈ ops, op.On lib fence.key id) {s : ServerState G}
    (hspatial : ∀ o, lookup s.cols (fence.key, id) = some o → o.geo.isSpatial = true) :
    AlternatesFrom (fenceMatchObject flib cmd area (lookup s.cols (fence.key, id)))
        (runCrossings lib flib hook fence cmd area s ops) ↔
      AtEach (fun s op => (op.call lib s).2) (Uneventful lib flib fence cmd area id) s ops := by
  induction ops generalizing s with
  | nil => exact iff_of_true trivial atEach_nil
  | cons op ops ih =>
    obtain ⟨hop, hops⟩ := forall_mem_cons.mp hops
    obtain ⟨name, heffect, hregives⟩ := hop.effect s
    have hspatial' : ∀ o, lookup (op.call lib s).2.cols (fence.key, id) = some o →
        o.geo.isSpatial = true := heffect.spatial hspatial
    have hsafe : Uneventful lib flib fence cmd area id s op ↔
        (fenceMatchObject flib cmd area (lookup s.cols (fence.key, id)) = true →
          ∀ command ∈ regiven (op.call lib s).1.notice, fence.accepts command = false) := by
      rw [Uneventful]
      cases hbefore : lookup s.cols (fence.key, id) with
      | none => simp [fenceMatchObject]
      | some o => simp [hregives o hbefore]
    rw [runCrossings, hplain.effect_alternates hdel heffect hspatial hglobs, atEach_cons, hsafe,
      ih hops hspatial']

/-- The objects of a run enter and leave in turn exactly if no command gives
an object as a new one while it is inside. -/
theorem alternates_iff (hplain : fence.Plain cmd area) (hdel : fence.Delivers) {id : Bytes}
    (hglobs : multiGlobMatch fence.globs id = true) {ops : List ObjectOp}
    (hops : ∀ op ∈ ops, op.On lib fence.key id) {s : ServerState G}
    (hnone : lookup s.cols (fence.key, id) = none) :
    AlternatesFrom false (runCrossings lib flib hook fence cmd area s ops) ↔
      AtEach (fun s op => (op.call lib s).2) (Uneventful lib flib fence cmd area id) s ops := by
  rw [← runCrossings_alternates hook hplain hdel hglobs hops (by simp [hnone]), hnone]
  rfl

end Run

/-! ## A small instance

A yard, and objects that are in it or out of it. -/

def yardLib : ServerLib Int Bool where
  toFieldLib := clockLib.toFieldLib
  parseInt := clockLib.parseInt
  nanos := clockLib.nanos
  newPoint := fun _ _ => false
  newPointZ := fun _ _ _ => false
  newRect := fun _ _ _ _ => false
  geohashDecode := clockLib.geohashDecode
  geoParse := fun json => .ok (json = lit "in")
  geoString := fun inYard => if inYard then lit "in" else lit "out"
  sjsonSet := clockLib.sjsonSet
  sjsonSetRaw := clockLib.sjsonSetRaw
  sjsonDelete := clockLib.sjsonDelete
  globLimits := clockLib.globLimits
  globMatch := clockLib.globMatch

def yardFenceLib : FenceLib Bool Unit Unit Unit Int where
  rect := fun _ => ⟨0, 0, 2, 2⟩
  within := fun o _ => o = .spatial true
  intersects := fun o _ => o = .spatial true
  objRect := fun o => if o = .spatial true then ⟨1, 1, 1, 1⟩ else ⟨5, 5, 5, 5⟩
  center := fun o => if o = .spatial true then (1, 1) else (5, 5)
  lineIntersects := fun _ _ _ => false
  fenceMatchRoam := fun _ _ _ => ([], [])

def yardFence : Fence Bool Unit Unit := { key := lit "fleet", area := .static .within () }

/-- A command on the object `truck` of the collection `fleet`. -/
def truckOp (handler : Handler) (args : List Bytes) : ObjectOp :=
  ⟨handler, {}, lit "cmd" :: lit "fleet" :: lit "truck" :: args⟩

theorem yardFence_plain : yardFence.Plain .within () := ⟨rfl, rfl, rfl, rfl⟩

/-- In, out, in again, and deleted. -/
def truckRun : List ObjectOp :=
  [truckOp .set [lit "OBJECT", lit "in"], truckOp .set [lit "OBJECT", lit "out"],
    truckOp .set [lit "OBJECT", lit "in"], truckOp .del []]

theorem alternates_iff_truck :
    (∀ op ∈ truckRun, op.On yardLib (lit "fleet") (lit "truck")) ∧
    AlternatesFrom false
      (runCrossings yardLib yardFenceLib [] yardFence .within () ServerState.empty truckRun) := by
  have hon : ∀ op ∈ truckRun, op.On yardLib (lit "fleet") (lit "truck") := by
    simp only [truckRun, forall_mem_cons]
    refine ⟨?_, ?_, ?_, ?_, by simp⟩
    all_goals exact ⟨by decide, ⟨_, _, rfl⟩, fun _ => by decide +kernel⟩
  have hsafe : AtEach (fun s op => (op.call yardLib s).2)
      (Uneventful yardLib yardFenceLib yardFence .within () (lit "truck")) ServerState.empty
      truckRun := by
    simp [truckRun, truckOp, atEach_cons, atEach_nil, Uneventful, ObjectOp.regives]
  exact ⟨hon, (alternates_iff [] yardFence_plain ⟨rfl, by decide⟩ rfl hon rfl).mpr hsafe⟩

/-- An EXPIRE of an object in the yard: it enters twice. -/
theorem expire_enters_again :
    runCrossings yardLib yardFenceLib [] yardFence .within () ServerState.empty
        [truckOp .set [lit "OBJECT", lit "in"], truckOp .expire [lit "10"]] = [.enter, .enter] ∧
    ¬ AlternatesFrom false
      (runCrossings yardLib yardFenceLib [] yardFence .within () ServerState.empty
        [truckOp .set [lit "OBJECT", lit "in"], truckOp .expire [lit "10"]]) := by
  have hrun : runCrossings yardLib yardFenceLib [] yardFence .within () ServerState.empty
      [truckOp .set [lit "OBJECT", lit "in"], truckOp .expire [lit "10"]] = [.enter, .enter] := by
    decide +kernel
  rw [hrun]
  exact ⟨rfl, id⟩

end SpatialDb.Server
