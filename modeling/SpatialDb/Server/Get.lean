import SpatialDb.Server.Aof

/-!
# Commands that reply with an object

GET, and SET and FSET with RETURN, end in `buildObjectResponse` of
`internal/legacy/server/crud.go`.  The object it gets is a pointer: GET has
looked it up and SET has made it, but FSET with XX goes on without one when the
id is not there.
-/

namespace SpatialDb.Server

open Lib OrdMap

variable {N G : Type} (lib : ServerLib N G) (env : Env)

/-! ## GET -/

/-- The loop over the arguments of GET. -/
def parseGetOpts (o : RetOpts) : List Bytes → Except Err RetOpts
  | [] => .ok o
  | arg :: rest =>
    let low := toLower arg
    if low = lit "withfields" then parseGetOpts { o with withfields := true } rest
    else if low = lit "object" then parseGetOpts { o with kind := .object } rest
    else if low = lit "point" then parseGetOpts { o with kind := .point } rest
    else if low = lit "bounds" then parseGetOpts { o with kind := .bounds } rest
    else if low = lit "hash" then
      match rest with
      | [] => .error .invalidNumberOfArguments
      | sprecision :: rest =>
        match lib.parseInt sprecision with
        | none => .error (.invalidArgument sprecision)
        | some precision =>
          if precision < 1 ∨ precision > 12 then .error (.invalidArgument sprecision)
          else parseGetOpts { o with kind := .hash, precision } rest
    else .error .invalidNumberOfArguments

def cmdGET (s : ServerState G) (args : List Bytes) : Result G :=
  match args with
  | _ :: key :: id :: rest =>
    match parseGetOpts lib {} rest with
    | .error e => .err e
    | .ok opts =>
      let missing (e : Err) : Result G := if env.out = .resp then .ok .null {} else .err e
      match s.cols.get? key with
      | none => missing .keyNotFound
      | some col =>
        match col.get? id with
        | none => missing .idNotFound
        | some o => objectResponse env (some (id, o)) opts {}
  | _ => .err .invalidNumberOfArguments

/-! ## Replies -/

/-- No object was asked for something that is not there: neither a nil
dereference, nor a reply made up for a nil object. -/
def Result.FromObject : Result G → Prop
  | .crash | .ok .noBounds _ => False
  | _ => True

theorem fromObject_ok {r : Reply G} (h : r ≠ .noBounds) (d : Details G) :
    (Result.ok r d).FromObject := by
  cases r with
  | noBounds => exact absurd rfl h
  | _ => trivial

theorem objectResponse_none_not_fromObject (opts : RetOpts) (d : Details G) :
    ¬ (objectResponse env none opts d).FromObject := by
  rcases objectResponse_none env opts d with hreply | hreply
  · rw [hreply]
    exact id
  · rw [hreply]
    exact id

variable (s : ServerState G) (args : List Bytes)

theorem cmdGET_fromObject : (cmdGET lib env s args).FromObject := by
  have hmissing : ∀ e,
      (if env.out = .resp then .ok .null {} else .err e : Result G).FromObject := by
    intro e
    split <;> trivial
  unfold cmdGET
  split
  · split
    · trivial
    dsimp only
    split
    · exact hmissing _
    split
    · exact hmissing _
    · trivial
  · trivial

variable [LinearOrder N]

theorem execSET_fromObject (a : SetArgs N G) (geo : Geometry G) :
    (execSET lib env s a geo).1.FromObject := by
  rcases execSET_cases lib env s a geo with ⟨-, r, heq, hr⟩ | ⟨-, -, r, hr, heq⟩
  · rw [heq]
    rcases hr with rfl | ⟨-, e, rfl⟩ <;> trivial
  rw [heq]
  rcases hr with rfl | ⟨o, opts, json, rfl⟩
  · exact fromObject_ok (reply_ne_noBounds env (by simp)) _
  · trivial

theorem cmdSET_fromObject : (cmdSET lib env s args).1.FromObject := by
  unfold cmdSET
  split
  · trivial
  split
  · trivial
  · exact execSET_fromObject lib env s _ _

/-- FSET takes the arguments, with XX and RETURN, and the collection has no
such id. -/
def MissingReturn (s : ServerState G) (args : List Bytes) : Prop :=
  env.oom = false ∧ ∃ a col, parseFSET lib args = .ok a ∧ a.xx = true ∧ a.ret ≠ none ∧
    s.cols.get? a.key = some col ∧ col.get? a.id = none

theorem execFSET_fromObject_iff (a : FsetArgs N) :
    (execFSET lib env s a).1.FromObject ↔
      ¬ (a.xx = true ∧ a.ret ≠ none ∧
        ∃ col, s.cols.get? a.key = some col ∧ col.get? a.id = none) := by
  cases hcol : s.cols.get? a.key with
  | none =>
    rw [execFSET, hcol]
    exact iff_of_true trivial (by simp)
  | some col =>
    cases hid : col.get? a.id with
    | none =>
      simp only [execFSET, hcol, hid]
      cases hxx : a.xx with
      | false => exact iff_of_true trivial (by simp)
      | true =>
        rw [if_pos rfl]
        cases hret : a.ret with
        | none => exact iff_of_true (fromObject_ok (reply_ne_noBounds env (by simp)) _) (by simp)
        | some opts =>
          refine iff_of_false (objectResponse_none_not_fromObject env opts _) ?_
          exact not_not.mpr ⟨rfl, Option.some_ne_none _, col, rfl, hid⟩
    | some o =>
      obtain ⟨r, hne, heq⟩ := execFSET_of_some lib env hcol hid
      rw [heq]
      refine iff_of_true (fromObject_ok hne _) ?_
      rintro ⟨-, -, _, ⟨⟩, hnone⟩
      rw [hid] at hnone
      cases hnone

theorem cmdFSET_fromObject_iff :
    (cmdFSET lib env s args).1.FromObject ↔ ¬ MissingReturn lib env s args := by
  unfold cmdFSET MissingReturn
  cases env.oom with
  | true => exact iff_of_true trivial (by simp)
  | false =>
    rw [if_neg Bool.false_ne_true]
    cases parseFSET lib args with
    | error e => exact iff_of_true trivial (by simp)
    | ok a =>
      rw [execFSET_fromObject_iff, not_iff_not]
      constructor
      · rintro ⟨hxx, hret, col, hcol, hid⟩
        exact ⟨rfl, a, col, rfl, hxx, hret, hcol, hid⟩
      · rintro ⟨-, _, col, ⟨⟩, hxx, hret, hcol, hid⟩
        exact ⟨hxx, hret, col, hcol, hid⟩

/-- The commands that reply with an object. -/
inductive ObjectCmd where
  | set
  | fset
  | get
  deriving DecidableEq

def ObjectCmd.call (s : ServerState G) (args : List Bytes) : ObjectCmd → Result G
  | set => (cmdSET lib env s args).1
  | fset => (cmdFSET lib env s args).1
  | get => cmdGET lib env s args

/-- **For every dataset, every argument list and every output mode, SET, FSET
and GET reply with an object that exists if and only if the call is not an FSET
with XX and RETURN of an id that its collection does not have.** -/
theorem call_fromObject_iff (cmd : ObjectCmd) (s : ServerState G) (args : List Bytes) :
    (cmd.call lib env s args).FromObject ↔ ¬ (cmd = .fset ∧ MissingReturn lib env s args) := by
  cases cmd with
  | set => exact iff_of_true (cmdSET_fromObject lib env s args) (by simp)
  | get => exact iff_of_true (cmdGET_fromObject lib env s args) (by simp)
  | fset =>
    rw [ObjectCmd.call, cmdFSET_fromObject_iff]
    simp

/-- FSET with XX and RETURN of an id that is not there: a nil dereference in
every mode, and with BOUNDS a made up reply. -/
theorem fset_missing_crash : let s : ServerState Unit :=
      ⟨empty.set (lit "fleet")
        (empty.set (lit "truck1") ⟨.spatial (), 0, .empty⟩), empty⟩
    let call := fun (out : OutputType) (opts : List Bytes) =>
      ObjectCmd.call textLib { out } s
        ([lit "FSET", lit "fleet", lit "truck2", lit "XX", lit "RETURN"] ++ opts ++
          [lit "speed", lit "5"]) .fset
    (∀ out ∈ [OutputType.json, .resp, .null], call out [] = .crash) ∧
      call .resp [lit "BOUNDS"] = .ok .noBounds {} ∧ ¬ (call .resp [lit "BOUNDS"]).FromObject := by
  intro s call
  have hbounds : call .resp [lit "BOUNDS"] = .ok .noBounds {} := by decide +kernel
  refine ⟨by decide +kernel, hbounds, ?_⟩
  rw [hbounds]
  exact id

end SpatialDb.Server
