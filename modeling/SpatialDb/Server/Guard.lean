import SpatialDb.Server.Cells

/-!
# Locks and guards

Model of `handleInputCommand` (`server.go`) from the arrival of a message to
the handler: what is refused while the server loads, without authentication,
on a read-only server or on a follower, and which lock the handler runs under.
MASSINSERT (`dev.go`) takes a lock of its own for every object it inserts.
The rewriting of HTTP requests for tiles, which gives search commands, is left
out.

The locks and the guard hang on a switch over the command name that is apart
from the switch of `command`.  The two agree on every data command but JDEL.
-/

namespace SpatialDb.Server

open Lib List OrdMap Option

/-! ## The switch over the locks -/

/-- How `s.mu` is held. -/
inductive Lock where
  | none
  | read
  | write
  deriving DecidableEq

/-- A case of the switch that chooses the locking strategy. -/
structure LockCase where
  lock : Lock
  /-- The command is logged. -/
  write : Bool := false
  /-- Refused on a follower and on a read-only server. -/
  leaderOnly : Bool := false
  /-- Refused on a follower that has not caught up. -/
  caughtUp : Bool := false
  deriving DecidableEq

/-- The names of the read operations. -/
def readCommands : List Bytes :=
  [lit "get", lit "keys", lit "scan", lit "nearby", lit "within", lit "intersects", lit "hooks",
    lit "chans", lit "search", lit "ttl", lit "bounds", lit "server", lit "info", lit "type",
    lit "jget", lit "evalro", lit "evalrosha", lit "role", lit "fget", lit "exists",
    lit "fexists"]

def lockCases : List (List Bytes × LockCase) :=
  [(writeCommands, { lock := .write, write := true, leaderOnly := true }),
    ([lit "eval", lit "evalsha"], { lock := .write, leaderOnly := true }),
    (readCommands, { lock := .read, caughtUp := true }),
    ([lit "healthz"], { lock := .none, caughtUp := true }),
    ([lit "follow", lit "slaveof", lit "replconf", lit "readonly", lit "config"],
      { lock := .write }),
    ([lit "output"], { lock := .none }),
    ([lit "echo"], { lock := .none }),
    ([lit "massinsert"], { lock := .none }),
    ([lit "sleep"], { lock := .read }),
    ([lit "shutdown"], { lock := .write }),
    ([lit "aofshrink"], { lock := .read }),
    ([lit "client"], { lock := .write }),
    ([lit "evalna", lit "evalnasha"], { lock := .none }),
    ([lit "subscribe", lit "psubscribe", lit "publish"], { lock := .none }),
    ([lit "monitor"], { lock := .none })]

def lockCase (name : Bytes) : LockCase :=
  ((lockCases.find? fun e => name ∈ e.1).map Prod.snd).getD { lock := .read }

/-- A logged name is in the first case. -/
theorem lockCase_of_write {name : Bytes} (h : name ∈ writeCommands) :
    lockCase name = { lock := .write, write := true, leaderOnly := true } := by
  unfold lockCase lockCases
  rw [find?_cons_of_pos (by simpa using h)]
  rfl

/-- Only the logged names set `write`. -/
theorem lockCase_write (name : Bytes) : (lockCase name).write = decide (name ∈ writeCommands) := by
  by_cases hmem : name ∈ writeCommands
  · rw [lockCase_of_write hmem, decide_eq_true hmem]
  have hothers : ∀ e ∈ lockCases.tail, e.2.write = false := by decide
  have htail : lockCases.find? (fun e => decide (name ∈ e.1)) =
      lockCases.tail.find? fun e => decide (name ∈ e.1) :=
    find?_cons_of_neg (by simpa using hmem)
  rw [decide_eq_false hmem, lockCase, htail]
  cases hfind : lockCases.tail.find? fun e => decide (name ∈ e.1) with
  | none => rfl
  | some e => exact hothers e (mem_of_find?_eq_some hfind)

/-! ## Messages -/

/-- The configuration and the state of the connection to a leader, as far as
they are read here. -/
structure Config where
  loadedAndReady : Bool := true
  requirePass : Bytes := []
  followHost : Bytes := []
  caughtUpOnce : Bool := false
  readOnly : Bool := false
  devMode : Bool := false
  deriving DecidableEq

/-- Read-only, or following a leader. -/
def Config.guarded (c : Config) : Bool := c.readOnly || c.followHost ≠ []

/-- The random numbers that MASSINSERT draws for one object, its position as
text, and what its SET finds. -/
structure Draw where
  env : Env
  /-- The seconds of EX. -/
  ex : Option Nat
  lat : Bytes
  lon : Bytes

/-- A message and the client it comes from. -/
structure Input where
  args : List Bytes
  env : Env
  /-- `client.authd`. -/
  authd : Bool := true
  /-- `msg.Auth`. -/
  auth : Bytes := []
  http : Bool := false
  draws : Nat → Nat → Draw

/-- What happens before a handler is chosen. -/
inductive Verdict where
  /-- PING, ECHO and a password. -/
  | answered
  | refused (text : Bytes)
  | run (deadline : Bool) (args : List Bytes)
  deriving DecidableEq

section

variable {N G : Type} [LinearOrder N] (lib : ServerLib N G)

/-- TIMEOUT in front of a command: whether there is a deadline, and the
command. -/
def prepareMsg (args : List Bytes) : Except Err (Bool × List Bytes) :=
  if commandName args = lit "timeout" then (rewriteTimeoutMsg lib args).map fun args => (true, args)
  else .ok (false, args)

/-- The password check; nothing if the message may go on. -/
def checkAuth (c : Config) (m : Input) (cmd : Bytes) (args : List Bytes) : Option Verdict :=
  if (!m.authd || cmd = lit "auth") && cmd ≠ lit "output" && cmd ≠ lit "healthz" then
    if c.requirePass ≠ [] then
      if cmd ≠ lit "auth" ∧ m.auth = [] then some (.refused (lit "authentication required"))
      else
        let password := if m.auth ≠ [] then m.auth else (args.tail.head?).getD []
        if c.requirePass ≠ trimSpace password then some (.refused (lit "invalid password"))
        else if !m.http then some .answered
        else none
    else if commandName args = lit "auth" then some (.refused (lit "invalid password"))
    else none
  else none

/-- `handleInputCommand` down to the choice of the lock.  `cmd` keeps the name
from before TIMEOUT is taken off. -/
def checkMsg (c : Config) (m : Input) : Verdict :=
  let cmd := commandName m.args
  if cmd = lit "ping" ∨ cmd = lit "echo" then .answered
  else if !c.loadedAndReady ∧ cmd ∉ [lit "output", lit "ping", lit "echo", lit "auth"] then
    .refused (lit "LOADING GeoEngine is loading the dataset in memory")
  else if cmd = lit "hello" then .refused (Err.unknownCommand (m.args.headD [])).text
  else
    match prepareMsg lib m.args with
    | .error e => .refused e.text
    | .ok (deadline, args) => (checkAuth c m cmd args).getD (.run deadline args)

/-! ## MASSINSERT -/

/-- The value of a nonempty text of digits. -/
def parseUint (s : Bytes) : Option Nat :=
  if s ≠ [] ∧ s.all isDigitByte ∧ digitsValue s < 2 ^ 64 then some (digitsValue s) else none

/-- `int(n)` as a number of rounds: a negative bound gives none. -/
def rounds (n : Nat) : Nat := if n < 2 ^ 63 then n else 0

def massInsertFields : List (Bytes × Bytes) :=
  [(lit "fname:0", lit "1"), (lit "fname:1", lit "0"), (lit "fname:2", lit "-1"),
    (lit "fname:3", lit "14"), (lit "fname:4", lit "20.5"), (lit "fname:5", lit "120"),
    (lit "fname:6", lit "-120"), (lit "fname:7", lit "20000"), (lit "fname:8", lit "-20000"),
    (lit "fname:9", lit "214748300"), (lit "fname:10", lit "-214748300"),
    (lit "fname:11", lit "2014748300"), (lit "fname:12", lit "123.12312301")]

/-- The SET for one object. -/
def massInsertSet (draw : Draw) (i j : Nat) : List Bytes :=
  [lit "set", lit "mi:" ++ decimal i, decimal j] ++
    massInsertFields.flatMap (fun f => [lit "FIELD", f.1, f.2]) ++
    (match draw.ex with
      | some n => [lit "EX", decimal n]
      | none => []) ++
    (if j % 8 = 0 then [lit "STRING", lit "str" ++ decimal j]
      else [lit "POINT", draw.lat, draw.lon])

/-- The arguments of MASSINSERT: the numbers of collections and of objects.
The bounds of the positions are only checked; `parseFloatErr` is the error text
of `strconv.ParseFloat`. -/
def parseMassInsert (parseFloatErr : Bytes → Bytes) (args : List Bytes) : Except Err (Nat × Nat) :=
  match args.tail with
  | snumCols :: snumPoints :: rest =>
    if snumCols = [] ∨ snumPoints = [] then .error .invalidNumberOfArguments
    else do
      if rest ≠ [] then
        if rest.length < 4 ∨ [] ∈ rest.take 4 then throw .invalidNumberOfArguments
        match (rest.take 4).find? fun s => !(lib.parseFloat s).2 with
        | some s => throw (.other (parseFloatErr s))
        | none => if rest.length ≠ 4 then throw .invalidNumberOfArguments
      match parseUint snumCols, parseUint snumPoints with
      | none, _ => throw (.invalidArgument snumCols)
      | _, none => throw (.invalidArgument snumPoints)
      | some cols, some objs => return (rounds cols, rounds objs)
  | _ => .error .invalidNumberOfArguments

/-- The SETs of MASSINSERT in their order, each with what it finds. -/
def massInsertSets (draws : Nat → Nat → Draw) (cols objs : Nat) : List (Env × List Bytes) :=
  (List.range cols ×ˢ List.range objs).map fun p =>
    ((draws p.1 p.2).env, massInsertSet (draws p.1 p.2) p.1 p.2)

/-! ## The server -/

/-- One hold of `s.mu` around a handler. -/
structure Hold where
  lock : Lock
  /-- The handler has stored something. -/
  updated : Bool
  deriving DecidableEq

inductive Answer where
  | refused (text : Bytes)
  | done
  deriving DecidableEq

structure Handled (G : Type) where
  answer : Answer
  holds : List Hold
  leader : Leader G

/-- A server with its configuration. -/
structure Instance (G : Type) where
  config : Config
  leader : Leader G

/-- Scripts, and the commands that change the configuration. -/
def asideCommands : List Bytes :=
  [lit "eval", lit "evalsha", lit "evalro", lit "evalrosha", lit "evalna", lit "evalnasha",
    lit "script", lit "follow", lit "slaveof", lit "readonly", lit "config"]

namespace Instance

variable {N G : Type} [LinearOrder N] (lib : ServerLib N G) (hlib : HookLib G)

/-- `docmd` for every SET in turn; an error ends the process. -/
def massInsertLoop (l : Leader G) : List (Env × List Bytes) → List Hold × Leader G
  | [] => ([], l)
  | (env, args) :: rest =>
    let r := command lib hlib env l.scripts l.st args
    let l := finish l true args r
    match r.1 with
    | .ok _ d =>
      let (holds, l) := massInsertLoop l rest
      (⟨.write, d.updated⟩ :: holds, l)
    | _ => ([⟨.write, false⟩], l)

variable (parseFloatErr : Bytes → Bytes)

/-- The rest of `handleInputCommand`.  Nothing for a script and for a command
that changes the configuration: what these do is not a matter of one message. -/
def runCommand (srv : Instance G) (m : Input) (deadline : Bool)
    (args : List Bytes) : Option (Handled G) :=
  let refuse (text : Bytes) : Option (Handled G) := some ⟨.refused text, [], srv.leader⟩
  let name := commandName args
  let c := lockCase name
  if c.leaderOnly ∧ srv.config.followHost ≠ [] then refuse (lit "not the leader")
  else if c.leaderOnly ∧ srv.config.readOnly then refuse (lit "read only")
  else if c.caughtUp ∧ srv.config.followHost ≠ [] ∧ !srv.config.caughtUpOnce then
    refuse (lit "catching up to leader")
  else if deadline ∧ c.write then refuse (lit "timeout not supported for '" ++ name ++ lit "'")
  else if name ∈ asideCommands then none
  else if name = lit "massinsert" ∧ srv.config.devMode then
    match parseMassInsert lib parseFloatErr args with
    | .error e => refuse e.text
    | .ok (cols, objs) =>
      let (holds, l) := massInsertLoop lib hlib srv.leader (massInsertSets m.draws cols objs)
      some ⟨.done, holds, l⟩
  else if name ∈ [lit "sleep", lit "shutdown"] ∧ srv.config.devMode then
    -- SHUTDOWN ends the process
    let answer := if name = lit "sleep" ∧ args.length ≠ 2 then
        .refused (Err.text .invalidNumberOfArguments)
      else Answer.done
    some ⟨answer, [⟨c.lock, false⟩], srv.leader⟩
  else
    let r := command lib hlib m.env srv.leader.scripts srv.leader.st args
    let answer := match r.1 with
      | .err e => .refused e.text
      | _ => Answer.done
    some ⟨answer, [⟨c.lock, r.1.updated⟩], finish srv.leader c.write args r⟩

/-- `handleInputCommand`. -/
def handleInputCommand (srv : Instance G) (m : Input) :
    Option (Handled G) :=
  match checkMsg lib srv.config m with
  | .answered => some ⟨.done, [], srv.leader⟩
  | .refused text => some ⟨.refused text, [], srv.leader⟩
  | .run deadline args => srv.runCommand lib hlib parseFloatErr m deadline args

end Instance

/-! ## The leader behind the guard -/

variable {lib} {hlib : HookLib G}

theorem prepare_eq (args : List Bytes) : prepare lib args = (prepareMsg lib args).toOption := by
  unfold prepare prepareMsg
  split
  · cases rewriteTimeoutMsg lib args <;> rfl
  · rfl

theorem checkAuth_ne_run (c : Config) (m : Input) (cmd : Bytes) (args : List Bytes)
    (deadline : Bool) (args' : List Bytes) :
    checkAuth c m cmd args ≠ some (.run deadline args') := by
  unfold checkAuth
  dsimp only
  repeat' split
  all_goals simp

/-- A message that runs is not one of those answered before, and what runs is
the message without its TIMEOUT. -/
theorem checkMsg_run {c : Config} {m : Input} {deadline : Bool} {args : List Bytes}
    (h : checkMsg lib c m = .run deadline args) :
    commandName m.args ∉ earlyCommands ∧ prepare lib m.args = some (deadline, args) := by
  unfold checkMsg at h
  dsimp only at h
  split at h
  · cases h
  rename_i hping
  split at h
  · cases h
  split at h
  · cases h
  rename_i hhello
  refine ⟨by simp [earlyCommands, not_or.mp hping, hhello], ?_⟩
  rw [prepare_eq]
  cases hprepare : prepareMsg lib m.args with
  | error e =>
    rw [hprepare] at h
    cases h
  | ok p =>
    rw [hprepare] at h
    dsimp only at h
    have hauth : checkAuth c m (commandName m.args) p.2 = none := by
      by_contra hsome
      obtain ⟨v, hv⟩ := ne_none_iff_exists'.mp hsome
      rw [hv, getD_some] at h
      subst h
      exact checkAuth_ne_run c m _ _ _ _ hv
    rw [hauth] at h
    cases h
    rfl

/-- **Without development mode the data and the log change as in `handle`, for
some choice of what is refused.** -/
theorem Instance.handleInputCommand_leader {parseFloatErr : Bytes → Bytes} {srv : Instance G}
    {m : Input} {r : Handled G} (hdev : srv.config.devMode = false)
    (h : srv.handleInputCommand lib hlib parseFloatErr m = some r) :
    ∃ refused, r.leader = handle lib hlib srv.leader (.client m.env refused m.args) := by
  have hidle : ∀ {answer holds}, some r = some ⟨answer, holds, srv.leader⟩ →
      ∃ refused, r.leader = handle lib hlib srv.leader (.client m.env refused m.args) := by
    intro answer holds heq
    cases heq
    exact ⟨true, rfl⟩
  unfold Instance.handleInputCommand at h
  cases hcheck : checkMsg lib srv.config m with
  | answered | refused text =>
    rw [hcheck] at h
    exact hidle h.symm
  | run deadline args =>
    rw [hcheck] at h
    obtain ⟨hearly, hprepare⟩ := checkMsg_run hcheck
    unfold Instance.runCommand at h
    dsimp only at h
    split at h
    · exact hidle h.symm
    split at h
    · exact hidle h.symm
    split at h
    · exact hidle h.symm
    split at h
    · exact hidle h.symm
    rename_i hdeadline
    split at h
    · cases h
    rw [if_neg (by simp [hdev]), if_neg (by simp [hdev])] at h
    cases h
    refine ⟨false, ?_⟩
    rw [lockCase_write] at hdeadline ⊢
    rw [handle, if_neg Bool.false_ne_true, Server.handleInputCommand, if_neg hearly, hprepare]
    dsimp only
    rw [if_neg (by simpa using hdeadline)]

end

/-! ## The SETs of MASSINSERT -/

section Sets

variable {N G : Type} [LinearOrder N] {lib : ServerLib N G} {hlib : HookLib G}

omit [LinearOrder N] in
theorem parsePoint_pair {slat slon : Bytes} {g : Geometry G} {n : Nat}
    (h : parsePoint lib [slat, slon] = .ok (g, n)) : n = 2 := by
  simp only [parsePoint] at h
  cases hy : parseFloatArg lib slat with
  | error e =>
    rw [hy] at h
    cases h
  | ok y =>
    rw [hy] at h
    cases hx : parseFloatArg lib slon with
    | error e =>
      rw [hx] at h
      cases h
    | ok x =>
      rw [hx] at h
      cases h
      rfl

/-- The geometry of a SET of MASSINSERT, after the fields and EX. -/
def massInsertGeo (draw : Draw) (j : Nat) : List Bytes :=
  if j % 8 = 0 then [lit "STRING", lit "str" ++ decimal j]
  else [lit "POINT", draw.lat, draw.lon]

theorem PlainSet.geo {a b : SetArgs N G} {key id : Bytes} (h : PlainSet b key id) {draw : Draw}
    {j : Nat} (hloop : parseSetLoop lib 0 (massInsertGeo draw j) b = .ok a) :
    PlainSet a key id := by
  unfold massInsertGeo at hloop
  split at hloop
  · rw [parseSetLoop_string lib (by decide : toLower (lit "STRING") = lit "string")] at hloop
    cases hloop
    exact ⟨h.key, h.id, h.xx, h.nx, h.ret⟩
  rw [parseSetLoop_point lib (by decide : toLower (lit "POINT") = lit "point")] at hloop
  split at hloop
  · cases hloop
  rename_i g n hparse
  obtain rfl := parsePoint_pair hparse
  cases hloop
  exact ⟨h.key, h.id, h.xx, h.nx, h.ret⟩

theorem parseSET_massInsertSet {draw : Draw} {i j : Nat} {a : SetArgs N G} {geo : Geometry G}
    (h : parseSET lib (massInsertSet draw i j) = .ok (a, geo)) :
    PlainSet a (lit "mi:" ++ decimal i) (decimal j) := by
  have hnames : ∀ f ∈ massInsertFields, isReservedFieldName f.1 = false := by decide
  have hex : toLower (lit "EX") = lit "ex" := by decide
  obtain ⟨_, _, _, rest, hargs, hloop⟩ := parseSET_loop lib h
  simp only [massInsertSet, append_assoc, cons_append, nil_append] at hargs
  cases hargs
  rw [parseSetLoop_flatMap_field lib hnames] at hloop
  cases hdraw : draw.ex with
  | none =>
    rw [hdraw] at hloop
    exact PlainSet.geo ⟨rfl, rfl, rfl, rfl, rfl⟩ hloop
  | some n =>
    rw [hdraw] at hloop
    cases hfloat : parseFloatArg lib (decimal n) with
    | error e =>
      simp only [cons_append, parseSetLoop, hex, hfloat] at hloop
      have hne : lit "ex" ≠ lit "field" := by decide
      rw [if_neg hne] at hloop
      cases hloop
    | ok x =>
      rw [cons_append, cons_append, parseSetLoop_ex lib hex _ _ _ hfloat] at hloop
      exact PlainSet.geo ⟨rfl, rfl, rfl, rfl, rfl⟩ hloop

variable (lib) in
/-- What SET makes of its arguments, if there is memory left. -/
def acceptSET (env : Env) (args : List Bytes) : Option (SetArgs N G × Geometry G) :=
  if env.oom then none else (parseSET lib args).toOption

variable (lib) in
/-- Every object that MASSINSERT draws, up to the first SET that fails, is
there already with the same geometry, deadline and fields. -/
def AlreadyStored (s : ServerState G) : List (Env × List Bytes) → Prop
  | [] => True
  | (env, args) :: rest =>
    match acceptSET lib env args with
    | none => True
    | some (a, geo) =>
      lookup s.cols (a.key, a.id) = some (setObject lib env s a geo) ∧ AlreadyStored s rest

/-- The object that a SET of MASSINSERT is about. -/
def massInsertCell (p : Nat × Nat) : Bytes × Bytes := (lit "mi:" ++ decimal p.1, decimal p.2)

theorem decimal_inj {m n : Nat} (h : decimal m = decimal n) : m = n := by
  have hm := digitsValue_decimalFuel (Nat.lt_succ_self m)
  have hn := digitsValue_decimalFuel (Nat.lt_succ_self n)
  exact hm.symm.trans ((congrArg digitsValue h).trans hn)

theorem massInsertCell_inj {p q : Nat × Nat} (h : massInsertCell p = massInsertCell q) : p = q := by
  obtain ⟨hkey, hid⟩ := Prod.ext_iff.mp h
  exact Prod.ext (decimal_inj (append_cancel_left hkey)) (decimal_inj hid)

variable (lib hlib) in
/-- One SET of MASSINSERT: it fails, or it stores its object. -/
theorem command_massInsertSet (env : Env) (scripts : Scripts) (s : ServerState G) (draw : Draw)
    (p : Nat × Nat) :
    match acceptSET lib env (massInsertSet draw p.1 p.2) with
    | none => ∃ e, command lib hlib env scripts s (massInsertSet draw p.1 p.2) = (.err e, s)
    | some (a, geo) => (a.key, a.id) = massInsertCell p ∧
        ∃ r d cols, command lib hlib env scripts s (massInsertSet draw p.1 p.2) =
          (.ok r d, { s with cols := cols }) ∧
        (∀ i, lookup cols i =
          if i = massInsertCell p then some (setObject lib env s a geo) else lookup s.cols i) ∧
        (lookup s.cols (massInsertCell p) = some (setObject lib env s a geo) → cols = s.cols) := by
  have hhandler : handlerOf (commandName (massInsertSet draw p.1 p.2)) = some .set := by
    show handlerOf (toLower (lit "set")) = some .set
    decide
  rw [command_of_handlerOf lib hlib env hhandler]
  show match acceptSET lib env _ with
    | none => ∃ e, cmdSET lib env s _ = _
    | some (a, geo) => _ ∧ ∃ r d cols, cmdSET lib env s _ = _ ∧ _ ∧ _
  unfold acceptSET cmdSET
  cases env.oom with
  | true => exact ⟨_, rfl⟩
  | false =>
    cases hparse : parseSET lib (massInsertSet draw p.1 p.2) with
    | error e => exact ⟨e, rfl⟩
    | ok q =>
      obtain ⟨a, geo⟩ := q
      have hplain := parseSET_massInsertSet hparse
      obtain ⟨r, d, hexec, -⟩ := execSET_plain lib env s hplain geo
      refine ⟨Prod.ext hplain.key hplain.id, r, d, _, hexec, fun i => ?_, fun hstored => ?_⟩
      · exact lookup_put (get?_getD _ _) _ _ i
      · unfold lookup at hstored
        obtain ⟨col, hcol, hobj⟩ := bind_eq_some_iff.mp hstored
        have hcol' : s.cols.get? (lit "mi:" ++ decimal p.1) = some col := hcol
        have hobj' : col.get? (decimal p.2) = some (setObject lib env s a geo) := hobj
        rw [hcol', getD_some, set_eq_self hobj', set_eq_self hcol']

variable (lib hlib) in
/-- The loop on SETs of distinct objects. -/
theorem massInsertLoop_spec (draws : Nat → Nat → Draw) (ps : List (Nat × Nat)) (hnodup : ps.Nodup)
    (l : Leader G) :
    let sets := ps.map fun p => ((draws p.1 p.2).env, massInsertSet (draws p.1 p.2) p.1 p.2)
    let r := Instance.massInsertLoop lib hlib l sets
    (∀ hold ∈ r.1, hold.lock = .write) ∧
      (∀ i, i ∉ ps.map massInsertCell → lookup r.2.st.cols i = lookup l.st.cols i) ∧
      (r.2.st.cols = l.st.cols ↔ AlreadyStored lib l.st sets) := by
  induction ps generalizing l with
  | nil => exact ⟨by simp [Instance.massInsertLoop], fun _ _ => rfl, iff_of_true rfl trivial⟩
  | cons p ps ih =>
    obtain ⟨hp, hps⟩ := nodup_cons.mp hnodup
    have hstep := command_massInsertSet lib hlib (draws p.1 p.2).env l.scripts l.st
      (draws p.1 p.2) p
    have hp' : massInsertCell p ∉ ps.map massInsertCell := by
      intro hmem
      obtain ⟨q, hq, heq⟩ := mem_map.mp hmem
      exact hp (massInsertCell_inj heq ▸ hq)
    simp only [map_cons, Instance.massInsertLoop, AlreadyStored]
    cases haccept : acceptSET lib (draws p.1 p.2).env (massInsertSet (draws p.1 p.2) p.1 p.2) with
    | none =>
      rw [haccept] at hstep
      obtain ⟨e, hcmd⟩ := hstep
      rw [hcmd]
      exact ⟨by simp, fun i _ => by rw [finish_st], iff_of_true (by rw [finish_st]) trivial⟩
    | some q =>
      obtain ⟨a, geo⟩ := q
      rw [haccept] at hstep
      obtain ⟨hcell, r, d, cols, hcmd, hlookup, hsame⟩ := hstep
      rw [hcmd]
      dsimp only
      obtain ⟨hlocks, hframe, hiff⟩ := ih hps
        (finish l true (massInsertSet (draws p.1 p.2) p.1 p.2)
          (.ok r d, { l.st with cols := cols }))
      rw [finish_st] at hframe hiff
      refine ⟨?_, fun i hi => ?_, ?_⟩
      · rintro hold (_ | ⟨_, hmem⟩)
        · rfl
        · exact hlocks hold hmem
      · rw [mem_cons, not_or] at hi
        rw [hframe i hi.2, hlookup, if_neg hi.1]
      · rw [hcell]
        constructor
        · intro hunchanged
          -- the later SETs do not touch the object of this one
          have hstored := hframe _ hp'
          rw [hunchanged, hlookup, if_pos rfl] at hstored
          have hcols := hsame hstored
          subst hcols
          exact ⟨hstored, hiff.mp hunchanged⟩
        · rintro ⟨hstored, hrest⟩
          have hcols := hsame hstored
          subst hcols
          exact hiff.mpr hrest

end Sets

/-! ## Which messages respect the guard -/

section Respected

variable {N G : Type} [LinearOrder N] (lib : ServerLib N G) (hlib : HookLib G)
variable (parseFloatErr : Bytes → Bytes)

/-- On a guarded server the data is as before, and a handler that has stored
something held the write lock. -/
structure Respected (srv : Instance G) (r : Handled G) : Prop where
  unchanged : srv.config.guarded = true → r.leader.st.cols = srv.leader.st.cols
  locked : ∀ hold ∈ r.holds, hold.updated = true → hold.lock = .write

/-- The message is not a JDEL that stores something, and on a guarded server in
development mode not a MASSINSERT that draws something new. -/
def Harmless (srv : Instance G) (m : Input) : Prop :=
  ∀ deadline args, checkMsg lib srv.config m = .run deadline args →
    (commandName args = lit "jdel" → jdelStores lib m.env srv.leader.st args = false) ∧
    (commandName args = lit "massinsert" → srv.config.devMode = true →
      srv.config.guarded = true → ∀ cols objs,
        parseMassInsert lib parseFloatErr args = .ok (cols, objs) →
        AlreadyStored lib srv.leader.st (massInsertSets m.draws cols objs))

variable {lib hlib} {env : Env} {s : ServerState G}

/-- What stores something is a logged command or JDEL. -/
theorem mem_writeCommands_of_updated {scripts : Scripts} {args : List Bytes}
    (h : (command lib hlib env scripts s args).1.updated = true) :
    commandName args ∈ writeCommands ∨ commandName args = lit "jdel" := by
  by_contra hnot
  obtain ⟨hwrite, hjdel⟩ := not_or.mp hnot
  have hother : ∀ w ∈ writeCommands, commandName args ≠ w := fun w hw heq => hwrite (heq ▸ hw)
  revert h
  unfold command
  dsimp only
  split
  · rename_i handler hhandler
    rcases mem_writeCommands_of_handlerOf hhandler with hmem | ⟨hname, -⟩
    · exact absurd hmem hwrite
    · exact absurd hname hjdel
  rw [if_neg (hother _ (by decide)), if_neg (hother _ (by decide)), if_neg (hother _ (by decide)),
    if_neg (hother _ (by decide)), if_neg (hother _ (by decide)), if_neg (hother _ (by decide))]
  split
  · exact fun h => by cases h
  · exact fun h => by cases h

/-- A message that changes nothing and stores nothing. -/
theorem Respected.idle {srv : Instance G} {answer : Answer} :
    Respected srv ⟨answer, [], srv.leader⟩ := ⟨fun _ => rfl, by simp⟩

theorem lockCase_jdel : lockCase (lit "jdel") = { lock := .read } := by decide

theorem lockCase_massinsert : lockCase (lit "massinsert") = { lock := .none } := by decide

section Run

variable {srv : Instance G} {m : Input} {deadline : Bool} {args : List Bytes} {r : Handled G}

/-- JDEL runs under the read lock, on every server. -/
theorem respected_jdel (hname : commandName args = lit "jdel")
    (h : srv.runCommand lib hlib parseFloatErr m deadline args = some r) :
    Respected srv r ↔ jdelStores lib m.env srv.leader.st args = false := by
  have hhandler : handlerOf (commandName args) = some .jdel := by
    rw [hname]
    decide
  have hcmd : command lib hlib m.env srv.leader.scripts srv.leader.st args =
      cmdJdel lib m.env srv.leader.st args := command_of_handlerOf lib hlib m.env hhandler _ _
  obtain ⟨hstores, hsame⟩ := cmdJdel_updated lib m.env srv.leader.st args
  simp only [Instance.runCommand, hname, lockCase_jdel] at h
  rw [if_neg (by simp), if_neg (by simp), if_neg (by simp), if_neg (by simp), if_neg (by decide),
    if_neg (fun hc => absurd hc.1 (by decide)), if_neg (fun hc => absurd hc.1 (by decide)),
    hcmd] at h
  cases h
  rw [← hstores]
  constructor
  · intro hrespected
    have hlocked := hrespected.locked _ (mem_singleton_self _)
    cases hup : (cmdJdel lib m.env srv.leader.st args).1.updated with
    | false => rfl
    | true => exact absurd (hlocked hup) (by simp)
  · intro hno
    refine ⟨fun _ => ?_, fun hold hmem hup => ?_⟩
    · rw [finish_st, hsame hno]
    · rw [mem_singleton.mp hmem] at hup
      exact absurd (hup.symm.trans hno) (by simp)

/-- MASSINSERT takes the write lock for every object and asks nobody. -/
theorem respected_massinsert (hname : commandName args = lit "massinsert")
    (hdev : srv.config.devMode = true)
    (h : srv.runCommand lib hlib parseFloatErr m deadline args = some r) :
    Respected srv r ↔ (srv.config.guarded = true → ∀ cols objs,
      parseMassInsert lib parseFloatErr args = .ok (cols, objs) →
        AlreadyStored lib srv.leader.st (massInsertSets m.draws cols objs)) := by
  simp only [Instance.runCommand, hname, lockCase_massinsert] at h
  rw [if_neg (by simp), if_neg (by simp), if_neg (by simp), if_neg (by simp), if_neg (by decide),
    if_pos ⟨trivial, hdev⟩] at h
  cases hparse : parseMassInsert lib parseFloatErr args with
  | error e =>
    rw [hparse] at h
    cases h
    exact iff_of_true .idle fun _ _ _ h => by cases h
  | ok p =>
    obtain ⟨cols, objs⟩ := p
    rw [hparse] at h
    cases h
    have hnodup : (List.range cols ×ˢ List.range objs).Nodup := nodup_range.product nodup_range
    obtain ⟨hlocks, -, hiff⟩ := massInsertLoop_spec lib hlib m.draws _ hnodup srv.leader
    constructor
    · intro hrespected hguarded cols' objs' heq
      cases heq
      exact hiff.mp (hrespected.unchanged hguarded)
    · intro hstored
      exact ⟨fun hguarded => hiff.mpr (hstored hguarded cols objs rfl),
        fun hold hmem _ => hlocks hold hmem⟩

theorem respected_other (hjdel : commandName args ≠ lit "jdel")
    (hmass : ¬ (commandName args = lit "massinsert" ∧ srv.config.devMode = true))
    (h : srv.runCommand lib hlib parseFloatErr m deadline args = some r) : Respected srv r := by
  unfold Instance.runCommand at h
  dsimp only at h
  split at h
  · cases h
    exact .idle
  rename_i hfollow
  split at h
  · cases h
    exact .idle
  rename_i hreadOnly
  split at h
  · cases h
    exact .idle
  split at h
  · cases h
    exact .idle
  split at h
  · cases h
  split at h
  · cases h
    exact ⟨fun _ => rfl, by simp⟩
  cases h
  refine ⟨fun hguarded => ?_, fun hold hmem hup => ?_⟩
  · rw [finish_st]
    have hwrite : commandName args ∉ writeCommands := by
      intro hmem
      rw [lockCase_of_write hmem] at hfollow hreadOnly
      simp only [Config.guarded, Bool.or_eq_true, decide_eq_true_eq] at hguarded
      rcases hguarded with hro | hhost
      · exact hreadOnly ⟨rfl, hro⟩
      · exact hfollow ⟨rfl, hhost⟩
    rw [command_of_not_write hwrite fun hname => absurd hname hjdel]
  · rw [mem_singleton.mp hmem] at hup ⊢
    rcases mem_writeCommands_of_updated hup with hmem | hname
    · show (lockCase (commandName args)).lock = .write
      rw [lockCase_of_write hmem]
    · exact absurd hname hjdel

end Run

/-- **A message leaves a read-only server and a follower alone, and stores only
under the write lock, if and only if it is not a JDEL that finds something to
delete, and on such a server in development mode not a MASSINSERT that draws
something new.** -/
theorem respected_iff {srv : Instance G} {m : Input} {r : Handled G}
    (h : srv.handleInputCommand lib hlib parseFloatErr m = some r) :
    Respected srv r ↔ Harmless lib parseFloatErr srv m := by
  unfold Instance.handleInputCommand at h
  cases hcheck : checkMsg lib srv.config m with
  | answered | refused text =>
    rw [hcheck] at h
    cases h
    exact iff_of_true .idle (by simp [Harmless, hcheck])
  | run deadline args =>
    rw [hcheck] at h
    have hargs : ∀ p : List Bytes → Prop, (∀ deadline' args', checkMsg lib srv.config m =
        .run deadline' args' → p args') ↔ p args := by
      refine fun p => ⟨fun hall => hall deadline args hcheck, fun hp _ _ hrun => ?_⟩
      cases hcheck.symm.trans hrun
      exact hp
    rw [Harmless, hargs]
    by_cases hjdel : commandName args = lit "jdel"
    · rw [respected_jdel parseFloatErr hjdel h]
      have hne : commandName args ≠ lit "massinsert" := by
        rw [hjdel]
        decide
      exact ⟨fun hno => ⟨fun _ => hno, fun hname => absurd hname hne⟩, fun hno => hno.1 hjdel⟩
    by_cases hmass : commandName args = lit "massinsert" ∧ srv.config.devMode = true
    · rw [respected_massinsert parseFloatErr hmass.1 hmass.2 h]
      exact ⟨fun hstored => ⟨fun hname => absurd hname hjdel, fun _ _ => hstored⟩,
        fun hno => hno.2 hmass.1 hmass.2⟩
    refine iff_of_true (respected_other parseFloatErr hjdel hmass h) ⟨fun hname => ?_, ?_⟩
    · exact absurd hname hjdel
    · exact fun hname hdev => absurd ⟨hname, hdev⟩ hmass

end Respected

/-- A message of an authenticated client, at time 0. -/
def Input.resp (args : List Bytes) : Input :=
  { args, env := { out := .resp }, draws := fun _ _ => ⟨{ out := .resp }, none, [], []⟩ }

/-- A server with one document. -/
def Instance.oneDocument (config : Config) : Instance Unit :=
  ⟨config, handleAll textLib noHooks Leader.start
    [Request.resp [lit "JSET", lit "fleet", lit "truck1", lit "driver", lit "ann"]]⟩

theorem handleInputCommand_leader_set :
    let srv := Instance.oneDocument {}
    let m := Input.resp [lit "SET", lit "fleet", lit "truck1", lit "STRING", lit "x"]
    ∃ r refused, srv.handleInputCommand textLib noHooks id m = some r ∧
      r.leader = handle textLib noHooks srv.leader (.client m.env refused m.args) := by
  intro srv m
  have hruns : (srv.handleInputCommand textLib noHooks id m).isSome = true := by decide +kernel
  obtain ⟨r, hr⟩ := isSome_iff_exists.mp hruns
  obtain ⟨refused, hleader⟩ := Instance.handleInputCommand_leader rfl hr
  exact ⟨r, refused, hr, hleader⟩

theorem respected_iff_set :
    let srv := Instance.oneDocument { readOnly := true }
    ∃ r, srv.handleInputCommand textLib noHooks id
        (.resp [lit "SET", lit "fleet", lit "truck1", lit "STRING", lit "x"]) = some r ∧
      Respected srv r := by
  intro srv
  have hrefused : srv.handleInputCommand textLib noHooks id
      (.resp [lit "SET", lit "fleet", lit "truck1", lit "STRING", lit "x"]) =
        some ⟨.refused (lit "read only"), [], srv.leader⟩ := rfl
  refine ⟨_, hrefused, (respected_iff id hrefused).mpr fun deadline args hrun => ?_⟩
  cases hrun
  exact ⟨fun hname => absurd hname (by decide), fun hname => absurd hname (by decide)⟩

/-- **On a read-only server and on a follower JDEL deletes the member, under the
read lock; MASSINSERT of a server in development mode adds objects.** -/
theorem jdel_on_guarded_server :
    let jdel := Input.resp [lit "JDEL", lit "fleet", lit "truck1", lit "driver"]
    let insert := Input.resp [lit "MASSINSERT", lit "1", lit "1"]
    let run (config : Config) (m : Input) :=
      ((Instance.oneDocument config).handleInputCommand textLib noHooks id m).map fun r =>
        (r.answer, r.holds,
          decide (r.leader.st.cols = (Instance.oneDocument config).leader.st.cols))
    run { readOnly := true } jdel = some (.done, [⟨.read, true⟩], false) ∧
      run { followHost := lit "leader", caughtUpOnce := true } jdel =
        some (.done, [⟨.read, true⟩], false) ∧
      run { readOnly := true, devMode := true } insert = some (.done, [⟨.write, true⟩], false) := by
  decide +kernel

end SpatialDb.Server
