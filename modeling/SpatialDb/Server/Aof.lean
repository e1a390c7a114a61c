import SpatialDb.Server.Dispatch
import SpatialDb.Server.LoadChunks

/-!
# The append-only file

Model of `handleInputCommand` as far as it decides what runs and what is
logged (`server.go`), of the calls that scripts and MASSINSERT make
(`scripts.go`, `dev.go`), and of `writeAOF` and `loadAOF` (`aof.go`).

`writeCommands` and the switch of `command` are two lists of names.  They
agree on every data command but one: JDEL changes objects and is not logged.
-/

namespace SpatialDb.Server

open Lib List Option

variable (reader : CommandReader)

/-! ## Writing -/

/-- A leader: its data, the loaded scripts and the log.  `aof` is the file with
the buffer that is still to be flushed. -/
structure Leader (G : Type) where
  st : ServerState G
  scripts : Scripts
  aof : Bytes
  shrinking : Bool
  shrinklog : List (List Bytes)

def ServerState.empty {G : Type} : ServerState G := ⟨OrdMap.empty, OrdMap.empty⟩

/-- A leader that starts on an empty file. -/
def Leader.start {G : Type} : Leader G := ⟨ServerState.empty, [], [], false, []⟩

/-- The names answered before the switches. -/
def earlyCommands : List Bytes := [lit "ping", lit "echo", lit "hello"]

/-- The script functions: atomic, atomic and read only, not atomic. -/
inductive EvalKind where
  | atomicRW
  | atomicRO
  | nonAtomic
  deriving DecidableEq

/-- What happens to a leader under one hold of its lock. -/
inductive Request where
  /-- A client command; `refused` while loading, without authentication, on a
  follower or a read-only server. -/
  | client (env : Env) (refused : Bool) (args : List Bytes)
  /-- A call of a running script. -/
  | call (kind : EvalKind) (env : Env) (args : List Bytes)
  /-- One SET of a MASSINSERT, without its name. -/
  | insert (env : Env) (args : List Bytes)
  /-- SCRIPT LOAD, SCRIPT FLUSH, or the script that an EVAL leaves loaded. -/
  | scripts (table : Scripts)

/-- The clock that a request meets. -/
def Request.now : Request → Int
  | .client env _ _ => env.now
  | .call _ env _ => env.now
  | .insert env _ => env.now
  | .scripts _ => 0

section

variable {N G : Type} [LinearOrder N] (lib : ServerLib N G) (hlib : HookLib G) (l : Leader G)

def writeAOF (args : List Bytes) (d : Details G) : Leader G :=
  if !d.updated then l
  else
    { l with
      shrinklog := if l.shrinking then l.shrinklog ++ [args] else l.shrinklog
      aof := l.aof ++ encodeCommand args }

/-- The end of a command: an error is not logged, nor is a command that is
not a write. -/
def finish (write : Bool) (args : List Bytes) (r : Result G × ServerState G) : Leader G :=
  let l := { l with st := r.2 }
  match r.1 with
  | .ok _ d => if write then writeAOF l args d else l
  | _ => l

/-- TIMEOUT in front of a command: whether there is a deadline, and the
command; nothing if TIMEOUT itself fails. -/
def prepare (args : List Bytes) : Option (Bool × List Bytes) :=
  if commandName args = lit "timeout" then
    match rewriteTimeoutMsg lib args with
    | .error _ => none
    | .ok args => some (true, args)
  else some (false, args)

/-- `handleInputCommand`, once the command is not refused. -/
def handleInputCommand (env : Env) (args : List Bytes) : Leader G :=
  if commandName args ∈ earlyCommands then l
  else
    match prepare lib args with
    | none => l
    | some (deadline, args) =>
      let write := decide (commandName args ∈ writeCommands)
      if deadline && write then l
      else finish l write args (command lib hlib env l.scripts l.st args)

/-- `luaGeoEngineCall`: reads change nothing, and whatever is neither a read
nor in `scriptWrites` is turned down. -/
def luaGeoEngineCall (kind : EvalKind) (env : Env) (args : List Bytes) : Leader G :=
  match prepare lib args with
  | none => l
  | some (deadline, args) =>
    if kind = .atomicRO then l
    else if commandName args ∈ scriptWrites then
      if deadline then l
      else finish l true args (commandInScript lib { env with out := .resp } l.st args)
    else l

def handle : Request → Leader G
  | .client env refused args => if refused then l else handleInputCommand lib hlib l env args
  | .call kind env args => luaGeoEngineCall lib l kind env args
  | .insert env args =>
    finish l true (lit "set" :: args) (command lib hlib env l.scripts l.st (lit "set" :: args))
  | .scripts table => { l with scripts := table }

def handleAll (reqs : List Request) : Leader G := reqs.foldl (handle lib hlib) l

/-! ## Loading -/

def commandErrIsFatal (e : Err) : Bool := !(e = .keyNotFound || e = .idNotFound)

/-- One command of the log, on a server without scripts. -/
def loadCommand (now : Int) (s : ServerState G) (args : List Bytes) : Except Err (ServerState G) :=
  match command lib hlib { out := .null, now } [] s args with
  | (.ok _ _, s) => .ok s
  | (.err e, s) => if commandErrIsFatal e then .error e else .ok s
  | (.crash, _) => .error (.other (lit "nil dereference"))

/-- What `loadAOF` leaves: the data and the length of the file, from which an
incomplete command at the end has been cut. -/
structure Loaded (G : Type) where
  st : ServerState G
  aofsz : Nat

/-- The end of a load, without what it has executed and where it has cut. -/
def Chunked.toLoaded : Except (LoadErr Err) (Loaded (ServerState G)) → Except Err (Server.Loaded G)
  | .error .protocol => .error (.other (lit "protocol error"))
  | .error (.fatal e) => .error e
  | .ok x => .ok ⟨x.st, x.aofsz⟩

/-- `loadAOF` of `LoadChunks` with the commands of this server, on the pieces in
which the file is read. -/
def loadAOF (reader : CommandReader) (now : Int) (packets : List Bytes) (buf : Bytes)
    (x : Loaded G) : Except Err (Loaded G) :=
  Chunked.toLoaded
    (Chunked.loadAOF reader.read (loadCommand lib hlib now) packets buf x.aofsz x.st).result

/-- The commands of a log one after the other. -/
def replay (now : Int) : List (List Bytes) → ServerState G → Except Err (ServerState G)
  | [], s => .ok s
  | args :: log, s =>
    match loadCommand lib hlib now s args with
    | .error e => .error e
    | .ok s => replay now log s

end

/-! ## Loading an encoded log -/

section Load

variable {N G : Type} [LinearOrder N] {lib : ServerLib N G} {hlib : HookLib G} {now : Int}

/-- A command of the log is loaded unless it crashes or ends in a fatal error. -/
theorem loadCommand_eq_ok_iff {s t : ServerState G} {args : List Bytes} :
    loadCommand lib hlib now s args = .ok t ↔
      ((command lib hlib { out := .null, now } [] s args).1 ≠ .crash ∧
        ∀ e, (command lib hlib { out := .null, now } [] s args).1 = .err e →
          commandErrIsFatal e = false) ∧
      (command lib hlib { out := .null, now } [] s args).2 = t := by
  unfold loadCommand
  generalize command lib hlib { out := .null, now } [] s args = r
  obtain ⟨r, s'⟩ := r
  cases r with
  | ok reply d => simp
  | err e => cases hfatal : commandErrIsFatal e <;> simp [hfatal]
  | crash => simp

theorem replay_append (log log' : List (List Bytes)) (s : ServerState G) :
    replay lib hlib now (log ++ log') s =
      match replay lib hlib now log s with
      | .error e => .error e
      | .ok s => replay lib hlib now log' s := by
  induction log generalizing s with
  | nil => rfl
  | cons args log ih =>
    rw [cons_append, replay, replay]
    cases loadCommand lib hlib now s args with
    | error e => rfl
    | ok s => exact ih s

variable {log : List (List Bytes)} {packets : List Bytes}

theorem result_runAll (hlog : ∀ args ∈ log, args ≠ []) (s : ServerState G) :
    (Chunked.runAll (loadCommand lib hlib now) log s).result =
      (replay lib hlib now log s).mapError .fatal := by
  induction log generalizing s with
  | nil => rfl
  | cons args log ih =>
    rw [Chunked.runAll, replay, Chunked.execute, if_neg (hlog args mem_cons_self)]
    cases loadCommand lib hlib now s args with
    | error e => rfl
    | ok s => exact ih (forall_mem_cons.mp hlog).2 s

theorem complete_flatMap (hlog : ∀ args ∈ log, args ≠ []) :
    Chunked.Complete reader.read (log.flatMap encodeCommand) log := by
  induction log with
  | nil => exact .nil
  | cons args log ih =>
    exact .command (by simp [encodeCommand]) (reader.reads args (hlog args mem_cons_self))
      (ih (forall_mem_cons.mp hlog).2)

theorem incomplete_nil : Chunked.Incomplete reader.read [] :=
  ⟨by simp, fun _ hf => prefix_nil.mp hf ▸ reader.read_nil⟩

/-- The front part of an encoded log. -/
theorem flatMap_split (hlog : ∀ args ∈ log, args ≠ []) {data tail : Bytes}
    (hdata : data ++ tail = log.flatMap encodeCommand) :
    ∃ before after rest, log = before ++ after ∧ data = before.flatMap encodeCommand ++ rest ∧
      Chunked.Incomplete reader.read rest := by
  induction log generalizing data with
  | nil =>
    obtain ⟨rfl, -⟩ := append_eq_nil_iff.mp hdata
    exact ⟨[], [], [], rfl, rfl, incomplete_nil reader⟩
  | cons args log ih =>
    rw [flatMap_cons] at hdata
    rcases le_or_gt (encodeCommand args).length data.length with hlen | hlen
    · obtain ⟨data, rfl⟩ := prefix_of_prefix_length_le (prefix_append _ _) ⟨tail, hdata⟩ hlen
      rw [append_assoc, append_cancel_left_eq] at hdata
      obtain ⟨before, after, rest, rfl, rfl, hrest⟩ := ih (forall_mem_cons.mp hlog).2 hdata
      exact ⟨args :: before, after, rest, rfl, by rw [flatMap_cons, append_assoc], hrest⟩
    · have hpart := prefix_of_prefix_length_le ⟨tail, hdata⟩ (prefix_append _ _) hlen.le
      exact ⟨[], args :: log, data, rfl, rfl, .of_part (reader.reads args (hlog args
        mem_cons_self)) (by simp [encodeCommand]) hpart hlen⟩

/-- The bytes of complete commands, and perhaps the beginning of one: the
commands run one after the other, and the rest is cut off. -/
theorem loadAOF_eq_replay (s : ServerState G) (n : Nat)
    (hlog : ∀ args ∈ log, args ≠ []) {rest : Bytes} (hrest : Chunked.Incomplete reader.read rest)
    (hdata : packets.flatten = log.flatMap encodeCommand ++ rest) :
    loadAOF lib hlib reader now packets [] ⟨s, n⟩ = (replay lib hlib now log s).map fun st =>
      ⟨st, n + packets.flatten.length - rest.length⟩ := by
  rw [loadAOF, (complete_flatMap reader hlog).loadAOF hrest
    (hrest.of_front nil_prefix) hdata, Chunked.Ran.bind, result_runAll hlog]
  cases replay lib hlib now log s with
  | error e => rfl
  | ok st =>
    cases rest with
    | nil => rfl
    | cons b rest => rfl

theorem loadAOF_flatMap {s s' : ServerState G} {n : Nat}
    (hlog : ∀ args ∈ log, args ≠ []) (hdata : packets.flatten = log.flatMap encodeCommand)
    (hrun : replay lib hlib now log s = .ok s') :
    loadAOF lib hlib reader now packets [] ⟨s, n⟩ = .ok ⟨s', n + packets.flatten.length⟩ := by
  rw [loadAOF_eq_replay reader s n hlog (incomplete_nil reader) (by rw [hdata, append_nil]), hrun]
  rfl

end Load

/-! ## What the switches agree on -/

section

variable {N G : Type} [LinearOrder N] (lib : ServerLib N G)

/-- A JDEL that stores a new document: the path is found, and the rest of a
geometry is a geometry again and there is memory left. -/
def jdelStores (env : Env) (s : ServerState G) (args : List Bytes) : Bool :=
  match args with
  | [_, key, id, path] =>
    match s.cols.get? key with
    | none => false
    | some col =>
      let o := col.get? id
      let json := (o.map fun o => geoText lib o.geo).getD []
      match lib.sjsonDelete json path with
      | .error _ => false
      | .ok njson =>
        njson ≠ json &&
          (!(o.map fun o => o.geo.isSpatial).getD false ||
            !env.oom && (lib.geoParse njson).toOption.isSome)
  | _ => false

variable {lib} {env : Env} {s : ServerState G}

variable {args : List Bytes}

/-- The SET stores unconditionally and replies nothing special. -/
structure PlainSet (a : SetArgs N G) (key id : Bytes) : Prop where
  key : a.key = key
  id : a.id = id
  xx : a.xx = false
  nx : a.nx = false
  ret : a.ret = none

variable (lib) in
theorem execSET_plain (env : Env) (s : ServerState G) {a : SetArgs N G} {key id : Bytes}
    (h : PlainSet a key id) (geo : Geometry G) :
    ∃ r d, execSET lib env s a geo = (.ok r d, { s with
      cols := s.cols.set key (((s.cols.get? key).getD OrdMap.empty).set id
        (setObject lib env s a geo)) }) ∧ d.updated = true := by
  obtain ⟨rfl, rfl, hxx, hnx, -⟩ := h
  rcases execSET_cases lib env s a geo with ⟨h, -⟩ | ⟨-, -, r, -, heq⟩
  · simp [hxx, hnx] at h
  · exact ⟨r, _, heq, rfl⟩

theorem storeJSON_updated (key id : Bytes) (o : Option (Object G)) (col : Col G) (json : Bytes)
    (resp : Reply G) :
    (storeJSON lib env s key id o col json resp).1.updated =
        (!(o.map fun o => o.geo.isSpatial).getD false ||
          !env.oom && (lib.geoParse json).toOption.isSome) ∧
      ((storeJSON lib env s key id o col json resp).1.updated = false →
        (storeJSON lib env s key id o col json resp).2 = s) := by
  unfold storeJSON
  cases (o.map fun o => o.geo.isSpatial).getD false with
  | false => exact ⟨rfl, fun h => by cases h⟩
  | true =>
    have hobject : toLower (lit "OBJECT") = lit "object" := by decide
    simp only [if_true, Bool.not_true, Bool.false_or, cmdSET]
    cases env.oom with
    | true => exact ⟨rfl, fun _ => rfl⟩
    | false =>
      rw [parseSET, parseSetLoop_object lib hobject]
      cases lib.geoParse json with
      | error text => exact ⟨rfl, fun _ => rfl⟩
      | ok g =>
        obtain ⟨r, d, hexec, hd⟩ := execSET_plain lib env s
          (a := { key, id, geo := some (.spatial g) }) ⟨rfl, rfl, rfl, rfl, rfl⟩ (.spatial g)
        have hup : (execSET lib env s { key, id, geo := some (.spatial g) }
            (.spatial g)).1.updated = true := by
          rw [hexec]
          exact hd
        exact ⟨hup, fun hno => absurd (hup.symm.trans hno) (by simp)⟩

variable (lib env s args) in
theorem cmdJdel_updated :
    (cmdJdel lib env s args).1.updated = jdelStores lib env s args ∧
      ((cmdJdel lib env s args).1.updated = false → (cmdJdel lib env s args).2 = s) := by
  unfold cmdJdel
  split
  · rename_i key id path
    simp only [jdelStores]
    cases hcol : s.cols.get? key with
    | none =>
      dsimp only
      split <;> exact ⟨rfl, fun _ => rfl⟩
    | some col =>
      simp only []
      cases hdelete : lib.sjsonDelete (((col.get? id).map fun o => geoText lib o.geo).getD [])
          path with
      | error text => exact ⟨rfl, fun _ => rfl⟩
      | ok njson =>
        simp only []
        split_ifs with heq
        · rw [decide_eq_false (not_not.mpr heq), Bool.false_and]
          split <;> exact ⟨rfl, fun _ => rfl⟩
        · rw [decide_eq_true heq, Bool.true_and]
          exact storeJSON_updated key id _ col njson _
  rename_i hargs
  refine ⟨?_, fun _ => rfl⟩
  unfold jdelStores
  split
  · exact absurd rfl (hargs _ _ _ _)
  · rfl

/-- The data commands are the logged ones and JDEL. -/
theorem mem_writeCommands_of_handlerOf {name : Bytes} {handler : Handler}
    (h : handlerOf name = some handler) :
    name ∈ writeCommands ∨ name = lit "jdel" ∧ handler = .jdel := by
  have hall : ∀ e ∈ handlers, e.1 ∈ writeCommands ∨ e.1 = lit "jdel" ∧ e.2 = .jdel := by decide
  exact hall _ (mem_handlers_of_handlerOf h)

/-- A command that is not logged changes nothing, if a JDEL stores nothing. -/
theorem command_of_not_write {hlib : HookLib G} {scripts : Scripts}
    (hwrite : commandName args ∉ writeCommands)
    (hjdel : commandName args = lit "jdel" → jdelStores lib env s args = false) :
    (command lib hlib env scripts s args).2 = s := by
  have hnot : ∀ w ∈ writeCommands, commandName args ≠ w := fun w hw h => hwrite (h ▸ hw)
  unfold command
  dsimp only
  split
  · rename_i handler hhandler
    rcases mem_writeCommands_of_handlerOf hhandler with h | ⟨hname, rfl⟩
    · exact absurd h hwrite
    · obtain ⟨hstores, hsame⟩ := cmdJdel_updated lib env s args
      exact hsame (hstores.trans (hjdel hname))
  · rw [if_neg (hnot _ (by decide)), if_neg (hnot _ (by decide)), if_neg (hnot _ (by decide)),
      if_neg (hnot _ (by decide)), if_neg (hnot _ (by decide)), if_neg (hnot _ (by decide))]
    split <;> rfl

/-- What a call from a script updates, the command itself updates. -/
theorem commandInScript_of_updated (hlib : HookLib G) (scripts : Scripts)
    (h : (commandInScript lib env s args).1.updated = true) :
    commandInScript lib env s args = command lib hlib env scripts s args := by
  revert h
  unfold commandInScript command
  dsimp only
  split
  · exact fun h => nomatch h
  · rename_i hhandler
    rw [hhandler]
    exact fun _ => rfl
  · exact fun h => nomatch h

/-! ## A small instance

Strings and text fields, one point, and documents of one member. -/

/-- `{"path":value}`. -/
private def member (path value : Bytes) : Bytes := [123, 34] ++ path ++ [34, 58] ++ value ++ [125]

private def quoted (s : Bytes) : Bytes := 34 :: s ++ [34]

def textLib : ServerLib Int Unit where
  zero := 0
  pinf := 1
  ninf := -1
  parseFloat data :=
    if toLower data = lit "nan" then (.nan, true)
    else if toLower data ∈ [lit "inf", lit "+inf"] then (.num 1, true)
    else if toLower data = lit "-inf" then (.num (-1), true)
    else (.num 0, false)
  valid data := 2 ≤ data.length && data.head? = some 34 && data.getLast? = some 34
  parse data := (.string, data.tail.dropLast)
  get _ _ := none
  quote := quoted
  ugly data := data
  parseInt _ := none
  nanos _ := 0
  newPoint _ _ := ()
  newPointZ _ _ _ := ()
  newRect _ _ _ _ := ()
  geohashDecode _ := (.num 0, .num 0)
  geoParse json := if json = lit "[0,0]" then .ok () else .error (lit "invalid data")
  geoString _ := lit "[0,0]"
  sjsonSet _ path value := .ok (member path (quoted value))
  sjsonSetRaw _ path value := .ok (member path value)
  sjsonDelete json path :=
    if ([123, 34] ++ path ++ [34]).isPrefixOf json then .ok [123, 125] else .ok json
  globLimits _ := ([], [])
  globMatch pattern name := pattern = lit "*" || pattern = name

/-- No hook is ever accepted. -/
def noHooks : HookLib Unit where
  parseHook _ _ _ _ := .error (.other (lit "missing FENCE argument"))
  parseHook_scripts _ _ _ _ _ _ := rfl

/-! ## The log and the dataset -/

variable (lib) (hlib : HookLib G)

/-- No JDEL that stores something, no hook that needs a loaded script. -/
def Quiet (env : Env) (s : ServerState G) (args : List Bytes) : Prop :=
  (commandName args = lit "jdel" → jdelStores lib env s args = false) ∧
    (setsHook args → usesScripts args = false)

instance (env : Env) (s : ServerState G) (args : List Bytes) :
    Decidable (Quiet lib env s args) := by
  unfold Quiet
  infer_instance

/-- A command that the log can repeat: no deadline, and quiet. -/
def SafeCommand (env : Env) (s : ServerState G) (args : List Bytes) : Prop :=
  setsTTL lib s args = false ∧ Quiet lib env s args

instance (env : Env) (s : ServerState G) (args : List Bytes) :
    Decidable (SafeCommand lib env s args) :=
  inferInstanceAs (Decidable (_ ∧ _))

def SafeRequest (l : Leader G) : Request → Prop
  | .client env _ args => ∀ p ∈ prepare lib args, SafeCommand lib env l.st p.2
  | .call _ _ args => ∀ p ∈ prepare lib args, setsTTL lib l.st p.2 = false
  | .insert _ args => setsTTL lib l.st (lit "set" :: args) = false
  | .scripts _ => True

/-- A request that the log can repeat, apart from deadlines. -/
def QuietRequest (l : Leader G) : Request → Prop
  | .client env _ args => ∀ p ∈ prepare lib args, Quiet lib env l.st p.2
  | .call _ _ _ => True
  | .insert _ _ => True
  | .scripts _ => True

instance (l : Leader G) : (req : Request) → Decidable (QuietRequest lib l req)
  | .client env _ args =>
    inferInstanceAs (Decidable (∀ p ∈ prepare lib args, Quiet lib env l.st p.2))
  | .call _ _ _ => inferInstanceAs (Decidable True)
  | .insert _ _ => inferInstanceAs (Decidable True)
  | .scripts _ => inferInstanceAs (Decidable True)

/-- The command that a request runs, if it gets that far. -/
def Request.command? : Request → Option (List Bytes)
  | .client _ _ args => (prepare lib args).map Prod.snd
  | .call _ _ args => (prepare lib args).map Prod.snd
  | .insert _ args => some (lit "set" :: args)
  | .scripts _ => none

/-- Every request is safe in the state it meets. -/
def SafeRun : Leader G → List Request → Prop
  | _, [] => True
  | l, req :: reqs => SafeRequest lib l req ∧ SafeRun (handle lib hlib l req) reqs

instance (l : Leader G) : (req : Request) → Decidable (SafeRequest lib l req)
  | .client env _ args =>
    inferInstanceAs (Decidable (∀ p ∈ prepare lib args, SafeCommand lib env l.st p.2))
  | .call _ _ args =>
    inferInstanceAs (Decidable (∀ p ∈ prepare lib args, setsTTL lib l.st p.2 = false))
  | .insert _ args =>
    inferInstanceAs (Decidable (setsTTL lib l.st (lit "set" :: args) = false))
  | .scripts _ => inferInstanceAs (Decidable True)

instance decidableSafeRun : (l : Leader G) → (reqs : List Request) →
    Decidable (SafeRun lib hlib l reqs)
  | _, [] => inferInstanceAs (Decidable True)
  | l, req :: reqs =>
    have := decidableSafeRun (handle lib hlib l req) reqs
    inferInstanceAs
      (Decidable (SafeRequest lib l req ∧ SafeRun lib hlib (handle lib hlib l req) reqs))

/-- The log holds commands that lead from an empty server to the data. -/
structure Logged (now : Int) (l : Leader G) : Prop where
  noEmpty : NoEmpty l.st.cols
  log : ∃ log : List (List Bytes), l.aof = log.flatMap encodeCommand ∧
    (∀ args ∈ log, args ≠ []) ∧ replay lib hlib now log ServerState.empty = .ok l.st

/-- What one request does to the log: nothing, with the data as before, or it
appends one command that repeats it. -/
def LogStep (now : Int) (l l' : Leader G) : Prop :=
  (l'.st = l.st ∧ l'.aof = l.aof) ∨
    ∃ args, args ≠ [] ∧ l'.aof = l.aof ++ encodeCommand args ∧
      loadCommand lib hlib now l.st args = .ok l'.st

/-- The command reports an update at that time and leads from `s` to `s'`.  It
is a write, and no hook that needs a loaded script. -/
structure Updates (now : Int) (args : List Bytes) (s s' : ServerState G) : Prop where
  write : commandName args ∈ writeCommands
  scripts : setsHook args → usesScripts args = false
  run : ∃ env scripts, env.now = now ∧
    (command lib hlib env scripts s args).1.updated = true ∧
      s' = (command lib hlib env scripts s args).2

/-- What the given command does to a leader: nothing to the data and the log,
or an update that is logged. -/
def Effect (now : Int) (cmd : Option (List Bytes)) (l l' : Leader G) : Prop :=
  (l'.st = l.st ∧ l'.aof = l.aof) ∨
    ∃ args, cmd = some args ∧ Updates lib hlib now args l.st l'.st ∧
      l'.aof = l.aof ++ encodeCommand args

variable {lib hlib} {now : Int} {l : Leader G}

theorem logged_start (now : Int) : Logged lib hlib now (Leader.start : Leader G) :=
  ⟨noEmpty_empty, [], rfl, by simp, rfl⟩

theorem Effect.same {cmd : Option (List Bytes)} (l : Leader G) : Effect lib hlib now cmd l l :=
  .inl ⟨rfl, rfl⟩

variable {req : Request}

theorem noEmpty_of_loadCommand {s s' : ServerState G} (hne : NoEmpty s.cols)
    (h : loadCommand lib hlib now s args = .ok s') : NoEmpty s'.cols := by
  rw [← (loadCommand_eq_ok_iff.mp h).2]
  exact command_noEmpty hne [] args

theorem LogStep.logged {l' : Leader G} (hstep : LogStep lib hlib now l l')
    (h : Logged lib hlib now l) : Logged lib hlib now l' := by
  have hne : NoEmpty l'.st.cols := by
    rcases hstep with ⟨hst, -⟩ | ⟨args, -, -, hload⟩
    · rw [hst]
      exact h.noEmpty
    · exact noEmpty_of_loadCommand h.noEmpty hload
  refine ⟨hne, ?_⟩
  obtain ⟨log, haof, hargs, hrun⟩ := h.log
  rcases hstep with ⟨hst, hsame⟩ | ⟨args, hnil, happend, hload⟩
  · exact ⟨log, hsame.trans haof, hargs, by rw [hrun, hst]⟩
  refine ⟨log ++ [args], by rw [happend, haof]; simp, ?_, ?_⟩
  · intro a ha
    rcases mem_append.mp ha with ha | ha
    · exact hargs a ha
    · rw [mem_singleton.mp ha]
      exact hnil
  · rw [replay_append, hrun]
    dsimp only
    rw [replay, hload]
    rfl

theorem finish_st (write : Bool) (args : List Bytes) (r : Result G × ServerState G) :
    (finish l write args r).st = r.2 := by
  unfold finish writeAOF
  repeat' split
  all_goals rfl

theorem finish_aof (write : Bool) (args : List Bytes) (r : Result G × ServerState G) :
    (finish l write args r).aof =
      if write && r.1.updated then l.aof ++ encodeCommand args else l.aof := by
  obtain ⟨r, s⟩ := r
  cases r with
  | ok reply d =>
    cases write <;> cases hd : d.updated <;> simp [finish, writeAOF, Result.updated, hd]
  | err e => cases write <;> rfl
  | crash => cases write <;> rfl

theorem loadCommand_of_ok {s : ServerState G}
    (h : ∃ r d, (command lib hlib { out := .null, now } [] s args).1 = .ok r d) :
    loadCommand lib hlib now s args = .ok (command lib hlib { out := .null, now } [] s args).2 := by
  obtain ⟨r, d, hok⟩ := h
  exact loadCommand_eq_ok_iff.mpr ⟨by simp [hok], rfl⟩

theorem Result.exists_ok_of_updated {r : Result G} (h : r.updated = true) :
    ∃ reply d, r = .ok reply d := by
  cases r with
  | ok reply d => exact ⟨reply, d, rfl⟩
  | err e => cases h
  | crash => cases h

theorem ne_nil_of_mem_writeCommands (h : commandName args ∈ writeCommands) : args ≠ [] := by
  rintro rfl
  revert h
  decide

/-- A write: it reports no update, or it is logged. -/
theorem finish_write {env : Env} {scripts : Scripts} (hne : NoEmpty l.st.cols)
    (hwrite : commandName args ∈ writeCommands)
    (hscripts : setsHook args → usesScripts args = false) :
    Effect lib hlib env.now (some args) l
      (finish l true args (command lib hlib env scripts l.st args)) := by
  cases hupd : (command lib hlib env scripts l.st args).1.updated with
  | false =>
    left
    rw [finish_st, finish_aof, hupd]
    exact ⟨command_of_not_updated hne scripts args hupd, rfl⟩
  | true =>
    right
    refine ⟨args, rfl, ⟨hwrite, hscripts, env, scripts, rfl, hupd, ?_⟩, ?_⟩
    · rw [finish_st]
    · rw [finish_aof, hupd]
      rfl

theorem handleInputCommand_effect (hne : NoEmpty l.st.cols) (env : Env)
    (hquiet : ∀ p ∈ prepare lib args, Quiet lib env l.st p.2) :
    Effect lib hlib env.now ((prepare lib args).map Prod.snd) l
      (handleInputCommand lib hlib l env args) := by
  unfold handleInputCommand
  split
  · exact .same l
  split
  · exact .same l
  rename_i deadline args' hprepare
  obtain ⟨hjdel, hscripts⟩ := hquiet (deadline, args') hprepare
  dsimp only at hjdel hscripts ⊢
  split
  · exact .same l
  rw [hprepare, map_some]
  by_cases hwrite : commandName args' ∈ writeCommands
  · rw [decide_eq_true hwrite]
    exact finish_write hne hwrite hscripts
  left
  rw [decide_eq_false hwrite, finish_st, finish_aof]
  exact ⟨command_of_not_write hwrite hjdel, rfl⟩

theorem scriptWrites_subset {name : Bytes} (h : name ∈ scriptWrites) :
    name ∈ writeCommands ∧ name ≠ lit "sethook" ∧ name ≠ lit "setchan" := by
  have hall : ∀ w ∈ scriptWrites, w ∈ writeCommands ∧ w ≠ lit "sethook" ∧ w ≠ lit "setchan" := by
    decide
  exact hall name h

theorem luaGeoEngineCall_effect (hne : NoEmpty l.st.cols) (kind : EvalKind) (env : Env)
    (args : List Bytes) :
    Effect lib hlib env.now ((prepare lib args).map Prod.snd) l
      (luaGeoEngineCall lib l kind env args) := by
  unfold luaGeoEngineCall
  split
  · exact .same l
  rename_i deadline args' hprepare
  split
  · exact .same l
  split
  · rename_i hmem
    obtain ⟨hwrite, hhook, hchan⟩ := scriptWrites_subset hmem
    split
    · exact .same l
    cases hupd : (commandInScript lib { env with out := .resp } l.st args').1.updated with
    | false =>
      left
      rw [finish_st, finish_aof, hupd]
      exact ⟨commandInScript_of_not_updated hne args' hupd, rfl⟩
    | true =>
      rw [commandInScript_of_updated hlib l.scripts hupd, hprepare]
      exact finish_write hne hwrite fun h => absurd h (by simp [setsHook, hhook, hchan])
  · exact .same l

/-- **What one request does: nothing to the data and the log, or it runs one
command that reports an update and is logged.** -/
theorem handle_effect (hne : NoEmpty l.st.cols) (hquiet : QuietRequest lib l req) :
    Effect lib hlib req.now (req.command? lib) l (handle lib hlib l req) := by
  cases req with
  | client env refused args =>
    rw [handle]
    split
    · exact .same l
    · exact handleInputCommand_effect hne env hquiet
  | call kind env args => exact luaGeoEngineCall_effect hne kind env args
  | insert env args =>
    have hname : commandName (lit "set" :: args) = lit "set" := by
      show toLower (lit "set") = lit "set"
      decide
    refine finish_write hne (by rw [hname]; decide) fun h => absurd h ?_
    rw [setsHook, hname]
    decide
  | scripts table => exact .inl ⟨rfl, rfl⟩

theorem SafeRequest.quiet (h : SafeRequest lib l req) : QuietRequest lib l req := by
  cases req with
  | client env refused args => exact fun p hp => (h p hp).2
  | _ => trivial

theorem SafeRequest.setsTTL (h : SafeRequest lib l req) (hargs : req.command? lib = some args) :
    setsTTL lib l.st args = false := by
  cases req with
  | client env refused args' =>
    obtain ⟨p, hp, rfl⟩ := map_eq_some_iff.mp hargs
    exact (h p hp).1
  | call kind env args' =>
    obtain ⟨p, hp, rfl⟩ := map_eq_some_iff.mp hargs
    exact h p hp
  | insert env args' =>
    cases hargs
    exact h
  | scripts table => cases hargs

theorem handle_step (hne : NoEmpty l.st.cols) (hsafe : SafeRequest lib l req) :
    LogStep lib hlib now l (handle lib hlib l req) := by
  have heffect : Effect lib hlib req.now (req.command? lib) l (handle lib hlib l req) :=
    handle_effect hne hsafe.quiet
  rcases heffect with hsame | ⟨args, hargs, hup, haof⟩
  · exact .inl hsame
  obtain ⟨hwrite, hscripts, env, scripts, -, hupd, hst⟩ := hup
  have hnull : ({ out := .null, now } : Env).out = .null := rfl
  obtain ⟨hok, heq⟩ := command_replays hnull rfl [] hscripts (hsafe.setsTTL hargs) hupd
  refine .inr ⟨args, ne_nil_of_mem_writeCommands hwrite, haof, ?_⟩
  rw [hst, ← heq]
  exact loadCommand_of_ok (Result.exists_ok_of_updated hok)

theorem handleAll_logged {reqs : List Request} (hsafe : SafeRun lib hlib l reqs)
    (h : Logged lib hlib now l) : Logged lib hlib now (handleAll lib hlib l reqs) := by
  induction reqs generalizing l with
  | nil => exact h
  | cons req reqs ih => exact ih hsafe.2 ((handle_step h.noEmpty hsafe.1).logged h)

theorem SafeRun.append {reqs reqs' : List Request} (h : SafeRun lib hlib l (reqs ++ reqs')) :
    SafeRun lib hlib l reqs ∧ SafeRun lib hlib (handleAll lib hlib l reqs) reqs' := by
  induction reqs generalizing l with
  | nil => exact ⟨trivial, h⟩
  | cons req reqs ih =>
    obtain ⟨hreq, hrest⟩ := h
    exact ⟨⟨hreq, (ih hrest).1⟩, (ih hrest).2⟩

/-- **After any run of safe requests from an empty leader: loading the log, in
whatever pieces the file is read, ends in the dataset of the leader; and every
request of the run that changed the dataset has made the log longer.** -/
theorem loadAOF_run (reader : CommandReader) (now : Int) {reqs : List Request}
    (hsafe : SafeRun lib hlib Leader.start reqs) {packets : List Bytes}
    (hpackets : packets.flatten = (handleAll lib hlib Leader.start reqs).aof) :
    (∃ x, loadAOF lib hlib reader now packets [] ⟨ServerState.empty, 0⟩ = .ok x ∧
        x.st.cols = (handleAll lib hlib Leader.start reqs).st.cols) ∧
      ∀ before req after, reqs = before ++ req :: after →
        (handleAll lib hlib Leader.start (before ++ [req])).st.cols ≠
            (handleAll lib hlib Leader.start before).st.cols →
          (handleAll lib hlib Leader.start before).aof.length <
            (handleAll lib hlib Leader.start (before ++ [req])).aof.length := by
  constructor
  · obtain ⟨log, haof, hargs, hrun⟩ := (handleAll_logged hsafe (logged_start now)).log
    exact ⟨_, loadAOF_flatMap reader hargs (hpackets.trans haof) hrun, rfl⟩
  · rintro before req after rfl hchanged
    obtain ⟨hbefore, hreq, -⟩ := SafeRun.append hsafe
    have hlogged := handleAll_logged hbefore (logged_start now)
    have hnext : handleAll lib hlib Leader.start (before ++ [req]) =
        handle lib hlib (handleAll lib hlib Leader.start before) req := by
      rw [handleAll, foldl_append]
      rfl
    rw [hnext] at hchanged ⊢
    have hstep : LogStep lib hlib now _ _ := handle_step hlogged.noEmpty hreq
    rcases hstep with ⟨hst, -⟩ | ⟨args, -, happend, -⟩
    · exact absurd (congrArg ServerState.cols hst) hchanged
    obtain ⟨rest, hrest⟩ := encodeCommand_eq_cons args
    rw [happend, length_append, hrest, length_cons]
    omega

/-- A cut of the log is the log of an earlier time, and the beginning of one
more command. -/
theorem aof_take {reqs : List Request} (hsafe : SafeRun lib hlib Leader.start reqs) (n : Nat) :
    ∃ before rest, before <+: reqs ∧ Chunked.Incomplete reader.read rest ∧
      (handleAll lib hlib Leader.start reqs).aof.take n =
        (handleAll lib hlib Leader.start before).aof ++ rest := by
  induction reqs using reverseRecOn with
  | nil => exact ⟨[], [], prefix_rfl, incomplete_nil reader, by simp [handleAll, Leader.start]⟩
  | append_singleton reqs req ih =>
    obtain ⟨hbefore, hreq, -⟩ := hsafe.append
    have hstep : LogStep lib hlib 0 (handleAll lib hlib Leader.start reqs)
        (handleAll lib hlib Leader.start (reqs ++ [req])) := by
      simp only [handleAll, foldl_append]
      exact handle_step (handleAll_logged hbefore (logged_start 0)).noEmpty hreq
    by_cases hcut : (handleAll lib hlib Leader.start (reqs ++ [req])).aof.take n =
        (handleAll lib hlib Leader.start reqs).aof.take n
    · obtain ⟨before, rest, hpre, hrest, htake⟩ := ih hbefore
      exact ⟨before, rest, hpre.trans (prefix_append _ _), hrest, hcut.trans htake⟩
    -- the cut is in or behind the command of this request
    rcases hstep with ⟨-, haof⟩ | ⟨args, hnil, haof, -⟩
    · exact absurd (by rw [haof]) hcut
    have hlen : (handleAll lib hlib Leader.start reqs).aof.length ≤ n := by
      by_contra hlt
      exact hcut (by rw [haof, take_append_of_le_length (by omega)])
    by_cases hwhole : (encodeCommand args).length ≤
        n - (handleAll lib hlib Leader.start reqs).aof.length
    · refine ⟨_, [], prefix_rfl, incomplete_nil reader, ?_⟩
      rw [append_nil, haof, take_append, take_of_length_le hlen, take_of_length_le hwhole]
    refine ⟨reqs, _, prefix_append _ _, .of_part (reader.reads args hnil)
      (by simp [encodeCommand]) ⟨_, take_append_drop _ _⟩ ?_,
      by rw [haof, take_append, take_of_length_le hlen]⟩
    rw [length_take]
    omega

/-- **A log that a crash has cut at any byte is the log of an earlier time and
the beginning of one more command.  It loads, in whatever pieces it is read, to
the dataset of that time, and what is behind it is taken off the file.** -/
theorem loadAOF_cut (now : Int) {reqs : List Request} (hsafe : SafeRun lib hlib Leader.start reqs)
    (n : Nat) {packets : List Bytes}
    (hpackets : packets.flatten = (handleAll lib hlib Leader.start reqs).aof.take n) :
    ∃ before rest, before <+: reqs ∧ Chunked.Incomplete reader.read rest ∧
      packets.flatten = (handleAll lib hlib Leader.start before).aof ++ rest ∧
      loadAOF lib hlib reader now packets [] ⟨ServerState.empty, 0⟩ =
        .ok ⟨(handleAll lib hlib Leader.start before).st,
          (handleAll lib hlib Leader.start before).aof.length⟩ := by
  obtain ⟨before, rest, ⟨after, rfl⟩, hrest, htake⟩ := aof_take reader hsafe n
  obtain ⟨log, haof, hargs, hrun⟩ := (handleAll_logged hsafe.append.1 (logged_start now)).log
  rw [htake] at hpackets
  refine ⟨before, rest, prefix_append _ _, hrest, hpackets, ?_⟩
  rw [loadAOF_eq_replay reader ServerState.empty 0 hargs hrest (haof ▸ hpackets), hrun, hpackets,
    length_append, Nat.zero_add, Nat.add_sub_cancel]
  rfl

end

/-! ### Runs of the small instance -/

/-- A client command with RESP output. -/
def Request.resp (args : List Bytes) : Request := .client { out := .resp } false args

theorem loadAOF_run_text :
    let reqs := [Request.resp [lit "SET", lit "fleet", lit "truck1", lit "STRING", lit "idle"],
      Request.resp [lit "JDEL", lit "fleet", lit "truck1", lit "driver"],
      .call .atomicRW {} [lit "rename", lit "fleet", lit "yard"]]
    ∃ x, loadAOF textLib noHooks respReader 0 [(handleAll textLib noHooks Leader.start reqs).aof] []
        ⟨ServerState.empty, 0⟩ = .ok x ∧
      x.st.cols = (handleAll textLib noHooks Leader.start reqs).st.cols :=
  (loadAOF_run respReader 0 (by decide +kernel) (by simp)).1

theorem loadAOF_cut_text :
    let reqs := [Request.resp [lit "SET", lit "fleet", lit "truck1", lit "STRING", lit "idle"]]
    ∃ x, loadAOF textLib noHooks respReader 0
      [(handleAll textLib noHooks Leader.start reqs).aof.take 20] [] ⟨.empty, 0⟩ = .ok x := by
  intro reqs
  have hsafe : SafeRun textLib noHooks Leader.start reqs := by decide +kernel
  obtain ⟨before, rest, -, -, -, hload⟩ := loadAOF_cut respReader 0 hsafe 20 flatten_singleton
  exact ⟨_, hload⟩

/-- **JDEL changes an object and is not logged: after the load the member is
back.** -/
theorem jdel_not_logged :
    let reqs := [Request.resp [lit "JSET", lit "fleet", lit "truck1", lit "driver", lit "ann"],
      Request.resp [lit "JDEL", lit "fleet", lit "truck1", lit "driver"]]
    let l := handleAll textLib noHooks Leader.start reqs
    let document (s : ServerState Unit) :=
      ((s.cols.get? (lit "fleet")).bind fun col => col.get? (lit "truck1")).map fun o => o.geo
    document l.st = some (.string [123, 125]) ∧
      (loadAOF textLib noHooks respReader 0 [l.aof] [] ⟨ServerState.empty, 0⟩).toOption.map
          (fun x => document x.st) =
        some (some (.string (lit "\x7b\"driver\":\"ann\"\x7d"))) := by
  decide +kernel

end SpatialDb.Server
