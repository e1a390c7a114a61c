import SpatialDb.Server.Crud

/-!
# The command switch

Model of `command` (`internal/legacy/server/server.go`), of the hook commands
in `hooks.go`, and of the lists by which `handleInputCommand` and the script
functions in `scripts.go` choose what to log.

The search arguments of SETHOOK and SETCHAN belong to the search commands;
here their parser is a parameter.
-/

namespace SpatialDb.Server

open Lib OrdMap Option

/-- The SHA1 sums of the loaded scripts. -/
abbrev Scripts := List Bytes

/-- WHEREEVALSHA is the one search argument that reads the script table. -/
def usesScripts (args : List Bytes) : Bool := args.any fun arg => toLower arg = lit "whereevalsha"

/-- The argument parsing of `cmdSetHook`: name, key, and the texts that
`Hook.Equals` compares. -/
structure HookLib (G : Type) where
  parseHook : Dataset G → Scripts → (channel : Bool) → List Bytes →
    Except Err (Bytes × Bytes × List Bytes)
  parseHook_scripts : ∀ cols scripts scripts' channel args, usesScripts args = false →
    parseHook cols scripts channel args = parseHook cols scripts' channel args

/-! ## Hooks and channels -/

section Hooks

variable {N G : Type} (lib : ServerLib N G) (hlib : HookLib G) (env : Env)

/-- SETHOOK and SETCHAN. -/
def cmdSetHook (scripts : Scripts) (s : ServerState G) (channel : Bool) (args : List Bytes) :
    Result G × ServerState G :=
  match hlib.parseHook s.cols scripts channel args with
  | .error e => retwerr s e
  | .ok (name, key, desc) =>
    let hook : Hook := { key, channel, desc }
    let store : Result G × ServerState G :=
      (.ok (reply env (.int 1)) { updated := true }, { s with hooks := s.hooks.set name hook })
    match s.hooks.get? name with
    | none => store
    | some prev =>
      if prev.channel ≠ channel then
        retwerr s (.other (lit "hooks and channels cannot share the same name"))
      else if prev = hook then
        -- without an output type the switch falls through
        match env.out with
        | .json => (.ok .okJson {}, s)
        | .resp => (.ok (.int 0) {}, s)
        | _ => store
      else store

/-- `cmdDELHOOKop`. -/
def delHookOp (hooks : OrdMap Bytes Hook) (name : Bytes) (channel : Bool) :
    Bool × OrdMap Bytes Hook :=
  match hooks.get? name with
  | none => (false, hooks)
  | some hook => if hook.channel ≠ channel then (false, hooks) else (true, hooks.delete name)

/-- DELHOOK and DELCHAN. -/
def cmdDelHook (s : ServerState G) (channel : Bool) (args : List Bytes) :
    Result G × ServerState G :=
  match args with
  | [_, name] =>
    if name = [] then retwerr s .invalidNumberOfArguments
    else
      let (updated, hooks) := delHookOp s.hooks name channel
      (.ok (reply env (.int (if updated then 1 else 0))) { updated }, { s with hooks })
  | _ => retwerr s .invalidNumberOfArguments

/-- `forEachHookByPattern`: the names it visits. -/
def hooksByPattern (pattern : Bytes) (channel : Bool) (hooks : OrdMap Bytes Hook) : List Bytes :=
  let limits := lib.globLimits pattern
  let visited := (hooks.ascend limits.1).takeWhile fun e => ¬ (limits.2 ≠ [] ∧ limits.2 < e.1)
  (visited.filter fun e => e.2.channel = channel && lib.globMatch pattern e.1).map Prod.fst

/-- PDELHOOK and PDELCHAN. -/
def cmdPDelHook (s : ServerState G) (channel : Bool) (args : List Bytes) :
    Result G × ServerState G :=
  match args with
  | [_, pattern] =>
    if pattern = [] then retwerr s .invalidNumberOfArguments
    else
      let names := hooksByPattern lib pattern channel s.hooks
      let hooks := names.foldl (fun hooks name => (delHookOp hooks name channel).2) s.hooks
      (.ok (reply env (.int names.length)) { updated := names.length > 0 }, { s with hooks })
  | _ => retwerr s .invalidNumberOfArguments

end Hooks

/-! ## The switches -/

/-- The cases of `command` that reach a data handler. -/
def handlers : List (Bytes × Handler) :=
  [(lit "set", .set), (lit "fset", .fset), (lit "del", .del), (lit "pdel", .pdel),
    (lit "drop", .drop), (lit "flushdb", .flushdb), (lit "rename", .rename),
    (lit "renamenx", .rename), (lit "expire", .expire), (lit "persist", .persist),
    (lit "jset", .jset), (lit "jdel", .jdel)]

def handlerOf (name : Bytes) : Option Handler :=
  (handlers.find? fun e => e.1 = name).map Prod.snd

variable {handler : Handler}

theorem mem_handlers_of_handlerOf {name : Bytes}
    (h : handlerOf name = some handler) : (name, handler) ∈ handlers := by
  obtain ⟨e, hfind, rfl⟩ := map_eq_some_iff.mp h
  have hname := List.find?_some hfind
  rw [← of_decide_eq_true hname]
  exact List.mem_of_find?_eq_some hfind

/-- The other names that `command` knows outside development mode.  Their
functions read the data, or are about the connection and the configuration. -/
def otherCommands : List Bytes :=
  [lit "hooks", lit "chans", lit "ttl", lit "follow", lit "slaveof", lit "replconf",
    lit "readonly", lit "stats", lit "server", lit "healthz", lit "info", lit "role",
    lit "scan", lit "nearby", lit "within", lit "intersects", lit "search", lit "bounds",
    lit "get", lit "fget", lit "jget", lit "type", lit "keys", lit "exists", lit "fexists",
    lit "output", lit "aof", lit "aofmd5", lit "gc", lit "aofshrink", lit "config",
    lit "script", lit "client", lit "eval", lit "evalro", lit "evalna", lit "evalsha",
    lit "evalrosha", lit "evalnasha", lit "subscribe", lit "psubscribe", lit "publish",
    lit "test", lit "monitor"]

/-- The names for which `handleInputCommand` sets `write`. -/
def writeCommands : List Bytes :=
  [lit "set", lit "del", lit "drop", lit "fset", lit "flushdb",
    lit "setchan", lit "pdelchan", lit "delchan",
    lit "sethook", lit "pdelhook", lit "delhook",
    lit "expire", lit "persist", lit "jset", lit "pdel", lit "rename", lit "renamenx"]

/-- The names for which a call from a script sets `write`. -/
def scriptWrites : List Bytes :=
  [lit "set", lit "del", lit "drop", lit "fset", lit "flushdb", lit "expire", lit "persist",
    lit "jset", lit "pdel", lit "rename", lit "renamenx"]

/-- `Message.Command`. -/
def commandName (args : List Bytes) : Bytes := toLower (args.headD [])

variable {N G : Type} [LinearOrder N] (lib : ServerLib N G) (hlib : HookLib G) (env : Env)

def command (scripts : Scripts) (s : ServerState G) (args : List Bytes) :
    Result G × ServerState G :=
  let name := commandName args
  match handlerOf name with
  | some handler => handler.call lib env s args
  | none =>
    if name = lit "sethook" then cmdSetHook hlib env scripts s false args
    else if name = lit "setchan" then cmdSetHook hlib env scripts s true args
    else if name = lit "delhook" then cmdDelHook env s false args
    else if name = lit "delchan" then cmdDelHook env s true args
    else if name = lit "pdelhook" then cmdPDelHook lib env s false args
    else if name = lit "pdelchan" then cmdPDelHook lib env s true args
    else if name ∈ otherCommands then (.ok .none {}, s)
    else retwerr s (.unknownCommand (args.headD []))

theorem command_of_handlerOf {args : List Bytes}
    (h : handlerOf (commandName args) = some handler) (scripts : Scripts) (s : ServerState G) :
    command lib hlib env scripts s args = handler.call lib env s args := by
  unfold command
  dsimp only
  rw [h]

/-- `commandInScript`: no FLUSHDB, no hook commands. -/
def commandInScript (s : ServerState G) (args : List Bytes) : Result G × ServerState G :=
  match handlerOf (commandName args) with
  | some .flushdb => retwerr s (.unknownCommand (args.headD []))
  | some handler => handler.call lib env s args
  | none => (.ok .none {}, s)

/-- `rewriteTimeoutMsg`: the command behind TIMEOUT and its seconds. -/
def rewriteTimeoutMsg : List Bytes → Except Err (List Bytes)
  | _ :: valStr :: rest =>
    if valStr = [] ∨ rest = [] then .error .invalidNumberOfArguments
    else
      match lib.parseFloat valStr with
      | (x, true) => if x.less (.num lib.zero) then .error (.invalidArgument valStr) else .ok rest
      | (_, false) => .error (.invalidArgument valStr)
  | _ => .error .invalidNumberOfArguments

/-! ## Commands that report no update -/

variable {lib} {hlib} {env} {s : ServerState G}

variable (scripts : Scripts) (channel : Bool) (cols : Dataset G) (hooks hooks' : OrdMap Bytes Hook)
  (args : List Bytes)

theorem cmdSET_mk :
    cmdSET lib env ⟨cols, hooks⟩ args = ((cmdSET lib env ⟨cols, hooks'⟩ args).1,
      ⟨(cmdSET lib env ⟨cols, hooks'⟩ args).2.cols, hooks⟩) := by
  unfold cmdSET execSET
  dsimp only
  repeat' split
  all_goals rfl

theorem storeJSON_mk (key id : Bytes)
    (o : Option (Object G)) (col : Col G) (json : Bytes) (resp : Reply G) :
    storeJSON lib env ⟨cols, hooks⟩ key id o col json resp =
      ((storeJSON lib env ⟨cols, hooks'⟩ key id o col json resp).1,
        ⟨(storeJSON lib env ⟨cols, hooks'⟩ key id o col json resp).2.cols, hooks⟩) := by
  unfold storeJSON
  split
  · exact cmdSET_mk cols hooks hooks' _
  · rfl

/-- The handlers but RENAME and FLUSHDB neither read nor change the hooks. -/
theorem call_mk (hrename : handler ≠ .rename) (hflush : handler ≠ .flushdb)
    (cols : Dataset G) (hooks hooks' : OrdMap Bytes Hook) (args : List Bytes) :
    handler.call lib env ⟨cols, hooks⟩ args = ((handler.call lib env ⟨cols, hooks'⟩ args).1,
      ⟨(handler.call lib env ⟨cols, hooks'⟩ args).2.cols, hooks⟩) := by
  cases handler with
  | set => exact cmdSET_mk cols hooks hooks' args
  | fset =>
    simp only [Handler.call, cmdFSET, execFSET]
    repeat' split
    all_goals rfl
  | del =>
    simp only [Handler.call, cmdDEL]
    repeat' split
    all_goals rfl
  | pdel =>
    simp only [Handler.call, cmdPDEL]
    repeat' split
    all_goals rfl
  | drop =>
    simp only [Handler.call, cmdDROP]
    repeat' split
    all_goals rfl
  | rename => exact absurd rfl hrename
  | flushdb => exact absurd rfl hflush
  | expire =>
    simp only [Handler.call, cmdEXPIRE]
    repeat' split
    all_goals rfl
  | persist =>
    simp only [Handler.call, cmdPERSIST]
    repeat' split
    all_goals rfl
  | jset =>
    simp only [Handler.call, cmdJset]
    repeat' split
    all_goals first | rfl | exact storeJSON_mk cols hooks hooks' _ _ _ _ _ _
  | jdel =>
    simp only [Handler.call, cmdJdel]
    repeat' split
    all_goals first | rfl | exact storeJSON_mk cols hooks hooks' _ _ _ _ _ _

theorem call_hooks (handler : Handler) (args : List Bytes) (h : handler ≠ .flushdb) :
    (handler.call lib env s args).2.hooks = s.hooks := by
  by_cases hrename : handler = .rename
  · subst hrename
    simp only [Handler.call, cmdRENAME]
    repeat' split
    all_goals rfl
  · rw [call_mk hrename h s.cols s.hooks s.hooks]

/-- A data handler that reports no update leaves the whole state alone. -/
theorem call_of_not_updated (hne : NoEmpty s.cols) (handler : Handler) (args : List Bytes)
    (h : (handler.call lib env s args).1.updated = false) :
    (handler.call lib env s args).2 = s := by
  have hcols := (call_frame hne handler args).unchanged h
  have hhooks : (handler.call lib env s args).2.hooks = s.hooks := by
    by_cases hflush : handler = .flushdb
    · subst hflush
      simp only [Handler.call, cmdFLUSHDB] at h ⊢
      split at h
      · cases h
      · rfl
    · exact call_hooks handler args hflush
  cases hstate : (handler.call lib env s args).2
  rw [hstate] at hcols hhooks
  cases s
  cases hcols
  cases hhooks
  rfl

/-- What every return of a hook command satisfies: the collections are left
alone, and it reports what it changed. -/
structure HookFrame (s : ServerState G) (r : Result G × ServerState G) : Prop where
  cols : r.2.cols = s.cols
  unchanged : r.1.updated = false → r.2 = s

theorem HookFrame.same (r : Result G) : HookFrame s (r, s) := ⟨rfl, fun _ => rfl⟩

theorem cmdSetHook_frame : HookFrame s (cmdSetHook hlib env scripts s channel args) := by
  unfold cmdSetHook
  dsimp only
  repeat' split
  all_goals first | exact .same _ | exact ⟨rfl, fun h => by cases h⟩

theorem delHookOp_of_not_updated {hooks : OrdMap Bytes Hook} {name : Bytes} {channel : Bool}
    (h : (delHookOp hooks name channel).1 = false) : (delHookOp hooks name channel).2 = hooks := by
  revert h
  unfold delHookOp
  repeat' split
  all_goals first | (intro _; rfl) | (intro h; cases h)

theorem cmdDelHook_frame : HookFrame s (cmdDelHook env s channel args) := by
  unfold cmdDelHook
  dsimp only
  split
  · split
    · exact .same _
    · exact ⟨rfl, fun h => by rw [delHookOp_of_not_updated h]⟩
  · exact .same _

omit [LinearOrder N] in
theorem cmdPDelHook_frame : HookFrame s (cmdPDelHook lib env s channel args) := by
  unfold cmdPDelHook
  dsimp only
  split
  · rename_i pattern
    split
    · exact .same _
    refine ⟨rfl, fun h => ?_⟩
    have hnil : hooksByPattern lib pattern channel s.hooks = [] := by
      simpa [Result.updated] using h
    rw [hnil, List.foldl_nil]
  · exact .same _

/-- **A command that reports no update leaves collections and hooks alone.** -/
theorem command_of_not_updated (hne : NoEmpty s.cols) (scripts : Scripts) (args : List Bytes)
    (h : (command lib hlib env scripts s args).1.updated = false) :
    (command lib hlib env scripts s args).2 = s := by
  revert h
  unfold command
  dsimp only
  repeat' split
  · exact call_of_not_updated hne _ args
  · exact (cmdSetHook_frame scripts false args).unchanged
  · exact (cmdSetHook_frame scripts true args).unchanged
  · exact (cmdDelHook_frame false args).unchanged
  · exact (cmdDelHook_frame true args).unchanged
  · exact (cmdPDelHook_frame false args).unchanged
  · exact (cmdPDelHook_frame true args).unchanged
  · exact fun _ => rfl
  · exact fun _ => rfl

theorem commandInScript_of_not_updated (hne : NoEmpty s.cols) (args : List Bytes)
    (h : (commandInScript lib env s args).1.updated = false) :
    (commandInScript lib env s args).2 = s := by
  revert h
  unfold commandInScript
  split
  · exact fun _ => rfl
  · exact call_of_not_updated hne _ args
  · exact fun _ => rfl

/-- A command that is not one of the data handlers leaves the collections alone. -/
theorem command_of_handlerOf_none {args : List Bytes} (h : handlerOf (commandName args) = none)
    (scripts : Scripts) (s : ServerState G) :
    (command lib hlib env scripts s args).2.cols = s.cols := by
  unfold command
  dsimp only
  rw [h]
  dsimp only
  repeat' split
  · exact (cmdSetHook_frame scripts false args).cols
  · exact (cmdSetHook_frame scripts true args).cols
  · exact (cmdDelHook_frame false args).cols
  · exact (cmdDelHook_frame true args).cols
  · exact (cmdPDelHook_frame false args).cols
  · exact (cmdPDelHook_frame true args).cols
  · rfl
  · rfl

theorem command_noEmpty (hne : NoEmpty s.cols) (scripts : Scripts) (args : List Bytes) :
    NoEmpty (command lib hlib env scripts s args).2.cols := by
  cases hhandler : handlerOf (commandName args) with
  | some handler =>
    rw [command_of_handlerOf lib hlib env hhandler]
    exact (call_frame hne handler args).noEmpty
  | none =>
    rw [command_of_handlerOf_none hhandler]
    exact hne

/-! ## Doing an update again

The same command meets the same data later, with other deadlines. -/

variable (Q : Int → Int → Prop)

/-- The same object, with related deadlines. -/
structure SameObject (o o' : Object G) : Prop where
  geo : o.geo = o'.geo
  fields : o.fields = o'.fields
  expires : Q o.expires o'.expires

/-- The same data up to the deadlines. -/
structure Aged (s s' : ServerState G) : Prop where
  cols : OrdMap.Rel (OrdMap.Rel (SameObject Q)) s.cols s'.cols
  hooks : s.hooks = s'.hooks

/-- Parsing a hook does not look at deadlines. -/
def HookLib.TimeFree (hlib : HookLib G) : Prop :=
  ∀ cols cols' scripts channel args,
    OrdMap.Rel (OrdMap.Rel (SameObject fun _ _ => True)) cols cols' →
      hlib.parseHook cols scripts channel args = hlib.parseHook cols' scripts channel args

/-- `b` ends like `s`.  Only a PERSIST may find nothing left to do, where a
deadline has come out as zero. -/
structure Done (s : ServerState G) (b : Result G × ServerState G) : Prop where
  aged : Aged Q s b.2
  ok : ∃ r d, b.1 = .ok r d
  updated : (∀ d d', Q d d' → d' = 0 → d = 0) → b.1.updated = true

/-- `b` does what `a` did, if `a` reports an update. -/
def Redoes (a b : Result G × ServerState G) : Prop := a.1.updated = true → Done Q a.2 b

variable {Q} {s' : ServerState G}

theorem aged_eq_iff : Aged (fun d d' => d = d') s s' ↔ s = s' := by
  constructor
  · rintro ⟨hcols, hhooks⟩
    have heq : s.cols = s'.cols := Rel.eq <| hcols.mono fun col col' hcol =>
      Rel.eq <| hcol.mono fun o o' ho => by
        cases o
        cases o'
        obtain ⟨rfl, rfl, rfl⟩ := ho
        rfl
    cases s
    cases s'
    cases heq
    cases hhooks
    rfl
  · rintro rfl
    exact ⟨rel_refl (rel_refl fun o => ⟨rfl, rfl, rfl⟩) _, rfl⟩

variable {b : Result G × ServerState G}

theorem Redoes.err {e : Err} : Redoes Q (retwerr s e) b :=
  fun h => by cases h

theorem Redoes.ok {cols cols' : Dataset G} {hooks hooks' : OrdMap Bytes Hook}
    (hcols : OrdMap.Rel (OrdMap.Rel (SameObject Q)) cols cols') (hhooks : hooks = hooks')
    {r r' : Reply G} {d d' : Details G} (hd : d'.updated = d.updated) :
    Redoes Q (.ok r d, ⟨cols, hooks⟩) (.ok r' d', ⟨cols', hooks'⟩) :=
  fun hup => ⟨⟨hcols, hhooks⟩, ⟨r', d', rfl⟩, fun _ => hd.trans hup⟩

theorem Redoes.idle {r : Result G} (hr : r.updated = false) :
    Redoes Q (r, s) b := fun h => absurd (hr.symm.trans h) (by simp)

variable {env' : Env}

omit [LinearOrder N] in
theorem pdelIds_eq {col col' : Col G} (h : OrdMap.Rel (SameObject Q) col col') (pattern : Bytes) :
    pdelIds lib pattern col = pdelIds lib pattern col' := by
  unfold pdelIds scanIds
  rw [h.keys_eq, h.map_fst_ascend]

theorem cmdFLUSHDB_redoes (args : List Bytes) :
    Redoes Q (cmdFLUSHDB env s args) (cmdFLUSHDB env' s' args) := by
  unfold cmdFLUSHDB
  split
  · exact .ok rel_empty rfl rfl
  · exact .err

omit [LinearOrder N] in
theorem geoText_eq {o o' : Option (Object G)}
    (ho : (o = none ∧ o' = none) ∨ ∃ a b, o = some a ∧ o' = some b ∧ SameObject Q a b) :
    (o.map fun o => geoText lib o.geo).getD [] = (o'.map fun o => geoText lib o.geo).getD [] := by
  rcases ho with ⟨rfl, rfl⟩ | ⟨a, b, rfl, rfl, hab⟩
  · rfl
  · rw [map_some, map_some, hab.geo]

section Redo

variable (h : Aged Q s s')
include h

/-- The collection that a key has, or would get. -/
theorem Aged.col (key : Bytes) : OrdMap.Rel (SameObject Q)
    ((s.cols.get? key).getD empty) ((s'.cols.get? key).getD empty) := by
  rcases h.cols.get?_cases key with ⟨hkey, hkey'⟩ | ⟨col, col', hkey, hkey', hcol⟩
  · rw [hkey, hkey']
    exact rel_empty
  · rw [hkey, hkey']
    exact hcol

theorem Aged.lookup_same (key id : Bytes) :
    (lookup s.cols (key, id) = none ↔ lookup s'.cols (key, id) = none) ∧
      (lookup s.cols (key, id)).map Object.fields =
        (lookup s'.cols (key, id)).map Object.fields := by
  rw [← get?_getD, ← get?_getD]
  rcases (h.col key).get?_cases id with ⟨hid, hid'⟩ | ⟨o, o', hid, hid', ho⟩
  · simp [hid, hid']
  · simp [hid, hid', ho.fields]

/-- An object that is not there, or is there in both. -/
theorem Aged.get?_cases (key id : Bytes) :
    lookup s.cols (key, id) = none ∨ ∃ col col' o o', s.cols.get? key = some col ∧
      s'.cols.get? key = some col' ∧ OrdMap.Rel (SameObject Q) col col' ∧
      col.get? id = some o ∧ col'.get? id = some o' ∧ SameObject Q o o' := by
  rcases h.cols.get?_cases key with ⟨hkey, -⟩ | ⟨col, col', hkey, hkey', hcol⟩
  · exact .inl (lookup_of_none hkey id)
  rcases hcol.get?_cases id with ⟨hid, -⟩ | ⟨o, o', hid, hid', ho⟩
  · exact .inl ((lookup_of_get? hkey id).trans hid)
  · exact .inr ⟨col, col', o, o', hkey, hkey', hcol, hid, hid', ho⟩

theorem cmdDEL_redoes (args : List Bytes) : Redoes Q (cmdDEL env s args) (cmdDEL env' s' args) := by
  rcases args with _ | ⟨name, _ | ⟨key, _ | ⟨id, rest⟩⟩⟩
  · exact .err
  · exact .err
  · exact .err
  · cases hparse : parseErron404 rest false with
    | error e =>
      simp only [cmdDEL, hparse]
      exact .err
    | ok e =>
      rcases h.get?_cases key id with hnone | ⟨col, col', o, o', hkey, hkey', hcol, hid, hid', -⟩
      · obtain ⟨r, hr, heq⟩ := cmdDEL_of_none env name hparse hnone
        rw [heq]
        exact .idle hr.updated
      rw [cmdDEL_of_some env name hparse hkey hid, cmdDEL_of_some env' name hparse hkey' hid',
        (hcol.delete id).size_eq]
      refine .ok ?_ h.hooks rfl
      split
      · exact h.cols.delete key
      · exact h.cols.set key (hcol.delete id)

variable (args : List Bytes)

omit [LinearOrder N] in
theorem cmdPDEL_redoes : Redoes Q (cmdPDEL lib env s args) (cmdPDEL lib env' s' args) := by
  unfold cmdPDEL
  split
  · rename_i key pattern
    rcases h.cols.get?_cases key with ⟨hkey, hkey'⟩ | ⟨col, col', hkey, hkey', hcol⟩
    · rw [hkey, hkey']
      exact .ok h.cols h.hooks rfl
    rw [hkey, hkey']
    dsimp only
    rw [pdelIds_eq hcol, (hcol.foldl_delete _).size_eq]
    split
    · exact .ok (h.cols.delete key) h.hooks (by simp only [List.length_map])
    · exact .ok (h.cols.set key (hcol.foldl_delete _)) h.hooks (by simp only [List.length_map])
  · exact .err

theorem cmdDROP_redoes : Redoes Q (cmdDROP env s args) (cmdDROP env' s' args) := by
  unfold cmdDROP dropKey
  split
  · rename_i key
    rcases h.cols.get?_cases key with ⟨hkey, hkey'⟩ | ⟨col, col', hkey, hkey', -⟩
    · rw [hkey, hkey']
      exact .ok h.cols h.hooks rfl
    · rw [hkey, hkey']
      exact .ok (h.cols.delete key) h.hooks rfl
  · exact .err

theorem cmdRENAME_redoes : Redoes Q (cmdRENAME env s args) (cmdRENAME env' s' args) := by
  unfold cmdRENAME
  split
  · rename_i name key newKey
    rcases h.cols.get?_cases key with ⟨hkey, -⟩ | ⟨col, col', hkey, hkey', hcol⟩
    · rw [hkey]
      exact .err
    rw [hkey, hkey', h.hooks]
    dsimp only
    split
    · exact .err
    split
    · exact .err
    rcases h.cols.get?_cases newKey with ⟨hnew, hnew'⟩ | ⟨_, _, hnew, hnew', -⟩
    · rw [hnew, hnew']
      exact .ok ((h.cols.delete key).set newKey hcol) rfl rfl
    rw [hnew, hnew']
    split
    · exact .ok (((h.cols.delete newKey).delete key).set newKey hcol) rfl rfl
    · exact .ok h.cols rfl rfl
  · exact .err

theorem execSET_redoes {a : SetArgs N G} (hex : Q (deadline lib env a.ex) (deadline lib env' a.ex))
    (geo : Geometry G) : Redoes Q (execSET lib env s a geo) (execSET lib env' s' a geo) := by
  rcases execSET_cases lib env s a geo with ⟨-, r, heq, hr⟩ | ⟨hxx, hnx, r, -, heq⟩
  · rw [heq]
    refine .idle ?_
    rcases hr with rfl | ⟨-, e, rfl⟩ <;> rfl
  obtain ⟨hnone, hfields⟩ := h.lookup_same a.key a.id
  rcases execSET_cases lib env' s' a geo with ⟨hno, -⟩ | ⟨-, -, r', -, heq'⟩
  · rcases hno with ⟨hx, hno⟩ | ⟨hn, hno⟩
    · exact absurd (hx.symm.trans (hxx (hnone.mpr hno))) (by simp)
    · exact absurd (hn.symm.trans (hnx (mt hnone.mp hno))) (by simp)
  -- a new object, or one in place of an old one with the same fields
  have hobj : SameObject Q (setObject lib env s a geo) (setObject lib env' s' a geo) := by
    refine ⟨rfl, ?_, hex⟩
    simp only [setObject, hfields]
  rw [heq, heq']
  exact .ok (h.cols.set a.key ((h.col a.key).set a.id hobj)) h.hooks rfl

theorem cmdSET_redoes (hoom : env'.oom = false) (args : List Bytes)
    (hex : ∀ a geo, parseSET lib args = .ok (a, geo) →
      Q (deadline lib env a.ex) (deadline lib env' a.ex)) :
    Redoes Q (cmdSET lib env s args) (cmdSET lib env' s' args) := by
  unfold cmdSET
  rw [hoom]
  split
  · exact .err
  cases hparse : parseSET lib args with
  | error e => exact .err
  | ok p => exact execSET_redoes h (hex p.1 p.2 hparse) p.2

theorem execFSET_redoes (a : FsetArgs N) :
    Redoes Q (execFSET lib env s a) (execFSET lib env' s' a) := by
  rcases h.get?_cases a.key a.id with hnone | ⟨col, col', o, o', hkey, hkey', hcol, hid, hid', ho⟩
  · obtain ⟨r, hupd, -, heq⟩ := execFSET_of_none lib env hnone
    rw [heq]
    exact .idle hupd
  obtain ⟨r, -, heq⟩ := execFSET_of_some lib env hkey hid
  obtain ⟨r', -, heq'⟩ := execFSET_of_some lib env' hkey' hid'
  rw [heq, heq', ho.fields]
  refine .ok (h.cols.set a.key (hcol.set a.id ?_)) h.hooks rfl
  exact ⟨ho.geo, rfl, ho.expires⟩

theorem cmdFSET_redoes (hoom : env'.oom = false) (args : List Bytes) :
    Redoes Q (cmdFSET lib env s args) (cmdFSET lib env' s' args) := by
  unfold cmdFSET
  rw [hoom]
  split
  · exact .err
  cases parseFSET lib args with
  | error e => exact .err
  | ok a => exact execFSET_redoes h a

omit [LinearOrder N] in
theorem cmdEXPIRE_redoes (name key id svalue : Bytes)
    (hex : ∀ value, parseFloatArg lib svalue = .ok value →
      ((s.cols.get? key).bind fun col => col.get? id).isSome = true →
      Q (expiresAt lib env value) (expiresAt lib env' value)) :
    Redoes Q (cmdEXPIRE lib env s [name, key, id, svalue])
      (cmdEXPIRE lib env' s' [name, key, id, svalue]) := by
  cases hvalue : parseFloatArg lib svalue with
  | error e =>
    simp only [cmdEXPIRE, hvalue]
    exact .err
  | ok value =>
    rcases h.get?_cases key id with hnone | ⟨col, col', o, o', hkey, hkey', hcol, hid, hid', ho⟩
    · obtain ⟨r, hr, heq⟩ := cmdEXPIRE_of_none env name hvalue hnone
      rw [heq]
      exact .idle hr.updated
    simp only [cmdEXPIRE, hvalue, hkey, hid, hkey', hid']
    refine .ok (h.cols.set key (hcol.set id ?_)) h.hooks rfl
    exact ⟨ho.geo, ho.fields, hex value hvalue (by rw [hkey, bind_some, hid]; rfl)⟩

theorem cmdPERSIST_redoes (h0 : Q 0 0) (args : List Bytes) :
    Redoes Q (cmdPERSIST env s args) (cmdPERSIST env' s' args) := by
  by_cases hargs : ∃ name key id, args = [name, key, id]
  · obtain ⟨name, key, id, rfl⟩ := hargs
    rcases h.get?_cases key id with hnone | ⟨col, col', o, o', hkey, hkey', hcol, hid, hid', ho⟩
    · obtain ⟨r, hr, heq⟩ := cmdPERSIST_of_none env name hnone
      rw [heq]
      exact .idle hr.updated
    have hobj : SameObject Q (⟨o.geo, 0, o.fields⟩ : Object G) ⟨o'.geo, 0, o'.fields⟩ :=
      ⟨ho.geo, ho.fields, h0⟩
    have hcols := h.cols.set key (hcol.set id hobj)
    simp only [cmdPERSIST, hkey, hid, hkey', hid']
    by_cases hex : o.expires = 0
    · rw [if_neg (not_not.mpr hex)]
      exact .idle rfl
    rw [if_pos hex]
    by_cases hex' : o'.expires = 0
    · -- nothing is left to do: the object is as it would be stored
      rw [if_neg (not_not.mpr hex')]
      have hsame : (⟨o'.geo, 0, o'.fields⟩ : Object G) = o' := by
        cases o'
        cases hex'
        rfl
      rw [hsame, set_eq_self hid', set_eq_self hkey'] at hcols
      exact fun _ => ⟨⟨hcols, h.hooks⟩, ⟨_, _, rfl⟩,
        fun hzero => absurd (hzero _ _ ho.expires hex') hex⟩
    · rw [if_pos hex']
      exact .ok hcols h.hooks rfl
  · unfold cmdPERSIST
    split
    · exact absurd ⟨_, _, _, rfl⟩ hargs
    · exact .err

theorem storeJSON_redoes (h0 : Q 0 0) (hoom : env'.oom = false) (key id : Bytes)
    {o o' : Option (Object G)}
    (ho : (o = none ∧ o' = none) ∨ ∃ a b, o = some a ∧ o' = some b ∧ SameObject Q a b)
    {col col' : Col G} (hcol : OrdMap.Rel (SameObject Q) col col') (json : Bytes) (resp : Reply G) :
    Redoes Q (storeJSON lib env s key id o col json resp)
      (storeJSON lib env' s' key id o' col' json resp) := by
  have hset : Redoes Q (cmdSET lib env s [lit "SET", key, id, lit "OBJECT", json])
      (cmdSET lib env' s' [lit "SET", key, id, lit "OBJECT", json]) := by
    refine cmdSET_redoes h hoom _ fun a geo hparse => ?_
    -- the arguments are OBJECT and a document, and no EX
    have hobject : toLower (lit "OBJECT") = lit "object" := by decide
    rw [parseSET, parseSetLoop_object lib hobject] at hparse
    cases hgeo : lib.geoParse json with
    | error text =>
      rw [hgeo] at hparse
      cases hparse
    | ok g =>
      rw [hgeo] at hparse
      cases hparse
      exact h0
  have hstring : ∀ fields : FieldList, SameObject Q (⟨.string json, 0, fields⟩ : Object G)
      ⟨.string json, 0, fields⟩ := fun _ => ⟨rfl, rfl, h0⟩
  unfold storeJSON
  rcases ho with ⟨rfl, rfl⟩ | ⟨a, b, rfl, rfl, hab⟩
  · exact .ok (h.cols.set key (hcol.set id (hstring _))) h.hooks rfl
  simp only [map_some, getD_some, hab.geo, hab.fields]
  split
  · exact hset
  · exact .ok (h.cols.set key (hcol.set id (hstring _))) h.hooks rfl

theorem cmdJset_redoes (h0 : Q 0 0) (hoom : env'.oom = false) (args : List Bytes) :
    Redoes Q (cmdJset lib env s args) (cmdJset lib env' s' args) := by
  unfold cmdJset
  dsimp only
  split
  · exact .err
  rename_i a _
  have hcol := h.col a.key
  generalize (s.cols.get? a.key).getD empty = col at hcol ⊢
  generalize (s'.cols.get? a.key).getD empty = col' at hcol ⊢
  have ho := hcol.get?_cases a.id
  rw [geoText_eq ho]
  split
  · exact .err
  · exact storeJSON_redoes h h0 hoom _ _ ho hcol _ _

theorem cmdJdel_redoes (h0 : Q 0 0) (hoom : env'.oom = false) (args : List Bytes) :
    Redoes Q (cmdJdel lib env s args) (cmdJdel lib env' s' args) := by
  unfold cmdJdel
  split
  · rename_i key id path
    rcases h.cols.get?_cases key with ⟨hkey, -⟩ | ⟨col, col', hkey, hkey', hcol⟩
    · rw [hkey]
      dsimp only
      split
      · exact .idle rfl
      · exact .err
    rw [hkey, hkey']
    dsimp only
    have ho := hcol.get?_cases id
    rw [geoText_eq ho]
    split
    · exact .err
    split
    · split
      · exact .err
      · exact .idle rfl
      · exact .idle rfl
    · exact storeJSON_redoes h h0 hoom _ _ ho hcol _ _
  · exact .err

theorem cmdSetHook_redoes (hout : env'.out = .null) {scripts scripts' : Scripts} {args : List Bytes}
    {channel : Bool} (hparse : hlib.parseHook s'.cols scripts' channel args =
      hlib.parseHook s.cols scripts channel args) :
    Redoes Q (cmdSetHook hlib env scripts s channel args)
      (cmdSetHook hlib env' scripts' s' channel args) := by
  unfold cmdSetHook
  rw [hparse, h.hooks]
  simp only [hout]
  split
  · exact .err
  split
  · exact .ok h.cols rfl rfl
  split
  · exact .err
  split
  · split
    · exact .idle rfl
    · exact .idle rfl
    · exact .ok h.cols rfl rfl
  · exact .ok h.cols rfl rfl

theorem cmdDelHook_redoes (channel : Bool) (args : List Bytes) :
    Redoes Q (cmdDelHook env s channel args) (cmdDelHook env' s' channel args) := by
  unfold cmdDelHook
  split
  · rw [h.hooks]
    split
    · exact .err
    · exact .ok h.cols rfl rfl
  · exact .err

omit [LinearOrder N] in
theorem cmdPDelHook_redoes (channel : Bool) (args : List Bytes) :
    Redoes Q (cmdPDelHook lib env s channel args) (cmdPDelHook lib env' s' channel args) := by
  unfold cmdPDelHook
  split
  · rw [h.hooks]
    split
    · exact .err
    · exact .ok h.cols rfl rfl
  · exact .err

end Redo

/-- SETHOOK or SETCHAN. -/
def setsHook (args : List Bytes) : Prop :=
  commandName args = lit "sethook" ∨ commandName args = lit "setchan"

instance (args : List Bytes) : Decidable (setsHook args) := by
  unfold setsHook
  infer_instance

/-- The command gives an object a deadline: SET with EX, or EXPIRE of an
object that is there. -/
def setsTTL (lib : ServerLib N G) (s : ServerState G) (args : List Bytes) : Bool :=
  match handlerOf (commandName args) with
  | some .set =>
    match parseSET lib args with
    | .ok (a, _) => a.ex.isSome
    | .error _ => false
  | some .expire =>
    match args with
    | [_, key, id, _] => ((s.cols.get? key).bind fun col => col.get? id).isSome
    | _ => false
  | _ => false

/-- The seconds that a SET or an EXPIRE gives, if any. -/
def seconds (lib : ServerLib N G) (args : List Bytes) : Option (F64 N) :=
  match handlerOf (commandName args) with
  | some .set =>
    match parseSET lib args with
    | .ok (a, _) => a.ex
    | .error _ => none
  | some .expire =>
    match args with
    | [_, _, _, svalue] => (parseFloatArg lib svalue).toOption
    | _ => none
  | _ => none

/-- **A command that reports an update does the same again on data that differ
in their deadlines, if it gives related deadlines.** -/
theorem command_redoes (h : Aged Q s s') (h0 : Q 0 0) (hout : env'.out = .null)
    (hoom : env'.oom = false) {args : List Bytes} {scripts scripts' : Scripts}
    (hhook : setsHook args → ∀ channel, hlib.parseHook s'.cols scripts' channel args =
      hlib.parseHook s.cols scripts channel args)
    (httl : setsTTL lib s args = true → ∀ x, seconds lib args = some x →
      Q (expiresAt lib env x) (expiresAt lib env' x)) :
    Redoes Q (command lib hlib env scripts s args) (command lib hlib env' scripts' s' args) := by
  unfold command
  dsimp only
  cases hhandler : handlerOf (commandName args) with
  | some handler =>
    unfold setsTTL seconds at httl
    rw [hhandler] at httl
    cases handler with
    | set =>
      refine cmdSET_redoes h hoom args fun a geo hparse => ?_
      simp only [hparse] at httl
      cases hex : a.ex with
      | none => exact h0
      | some x => exact httl (by rw [hex]; rfl) x hex
    | fset => exact cmdFSET_redoes h hoom args
    | del => exact cmdDEL_redoes h args
    | pdel => exact cmdPDEL_redoes h args
    | drop => exact cmdDROP_redoes h args
    | rename => exact cmdRENAME_redoes h args
    | flushdb => exact cmdFLUSHDB_redoes args
    | expire =>
      show Redoes Q (cmdEXPIRE lib env s args) (cmdEXPIRE lib env' s' args)
      by_cases hargs : ∃ name key id svalue, args = [name, key, id, svalue]
      · obtain ⟨name, key, id, svalue, rfl⟩ := hargs
        refine cmdEXPIRE_redoes h name key id svalue fun value hvalue hthere => ?_
        exact httl hthere value (by simp only [hvalue]; rfl)
      unfold cmdEXPIRE
      split
      · exact absurd ⟨_, _, _, _, rfl⟩ hargs
      · exact .err
    | persist => exact cmdPERSIST_redoes h h0 args
    | jset => exact cmdJset_redoes h h0 hoom args
    | jdel => exact cmdJdel_redoes h h0 hoom args
  | none =>
    dsimp only
    repeat' split
    · rename_i hname
      exact cmdSetHook_redoes h hout (hhook (Or.inl hname) false)
    · rename_i hname
      exact cmdSetHook_redoes h hout (hhook (Or.inr hname) true)
    · exact cmdDelHook_redoes h false args
    · exact cmdDelHook_redoes h true args
    · exact cmdPDelHook_redoes h false args
    · exact cmdPDelHook_redoes h true args
    · exact .idle rfl
    · exact .err

/-- The second outcome repeats an update reported by the first. -/
def Repeats (a b : Result G × ServerState G) : Prop :=
  a.1.updated = true → b.1.updated = true ∧ b.2 = a.2

/-- **A command that reports an update and sets no deadline does the same again
when the log is loaded.** -/
theorem command_replays (hout : env'.out = .null) (hoom : env'.oom = false)
    {args : List Bytes} {scripts : Scripts} (scripts' : Scripts)
    (hscripts : setsHook args → usesScripts args = false) (httl : setsTTL lib s args = false) :
    Repeats (command lib hlib env scripts s args) (command lib hlib env' scripts' s args) := by
  intro h
  have hsame : Aged (fun d d' => d = d') s s := aged_eq_iff.mpr rfl
  obtain ⟨haged, -, hup⟩ := command_redoes hsame rfl hout hoom
    (fun hset channel => hlib.parseHook_scripts _ _ _ channel args (hscripts hset))
    (fun hset => absurd (httl.symm.trans hset) (by simp)) h
  exact ⟨hup fun d d' hdd hd' => hdd.trans hd', (aged_eq_iff.mp haged).symm⟩

end SpatialDb.Server
