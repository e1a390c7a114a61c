import SpatialDb.Server.Fence

/-!
# The containers of the hooks

Model of the hook commands of `hooks.go`, of `backgroundExpireHooks` of
`expire.go` and of FLUSHDB as far as they keep the five containers that hold
hooks: `hooks`, `hooksOut`, `hookTree`, `hookCross` and `hookExpires`.

A hook that equals the one of its name is not stored by a client's command, but
its deadline is; while the log is loaded there is no output type and the hook is
replaced after all.  `Equals` compares the deadlines, so the deadline that is
stored is the one that is there.

The goroutine of a hook and its groups are left out, and the parser of the
search arguments is a parameter.
-/

namespace SpatialDb.Server

open Lib List OrdMap

/-! ## Hooks -/

/-- `fence.detect["cross"]`, false on a nil map. -/
def Fence.detectsCross {G A R : Type} (fence : Fence G A R) : Bool :=
  match fence.detect with
  | none => false
  | some l => .cross ∈ l

namespace Hooks

/-- `Hook`, or a channel; `expires` is `none` for the zero time. -/
structure Hook (G A R : Type) where
  name : Bytes
  channel : Bool
  fence : Fence G A R
  endpoints : List Bytes
  metas : List (Bytes × Bytes)
  /-- `Message.Args`. -/
  args : List Bytes
  expires : Option Int

section Model

variable {N G A R M K : Type}

/-- `hook.Fence.obj.Rect()`, of a static fence. -/
def Hook.rect? (lib : FenceLib G A R M K) (h : Hook G A R) : Option (Rect K) :=
  match h.fence.area with
  | .static _ area => some (lib.rect area)
  | .roaming _ => none

def Hook.Equals (h hook : Hook G A R) : Bool :=
  h.fence.key = hook.fence.key && h.name = hook.name && h.expires = hook.expires &&
    h.endpoints = hook.endpoints && h.metas = hook.metas && h.args = hook.args

/-- What a command reads besides its arguments and the containers. -/
structure HookEnv (G A R : Type) where
  out : OutputType
  now : Int
  /-- `s.epc.Validate`. -/
  validate : Bytes → Bool
  /-- `cmdSearchArgs`, which reads the collections and the scripts; `none` without FENCE. -/
  cmdSearchArgs : Bytes → List Bytes → Except Err (Option (Fence G A R))

variable (lib : ServerLib N G) (env : HookEnv G A R)

/-- The loop over the endpoints. -/
def parseEndpoints : List Bytes → Except Err (List Bytes)
  | [] => .ok []
  | url :: urls =>
    let url := trimSpace url
    if !env.validate url then .error (.invalidArgument url)
    else (parseEndpoints urls).map (url :: ·)

/-- The loop over META and EX, up to the search command. -/
def parseHookOpts (metas : OrdMap Bytes Bytes) (expires : Option (F64 N)) :
    List Bytes → Except Err (OrdMap Bytes Bytes × Option (F64 N) × Bytes × List Bytes)
  | [] => .error .invalidNumberOfArguments
  | cmd :: vs =>
    let low := toLower cmd
    if cmd = [] then .error .invalidNumberOfArguments
    else if low = lit "meta" then
      match vs with
      | metakey :: metaval :: vs =>
        if metakey = [] ∨ metaval = [] then .error .invalidNumberOfArguments
        else parseHookOpts (metas.set metakey metaval) expires vs
      | _ => .error .invalidNumberOfArguments
    else if low = lit "ex" then
      match vs with
      | s :: vs =>
        if s = [] then .error .invalidNumberOfArguments
        else
          match parseFloatArg lib s with
          | .error e => .error e
          | .ok v => parseHookOpts metas (some v) vs
      | [] => .error .invalidNumberOfArguments
    else if low ∈ [lit "nearby", lit "within", lit "intersects"] then
      .ok (metas, expires, cmd, vs)
    else .error (.invalidArgument cmd)

/-- The endpoints of a new hook, and the arguments after them. -/
def parseUrls (channel : Bool) (name : Bytes) (vs : List Bytes) :
    Except Err (List Bytes × List Bytes) :=
  if channel then .ok ([lit "local://" ++ name], vs)
  else
    match vs with
    | [] => .error .invalidNumberOfArguments
    | urls :: vs =>
      if urls = [] then .error .invalidNumberOfArguments
      else (parseEndpoints env (urls.splitOn 44)).map fun endpoints => (endpoints, vs)

/-- `cmdSetHook` up to the new hook. -/
def parseHook (channel : Bool) : List Bytes → Except Err (Hook G A R)
  | [] => .error .invalidNumberOfArguments
  | name :: vs =>
    if name = [] then .error .invalidNumberOfArguments
    else do
      let (endpoints, vs) ← parseUrls env channel name vs
      let (metas, expires, cmd, vs) ← parseHookOpts lib empty none vs
      match ← env.cmdSearchArgs (toLower cmd) vs with
      | none => .error (.other (lit "missing FENCE argument"))
      | some fence =>
        .ok { name, channel, fence, endpoints
              metas := metas.entries
              args := cmd :: vs
              expires := expires.map fun v => env.now + lib.nanos v }

end Model

/-! ## The containers -/

/-- The containers; the trees compare hooks by their addresses. -/
structure Tables (G A R K : Type) where
  hooks : OrdMap Bytes (Hook G A R) := empty
  hooksOut : OrdMap Bytes (Hook G A R) := empty
  hookTree : Multiset (Rect K × Hook G A R) := 0
  hookCross : Multiset (Rect K × Hook G A R) := 0
  hookExpires : OrdMap (Int ×ₗ Bytes) (Hook G A R) := empty

section

variable {N G A R M K : Type} [LinearOrder K] [DecidableEq (Hook G A R)]
variable (lib : ServerLib N G) (flib : FenceLib G A R M K) (env : HookEnv G A R)
variable (t : Tables G A R K) (h : Hook G A R)

/-- The removal of a hook from the ordered sets. -/
def Tables.forget : Tables G A R K :=
  { t with
    hooks := t.hooks.delete h.name
    hooksOut := t.hooksOut.delete h.name
    hookExpires := unindex Hook.expires t.hookExpires h.name h }

/-- The removal of a hook from the trees. -/
def Tables.unlink : Tables G A R K :=
  match h.rect? flib with
  | none => t
  | some rect =>
    { t with
      hookTree := t.hookTree.erase (rect, h)
      hookCross :=
        if h.fence.detectsCross then t.hookCross.erase (rect, h) else t.hookCross }

def Tables.register : Tables G A R K :=
  { t with
    hooks := t.hooks.set h.name h
    hooksOut := if h.fence.wants .outside then t.hooksOut.set h.name h else t.hooksOut }

/-- The insertion of a hook into the trees. -/
def Tables.link : Tables G A R K :=
  match h.rect? flib with
  | none => t
  | some rect =>
    { t with
      hookTree := (rect, h) ::ₘ t.hookTree
      hookCross := if h.fence.detectsCross then (rect, h) ::ₘ t.hookCross else t.hookCross }

/-- `s.hookExpires.Set(hook)`, for a hook with a deadline. -/
def Tables.schedule : Tables G A R K :=
  { t with hookExpires := index Hook.expires t.hookExpires h.name h }

variable (out : OutputType)

/-- `cmdSetHook` from the new hook on. -/
def Tables.set (t : Tables G A R K) (hook : Hook G A R) : Result G × Tables G A R K :=
  match t.hooks.get? hook.name with
  | none =>
    (.ok (reply { out } (.int 1)) { updated := true },
      ((t.register hook).link flib hook).schedule hook)
  | some prevHook =>
    if prevHook.channel ≠ hook.channel then
      (.err (.other (lit "hooks and channels cannot share the same name")), t)
    else
      let equals := prevHook.Equals hook
      let t := if equals then t.schedule hook else t
      if equals ∧ (out = .json ∨ out = .resp) then (.ok (reply { out } (.int 0)) {}, t)
      else
        (.ok (reply { out } (.int 1)) { updated := true },
          ((((t.forget prevHook).register hook).unlink flib prevHook).link flib hook).schedule hook)

/-- SETHOOK and SETCHAN. -/
def cmdSetHook (channel : Bool) (args : List Bytes) : Result G × Tables G A R K :=
  match parseHook lib env channel args.tail with
  | .error e => (.err e, t)
  | .ok hook => t.set flib env.out hook

def cmdDELHOOKop (name : Bytes) (channel : Bool) : Bool × Tables G A R K :=
  match t.hooks.get? name with
  | none => (false, t)
  | some hook =>
    if hook.channel ≠ channel then (false, t) else (true, (t.forget hook).unlink flib hook)

/-- DELHOOK and DELCHAN. -/
def cmdDelHook (t : Tables G A R K) (channel : Bool) (args : List Bytes) :
    Result G × Tables G A R K :=
  match args with
  | [_, name] =>
    if name = [] then (.err .invalidNumberOfArguments, t)
    else
      let (updated, t) := cmdDELHOOKop flib t name channel
      (.ok (reply { out } (.int (if updated then 1 else 0))) { updated }, t)
  | _ => (.err .invalidNumberOfArguments, t)

/-- `forEachHookByPattern`: the hooks it visits. -/
def hooksByPattern (pattern : Bytes) (channel : Bool) : List (Hook G A R) :=
  let limits := (Glob.parse pattern false).limits
  let visited := (t.hooks.ascend limits.1).takeWhile fun e =>
    ¬ (limits.2 ≠ [] ∧ limits.2 < e.2.name)
  (visited.map Prod.snd).filter fun h =>
    h.channel = channel && Glob.wildcardMatch pattern h.name = .ok true

/-- PDELHOOK and PDELCHAN. -/
def cmdPDelHook (t : Tables G A R K) (channel : Bool) (args : List Bytes) :
    Result G × Tables G A R K :=
  match args with
  | [_, pattern] =>
    if pattern = [] then (.err .invalidNumberOfArguments, t)
    else
      let hooks := hooksByPattern t pattern channel
      (.ok (reply { out } (.int hooks.length)) { updated := hooks.length > 0 },
        hooks.foldl (fun t hook => (cmdDELHOOKop flib t hook.name channel).2) t)
  | _ => (.err .invalidNumberOfArguments, t)

/-- The hooks, or the channels, are deleted. -/
def dropHooks (channel : Bool) (t : Tables G A R K) : Tables G A R K :=
  let names := (t.hooks.values.filter fun h => h.channel = channel).map fun h => h.name
  names.foldl (fun t name => (cmdDELHOOKop flib t name channel).2) t

/-- FLUSHDB; at its end the containers are cleared. -/
def cmdFLUSHDB (t : Tables G A R K) (args : List Bytes) : Result G × Tables G A R K :=
  match args with
  | [_] =>
    let t := dropHooks flib false (dropHooks flib true t)
    (.ok (if out = .json then .okJson else .okText)
        { command := lit "flushdb", updated := true },
      { t with
        hooks := empty, hooksOut := empty, hookTree := 0, hookCross := 0
        hookExpires := empty })
  | _ => (.err .invalidNumberOfArguments, t)

/-- The message of the sweep for one hook; an error of `cmdDelHook` ends the
process. -/
def expireHook : Option (Tables G A R K) :=
  match cmdDelHook flib .null t h.channel
    [if h.channel then lit "delchan" else lit "delhook", h.name] with
  | (.err _, _) => none
  | (_, t) => some t

/-- `backgroundExpireHooks`: the hooks up to the first that is not due. -/
def backgroundExpireHooks (now : Int) (t : Tables G A R K) : Option (Tables G A R K) :=
  let due := t.hookExpires.values.takeWhile fun h => !h.expires.any fun deadline => now < deadline
  due.foldlM (expireHook flib) t

/-! ## Runs -/

/-- A command of a client, of the log or of a leader; or the sweep. -/
inductive Op (G A R : Type) where
  | command (env : HookEnv G A R) (args : List Bytes)
  | expire (now : Int)

/-- The cases of `command` that are about hooks. -/
def command (args : List Bytes) : Result G × Tables G A R K :=
  let name := toLower (args.headD [])
  if name = lit "sethook" then cmdSetHook lib flib env t false args
  else if name = lit "setchan" then cmdSetHook lib flib env t true args
  else if name = lit "delhook" then cmdDelHook flib env.out t false args
  else if name = lit "delchan" then cmdDelHook flib env.out t true args
  else if name = lit "pdelhook" then cmdPDelHook flib env.out t false args
  else if name = lit "pdelchan" then cmdPDelHook flib env.out t true args
  else if name = lit "flushdb" then cmdFLUSHDB flib env.out t args
  else (.err (.unknownCommand name), t)

def step : Op G A R → Option (Tables G A R K)
  | .command env args => some (command lib flib env t args).2
  | .expire now => backgroundExpireHooks flib now t

/-- The containers after a run that starts with none; `none` if the process has
ended. -/
def run (ops : List (Op G A R)) : Option (Tables G A R K) := ops.foldlM (step lib flib) {}

end

/-! ## The containers agree with the hooks -/

variable {N G A R M K : Type} (flib : FenceLib G A R M K)

/-- The entry of a hook in `hookTree`, if its fence has an object. -/
def treeEntry (h : Hook G A R) : Option (Rect K × Hook G A R) :=
  (h.rect? flib).map fun rect => (rect, h)

/-- The entry of a hook in `hookCross`. -/
def crossEntry (h : Hook G A R) : Option (Rect K × Hook G A R) :=
  if h.fence.detectsCross then treeEntry flib h else none

/-- An entry as a multiset with at most one element. -/
def one {β : Type} (entry : Hook G A R → Option β) (h : Hook G A R) : Multiset β :=
  (entry h).elim 0 fun e => {e}

/-- Every container holds what it should of the hooks; `hookExpires` may hold an
equal hook in the place of the one that is stored. -/
structure Tables.Inv (t : Tables G A R K) : Prop where
  named : ∀ name h, t.hooks.get? name = some h → h.name = name
  nonempty : t.hooks.get? [] = none
  out : ∀ name, t.hooksOut.get? name = (t.hooks.get? name).filter fun h => h.fence.wants .outside
  tree : t.hookTree = t.hooks.total fun _ h => one (treeEntry flib) h
  cross : t.hookCross = t.hooks.total fun _ h => one (crossEntry flib) h
  expires : IndexesKeys Hook.expires t.hookExpires t.hooks
  own : ∀ deadline name h, t.hookExpires.get? (toLex (deadline, name)) = some h →
    h.name = name ∧ h.expires = some deadline

variable {flib} {t : Tables G A R K} {h : Hook G A R}

theorem Tables.inv_empty : ({} : Tables G A R K).Inv flib :=
  ⟨by simp, rfl, by simp, rfl, rfl, .empty _, by simp⟩

variable {hook : Hook G A R}

private theorem name_parseHook {lib : ServerLib N G} {env : HookEnv G A R} {channel : Bool}
    {args : List Bytes} (h : parseHook lib env channel args = .ok hook) :
    hook.name ≠ [] := by
  unfold parseHook at h
  split at h
  · cases h
  split at h
  · cases h
  rename_i name vs hname
  simp only [bind, Except.bind] at h
  split at h
  · cases h
  split at h
  · cases h
  split at h
  · cases h
  split at h
  · cases h
  · cases h
    exact hname

theorem Tables.link_eq (t : Tables G A R K) (h : Hook G A R) : t.link flib h = { t with
      hookTree := one (treeEntry flib) h + t.hookTree
      hookCross := one (crossEntry flib) h + t.hookCross } := by
  unfold Tables.link one crossEntry treeEntry
  cases h.rect? flib with
  | none => simp
  | some rect =>
    cases h.fence.detectsCross <;> simp

theorem Hook.Equals.expires_eq {h hook : Hook G A R} (heq : h.Equals hook = true) :
    hook.expires = h.expires := by
  simp only [Hook.Equals, Bool.and_eq_true, decide_eq_true_eq] at heq
  exact heq.1.1.1.2.symm

section

variable (hinv : t.Inv flib)
include hinv

/-- Only the hook that is put in is new among the deadlines. -/
theorem Tables.Inv.own_index {deadline : Int} {name : Bytes} {h' : Hook G A R}
    (hget : (index Hook.expires t.hookExpires h.name h).get? (toLex (deadline, name)) = some h') :
    h'.name = name ∧ h'.expires = some deadline := by
  obtain hold | ⟨rfl, hkey, rfl⟩ := get?_of_index hget
  · exact hinv.own deadline name h' hold
  · exact ⟨rfl, hkey⟩

/-- A hook is put into the containers, where its name is free. -/
theorem Tables.Inv.add (hname : h.name ≠ []) (hfree : t.hooks.get? h.name = none) :
    (((t.register h).link flib h).schedule h).Inv flib := by
  rw [Tables.link_eq]
  refine ⟨?_, ?_, ?_, ?_, ?_, hinv.expires.set hfree h, ?_⟩
  · exact forall_get?_set hinv.named rfl
  · show (t.hooks.set h.name h).get? [] = none
    rw [get?_set, if_neg fun heq => hname heq.symm]
    exact hinv.nonempty
  · exact get?_filter_set hinv.out hfree
  · show one (treeEntry flib) h + t.hookTree = _
    rw [hinv.tree]
    exact (total_set _ h hfree).symm
  · show one (crossEntry flib) h + t.hookCross = _
    rw [hinv.cross]
    exact (total_set _ h hfree).symm
  · exact fun _ _ _ => hinv.own_index

/-- The deadline of an equal hook is the one that is there. -/
theorem Tables.Inv.schedule
    (hget : t.hooks.get? hook.name = some h) (hexpires : hook.expires = h.expires) :
    (t.schedule hook).Inv flib := by
  exact ⟨hinv.named, hinv.nonempty, hinv.out, hinv.tree, hinv.cross,
    hinv.expires.touch hget hexpires, fun _ _ _ => hinv.own_index⟩

/-- A deadline is that of a stored hook. -/
theorem Tables.Inv.of_mem_expires (hmem : h ∈ t.hookExpires.values) :
    ∃ deadline h', h.expires = some deadline ∧ t.hooks.get? h.name = some h' ∧
      h'.expires = some deadline := by
  obtain ⟨i, hget⟩ := (t.hookExpires.mem_values_iff h).mp hmem
  obtain ⟨hname, hdeadline⟩ := hinv.own (ofLex i).1 (ofLex i).2 h hget
  obtain ⟨h', hstored, hexpires⟩ := (hinv.expires (ofLex i).1 (ofLex i).2).mp ⟨h, hget⟩
  exact ⟨_, h', hdeadline, hname ▸ hstored, hexpires⟩

end

section

variable [LinearOrder K] [DecidableEq (Hook G A R)]

theorem Tables.unlink_eq (t : Tables G A R K) (h : Hook G A R) : t.unlink flib h = { t with
      hookTree := t.hookTree - one (treeEntry flib) h
      hookCross := t.hookCross - one (crossEntry flib) h } := by
  unfold Tables.unlink one crossEntry treeEntry
  cases h.rect? flib with
  | none => simp
  | some rect =>
    cases h.fence.detectsCross <;> simp [Multiset.sub_singleton]

/-- The stored hook of a name is taken out of every container. -/
theorem Tables.Inv.remove (hinv : t.Inv flib) (hget : t.hooks.get? h.name = some h) :
    ((t.forget h).unlink flib h).Inv flib := by
  rw [Tables.unlink_eq]
  refine ⟨?_, ?_, ?_, ?_, ?_, hinv.expires.delete hget, ?_⟩
  · exact forall_get?_delete hinv.named h.name
  · rw [Tables.forget, get?_delete]
    split
    · rfl
    · exact hinv.nonempty
  · exact get?_filter_delete hinv.out h.name
  · show t.hookTree - one (treeEntry flib) h = _
    rw [hinv.tree, total_eq_add_delete _ hget, add_tsub_cancel_left]
    rfl
  · show t.hookCross - one (crossEntry flib) h = _
    rw [hinv.cross, total_eq_add_delete _ hget, add_tsub_cancel_left]
    rfl
  · exact fun deadline name h' hget' => hinv.own deadline name h' (get?_of_unindex hget')

/-- The containers after the hook of a name is replaced: its removal from the
trees waits until the new one is registered. -/
theorem Tables.replace_eq (t : Tables G A R K) (prevHook hook : Hook G A R) :
    ((t.forget prevHook).register hook).unlink flib prevHook =
      ((t.forget prevHook).unlink flib prevHook).register hook := by
  rw [Tables.unlink_eq, Tables.unlink_eq]
  rfl

section

variable (hinv : t.Inv flib)
include hinv

theorem Tables.Inv.set (out : OutputType) (hname : hook.name ≠ []) :
    (t.set flib out hook).2.Inv flib := by
  unfold Tables.set
  cases hget : t.hooks.get? hook.name with
  | none => exact hinv.add hname hget
  | some prevHook =>
    have hprev : prevHook.name = hook.name := hinv.named _ _ hget
    dsimp only
    by_cases hchannel : prevHook.channel ≠ hook.channel
    · rw [if_pos hchannel]
      exact hinv
    rw [if_neg hchannel]
    -- the containers with the deadline of an equal hook
    have hscheduled : (if prevHook.Equals hook then t.schedule hook else t).Inv flib := by
      split_ifs with hequals
      · exact hinv.schedule hget (Hook.Equals.expires_eq hequals)
      · exact hinv
    have hhooks : (if prevHook.Equals hook then t.schedule hook else t).hooks = t.hooks := by
      split <;> rfl
    generalize (if prevHook.Equals hook then t.schedule hook else t) = t' at hscheduled hhooks
    split
    · exact hscheduled
    have hget' : t'.hooks.get? prevHook.name = some prevHook := by rw [hhooks, hprev, hget]
    rw [Tables.replace_eq]
    refine (hscheduled.remove hget').add hname ?_
    rw [Tables.unlink_eq]
    show (t'.hooks.delete prevHook.name).get? hook.name = none
    rw [hprev, get?_delete_self]

theorem Tables.Inv.cmdDELHOOKop (name : Bytes) (channel : Bool) :
    (cmdDELHOOKop flib t name channel).2.Inv flib := by
  unfold Hooks.cmdDELHOOKop
  cases hget : t.hooks.get? name with
  | none => exact hinv
  | some hook =>
    dsimp only
    split
    · exact hinv
    · exact hinv.remove (by rw [hinv.named _ _ hget, hget])

/-! ## Runs -/

variable (out : OutputType) (channel : Bool) (args : List Bytes)

theorem Tables.Inv.cmdDelHook : (cmdDelHook flib out t channel args).2.Inv flib := by
  unfold Hooks.cmdDelHook
  split
  · split
    · exact hinv
    · exact hinv.cmdDELHOOKop _ channel
  · exact hinv

theorem Tables.Inv.cmdPDelHook : (cmdPDelHook flib out t channel args).2.Inv flib := by
  unfold Hooks.cmdPDelHook
  split
  · split
    · exact hinv
    · exact List.foldlRecOn _ _ hinv fun t ht hook _ => ht.cmdDELHOOKop hook.name channel
  · exact hinv

theorem Tables.Inv.cmdFLUSHDB : (cmdFLUSHDB flib out t args).2.Inv flib := by
  unfold Hooks.cmdFLUSHDB
  split
  · exact Tables.inv_empty
  · exact hinv

variable (lib : ServerLib N G)

theorem Tables.Inv.cmdSetHook (env : HookEnv G A R)
    (channel : Bool) (args : List Bytes) :
    (cmdSetHook lib flib env t channel args).2.Inv flib := by
  unfold Hooks.cmdSetHook
  split
  · exact hinv
  · rename_i hook hparse
    exact hinv.set env.out (name_parseHook hparse)

theorem Tables.Inv.command (env : HookEnv G A R)
    (args : List Bytes) : (command lib flib env t args).2.Inv flib := by
  unfold Hooks.command
  dsimp only
  split_ifs
  · exact hinv.cmdSetHook lib env false args
  · exact hinv.cmdSetHook lib env true args
  · exact hinv.cmdDelHook env.out false args
  · exact hinv.cmdDelHook env.out true args
  · exact hinv.cmdPDelHook env.out false args
  · exact hinv.cmdPDelHook env.out true args
  · exact hinv.cmdFLUSHDB env.out args
  · exact hinv

/-- A hook with a name is deleted without an error. -/
theorem Tables.Inv.expireHook (hname : h.name ≠ []) :
    ∃ t', expireHook flib t h = some t' ∧ t'.Inv flib := by
  have hdel := hinv.cmdDELHOOKop h.name h.channel
  unfold Hooks.expireHook Hooks.cmdDelHook
  dsimp only
  rw [if_neg hname]
  exact ⟨_, rfl, hdel⟩

theorem Tables.Inv.foldlM_expireHook {due : List (Hook G A R)} (hdue : ∀ h ∈ due, h.name ≠ []) :
    ∃ t', due.foldlM (Hooks.expireHook flib) t = some t' ∧ t'.Inv flib := by
  induction due generalizing t with
  | nil => exact ⟨t, rfl, hinv⟩
  | cons h due ih =>
    obtain ⟨hname, hdue⟩ := forall_mem_cons.mp hdue
    obtain ⟨t', ht', hinv'⟩ := hinv.expireHook hname
    rw [foldlM_cons, ht']
    exact ih hinv' hdue

theorem Tables.Inv.backgroundExpireHooks (now : Int) :
    ∃ t', backgroundExpireHooks flib now t = some t' ∧ t'.Inv flib := by
  refine hinv.foldlM_expireHook fun h hmem => ?_
  -- a deadline is that of a stored hook, and stored hooks have names
  obtain ⟨_, h', -, hstored, -⟩ := hinv.of_mem_expires ((takeWhile_sublist _).subset hmem)
  intro hempty
  rw [hempty, hinv.nonempty] at hstored
  cases hstored

theorem Tables.Inv.step (op : Op G A R) : ∃ t', step lib flib t op = some t' ∧ t'.Inv flib := by
  cases op with
  | command env args => exact ⟨_, rfl, hinv.command lib env args⟩
  | expire now => exact hinv.backgroundExpireHooks now

end

private theorem inv_foldlM (lib : ServerLib N G) (hinv : t.Inv flib) (ops : List (Op G A R)) :
    ∃ t', ops.foldlM (Hooks.step lib flib) t = some t' ∧ t'.Inv flib := by
  induction ops generalizing t with
  | nil => exact ⟨t, rfl, hinv⟩
  | cons op ops ih =>
    obtain ⟨t', ht', hinv'⟩ := hinv.step lib op
    rw [foldlM_cons, ht']
    exact ih hinv'

theorem run_inv {lib : ServerLib N G} {ops : List (Op G A R)} (hrun : run lib flib ops = some t) :
    t.Inv flib := by
  have hempty : ({} : Tables G A R K).Inv flib := Tables.inv_empty
  obtain ⟨t', ht', hinv⟩ := inv_foldlM lib hempty ops
  cases hrun.symm.trans ht'
  exact hinv

end

/-! ## What the containers hold -/

theorem Tables.Inv.mem_values (hinv : t.Inv flib) :
    h ∈ t.hooks.values ↔ t.hooks.get? h.name = some h := by
  rw [mem_values_iff]
  constructor
  · rintro ⟨name, hget⟩
    rw [hinv.named name h hget, hget]
  · exact fun hget => ⟨h.name, hget⟩

theorem Tables.Inv.nodup_names (hinv : t.Inv flib) :
    (t.hooks.values.map fun h => h.name).Nodup := by
  have hkeys : (t.hooks.values.map fun h => h.name) = t.hooks.entries.map Prod.fst := by
    rw [values, map_map]
    refine map_congr_left fun e he => ?_
    exact hinv.named e.1 e.2 ((t.hooks.mem_entries_iff e.1 e.2).mp he)
  rw [hkeys]
  exact t.hooks.nodup_keys

theorem Tables.Inv.mem_values_out (hinv : t.Inv flib) :
    h ∈ t.hooksOut.values ↔ t.hooks.get? h.name = some h ∧ h.fence.wants .outside = true := by
  rw [mem_values_iff]
  simp only [hinv.out, Option.filter_eq_some_iff]
  constructor
  · rintro ⟨name, hget, hout⟩
    exact ⟨by rw [hinv.named name h hget, hget], hout⟩
  · exact fun hget => ⟨h.name, hget⟩

private theorem wants_outside_iff :
    h.fence.wants .outside = true ↔ ∀ l ∈ h.fence.detect, Detect.outside ∈ l := by
  unfold Fence.wants
  cases h.fence.detect <;> simp

theorem total_one (entry : Hook G A R → Option (Rect K × Hook G A R))
    (m : OrdMap Bytes (Hook G A R)) :
    (m.total fun _ h => one entry h) = (m.values.filterMap entry : List _) := by
  rw [values, filterMap_map]
  exact total_elim (fun _ => entry) m

section

variable {e : Rect K × Hook G A R}

theorem treeEntry_eq_some : treeEntry flib h = some e ↔ h = e.2 ∧ e.2.rect? flib = some e.1 := by
  obtain ⟨rect, h'⟩ := e
  rw [treeEntry, Option.map_eq_some_iff]
  constructor
  · rintro ⟨_, hrect, heq⟩
    cases heq
    exact ⟨rfl, hrect⟩
  · rintro ⟨rfl, hrect⟩
    exact ⟨rect, hrect, rfl⟩

theorem Tables.Inv.mem_tree (hinv : t.Inv flib) : e ∈ t.hookTree ↔
    t.hooks.get? e.2.name = some e.2 ∧ e.2.rect? flib = some e.1 := by
  rw [hinv.tree, total_one, Multiset.mem_coe, mem_filterMap]
  constructor
  · rintro ⟨h, hmem, hentry⟩
    obtain ⟨rfl, hrect⟩ := treeEntry_eq_some.mp hentry
    exact ⟨hinv.mem_values.mp hmem, hrect⟩
  · rintro ⟨hget, hrect⟩
    exact ⟨e.2, hinv.mem_values.mpr hget, treeEntry_eq_some.mpr ⟨rfl, hrect⟩⟩

theorem Tables.Inv.mem_cross (hinv : t.Inv flib) : e ∈ t.hookCross ↔
    (t.hooks.get? e.2.name = some e.2 ∧ e.2.rect? flib = some e.1) ∧
      e.2.fence.detectsCross = true := by
  have hentry : ∀ h : Hook G A R, crossEntry flib h = some e ↔
      h.fence.detectsCross = true ∧ treeEntry flib h = some e := by
    intro h
    rw [crossEntry]
    split_ifs with hcross <;> simp [hcross]
  rw [← hinv.mem_tree, hinv.cross, hinv.tree, total_one, total_one]
  simp only [Multiset.mem_coe, mem_filterMap, hentry]
  constructor
  · rintro ⟨h, hmem, hcross, htree⟩
    exact ⟨⟨h, hmem, htree⟩, (treeEntry_eq_some.mp htree).1 ▸ hcross⟩
  · rintro ⟨⟨h, hmem, htree⟩, hcross⟩
    exact ⟨h, hmem, (treeEntry_eq_some.mp htree).1 ▸ hcross, htree⟩

end

theorem Tables.Inv.exists_mem_expires (hinv : t.Inv flib) (name : Bytes) (deadline : Int) :
    (∃ h ∈ t.hookExpires.values, h.name = name ∧ h.expires = some deadline) ↔
      ∃ h ∈ t.hooks.values, h.name = name ∧ h.expires = some deadline := by
  constructor
  · rintro ⟨h, hmem, rfl, hexpires⟩
    obtain ⟨_, h', hdeadline, hstored, hexpires'⟩ := hinv.of_mem_expires hmem
    have hname := hinv.named _ _ hstored
    refine ⟨h', hinv.mem_values.mpr (by rw [hname, hstored]), hname, ?_⟩
    rw [hexpires', ← hdeadline, hexpires]
  · rintro ⟨h, hmem, rfl, hexpires⟩
    obtain ⟨h', hget⟩ := (hinv.expires deadline h.name).mpr ⟨h, hinv.mem_values.mp hmem, hexpires⟩
    exact ⟨h', (mem_values_iff _ _).mpr ⟨_, hget⟩, hinv.own deadline h.name h' hget⟩

theorem Tables.Inv.nodup_expires (hinv : t.Inv flib) :
    (t.hookExpires.values.map fun h => (h.name, h.expires)).Nodup := by
  have hkeys : (t.hookExpires.values.map fun h => (h.name, h.expires)) =
      t.hookExpires.entries.map fun e => ((ofLex e.1).2, some (ofLex e.1).1) := by
    rw [values, map_map]
    refine map_congr_left fun e he => ?_
    obtain ⟨hname, hexpires⟩ := hinv.own (ofLex e.1).1 (ofLex e.1).2 e.2
      ((t.hookExpires.mem_entries_iff e.1 e.2).mp he)
    exact Prod.ext hname hexpires
  rw [hkeys]
  refine pairwise_map.mpr (t.hookExpires.sorted.imp fun hlt heq => hlt.ne ?_)
  obtain ⟨hname, hdeadline⟩ := Prod.mk.inj heq
  exact ofLex.injective (Prod.ext (Option.some.inj hdeadline) hname)

/-- The names and deadlines of `hookExpires` are those of the hooks. -/
theorem Tables.Inv.perm_expires (hinv : t.Inv flib) :
    (t.hookExpires.values.map fun h => (h.name, h.expires)).Perm
      ((t.hooks.values.filter fun h => h.expires.isSome).map fun h => (h.name, h.expires)) := by
  have hnodup : ((t.hooks.values.filter fun h => h.expires.isSome).map
      fun h => (h.name, h.expires)).Nodup := by
    refine .of_map Prod.fst ?_
    rw [map_map]
    exact hinv.nodup_names.sublist (filter_sublist.map _)
  refine (perm_ext_iff_of_nodup hinv.nodup_expires hnodup).mpr ?_
  rintro ⟨name, expires⟩
  simp only [mem_map, mem_filter, Prod.mk.injEq]
  cases expires with
  | none =>
    refine iff_of_false ?_ ?_
    · rintro ⟨h, hmem, -, hnone⟩
      obtain ⟨_, -, hsome, -⟩ := hinv.of_mem_expires hmem
      cases hnone.symm.trans hsome
    · rintro ⟨h, ⟨-, hsome⟩, -, hnone⟩
      rw [hnone] at hsome
      cases hsome
  | some deadline =>
    refine (hinv.exists_mem_expires name deadline).trans (exists_congr fun h => ?_)
    constructor
    · rintro ⟨hmem, hname, hexpires⟩
      exact ⟨⟨hmem, by rw [hexpires]; rfl⟩, hname, hexpires⟩
    · rintro ⟨⟨hmem, -⟩, hname, hexpires⟩
      exact ⟨hmem, hname, hexpires⟩

/-- **After every run of the hook commands, FLUSHDB and the sweeps, whether a
client, the log or a leader gave the commands,** names are not shared, and every
container holds exactly the hooks it is for: `hooksOut` those that detect
`outside`, the trees those with an object and those of them that detect
`cross`, each once, and `hookExpires` one hook for each name and deadline. -/
theorem run_indexes_hooks [LinearOrder K] [DecidableEq (Hook G A R)] (lib : ServerLib N G)
    (flib : FenceLib G A R M K) (ops : List (Op G A R)) :
    ∃ t, run lib flib ops = some t ∧
      (t.hooks.values.map fun h => h.name).Nodup ∧
      (∀ h, h ∈ t.hooksOut.values ↔
        h ∈ t.hooks.values ∧ ∀ l ∈ h.fence.detect, Detect.outside ∈ l) ∧
      t.hookTree = (t.hooks.values.filterMap (treeEntry flib) : List _) ∧
      t.hookCross = (t.hooks.values.filterMap (crossEntry flib) : List _) ∧
      (t.hookExpires.values.map fun h => (h.name, h.expires)).Perm
        ((t.hooks.values.filter fun h => h.expires.isSome).map fun h => (h.name, h.expires)) := by
  have hempty : ({} : Tables G A R K).Inv flib := Tables.inv_empty
  obtain ⟨t, hrun, hinv⟩ := inv_foldlM lib hempty ops
  refine ⟨t, hrun, hinv.nodup_names, fun h => ?_, ?_, ?_, hinv.perm_expires⟩
  · rw [hinv.mem_values_out, hinv.mem_values, wants_outside_iff]
  · rw [hinv.tree, total_one]
  · rw [hinv.cross, total_one]

/-! ## The hooks of the command switch -/

/-- The texts that the command switch compares, for those that `Equals` does. -/
structure Texts (G A R : Type) where
  desc : Hook G A R → List Bytes
  desc_eq : ∀ h h', desc h = desc h' ↔
    h.endpoints = h'.endpoints ∧ h.metas = h'.metas ∧ h.args = h'.args

section Shows

variable (texts : Texts G A R)

def Hook.summary (h : Hook G A R) : Server.Hook := ⟨h.fence.key, h.channel, texts.desc h⟩

/-- The hooks of the command switch are those of the containers; none expires. -/
structure Shows (hooks : OrdMap Bytes Server.Hook) (t : Tables G A R K) : Prop where
  same : ∀ name, hooks.get? name = (t.hooks.get? name).map (Hook.summary texts)
  kept : ∀ name h, t.hooks.get? name = some h → h.name = name ∧ h.expires = none

variable {texts} {hooks : OrdMap Bytes Server.Hook}

private theorem summary_eq_iff (hname : h.name = hook.name) (hexpires : h.expires = hook.expires)
    (hchannel : h.channel = hook.channel) :
    h.summary texts = hook.summary texts ↔ h.Equals hook = true := by
  simp [Hook.summary, Hook.Equals, texts.desc_eq, hname, hexpires, hchannel, and_assoc]

theorem Shows.set (hshows : Shows texts hooks t) (hforever : hook.expires = none)
    {t' : Tables G A R K}
    (ht' : ∀ name, t'.hooks.get? name = (t.hooks.set hook.name hook).get? name) :
    Shows texts (hooks.set hook.name (hook.summary texts)) t' := by
  constructor
  · intro name
    rw [ht', get?_set, get?_set, hshows.same]
    split <;> rfl
  · intro name h'
    rw [ht']
    exact forall_get?_set hshows.kept ⟨rfl, hforever⟩ name h'

variable [LinearOrder K] [DecidableEq (Hook G A R)]

/-- The deletions of a hook agree, and with them the commands made of them. -/
theorem Shows.delHookOp (hshows : Shows texts hooks t) (name : Bytes) (channel : Bool) :
    let r := delHookOp hooks name channel
    let r' := cmdDELHOOKop flib t name channel
    r.1 = r'.1 ∧ Shows texts r.2 r'.2 := by
  unfold Server.delHookOp cmdDELHOOKop
  rw [hshows.same]
  cases hget : t.hooks.get? name with
  | none => exact ⟨rfl, hshows⟩
  | some hook =>
    have hshown : (hook.summary texts).channel = hook.channel := rfl
    simp only [Option.map_some, hshown]
    split
    · exact ⟨rfl, hshows⟩
    rw [Tables.unlink_eq, Tables.forget, (hshows.kept _ _ hget).1]
    refine ⟨rfl, fun name' => ?_, forall_get?_delete hshows.kept name⟩
    rw [get?_delete, get?_delete, hshows.same]
    split <;> rfl

/-- **SETHOOK and SETCHAN of the command switch and of the containers agree**, for
the hook that both read from the arguments. -/
theorem Shows.cmdSetHook {lib : ServerLib N G} {henv : HookEnv G A R} {hlib : HookLib G}
    {env : Env} (hout : env.out = henv.out) {s : ServerState G} (hshows : Shows texts s.hooks t)
    {scripts : Scripts} {channel : Bool} {args : List Bytes}
    (hparse : hlib.parseHook s.cols scripts channel args =
      (parseHook lib henv channel args.tail).map fun h => (h.name, h.fence.key, texts.desc h))
    (hnew : ∀ h, parseHook lib henv channel args.tail = .ok h →
      h.channel = channel ∧ h.expires = none) :
    let r := Server.cmdSetHook hlib env scripts s channel args
    let r' := cmdSetHook lib flib henv t channel args
    r.1 = r'.1 ∧ Shows texts r.2.hooks r'.2 := by
  have hreply : ∀ r : Reply G, reply env r = reply { out := henv.out } r := by
    intro r
    rw [reply, reply, hout]
  unfold Server.cmdSetHook Hooks.cmdSetHook
  rw [hparse]
  cases hread : parseHook lib henv channel args.tail with
  | error e => exact ⟨rfl, hshows⟩
  | ok hook =>
    obtain ⟨rfl, hforever⟩ := hnew hook hread
    simp only [Except.map, Tables.set, hshows.same hook.name, hreply, hout]
    cases hget : t.hooks.get? hook.name with
    | none => exact ⟨rfl, hshows.set hforever fun name => by rw [Tables.link_eq]; rfl⟩
    | some prev =>
      obtain ⟨hname, hprev⟩ := hshows.kept _ _ hget
      have hstore : ∀ t' : Tables G A R K, t'.hooks = t.hooks →
          Shows texts (s.hooks.set hook.name (hook.summary texts))
            ((((t'.forget prev).register hook).unlink flib prev).link flib hook
              |>.schedule hook) := by
        intro t' ht'
        refine hshows.set hforever fun name => ?_
        rw [Tables.link_eq, Tables.unlink_eq]
        show ((t'.hooks.delete prev.name).set hook.name hook).get? name = _
        rw [ht', hname, get?_set, get?_set]
        split_ifs with hsame
        · rfl
        · exact get?_delete_ne _ hsame
      have hshown : (prev.summary texts).channel = prev.channel := rfl
      simp only [Option.map_some, hshown]
      by_cases hchannel : prev.channel ≠ hook.channel
      · rw [if_pos hchannel, if_pos hchannel]
        exact ⟨rfl, hshows⟩
      rw [if_neg hchannel, if_neg hchannel]
      have heq : prev.summary texts = ⟨hook.fence.key, hook.channel, texts.desc hook⟩ ↔ _ :=
        summary_eq_iff hname (hprev.trans hforever.symm) (not_not.mp hchannel)
      simp only [heq]
      cases prev.Equals hook with
      | false => exact ⟨rfl, hstore t rfl⟩
      | true =>
        cases henv.out with
        | json | resp => exact ⟨rfl, hshows.same, hshows.kept⟩
        | null | telnet | native | http | webSocket => exact ⟨rfl, hstore (t.schedule hook) rfl⟩

end Shows

end Hooks

end SpatialDb.Server
