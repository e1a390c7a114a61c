import SpatialDb.Server.Deadline
import SpatialDb.Server.Follow

/-!
# A leader and its follower

The two servers side by side: the leader takes requests, its log goes command
by command to `followHandleCommand` of the follower, and both make passes of
`backgroundExpiring`, each by its own clock.  Either way a server appends to its
own log.  The connection is not lost; it ends when the follower fails on a
command.
-/

namespace SpatialDb.Server

open Lib List OrdMap

/-! ## Model -/

def Follower.expire {G : Type} (f : Follower G) (now : Int) (due : List (Bool × Bytes)) :
    Follower G :=
  let x := backgroundExpiring now due f.st
  let log := x.2.flatMap encodeCommand
  ⟨x.1, f.aof ++ log, f.aofsz + log.length⟩

structure Pair (G : Type) where
  leader : Leader G
  follower : Follower G
  /-- Where the next command begins in the leader's log; nothing after the
  follower has failed on one. -/
  pos : Option Nat

/-- What happens to one of the two. -/
inductive Action where
  | leader (e : LeaderEvent)
  /-- The next command reaches the follower, if there is one. -/
  | deliver (now : Int)
  /-- A pass of the follower. -/
  | expire (now : Int) (due : List (Bool × Bytes))

/-- Two servers with empty files. -/
def Pair.start {G : Type} : Pair G := ⟨Leader.start, ⟨ServerState.empty, [], 0⟩, some 0⟩

section

variable {N G : Type} [LinearOrder N] (lib : ServerLib N G) (hlib : HookLib G) (rd : CommandReader)
variable (p : Pair G)

/-- One round of the loop in `followStep`. -/
def Pair.deliver (now : Int) : Pair G :=
  match p.pos with
  | none => p
  | some pos =>
    match rd.read (p.leader.aof.drop pos) with
    | .more => p
    | .bad => { p with pos := none }
    | .done args rest =>
      match followHandleCommand lib hlib now p.follower args with
      | .error _ => { p with pos := none }
      | .ok follower => { p with follower, pos := some (p.leader.aof.length - rest.length) }

def Pair.step : Action → Pair G
  | .leader e => { p with leader := p.leader.step lib hlib e }
  | .deliver now => p.deliver lib hlib rd now
  | .expire now due => { p with follower := p.follower.expire now due }

def Pair.run (actions : List Action) : Pair G :=
  actions.foldl (Pair.step lib hlib rd) p

/-- The command that is delivered next. -/
def Pair.next? : Option (List Bytes) :=
  match p.pos with
  | none => none
  | some pos =>
    match rd.read (p.leader.aof.drop pos) with
    | .done args _ => some args
    | _ => none

/-- No object is past its deadline, and no hook that is due is there. -/
def NothingDue (now : Int) (due : List (Bool × Bytes)) (s : ServerState G) : Prop :=
  (∀ e ∈ s.cols.entries, ∀ e' ∈ e.2.entries, ¬ e'.2.Expired now) ∧
    ∀ h ∈ due, ∀ hook ∈ s.hooks.get? h.2, hook.channel ≠ h.1

/-- A request that the log can repeat, a command that gives no deadline of
exactly zero, or a pass of the follower that finds nothing. -/
def CarefulAction : Action → Prop
  | .leader e => CarefulEvent lib (fun _ _ => True) p.leader e
  | .deliver now => ∀ args ∈ p.next? rd, ∀ x ∈ seconds lib args, expiresAt lib { now } x ≠ 0
  | .expire now due => NothingDue now due p.follower.st

def CarefulActions : Pair G → List Action → Prop
  | _, [] => True
  | p, a :: actions => CarefulAction lib rd p a ∧ CarefulActions (p.step lib hlib rd a) actions

instance (now : Int) (due : List (Bool × Bytes)) (s : ServerState G) :
    Decidable (NothingDue now due s) := by
  unfold NothingDue
  infer_instance

instance (p : Pair G) : (a : Action) → Decidable (CarefulAction lib rd p a)
  | .leader e => inferInstanceAs (Decidable (CarefulEvent lib (fun _ _ => True) p.leader e))
  | .deliver now => inferInstanceAs (Decidable
      (∀ args ∈ p.next? rd, ∀ x ∈ seconds lib args, expiresAt lib { now } x ≠ 0))
  | .expire now due => inferInstanceAs (Decidable (NothingDue now due p.follower.st))

instance decidableCarefulActions : (p : Pair G) → (actions : List Action) →
    Decidable (CarefulActions lib hlib rd p actions)
  | _, [] => inferInstanceAs (Decidable True)
  | p, a :: actions =>
    have := decidableCarefulActions (p.step lib hlib rd a) actions
    inferInstanceAs (Decidable
      (CarefulAction lib rd p a ∧ CarefulActions lib hlib rd (p.step lib hlib rd a) actions))

/-! ## A pass that finds nothing -/

variable {now : Int} {due : List (Bool × Bytes)} {s : ServerState G}

theorem objectMsgs_of_nothingDue (h : NothingDue now due s) : objectMsgs now s = [] := by
  refine eq_nil_iff_forall_not_mem.mpr fun args hargs => ?_
  obtain ⟨i, o, hlook, hex, -⟩ := mem_objectMsgs.mp hargs
  obtain ⟨col, hcol, hget⟩ := Option.bind_eq_some_iff.mp hlook
  exact h.1 _ ((mem_entries_iff _ _ _).mpr hcol) _ ((mem_entries_iff _ _ _).mpr hget) hex

theorem delHookOp_of_other {hooks : OrdMap Bytes Hook} {name : Bytes} {channel : Bool}
    (h : ∀ hook ∈ hooks.get? name, hook.channel ≠ channel) :
    delHookOp hooks name channel = (false, hooks) := by
  unfold delHookOp
  cases hget : hooks.get? name with
  | none => rfl
  | some hook => exact if_pos (h hook hget)

/-- **A pass that finds nothing changes and logs nothing.** -/
theorem backgroundExpiring_of_nothingDue (h : NothingDue now due s) :
    backgroundExpiring now due s = (s, []) := by
  have hmsg : ∀ e ∈ due, perform (fun s args =>
        cmdDelHook { now } s (commandName args = lit "delchan") args) (s, [])
      [if e.1 then lit "delchan" else lit "delhook", e.2] = (s, []) := by
    rintro ⟨channel, name⟩ he
    have hother := delHookOp_of_other (h.2 _ he)
    have hname : decide (commandName [if channel then lit "delchan" else lit "delhook", name] =
        lit "delchan") = channel := by
      cases channel with
      | false =>
        show decide (toLower (lit "delhook") = lit "delchan") = false
        decide
      | true =>
        show decide (toLower (lit "delchan") = lit "delchan") = true
        decide
    unfold perform cmdDelHook
    dsimp only at hother ⊢
    rw [hname, hother]
    split <;> rfl
  rw [backgroundExpiring, backgroundExpireObjects, objectMsgs_of_nothingDue h, foldl_nil,
    backgroundExpireHooks, hookMsgs, foldl_map]
  exact List.foldlRecOn (motive := fun x => x = (s, [])) due _ rfl fun x hx e he => by
    rw [hx]
    exact hmsg e he

/-! ## The logs over a run -/

/-- The follower has run and logged the first commands of the leader's log, and
it has the data that the leader had then, up to the deadlines.  Where the
follower has no deadline, the leader had none. -/
structure Following (p : Pair G) : Prop where
  noEmpty : NoEmpty p.leader.st.cols
  logs : ∃ own rest s, p.leader.aof = (own ++ rest).flatMap encodeCommand ∧
    p.follower.aof = own.flatMap encodeCommand ∧
    p.pos = some (own.flatMap encodeCommand).length ∧
    Aged (fun d d' => d' = 0 → d = 0) s p.follower.st ∧
    History lib hlib (fun _ _ => True) s rest p.leader.st

variable {lib hlib} {p : Pair G}

theorem Following.begins (h : Following lib hlib p) : p.follower.aof <+: p.leader.aof := by
  obtain ⟨own, rest, s, hleader, hfollower, -⟩ := h.logs
  rw [hleader, hfollower, flatMap_append]
  exact prefix_append _ _

theorem Following.leader (h : Following lib hlib p) {e : LeaderEvent}
    (he : CarefulEvent lib (fun _ _ => True) p.leader e) :
    Following lib hlib { p with leader := p.leader.step lib hlib e } := by
  obtain ⟨own, rest, s, hleader, hfollower, hpos, haged, hrest⟩ := h.logs
  obtain ⟨hne, log, haof, hlog⟩ := Leader.step_history h.noEmpty he
  refine ⟨hne, own, rest ++ log, s, ?_, hfollower, hpos, haged, hrest.append hlog⟩
  show (p.leader.step lib hlib e).aof = _
  rw [haof, hleader, ← flatMap_append, append_assoc]

/-- A delivered command is logged as it came. -/
theorem followHandleCommand_of_done {f : Follower G} {args : List Bytes} {now : Int}
    (hwrite : commandName args ∈ writeCommands)
    (hupd : (command lib hlib { now } [] f.st args).1.updated = true) :
    followHandleCommand lib hlib now f args =
      .ok ⟨(command lib hlib { now } [] f.st args).2, f.aof ++ encodeCommand args,
        f.aofsz + (encodeCommand args).length⟩ := by
  have hpublish : commandName args ≠ lit "publish" := fun h => by
    rw [h] at hwrite
    revert hwrite
    decide
  unfold followHandleCommand
  revert hupd
  obtain ⟨r, st⟩ := command lib hlib { now } [] f.st args
  intro hupd
  obtain ⟨reply, d, rfl⟩ := Result.exists_ok_of_updated hupd
  have hd : d.updated = true := hupd
  simp [hd, hpublish]

theorem Following.deliver (htime : hlib.TimeFree) {rd : CommandReader} (h : Following lib hlib p)
    {now : Int} (hzero : ∀ args ∈ p.next? rd, ∀ x ∈ seconds lib args, expiresAt lib { now } x ≠ 0) :
    Following lib hlib (p.deliver lib hlib rd now) := by
  obtain ⟨own, rest, s, hleader, hfollower, hpos, haged, hrest⟩ := h.logs
  have hdrop : p.leader.aof.drop (own.flatMap encodeCommand).length =
      rest.flatMap encodeCommand := by
    rw [hleader, flatMap_append, drop_left]
  unfold Pair.next? at hzero
  unfold Pair.deliver
  rw [hpos] at hzero ⊢
  dsimp only at hzero ⊢
  rw [hdrop] at hzero ⊢
  cases hrest with
  | nil =>
    rw [flatMap_nil, rd.read_nil]
    exact h
  | @cons n args log _ s' _ hup hok hlog =>
    have hread : rd.read ((args :: log).flatMap encodeCommand) =
        .done args (log.flatMap encodeCommand) :=
      (rd.reads args (ne_nil_of_mem_writeCommands hup.write)).full _
    rw [hread] at hzero ⊢
    dsimp only at hzero ⊢
    obtain ⟨haged', -, hupd⟩ := hup.redo htime haged (fun _ => rfl) fun x hx h0 =>
      absurd h0 (hzero args rfl x hx)
    rw [followHandleCommand_of_done hup.write (hupd fun _ _ hq => hq)]
    have hown : (own ++ [args]).flatMap encodeCommand =
        own.flatMap encodeCommand ++ encodeCommand args := by simp
    refine ⟨h.noEmpty, own ++ [args], log, s', ?_, ?_, ?_, haged', hlog⟩
    · show p.leader.aof = _
      rw [hleader]
      simp
    · show p.follower.aof ++ _ = _
      rw [hfollower, hown]
    · show some (p.leader.aof.length - _) = _
      rw [hleader, hown, flatMap_append, flatMap_cons]
      simp only [length_append, Option.some.injEq]
      omega

theorem Following.expire (h : Following lib hlib p) {now : Int} {due : List (Bool × Bytes)}
    (hdue : NothingDue now due p.follower.st) :
    Following lib hlib { p with follower := p.follower.expire now due } := by
  obtain ⟨own, rest, s, hleader, hfollower, hpos, haged, hrest⟩ := h.logs
  unfold Follower.expire
  rw [backgroundExpiring_of_nothingDue hdue]
  exact ⟨h.noEmpty, own, rest, s, hleader, by simpa using hfollower, hpos, haged, hrest⟩

theorem Following.step (htime : hlib.TimeFree) {rd : CommandReader} (h : Following lib hlib p)
    {a : Action} (ha : CarefulAction lib rd p a) : Following lib hlib (p.step lib hlib rd a) := by
  cases a with
  | leader e => exact h.leader ha
  | deliver now => exact h.deliver htime ha
  | expire now due => exact h.expire ha

theorem Following.run (htime : hlib.TimeFree) {rd : CommandReader} (h : Following lib hlib p)
    {actions : List Action} (ha : CarefulActions lib hlib rd p actions) :
    Following lib hlib (p.run lib hlib rd actions) := by
  induction actions generalizing p with
  | nil => exact h
  | cons a actions ih => exact ih (h.step htime ha.1) ha.2

/-- A log is cut where the follower has read it. -/
theorem History.split {ok : Int → F64 N → Prop} {s s' : ServerState G}
    {own rest : List (List Bytes)} (h : History lib hlib ok s (own ++ rest) s') :
    ∃ t, History lib hlib ok s own t ∧ History lib hlib ok t rest s' := by
  induction own generalizing s with
  | nil => exact ⟨s, .nil s, h⟩
  | cons args own ih =>
    cases h with
    | cons hup hok hrest =>
      obtain ⟨t, hown, hrest⟩ := ih hrest
      exact ⟨t, .cons hup hok hown, hrest⟩

/-- **Let the follower have the first commands of the leader's log, and the
data that a load makes of them.  Then over every interleaving of leader events,
deliveries and passes in which the leader's requests can be repeated, no
deadline of the follower comes out as exactly zero, and no pass of the follower
finds anything, the log of the follower stays the beginning of the leader's.** -/
theorem follower_log_begins (rd : CommandReader) (htime : hlib.TimeFree) (events : List LeaderEvent)
    (hevents : CarefulRun lib hlib (fun _ _ => True) (Leader.start : Leader G) events)
    (own : List (List Bytes))
    (hown : own.flatMap encodeCommand <+:
      (Leader.run lib hlib (Leader.start : Leader G) events).aof)
    (load : Int) {st : ServerState G}
    (hload : replay lib hlib load own ServerState.empty = .ok st)
    (hzero : ∀ args ∈ own, ∀ x ∈ seconds lib args, expiresAt lib { now := load } x ≠ 0)
    {actions : List Action} :
    let log := own.flatMap encodeCommand
    let p : Pair G :=
      ⟨Leader.run lib hlib Leader.start events, ⟨st, log, log.length⟩, some log.length⟩
    CarefulActions lib hlib rd p actions →
      (p.run lib hlib rd actions).follower.aof <+: (p.run lib hlib rd actions).leader.aof := by
  intro log p hactions
  obtain ⟨hne, all, haof, hall⟩ := Leader.run_history noEmpty_empty hevents
  have haof : (Leader.run lib hlib (Leader.start : Leader G) events).aof =
      all.flatMap encodeCommand := haof
  rw [haof] at hown
  obtain ⟨rest, rfl⟩ := prefix_of_flatMap_encodeCommand hown
  obtain ⟨s, hfirst, hrest⟩ := hall.split
  have hstart : Aged (fun d d' => d' = 0 → d = 0) (ServerState.empty : ServerState G)
      ServerState.empty := ⟨rel_empty, rfl⟩
  obtain ⟨st', hrun, haged⟩ := hfirst.replays htime hstart (fun _ => rfl)
    fun args ha _ x hx _ h0 => absurd h0 (hzero args ha x hx)
  cases hload.symm.trans hrun
  have hp : Following lib hlib p := ⟨hne, own, rest, s, haof, rfl, rfl, haged, hrest⟩
  exact (hp.run htime hactions).begins

end

/-! ### Runs of the small instance -/

/-- The leader's pass comes first, and the follower's finds nothing. -/
theorem follower_log_begins_expire :
    let actions := [Action.leader (.respAt 1000000000
        [lit "SET", lit "fleet", lit "truck1", lit "EX", lit "10", lit "STRING", lit "idle"]),
      .deliver 2000000000, .expire 3000000000 [], .leader (.expire 11000000000 []),
      .deliver 11000000000, .expire 13000000000 []]
    let p := Pair.run clockLib noHooks respReader Pair.start actions
    p.follower.aof <+: p.leader.aof :=
  follower_log_begins respReader noHooks_timeFree [] trivial [] ⟨[], rfl⟩ 0 rfl (by simp)
    (by decide +kernel)

/-- **The follower is first to delete an object, and the leader writes something
else meanwhile: then the logs stay apart.** -/
theorem follower_diverges : let set (id : Bytes) :=
      [lit "SET", lit "fleet", id, lit "EX", lit "10", lit "STRING", lit "idle"]
    let p := Pair.run clockLib noHooks respReader Pair.start
      [.leader (.respAt 1000000000 (set (lit "truck1"))), .deliver 2000000000,
        .expire 12000000000 [], .leader (.respAt 12000000000 (set (lit "truck2"))),
        .leader (.expire 12000000000 []), .deliver 12000000000, .deliver 12000000000]
    let del := [lit "del", lit "fleet", lit "truck1"]
    p.leader.aof = [set (lit "truck1"), set (lit "truck2"), del].flatMap encodeCommand ∧
      p.follower.aof = [set (lit "truck1"), del, set (lit "truck2")].flatMap encodeCommand ∧
      ¬ p.follower.aof <+: p.leader.aof := by
  decide +kernel

end SpatialDb.Server
