import SpatialDb.Server.Expire

/-!
# Deadlines over a restart

A deadline is a time, but SET and EXPIRE are logged with the seconds that they
were given, and a load counts these from its own clock.
-/

namespace SpatialDb.Server

open Lib OrdMap

section Deadlines

variable {N G : Type} [LinearOrder N] (lib : ServerLib N G) (hlib : HookLib G)

/-- The deadline `d` is not later than `d₀`; zero is none. -/
def NoLater (d d₀ : Int) : Prop := d₀ = 0 ∨ d ≠ 0 ∧ d ≤ d₀

/-- The load comes after the command, and the end of the range of an `int64` does
not come between the two deadlines. -/
def Timely (load now : Int) (x : F64 N) : Prop :=
  now < load ∧
    (now + lib.nanos x + 2 ^ 63) / 2 ^ 64 = (load + lib.nanos x + 2 ^ 63) / 2 ^ 64

instance (load now : Int) (x : F64 N) : Decidable (Timely lib load now x) := by
  unfold Timely
  infer_instance

/-- A deadline and the one that a later load makes of it. -/
def Postponed (d d' : Int) : Prop := d < d' ∨ d = 0 ∧ d' = 0

variable {lib hlib}

theorem Postponed.noLater_iff {d d' : Int} (h : Postponed d d') : NoLater d' d ↔ d = 0 := by
  unfold NoLater
  rcases h with h | ⟨rfl, rfl⟩ <;> omega

omit [LinearOrder N] in
theorem Timely.postponed {load now : Int} {x : F64 N} (h : Timely lib load now x) :
    Postponed (expiresAt lib { now } x) (expiresAt lib { now := load } x) := by
  obtain ⟨hlater, hrange⟩ := h
  left
  unfold expiresAt
  dsimp only
  rw [Int.bmod_def, Int.bmod_def]
  omega

/-- The objects of two servers that differ in their deadlines. -/
theorem Aged.lookup_cases {Q : Int → Int → Prop} {s s' : ServerState G} (h : Aged Q s s')
    (i : Bytes × Bytes) :
    (lookup s.cols i = none ∧ lookup s'.cols i = none) ∨
      ∃ o o', lookup s.cols i = some o ∧ lookup s'.cols i = some o' ∧ SameObject Q o o' := by
  unfold lookup
  rcases h.cols.get?_cases i.1 with ⟨hkey, hkey'⟩ | ⟨col, col', hkey, hkey', hcol⟩
  · exact .inl ⟨by rw [hkey]; rfl, by rw [hkey']; rfl⟩
  · rw [hkey, hkey']
    exact hcol.get?_cases i.2

/-- **Any run of requests and passes from an empty leader, without an effective
JDEL and without hooks that need a script, is loaded later without an error.
Then every object has a deadline no later than it had exactly if no object of
the leader has a deadline.** -/
theorem load_noLater_iff (reader : CommandReader) (htime : hlib.TimeFree) (load : Int)
    {events : List LeaderEvent}
    (h : CarefulRun lib hlib (Timely lib load) (Leader.start : Leader G) events)
    {packets : List Bytes}
    (hpackets : packets.flatten = (Leader.run lib hlib (Leader.start : Leader G) events).aof) :
    ∃ x, loadAOF lib hlib reader load packets [] ⟨ServerState.empty, 0⟩ = .ok x ∧
      ((∀ i o, lookup x.st.cols i = some o →
          ∃ o₀, lookup (Leader.run lib hlib Leader.start events).st.cols i = some o₀ ∧
            NoLater o.expires o₀.expires) ↔
        ∀ i o₀, lookup (Leader.run lib hlib Leader.start events).st.cols i = some o₀ →
          o₀.expires = 0) := by
  obtain ⟨-, log, haof, hlog⟩ := Leader.run_history noEmpty_empty h
  have hstart : Aged Postponed (ServerState.empty : ServerState G) ServerState.empty :=
    ⟨rel_empty, rfl⟩
  obtain ⟨st, hrun, haged⟩ := hlog.replays htime hstart (.inr ⟨rfl, rfl⟩)
    fun _ _ _ _ _ hok => hok.postponed
  refine ⟨_, loadAOF_flatMap reader hlog.ne_nil (hpackets.trans haof) hrun, ?_⟩
  constructor
  · intro hall i o₀ ho₀
    rcases haged.lookup_cases i with ⟨hnone, -⟩ | ⟨o, o', ho, ho', hsame⟩
    · cases hnone.symm.trans ho₀
    cases ho.symm.trans ho₀
    obtain ⟨o₁, ho₁, hlater⟩ := hall i o' ho'
    cases ho.symm.trans ho₁
    exact hsame.expires.noLater_iff.mp hlater
  · intro hall i o ho
    rcases haged.lookup_cases i with ⟨-, hnone⟩ | ⟨o₀, o', ho₀, ho', hsame⟩
    · cases hnone.symm.trans ho
    · cases ho'.symm.trans ho
      exact ⟨o₀, ho₀, hsame.expires.noLater_iff.mpr (hall i o₀ ho₀)⟩

end Deadlines

/-! ### Runs of the small instance -/

theorem noHooks_timeFree : noHooks.TimeFree := fun _ _ _ _ _ _ => rfl

/-- A client command at a time. -/
def LeaderEvent.respAt (now : Int) (args : List Bytes) : LeaderEvent :=
  .request (.client { out := .resp, now } false args)

/-- A deadline that is taken away again, and one that has passed. -/
theorem load_noLater_iff_persist :
    let events := [LeaderEvent.respAt 1000000000
        [lit "SET", lit "fleet", lit "truck1", lit "EX", lit "10", lit "STRING", lit "idle"],
      .respAt 2000000000 [lit "PERSIST", lit "fleet", lit "truck1"],
      .respAt 2000000000
        [lit "SET", lit "fleet", lit "truck2", lit "EX", lit "10", lit "STRING", lit "idle"],
      .expire 20000000000 []]
    let l := Leader.run clockLib noHooks Leader.start events
    ∃ x, loadAOF clockLib noHooks respReader 60000000000 [l.aof] [] ⟨ServerState.empty, 0⟩ = .ok x ∧
      ∀ i o, lookup x.st.cols i = some o → ∃ o₀, lookup l.st.cols i = some o₀ ∧
        NoLater o.expires o₀.expires := by
  intro events l
  have hdata : ∀ c ∈ l.st.cols.entries, ∀ e ∈ c.2.entries, e.2.expires = 0 := by decide +kernel
  obtain ⟨x, hload, hiff⟩ := load_noLater_iff respReader noHooks_timeFree 60000000000
    (by decide +kernel : CarefulRun clockLib noHooks _ Leader.start events)
    List.flatten_singleton
  refine ⟨x, hload, hiff.mpr fun i o₀ ho => ?_⟩
  obtain ⟨col, hcol, ho⟩ := Option.bind_eq_some_iff.mp ho
  exact hdata _ ((mem_entries_iff ..).mpr hcol) _ ((mem_entries_iff ..).mpr ho)

/-- **An object that had until 11 s has until 70 s after a load at 60 s.** -/
theorem load_later :
    let l := Leader.run clockLib noHooks Leader.start [.respAt 1000000000
      [lit "SET", lit "fleet", lit "truck1", lit "EX", lit "10", lit "STRING", lit "idle"]]
    let deadline (s : ServerState Unit) :=
      (lookup s.cols (lit "fleet", lit "truck1")).map fun o => o.expires
    deadline l.st = some 11000000000 ∧
      (loadAOF clockLib noHooks respReader 60000000000 [l.aof] []
          ⟨ServerState.empty, 0⟩).toOption.map (fun x => deadline x.st) =
        some (some 70000000000) := by
  decide +kernel

end SpatialDb.Server
