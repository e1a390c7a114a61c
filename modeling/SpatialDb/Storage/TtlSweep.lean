import SpatialDb.Lib.Runs
import SpatialDb.Storage.Ttl

/-!
# Sweeps and clients

The sweeping thread of `cpp/storage/ttl_manager.cpp` next to the threads that
call `setTTL` and `clearTTL`.  A sweep reads the clock, collects the expired
keys under the mutex, copies the callbacks under the mutex, and then calls
them without it; clients may call between any two of these steps and between
any two callbacks.

Two lists that the code does not have record the client calls, so that what
a client has last asked for a key can be compared with what it is told.
-/

namespace SpatialDb.Storage.Ttl

open Lib Option

/-- Where the sweeping thread is in `sweepLoop`. -/
inductive Sweeper where
  | sleeping
  | started (now : Int)
  | collected (expired : List Key)
  | firing (pending : List (Key × Nat))

/-- The keys a sweep has collected and not yet reported to every callback. -/
def Sweeper.keys : Sweeper → List Key
  | .collected expired => expired
  | .firing pending => pending.map Prod.fst
  | _ => []

/-- A client call: the deadline set for the key, `none` for `clearTTL`. -/
structure Call where
  key : Key
  deadline : Option Int

/-- The last call on `key`, in a list of calls with the newest first. -/
def lastCall (calls : List Call) (key : Key) : Option (Option Int) :=
  (calls.find? fun call => call.key = key).map Call.deadline

theorem lastCall_cons (call : Call) (calls : List Call) (key : Key) :
    lastCall (call :: calls) key =
      if key = call.key then some call.deadline else lastCall calls key := by
  by_cases h : key = call.key
  · simp [lastCall, h]
  · simp [lastCall, h, Ne.symm h]

/-- The manager, its sweeping thread and the clock. -/
structure State where
  ttl : TTLManager
  callbacks : List Nat
  clock : Int
  sweeper : Sweeper
  /-- Every client call so far, the newest first. -/
  calls : List Call
  /-- Those since the sweep collected its keys. -/
  since : List Call

def State.start : State :=
  { ttl := TTLManager.empty, callbacks := [], clock := 0, sweeper := .sleeping, calls := []
    since := [] }

inductive Event where
  | tick (ns : Nat)
  | setTTL (key : Key) (ttlMs : Nat)
  | clearTTL (key : Key)
  | onExpiry (callback : Nat)
  | readClock
  | collect
  | copyCallbacks
  | fire

variable (s : State)

def State.record (call : Call) : State :=
  { s with calls := call :: s.calls, since := call :: s.since }

/-- One event; a step that is not the sweeping thread's next one is none. -/
def next : Event → State
  | .tick ns => { s with clock := s.clock + ns }
  | .setTTL key ttlMs =>
    { s with ttl := s.ttl.setTTL s.clock key ttlMs }.record
      ⟨key, some (TTLManager.expires s.clock ttlMs)⟩
  | .clearTTL key => { s with ttl := s.ttl.clearTTL key }.record ⟨key, none⟩
  | .onExpiry callback => { s with callbacks := s.callbacks ++ [callback] }
  | .readClock => match s.sweeper with
      | .sleeping => { s with sweeper := .started s.clock }
      | _ => s
  | .collect => match s.sweeper with
      | .started now =>
        { s with ttl := (s.ttl.sweep now).2, sweeper := .collected (s.ttl.sweep now).1
                 since := [] }
      | _ => s
  | .copyCallbacks => match s.sweeper with
      | .collected expired =>
        { s with sweeper := .firing (expired.flatMap fun key => s.callbacks.map (key, ·)) }
      | _ => s
  | .fire => match s.sweeper with
      | .firing (_ :: rest) => { s with sweeper := .firing rest }
      | .firing [] => { s with sweeper := .sleeping }
      | _ => s

/-- The key for which the event calls a callback. -/
def fired : Event → Option Key
  | .fire => match s.sweeper with
      | .firing ((key, _) :: _) => some key
      | _ => none
  | _ => none

/-- An expiry of `key` is wrong: its TTL lies in the future, or its last call
has cleared it. -/
def State.Wrong (key : Key) : Prop :=
  (∃ d, s.ttl.expiryMap.get? key = some d ∧ s.clock < d) ∨ lastCall s.calls key = some none

/-- Since the keys were collected no client has called for `key`, or the last
call has set a deadline that has passed. -/
def State.Settled (key : Key) : Prop :=
  ∀ deadline, lastCall s.since key = some deadline → ∃ d, deadline = some d ∧ d ≤ s.clock

/-! ## Invariant -/

structure Inv (s : State) : Prop where
  mirrors : s.ttl.Mirrors
  /-- A deadline in the map is the one last set. -/
  called : ∀ key d, s.ttl.expiryMap.get? key = some d → lastCall s.calls key = some (some d)
  /-- A deadline last set is in the map until it has passed. -/
  pending : ∀ key d, lastCall s.calls key = some (some d) → s.clock < d →
    s.ttl.expiryMap.get? key = some d
  started : ∀ now, s.sweeper = .started now → now ≤ s.clock
  /-- A collected key was due when no client has called for it since. -/
  collected : ∀ key ∈ s.sweeper.keys, lastCall s.since key = none →
    ∃ d, lastCall s.calls key = some (some d) ∧ d ≤ s.clock
  since : ∀ key deadline, lastCall s.since key = some deadline →
    lastCall s.calls key = some deadline

theorem inv_start : Inv State.start where
  mirrors := TTLManager.mirrors_empty
  called := fun _ _ h => by cases h
  pending := fun _ _ h => by cases h
  started := fun _ h => by cases h
  collected := fun _ h => by cases h
  since := fun _ _ h => by cases h

variable {s : State}

/-- A client call on `key` that leaves the map with `deadline` for it. -/
theorem Inv.record (h : Inv s) {ttl : TTLManager} (call : Call) (hmirrors : ttl.Mirrors)
    (hget : ∀ key, ttl.expiryMap.get? key =
      if key = call.key then call.deadline else s.ttl.expiryMap.get? key) :
    Inv ({ s with ttl := ttl }.record call) where
  mirrors := hmirrors
  called := by
    intro key d hd
    show lastCall (call :: s.calls) key = _
    change ttl.expiryMap.get? key = some d at hd
    rw [hget] at hd
    rw [lastCall_cons]
    split_ifs with heq
    · rw [if_pos heq] at hd
      rw [hd]
    · rw [if_neg heq] at hd
      exact h.called key d hd
  pending := by
    intro key d hlast hlt
    show ttl.expiryMap.get? key = some d
    change lastCall (call :: s.calls) key = _ at hlast
    rw [lastCall_cons] at hlast
    rw [hget]
    split_ifs with heq
    · rw [if_pos heq] at hlast
      exact some.inj hlast
    · rw [if_neg heq] at hlast
      exact h.pending key d hlast hlt
  started := h.started
  collected := by
    intro key hkey hnone
    show ∃ d, lastCall (call :: s.calls) key = some (some d) ∧ d ≤ s.clock
    change lastCall (call :: s.since) key = none at hnone
    rw [lastCall_cons] at hnone ⊢
    split at hnone
    · cases hnone
    rename_i hne
    rw [if_neg hne]
    exact h.collected key hkey hnone
  since := by
    intro key deadline hlast
    show lastCall (call :: s.calls) key = some deadline
    change lastCall (call :: s.since) key = some deadline at hlast
    rw [lastCall_cons] at hlast ⊢
    split_ifs at hlast with heq
    · rw [if_pos heq]
      exact hlast
    · rw [if_neg heq]
      exact h.since key deadline hlast

/-- A step of the sweeping thread that only drops keys. -/
theorem Inv.advance (h : Inv s) {sweeper : Sweeper}
    (hstarted : ∀ now, sweeper = .started now → now ≤ s.clock)
    (hkeys : ∀ key ∈ sweeper.keys, key ∈ s.sweeper.keys) : Inv { s with sweeper := sweeper } :=
  ⟨h.mirrors, h.called, h.pending, hstarted, fun key hkey => h.collected key (hkeys key hkey),
    h.since⟩

theorem Inv.collect (h : Inv s) {now : Int} (hnow : s.sweeper = .started now) :
    Inv { s with ttl := (s.ttl.sweep now).2, sweeper := .collected (s.ttl.sweep now).1
                 since := [] } where
  mirrors := h.mirrors.sweep now
  called := by
    intro key d hd
    rw [TTLManager.get?_sweep] at hd
    split at hd
    · cases hd
    · exact h.called key d hd
  pending := by
    intro key d hlast hlt
    have hget := h.pending key d hlast hlt
    have hle : now ≤ s.clock := h.started now hnow
    rw [TTLManager.get?_sweep, if_neg, hget]
    rintro hmem
    obtain ⟨d', hget', hdue⟩ := h.mirrors.mem_expired_iff.mp hmem
    rw [some.inj (hget'.symm.trans hget)] at hdue
    exact absurd (hdue.trans hle) (not_le.mpr hlt)
  started := fun _ hnow => by cases hnow
  collected := by
    intro key hkey _
    obtain ⟨d, hget, hdue⟩ := h.mirrors.mem_expired_iff.mp hkey
    exact ⟨d, h.called key d hget, hdue.trans (h.started now hnow)⟩
  since := fun _ _ hlast => by cases hlast

theorem next_inv (s : State) (e : Event) (h : Inv s) : Inv (next s e) := by
  cases e with
  | tick ns =>
    have hle : s.clock ≤ s.clock + ns := by omega
    refine ⟨h.mirrors, h.called, fun key d hlast hlt => ?_, fun now hnow => ?_,
      fun key hkey hnone => ?_, h.since⟩
    · exact h.pending key d hlast (hle.trans_lt hlt)
    · exact (h.started now hnow).trans hle
    · obtain ⟨d, hlast, hdue⟩ := h.collected key hkey hnone
      exact ⟨d, hlast, hdue.trans hle⟩
  | setTTL key ttlMs =>
    exact h.record ⟨key, some _⟩ (h.mirrors.setTTL _ _ _) fun _ => OrdMap.get?_set _ _ _ _
  | clearTTL key =>
    refine h.record ⟨key, none⟩ (h.mirrors.clearTTL key) fun key' => ?_
    rw [TTLManager.expiryMap_clearTTL]
    exact OrdMap.get?_delete _ _ _
  | onExpiry callback =>
    exact ⟨h.mirrors, h.called, h.pending, h.started, h.collected, h.since⟩
  | readClock =>
    rw [next]
    split
    · refine h.advance (fun now hnow => ?_) fun _ hkey => absurd hkey List.not_mem_nil
      cases hnow
      exact le_refl _
    · exact h
  | collect =>
    rw [next]
    split
    · rename_i now hnow
      exact h.collect hnow
    · exact h
  | copyCallbacks =>
    rw [next]
    split
    · rename_i expired hexpired
      refine h.advance (fun _ hnow => Sweeper.noConfusion hnow) fun key hkey => ?_
      rw [hexpired]
      obtain ⟨⟨_, callback⟩, hmem, rfl⟩ := List.mem_map.mp hkey
      obtain ⟨key', hkey', hpair⟩ := List.mem_flatMap.mp hmem
      obtain ⟨_, _, heq⟩ := List.mem_map.mp hpair
      cases heq
      exact hkey'
    · exact h
  | fire =>
    rw [next]
    split
    · rename_i first rest hfiring
      refine h.advance (fun _ hnow => Sweeper.noConfusion hnow) fun key hkey => ?_
      rw [hfiring]
      exact List.mem_cons_of_mem _ hkey
    · exact h.advance (fun _ hnow => Sweeper.noConfusion hnow)
        fun _ hkey => absurd hkey List.not_mem_nil
    · exact h

/-! ## Callbacks -/

theorem fired_mem_keys {e : Event} {key : Key} (h : fired s e = some key) :
    key ∈ s.sweeper.keys := by
  cases e with
  | fire =>
    simp only [fired] at h
    split at h
    · rename_i hfiring
      cases h
      rw [hfiring]
      exact List.mem_cons_self
    · cases h
  | _ => cases h

/-- A deadline that was last set and has passed is one to report. -/
theorem not_wrong_of_due (h : Inv s) {key : Key} {d : Int}
    (hlast : lastCall s.calls key = some (some d)) (hdue : d ≤ s.clock) : ¬ s.Wrong key := by
  rintro (⟨d', hget, hlt⟩ | hcleared)
  · have heq := (h.called key d' hget).symm.trans hlast
    rw [some.inj (some.inj heq)] at hlt
    exact absurd hdue (not_le.mpr hlt)
  · rw [hlast] at hcleared
    cases hcleared

theorem timely_iff (h : Inv s) {key : Key} (hkey : key ∈ s.sweeper.keys) :
    ¬ s.Wrong key ↔ s.Settled key := by
  -- by the last call since the keys were collected
  cases hsince : lastCall s.since key with
  | none =>
    obtain ⟨d, hlast, hdue⟩ := h.collected key hkey hsince
    refine iff_of_true (not_wrong_of_due h hlast hdue) fun deadline hdeadline => ?_
    rw [hsince] at hdeadline
    cases hdeadline
  | some deadline =>
    have hlast := h.since key deadline hsince
    cases deadline with
    | none =>
      refine iff_of_false (fun hright => hright (.inr hlast)) fun hsettled => ?_
      obtain ⟨d, hd, -⟩ := hsettled none hsince
      cases hd
    | some d =>
      by_cases hdue : d ≤ s.clock
      · refine iff_of_true (not_wrong_of_due h hlast hdue) fun deadline hdeadline => ?_
        rw [hsince] at hdeadline
        exact ⟨d, (some.inj hdeadline).symm, hdue⟩
      have hlt := not_le.mp hdue
      refine iff_of_false (fun hright => hright (.inl ?_)) fun hsettled => ?_
      · exact ⟨d, h.pending key d hlast hlt, hlt⟩
      · obtain ⟨d', hd, hle⟩ := hsettled (some d) hsince
        cases hd
        exact hdue hle

/-- The interleavings in which no callback is called for a key that a client
has renewed or cleared before. -/
theorem run_timely_iff (events : List Event) :
    AtEach next (fun s e => ∀ key, fired s e = some key → ¬ s.Wrong key) State.start events ↔
    AtEach next (fun s e => ∀ key, fired s e = some key → s.Settled key) State.start events := by
  have hinv := always_of_step next_inv inv_start events
  refine forall_congr' fun before => forall_congr' fun e => forall_congr' fun after => ?_
  refine forall_congr' fun hsplit => forall_congr' fun key => forall_congr' fun hfired => ?_
  exact timely_iff (hinv before (e :: after) hsplit) (fired_mem_keys hfired)

/-- A lease of one millisecond has run out and is collected; it is renewed
for ten seconds before the callback. -/
def lateRenewal : List Event :=
  [.onExpiry 0, .setTTL ⟨lit "fleet", lit "truck1"⟩ 1, .tick 1000000, .readClock, .collect,
    .copyCallbacks, .setTTL ⟨lit "fleet", lit "truck1"⟩ 10000]

theorem renewed_key_expires :
    fired (lateRenewal.foldl next State.start) .fire = some ⟨lit "fleet", lit "truck1"⟩ ∧
    (lateRenewal.foldl next State.start).Wrong ⟨lit "fleet", lit "truck1"⟩ :=
  ⟨by decide, .inl ⟨10001000000, by decide, by decide⟩⟩

end SpatialDb.Storage.Ttl
