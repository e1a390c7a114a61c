import SpatialDb.Lib.Delivery
import SpatialDb.Lib.Runs

/-!
# Replication to the followers (`cluster/replication.cpp`)

The leader's `ReplicationManager` over a fixed set of replicas: entries are
enqueued, the replication loop takes up to 256 of them off the queue and
offers the batch to every healthy replica, heartbeats come in and time out,
and callers ask `waitForQuorum` whether an offset is replicated.

What a send does is an input.  A send that returns true has delivered the
whole batch; of one that returns false any first part may have arrived.
Beside the program's variables a replica here has the set of the positions
it received, and the manager the list of everything that was enqueued.

The loop advances `replicated_offset_` by the size of the batch whatever the
sends returned, and a batch is offered once.  So the offset that
`waitForQuorum` compares counts entries handed out, not entries received; and
a replica that missed a batch and is still below `max_consecutive_failures`
is offered the next one.

A loop iteration up to its `fetch_add` is one step.  A caller that looks in
the middle of it finds the offset from before and each replica as before or
as after it.
-/

namespace SpatialDb.Cluster

open Lib Lib.Delivery List

structure ReplicationConfig where
  heartbeatTimeoutMs : Int := 5000
  maxConsecutiveFailures : Int := 3

/-- `ReplicaInfo`, with the positions the replica received. -/
structure Replica where
  id : String
  lag : UInt64 := 0
  healthy : Bool := true
  lastHeartbeatMs : Int := 0
  consecutiveFailures : Int := 0
  received : Finset Nat := ∅
deriving DecidableEq

/-- How a send ends: it returns true, or it returns false after a first part of
the batch has arrived. -/
inductive Send where
  | ok
  | failed (arrived : Nat)
deriving DecidableEq, Repr

namespace Send

def returned : Send → Bool
  | ok => true
  | failed _ => false

/-- Entries of a batch of this size that arrive. -/
def arrived (size : Nat) : Send → Nat
  | ok => size
  | failed k => min k size

private theorem arrived_le (size : Nat) (send : Send) : send.arrived size ≤ size := by
  cases send with
  | ok => exact le_rfl
  | failed k => exact min_le_right k size

end Send

variable {replica : Replica}

namespace Replica

/-! ## One replica in one iteration -/

def sendEntriesToReplica (offset size : Nat) (send : Send) (replica : Replica) : Replica × Bool :=
  ({ replica with
      lag := replica.lag + UInt64.ofNat size
      received := replica.received ∪ Finset.Ico offset (offset + send.arrived size) },
    send.returned)

variable (cfg : ReplicationConfig)

/-- The body of the loop over `replicas_`; `now` is read behind a send that
worked. -/
def offer (offset size : Nat) (send : Send) (now : Int)
    (replica : Replica) : Replica :=
  if !replica.healthy then replica
  else
    match sendEntriesToReplica offset size send replica with
    | (replica, false) =>
      let failures := replica.consecutiveFailures + 1
      { replica with
        consecutiveFailures := failures
        healthy := replica.healthy && !decide (cfg.maxConsecutiveFailures ≤ failures) }
    | (replica, true) =>
      { replica with
        consecutiveFailures := 0
        lastHeartbeatMs := now
        -- the `max` with an unsigned zero changes nothing
        lag := UInt64.ofNat offset + UInt64.ofNat size - replica.lag }

/-- The entries of the batch that arrive at the replica: none if it is not
offered any. -/
def arrives (size : Nat) (send : Send) (replica : Replica) : Nat :=
  if replica.healthy then send.arrived size else 0

private theorem arrives_le (size : Nat) (send : Send) (replica : Replica) :
    replica.arrives size send ≤ size := by
  unfold arrives
  split
  · exact send.arrived_le size
  · exact Nat.zero_le size

/-- The replica is healthy, and a send that fails is not one too many. -/
def StaysHealthy (send : Send) (replica : Replica) : Prop :=
  replica.healthy = true
    ∧ (send.returned = true ∨ replica.consecutiveFailures + 1 < cfg.maxConsecutiveFailures)

private theorem offer_spec (offset size : Nat) (send : Send) (now : Int)
    (replica : Replica) :
    (replica.offer cfg offset size send now).received
        = replica.received ∪ Finset.Ico offset (offset + replica.arrives size send)
      ∧ ((replica.offer cfg offset size send now).healthy = true
        ↔ replica.StaysHealthy cfg send) := by
  cases hhealthy : replica.healthy with
  | false => simp [offer, arrives, StaysHealthy, hhealthy]
  | true =>
    cases send with
    | ok => simp [offer, arrives, StaysHealthy, sendEntriesToReplica, Send.returned, hhealthy]
    | failed k => simp [offer, arrives, StaysHealthy, sendEntriesToReplica, Send.returned, hhealthy]

section

variable (h : replica.healthy = true)
include h

private theorem offer_ok_healthy {cfg : ReplicationConfig} {offset size : Nat} {now : Int} :
    (replica.offer cfg offset size .ok now).healthy = true := by
  simp [offer, sendEntriesToReplica, Send.returned, h]

private theorem arrives_ok {size : Nat} : replica.arrives size .ok = size := by
  simp [arrives, Send.arrived, h]

/-- The size of the batch cancels out: what a send that works records depends
on the offset before it. -/
theorem offer_ok_lag {cfg : ReplicationConfig} {offset size : Nat} {now : Int} :
    (replica.offer cfg offset size .ok now).lag = UInt64.ofNat offset - replica.lag := by
  simp only [offer, sendEntriesToReplica, Send.returned, h, Bool.not_true, if_false,
    Bool.false_eq_true]
  rw [add_sub_add_right_eq_sub]

end

def beat (now : Int) (replica : Replica) : Replica :=
  { replica with lastHeartbeatMs := now, consecutiveFailures := 0 }

/-- The body of the loop in `checkHeartbeatTimeoutsLocked`. -/
def checkTimeout (cfg : ReplicationConfig) (now : Int) (replica : Replica) : Replica :=
  if !replica.healthy then replica
  else if 0 < replica.lastHeartbeatMs ∧ cfg.heartbeatTimeoutMs < now - replica.lastHeartbeatMs then
    { replica with healthy := false }
  else replica

private theorem checkTimeout_received (cfg : ReplicationConfig) (now : Int) (replica : Replica) :
    (replica.checkTimeout cfg now).received = replica.received := by
  unfold checkTimeout
  split_ifs <;> rfl

private theorem checkTimeout_healthy {cfg : ReplicationConfig} {now : Int}
    (h : (replica.checkTimeout cfg now).healthy = true) : replica.healthy = true := by
  unfold checkTimeout at h
  split_ifs at h
  · exact h
  · exact h

end Replica

/-! ## The manager -/

/-- The leader with `n` replicas.  `log` is everything that was enqueued. -/
structure Manager (α : Type) (n : Nat) where
  log : List α
  queue : List α
  replicatedOffset : Nat
  replicas : Fin n → Replica
  queued : queue = log.drop replicatedOffset
  offset_le : replicatedOffset ≤ log.length
  received_subset : ∀ i, (replicas i).received ⊆ Finset.range replicatedOffset

namespace Manager

variable {α : Type} {n : Nat}

/-- Replicas are added before anything is sent to them. -/
def start (replicas : Fin n → Replica) : Manager α n where
  log := []
  queue := []
  replicatedOffset := 0
  replicas i := { replicas i with received := ∅ }
  queued := rfl
  offset_le := le_rfl
  received_subset _ := Finset.empty_subset _

def enqueueEntry (entry : α) (m : Manager α n) : Manager α n where
  log := m.log ++ [entry]
  queue := m.queue ++ [entry]
  replicatedOffset := m.replicatedOffset
  replicas := m.replicas
  queued := by rw [m.queued, drop_append_of_le_length m.offset_le]
  offset_le := m.offset_le.trans (by simp)
  received_subset := m.received_subset

def batchSize (m : Manager α n) : Nat :=
  (m.queue.take 256).length

theorem batchSize_le (m : Manager α n) : m.replicatedOffset + m.batchSize ≤ m.log.length := by
  have := m.offset_le
  simp only [batchSize, m.queued, length_take, length_drop]
  omega

variable (cfg : ReplicationConfig)

/-- An iteration of `replicationLoop` up to its `fetch_add`. -/
def round (sends : Fin n → Send) (now : Fin n → Int)
    (m : Manager α n) : Manager α n where
  log := m.log
  queue := m.queue.drop 256
  replicatedOffset := m.replicatedOffset + m.batchSize
  replicas :=
    if m.batchSize = 0 then m.replicas
    else fun i => (m.replicas i).offer cfg m.replicatedOffset m.batchSize (sends i) (now i)
  queued := by
    rw [m.queued, drop_drop, batchSize, m.queued, length_take, length_drop]
    have := m.offset_le
    rcases Nat.le_total 256 (m.log.length - m.replicatedOffset) with hle | hle
    · rw [Nat.min_eq_left hle]
    · rw [drop_of_length_le (by omega), drop_of_length_le (by omega)]
  offset_le := m.batchSize_le
  received_subset i := by
    split
    · exact (m.received_subset i).trans (Finset.range_subset_range.mpr (by omega))
    · rw [(Replica.offer_spec cfg _ _ _ _ _).1]
      exact union_Ico_subset (m.received_subset i) (Replica.arrives_le ..)

variable (m : Manager α n)

/-- The first replica of this id. -/
def findReplica (id : String) : Option (Fin n) :=
  (finRange n).find? fun i => (m.replicas i).id == id

variable (replicas : Fin n → Replica)

/-- Any change to the replicas that is not about what they received. -/
def withReplicas
    (hreceived : ∀ i, (replicas i).received = (m.replicas i).received) : Manager α n :=
  { m with
    replicas := replicas
    received_subset := fun i => hreceived i ▸ m.received_subset i }

def recordHeartbeat (id : String) (now : Int) (m : Manager α n) : Manager α n :=
  m.withReplicas (fun i =>
    if m.findReplica id = some i then (m.replicas i).beat now else m.replicas i)
    fun i => by split <;> rfl

def checkHeartbeatTimeouts (now : Int) (m : Manager α n) : Manager α n :=
  m.withReplicas (fun i => (m.replicas i).checkTimeout cfg now)
    fun _ => Replica.checkTimeout_received ..

/-- What a caller of `waitForQuorum` is told when it looks before its deadline. -/
def waitForQuorum (offset : Nat) : Bool :=
  offset ≤ m.replicatedOffset

inductive Step (α : Type) (n : Nat) where
  | enqueueEntry (entry : α)
  | round (sends : Fin n → Send) (now : Fin n → Int)
  | recordHeartbeat (id : String) (now : Int)
  | checkHeartbeatTimeouts (now : Int)

def step : Step α n → Manager α n
  | .enqueueEntry entry => m.enqueueEntry entry
  | .round sends now => m.round cfg sends now
  | .recordHeartbeat id now => m.recordHeartbeat id now
  | .checkHeartbeatTimeouts now => m.checkHeartbeatTimeouts cfg now

/-! ## What a caller concludes from `true` -/

/-- Whenever `waitForQuorum` says true, most replicas have the entries asked
for, and every replica marked healthy has a first part of the stream. -/
def Sound : Prop :=
  ∀ offset, m.waitForQuorum offset = true →
    Majority (fun i => Reaches offset (m.replicas i).received)
      ∧ ∀ i, (m.replicas i).healthy = true → GapFree (m.replicas i).received

/-- It is enough to ask for the whole offset. -/
theorem sound_iff :
    m.Sound ↔ Majority (fun i => Reaches m.replicatedOffset (m.replicas i).received)
      ∧ ∀ i, (m.replicas i).healthy = true → GapFree (m.replicas i).received := by
  constructor
  · intro h
    exact h m.replicatedOffset (by simp [waitForQuorum])
  · rintro ⟨hmajority, hgap⟩ offset hoffset
    have hle : offset ≤ m.replicatedOffset := by simpa [waitForQuorum] using hoffset
    exact ⟨hmajority.mono fun i h => h.mono hle, hgap⟩

private theorem start_sound : (start replicas : Manager α n).Sound :=
  (sound_iff _).mpr ⟨majority_of_forall fun _ => reaches_zero _, fun _ _ => gapFree_empty⟩

/-- Marking replicas unhealthy takes nothing back. -/
theorem Sound.withReplicas {m : Manager α n} (hm : m.Sound) {replicas : Fin n → Replica}
    (hreceived : ∀ i, (replicas i).received = (m.replicas i).received)
    (hhealthy : ∀ i, (replicas i).healthy = true → (m.replicas i).healthy = true) :
    (m.withReplicas replicas hreceived).Sound := by
  intro offset hoffset
  obtain ⟨hmajority, hgap⟩ := hm offset hoffset
  constructor
  · refine hmajority.mono fun i h => ?_
    exact (hreceived i).symm ▸ h
  · intro i hi
    exact (hreceived i).symm ▸ hgap i (hhealthy i hi)

/-- An iteration that takes no entry, or whose batch reaches, whole, a majority
that missed nothing before, and reaches no replica that stays healthy and
missed something before. -/
def RoundSafe (sends : Fin n → Send) (m : Manager α n) : Prop :=
  m.batchSize = 0 ∨
    (Majority (fun i => Reaches m.replicatedOffset (m.replicas i).received
        ∧ (m.replicas i).arrives m.batchSize (sends i) = m.batchSize)
      ∧ ∀ i, (m.replicas i).StaysHealthy cfg (sends i) →
          0 < (m.replicas i).arrives m.batchSize (sends i) →
          Reaches m.replicatedOffset (m.replicas i).received)

/-- Only iterations of the loop can break the promise. -/
def Safe : Step α n → Prop
  | .round sends _ => m.RoundSafe cfg sends
  | _ => True

theorem round_replicas {cfg : ReplicationConfig} {sends : Fin n → Send} {now : Fin n → Int}
    {m : Manager α n} (hsize : 0 < m.batchSize) (i : Fin n) :
    (m.round cfg sends now).replicas i
      = (m.replicas i).offer cfg m.replicatedOffset m.batchSize (sends i) (now i) := by
  simp only [round, if_neg (Nat.ne_of_gt hsize)]

private theorem round_sound_iff (sends : Fin n → Send) (now : Fin n → Int)
    {m : Manager α n} (hm : m.Sound) :
    (m.round cfg sends now).Sound ↔ m.RoundSafe cfg sends := by
  obtain ⟨hmajority, hgap⟩ := (sound_iff m).mp hm
  rw [sound_iff, RoundSafe]
  rcases Nat.eq_zero_or_pos m.batchSize with hsize | hsize
  · simp only [round, hsize, if_pos, Nat.add_zero, true_or, iff_true]
    exact ⟨hmajority, hgap⟩
  have hspec := fun i => Replica.offer_spec cfg m.replicatedOffset m.batchSize (sends i) (now i)
    (m.replicas i)
  rw [or_iff_right (Nat.ne_of_gt hsize)]
  refine and_congr (majority_congr fun i => ?_) (forall_congr' fun i => ?_)
  · rw [round_replicas hsize, (hspec i).1]
    exact reaches_union_Ico_iff (m.received_subset i) (Replica.arrives_le ..) hsize
  · rw [round_replicas hsize, (hspec i).1, (hspec i).2]
    refine forall_congr' fun hi => ?_
    exact gapFree_union_Ico_iff (m.received_subset i) (hgap i hi.1) _

theorem step_sound_iff (op : Step α n)
    (hm : m.Sound) : (step cfg m op).Sound ↔ Safe cfg m op := by
  cases op with
  | enqueueEntry entry => exact iff_of_true hm trivial
  | round sends now => exact round_sound_iff cfg sends now hm
  | recordHeartbeat id now =>
    have hsound : (m.recordHeartbeat id now).Sound := by
      refine hm.withReplicas _ fun i hi => ?_
      split at hi
      · exact hi
      · exact hi
    exact iff_of_true hsound trivial
  | checkHeartbeatTimeouts now =>
    have hsound : (m.checkHeartbeatTimeouts cfg now).Sound :=
      hm.withReplicas _ fun _ => Replica.checkTimeout_healthy
    exact iff_of_true hsound trivial

/-- **When `waitForQuorum` can be believed.**  On a run from any set of replicas,
`true` means what it says at every moment exactly when every batch reaches a
majority that has everything before it, and no replica that stays healthy
gets part of a batch after it missed something. -/
theorem run_sound_iff
    (ops : List (Step α n)) :
    Always (step cfg) Sound (start replicas) ops
      ↔ AtEach (step cfg) (Safe cfg) (start replicas) ops :=
  always_iff (step_sound_iff cfg) (start_sound replicas) ops

/-! ## Runs without failures -/

/-- The replica is healthy and has everything that was handed out. -/
def InSync (i : Fin n) (m : Manager α n) : Prop :=
  (m.replicas i).healthy = true ∧ Reaches m.replicatedOffset (m.replicas i).received

/-- The entries handed out that the replica has not received. -/
def missing (i : Fin n) (m : Manager α n) : Nat :=
  (Finset.range m.replicatedOffset \ (m.replicas i).received).card

theorem InSync.missing {i : Fin n} {m : Manager α n} (h : m.InSync i) : m.missing i = 0 :=
  Finset.card_eq_zero.mpr (Finset.sdiff_eq_empty_iff_subset.mpr h.2)

/-- Every send to the replica works, and its heartbeat has not timed out when it
is checked. -/
def Smooth (i : Fin n) (m : Manager α n) : Step α n → Prop
  | .round sends _ => sends i = .ok
  | .checkHeartbeatTimeouts now => (m.replicas i).checkTimeout cfg now = m.replicas i
  | _ => True

/-- A batch goes out at an offset that is zero in 64 bits: nothing was handed out
before it. -/
def FirstBatch : Step α n → Prop
  | .round _ _ => 0 < m.batchSize → 2 ^ 64 ∣ m.replicatedOffset
  | _ => True

variable {cfg : ReplicationConfig} {i : Fin n} {m : Manager α n} {op : Step α n}

/-- What a smooth step does to the replica, a batch apart, is no news of entries. -/
theorem step_replicas_of_smooth (hop : Smooth cfg i m op) :
    (∃ sends now, op = .round sends now ∧ 0 < m.batchSize)
      ∨ ((step cfg m op).replicatedOffset = m.replicatedOffset
        ∧ ((step cfg m op).replicas i).healthy = (m.replicas i).healthy
        ∧ ((step cfg m op).replicas i).received = (m.replicas i).received
        ∧ ((step cfg m op).replicas i).lag = (m.replicas i).lag ∧ FirstBatch m op) := by
  cases op with
  | enqueueEntry entry => exact .inr ⟨rfl, rfl, rfl, rfl, trivial⟩
  | round sends now =>
    rcases Nat.eq_zero_or_pos m.batchSize with hsize | hsize
    · right
      simp [step, round, FirstBatch, hsize]
    · exact .inl ⟨sends, now, rfl, hsize⟩
  | recordHeartbeat id now =>
    right
    by_cases hid : m.findReplica id = some i
    · simp [step, recordHeartbeat, withReplicas, hid, Replica.beat, FirstBatch]
    · simp [step, recordHeartbeat, withReplicas, hid, FirstBatch]
  | checkHeartbeatTimeouts now =>
    right
    have hsame : (m.replicas i).checkTimeout cfg now = m.replicas i := hop
    simp [step, checkHeartbeatTimeouts, withReplicas, hsame, FirstBatch]

theorem step_inSync (hm : m.InSync i) (hop : Smooth cfg i m op) : (step cfg m op).InSync i := by
  obtain ⟨hhealthy, hreaches⟩ := hm
  rcases step_replicas_of_smooth hop with ⟨sends, now, rfl, hsize⟩ | ⟨ho, hh, hr, -, -⟩
  · have hok : sends i = .ok := hop
    obtain ⟨hreceived, -⟩ := Replica.offer_spec cfg m.replicatedOffset m.batchSize (sends i)
      (now i) (m.replicas i)
    show ((m.round cfg sends now).replicas i).healthy = true
      ∧ Reaches (m.replicatedOffset + m.batchSize) ((m.round cfg sends now).replicas i).received
    rw [round_replicas hsize, hreceived,
      reaches_union_Ico_iff (m.received_subset i) (Replica.arrives_le ..) hsize, hok]
    exact ⟨Replica.offer_ok_healthy hhealthy, hreaches, Replica.arrives_ok hhealthy⟩
  · rw [InSync, ho, hh, hr]
    exact ⟨hhealthy, hreaches⟩

/-- A batch that arrives leaves the offset before it as the lag. -/
theorem step_lag_iff (hm : m.InSync i) (hlag : (m.replicas i).lag = 0) (hop : Smooth cfg i m op) :
    ((step cfg m op).replicas i).lag = 0 ↔ FirstBatch m op := by
  rcases step_replicas_of_smooth hop with ⟨sends, now, rfl, hsize⟩ | ⟨-, -, -, hl, hfirst⟩
  · have hok : sends i = .ok := hop
    show ((m.round cfg sends now).replicas i).lag = 0 ↔ (0 < m.batchSize → _)
    rw [round_replicas hsize, hok, Replica.offer_ok_lag hm.1, hlag, sub_zero,
      forall_prop_of_true hsize, Nat.dvd_iff_mod_eq_zero, ← UInt64.toNat_inj, UInt64.toNat_ofNat']
    rfl
  · exact iff_of_true (hl.trans hlag) hfirst

/-- **The recorded lag.**  At a healthy replica that starts with lag zero and to
which every send works nothing is ever missing.  Its lag says so at every
moment exactly when nothing is handed out after the first batch. -/
theorem run_lag_iff (cfg : ReplicationConfig) (replicas : Fin n → Replica) (i : Fin n)
    (hhealthy : (replicas i).healthy = true) (hlag : (replicas i).lag = 0)
    (ops : List (Step α n)) (hops : AtEach (step cfg) (Smooth cfg i) (start replicas) ops) :
    Always (step cfg) (fun m => (m.replicas i).lag.toNat = m.missing i ∧ m.missing i = 0)
        (start replicas) ops
      ↔ AtEach (step cfg) FirstBatch (start replicas) ops := by
  have hstart : (start replicas : Manager α n).InSync i := ⟨hhealthy, reaches_zero _⟩
  have hsync : Always (step cfg) (InSync i) (start replicas) ops :=
    always_of_atEach (fun _ _ hm hop => step_inSync hm hop) hstart hops
  have hiff : Always (step cfg) (fun m => m.InSync i ∧ (m.replicas i).lag = 0) (start replicas) ops
        ∧ AtEach (step cfg) (Smooth cfg i) (start replicas) ops
      ↔ AtEach (step cfg) (fun m op => Smooth cfg i m op ∧ FirstBatch m op)
        (start replicas) ops := by
    refine always_and_atEach_iff (fun m op hm => ?_) ⟨hstart, hlag⟩ ops
    rw [and_comm, and_congr_right_iff]
    intro hop
    rw [and_iff_right (step_inSync hm.1 hop)]
    exact step_lag_iff hm.1 hm.2 hop
  constructor
  · intro h before op after heq
    refine (hiff.mp ⟨fun before after heq => ?_, hops⟩ before op after heq).2
    obtain ⟨hlag, hmissing⟩ := h before after heq
    exact ⟨hsync before after heq, UInt64.toNat_inj.mp (hlag.trans hmissing)⟩
  · intro h before after heq
    have hsafe := hiff.mpr fun before op after heq =>
      ⟨hops before op after heq, h before op after heq⟩
    obtain ⟨hm, hlag⟩ := hsafe.1 before after heq
    rw [hm.missing, hlag]
    exact ⟨rfl, rfl⟩

/-- Two entries in two batches, both received. -/
def twoBatches : List (Step Unit 1) :=
  [.enqueueEntry (), .round (fun _ => .ok) fun _ => 0,
    .enqueueEntry (), .round (fun _ => .ok) fun _ => 0]

theorem lag_zero_after_one_batch :
    Always (step {}) (fun m => (m.replicas 0).lag.toNat = m.missing 0 ∧ m.missing 0 = 0)
      (start fun _ => { id := "r1" }) (twoBatches.take 2) :=
  (run_lag_iff {} _ 0 rfl rfl _ (by simp [twoBatches, atEach_cons, atEach_nil, Smooth])).mpr
    (by simp [twoBatches, atEach_cons, atEach_nil, FirstBatch, start, step, enqueueEntry])

theorem lag_after_two_batches :
    ((twoBatches.foldl (step {}) (start fun _ => { id := "r1" })).replicas 0).lag = 1
      ∧ (twoBatches.foldl (step {}) (start fun _ => { id := "r1" })).missing 0 = 0 := by
  decide

/-! ## A run with a failure -/

/-- One replica, one entry, and a send that comes to nothing. -/
def afterLost : Manager Unit 1 :=
  [.enqueueEntry (), .round (fun _ => .failed 0) fun _ => 0].foldl (step {})
    (start fun _ => { id := "r1" })

/-- Another entry, and a send that works. -/
def afterNext : Manager Unit 1 :=
  [.enqueueEntry (), .round (fun _ => .ok) fun _ => 0].foldl (step {}) afterLost

/-- `waitForQuorum` says true of an entry that nobody has; after the next batch
the replica is healthy and has the second entry without the first. -/
theorem failed_send_counts_as_replicated :
    (afterLost.waitForQuorum 1 = true ∧ (afterLost.replicas 0).received = ∅)
      ∧ (afterNext.waitForQuorum 2 = true ∧ (afterNext.replicas 0).healthy = true
          ∧ (afterNext.replicas 0).received = {1}) := by
  decide

end Manager

end SpatialDb.Cluster
