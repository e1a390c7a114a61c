import SpatialDb.Lib.Runs

/-!
# The connection pool (`net/conn_pool.cpp`)

Threads that share one `ConnPool`.  A step of the model is what one thread
does between taking the pool's mutex and giving it up: the loop of `acquire`
up to its return, its wait on the condition variable or the unlock before
`createConn`; the `++total_` behind a creation that worked; `release`;
`invalidate`.  The clock, the answers to a ping, the fate of a connection
attempt and every wake-up of the condition variable are inputs.

`acquire` compares `total_` with `max_size`, gives up the mutex to connect,
and counts the connection only when it has the mutex again.  In between,
any number of other threads can pass the same comparison.  The constructor
never makes it: `min_size` connections are opened whatever `max_size` is.
-/

namespace SpatialDb.Net

open Lib List Option

structure PooledConn where
  healthy : Bool := true
  lastUsed : UInt64 := 0
deriving DecidableEq, Repr

structure PoolConfig where
  minSize : Nat := 2
  maxSize : Nat := 32
  idleTimeoutMs : Int32 := 60000

/-- `uint64_t max_idle_sec = cfg_.idle_timeout_ms / 1000`: a negative timeout
is sign-extended. -/
def PoolConfig.maxIdleSec (cfg : PoolConfig) : UInt64 :=
  (cfg.idleTimeoutMs / 1000).toInt64.toUInt64

/-- The pool as its mutex guards it.  `total` is read without the wrap of
`size_t`; `Accounts` shows that it never goes below zero. -/
@[ext]
structure ConnPool where
  idle : List PooledConn
  total : Int
deriving DecidableEq, Repr

/-- Where a thread is when it does not have the mutex: in no call of the pool,
in `cv_.wait_until`, or between `lock.unlock()` and the end of `createConn`. -/
inductive Phase where
  | outside
  | waiting
  | creating
deriving DecidableEq, Repr

/-- How a thread leaves the mutex: into which phase, and with which connection
if the call returns one. -/
structure Exit where
  phase : Phase
  conn : Option PooledConn := none
deriving DecidableEq, Repr

/-- How many connections go to a caller there. -/
def Exit.handsOut (exit : Option Exit) : Nat :=
  (exit.bind Exit.conn).toList.length

/-- What one round of the loop in `acquire` reads: the clock of
`evictIdleLocked`, the answer to the ping and the clock behind it. -/
structure Reading where
  now : UInt64
  pong : Bool
  pongAt : UInt64

variable {pool : ConnPool}

namespace ConnPool

/-! ## Operations under the mutex -/

variable (cfg : PoolConfig) (now : UInt64)

def expired (conn : PooledConn) : Bool :=
  now - conn.lastUsed > cfg.maxIdleSec

def evictIdleLocked (pool : ConnPool) : ConnPool where
  idle := pool.idle.filter (!expired cfg now ·)
  total := pool.total - pool.idle.countP (expired cfg now)

/-- One round of the loop in `acquire`; `none` is `continue`. -/
def acquireRound (reading : Reading) (pool : ConnPool) : ConnPool × Option Exit :=
  let pool := pool.evictIdleLocked cfg reading.now
  match pool.idle with
  | conn :: rest =>
    if conn.healthy && reading.pong then
      ({ pool with idle := rest },
        some { phase := .outside, conn := some { conn with lastUsed := reading.pongAt } })
    else
      ({ idle := rest, total := pool.total - 1 }, none)
  | [] =>
    if (cfg.maxSize : Int) ≤ pool.total then (pool, some { phase := .waiting })
    else (pool, some { phase := .creating })

/-- Connections counted and not idle. -/
def owed (pool : ConnPool) : Int :=
  pool.total - pool.idle.length

theorem evictIdleLocked_owed (pool : ConnPool) :
    (pool.evictIdleLocked cfg now).owed = pool.owed := by
  have hsplit : pool.idle.length = _ := length_eq_countP_add_countP (expired cfg now)
  have hkept : pool.idle.countP (fun conn => decide (¬ expired cfg now conn = true))
      = (pool.idle.filter (!expired cfg now ·)).length := by
    rw [countP_eq_length_filter]
    simp
  simp only [owed, evictIdleLocked]
  omega

theorem evictIdleLocked_idle_length_le (pool : ConnPool) :
    (pool.evictIdleLocked cfg now).idle.length ≤ pool.idle.length :=
  length_filter_le ..

theorem evictIdleLocked_of_idle_nil
    (hidle : pool.idle = []) : pool.evictIdleLocked cfg now = pool := by
  ext1
  · simp [evictIdleLocked, hidle]
  · simp [evictIdleLocked, hidle]

/-- What a round can do.  It keeps the books; it never counts up; it goes on
only after closing a connection; it leaves to connect only below `max_size`. -/
theorem acquireRound_spec (reading : Reading) (pool : ConnPool) :
    (acquireRound cfg reading pool).1.owed
        = pool.owed + Exit.handsOut (acquireRound cfg reading pool).2
      ∧ (acquireRound cfg reading pool).1.total ≤ pool.total
      ∧ ((acquireRound cfg reading pool).2 = none →
          (acquireRound cfg reading pool).1.idle.length < pool.idle.length)
      ∧ (∀ exit, (acquireRound cfg reading pool).2 = some exit → exit.phase = .creating →
          (acquireRound cfg reading pool).1.total < cfg.maxSize) := by
  have howed := evictIdleLocked_owed cfg reading.now pool
  have hlen := evictIdleLocked_idle_length_le cfg reading.now pool
  have htotal : (pool.evictIdleLocked cfg reading.now).total ≤ pool.total := by
    simp only [owed] at howed
    omega
  unfold acquireRound
  dsimp only
  split
  case h_1 conn rest hidle =>
    simp only [owed, hidle, length_cons] at howed hlen
    split
    · refine ⟨?_, htotal, nofun, by simp⟩
      simp only [owed, Exit.handsOut, bind_some, toList_some, length_singleton]
      omega
    refine ⟨?_, ?_, fun _ => hlen, nofun⟩
    · simp only [owed, Exit.handsOut, bind_none, toList_none, length_nil]
      omega
    · dsimp only
      omega
  case h_2 =>
    split
    · exact ⟨by simpa [Exit.handsOut] using howed, htotal, nofun, by simp⟩
    · refine ⟨by simpa [Exit.handsOut] using howed, htotal, nofun, fun _ _ _ => ?_⟩
      exact Int.lt_of_not_ge ‹_›

/-- The loop of `acquire` under the mutex; `readings i` is what its `i`-th
round reads. -/
def acquireLoop (cfg : PoolConfig) (readings : Nat → Reading) (pool : ConnPool) : ConnPool × Exit :=
  match h : (acquireRound cfg (readings 0) pool).2 with
  | some exit => ((acquireRound cfg (readings 0) pool).1, exit)
  | none => acquireLoop cfg (fun i => readings (i + 1)) (acquireRound cfg (readings 0) pool).1
termination_by pool.idle.length
decreasing_by exact (acquireRound_spec cfg (readings 0) pool).2.2.1 h

/-- `release` of a connection whose flag is `healthy` by then. -/
def release (pool : ConnPool) (healthy : Bool) (now : UInt64) : ConnPool :=
  if healthy then { pool with idle := pool.idle ++ [{ healthy := true, lastUsed := now }] }
  else { pool with total := pool.total - 1 }

def invalidate (pool : ConnPool) : ConnPool :=
  { pool with total := pool.total - 1 }

variable (created : Nat → Option UInt64)

/-- The constructor: `min_size` attempts, `created i` the clock of the `i`-th if
it worked. -/
def new : ConnPool :=
  (List.range cfg.minSize).foldl (fun pool i =>
    match created i with
    | some createdAt =>
      { idle := pool.idle ++ [{ lastUsed := createdAt }], total := pool.total + 1 }
    | none => pool) ⟨[], 0⟩

/-! ## What the operations do to the count -/

theorem acquireLoop_spec (cfg : PoolConfig) (readings : Nat → Reading) (pool : ConnPool) :
    (acquireLoop cfg readings pool).1.owed
        = pool.owed + Exit.handsOut (some (acquireLoop cfg readings pool).2)
      ∧ (acquireLoop cfg readings pool).1.total ≤ pool.total
      ∧ ((acquireLoop cfg readings pool).2.phase = .creating →
          (acquireLoop cfg readings pool).1.total < cfg.maxSize) := by
  fun_induction acquireLoop cfg readings pool with
  | case1 readings pool exit hround =>
    obtain ⟨howed, hle, -, hcreating⟩ := acquireRound_spec cfg (readings 0) pool
    exact ⟨hround ▸ howed, hle, hcreating exit hround⟩
  | case2 readings pool hround ih =>
    obtain ⟨howed, hle, -, -⟩ := acquireRound_spec cfg (readings 0) pool
    rw [hround] at howed
    refine ⟨?_, ih.2.1.trans hle, ih.2.2⟩
    rw [ih.1, howed]
    simp [Exit.handsOut]

/-- With nothing idle, the test decides alone. -/
theorem acquireLoop_of_idle_nil (cfg : PoolConfig) (readings : Nat → Reading)
    (hidle : pool.idle = []) (hroom : pool.total < cfg.maxSize) :
    acquireLoop cfg readings pool = (pool, { phase := .creating }) := by
  have hround : acquireRound cfg (readings 0) pool = (pool, some { phase := .creating }) := by
    unfold acquireRound
    rw [evictIdleLocked_of_idle_nil cfg _ hidle]
    simp [hidle, hroom]
  unfold acquireLoop
  rw [hround]

theorem release_owed (pool : ConnPool) (healthy : Bool) (now : UInt64) :
    (pool.release healthy now).owed = pool.owed - 1 := by
  unfold release owed
  split
  · simp only [length_append, length_singleton]
    omega
  · dsimp only
    omega

theorem release_total_le (pool : ConnPool) (healthy : Bool) (now : UInt64) :
    (pool.release healthy now).total ≤ pool.total := by
  unfold release
  split
  · exact le_rfl
  · exact Int.sub_le_self _ (by decide)

/-- The constructor counts what it queues, and makes at most `min_size` of them. -/
theorem new_spec :
    (new cfg created).owed = 0 ∧ (new cfg created).total ≤ cfg.minSize := by
  unfold new
  induction cfg.minSize with
  | zero => simp [owed]
  | succ k ih =>
    rw [range_succ, foldl_append, foldl_cons, foldl_nil]
    obtain ⟨howed, hle⟩ := ih
    split
    · simp only [owed, length_append, length_singleton] at howed ⊢
      omega
    · exact ⟨howed, by omega⟩

/-- It makes all of them when every attempt works. -/
theorem new_total_of_some (createdAt : UInt64) :
    (new cfg fun _ => some createdAt).total = cfg.minSize := by
  unfold new
  induction cfg.minSize with
  | zero => rfl
  | succ k ih =>
    rw [range_succ, foldl_append, foldl_cons, foldl_nil]
    simp [ih]

theorem new_of_none : new cfg (fun _ => none) = ⟨[], 0⟩ := by
  unfold new
  induction cfg.minSize with
  | zero => rfl
  | succ k ih => rw [range_succ, foldl_append, ih, foldl_cons, foldl_nil]

end ConnPool

/-! ## Threads -/

/-- The threads of one process.  `inUse` is no variable of the program: it is
the connections the callers have and owe to the pool. -/
structure Threads (n : Nat) where
  pool : ConnPool
  phase : Fin n → Phase
  inUse : List PooledConn

/-- One thread's next stretch under the mutex.  `wake` stands for a notification
and for a spurious wake-up alike; `i` is the connection handed back. -/
inductive Stretch (n : Nat) where
  | acquire (thread : Fin n) (readings : Nat → Reading)
  | wake (thread : Fin n) (readings : Nat → Reading)
  | timeout (thread : Fin n)
  | created (thread : Fin n) (createdAt : Option UInt64)
  | release (thread : Fin n) (i : Nat) (healthy : Bool) (now : UInt64)
  | invalidate (thread : Fin n) (i : Nat)

namespace Threads

variable {n : Nat}

def start (cfg : PoolConfig) (created : Nat → Option UInt64) : Threads n where
  pool := .new cfg created
  phase _ := .outside
  inUse := []

variable (s : Threads n)

def leave (thread : Fin n) (next : ConnPool × Exit) : Threads n where
  pool := next.1
  phase := Function.update s.phase thread next.2.phase
  inUse := next.2.conn.toList ++ s.inUse

/-- The `i`-th connection in use is handed back. -/
def handBack (i : Nat) (pool : ConnPool) : Threads n :=
  { s with pool := pool, inUse := s.inUse.eraseIdx i }

/-- A stretch the thread is in no position to make changes nothing. -/
def step (cfg : PoolConfig) (s : Threads n) : Stretch n → Threads n
  | .acquire thread readings =>
    if s.phase thread = .outside then s.leave thread (s.pool.acquireLoop cfg readings) else s
  | .wake thread readings =>
    if s.phase thread = .waiting then s.leave thread (s.pool.acquireLoop cfg readings) else s
  | .timeout thread =>
    if s.phase thread = .waiting then s.leave thread (s.pool, { phase := .outside }) else s
  | .created thread createdAt =>
    if s.phase thread = .creating then
      match createdAt with
      | some createdAt =>
        s.leave thread ({ s.pool with total := s.pool.total + 1 },
          { phase := .outside, conn := some { lastUsed := createdAt } })
      | none => s.leave thread (s.pool, { phase := .outside })
    else s
  | .release thread i healthy now =>
    if s.phase thread = .outside ∧ i < s.inUse.length then
      s.handBack i (s.pool.release healthy now)
    else s
  | .invalidate thread i =>
    if s.phase thread = .outside ∧ i < s.inUse.length then s.handBack i s.pool.invalidate
    else s

/-! ## The books -/

/-- The pool counts the connections it has idle and those in use. -/
def Accounts : Prop :=
  s.pool.owed = s.inUse.length

variable {s : Threads n} {next : ConnPool × Exit} {cfg : PoolConfig} {k : Nat}

theorem Accounts.total_nonneg (hs : s.Accounts) : 0 ≤ s.pool.total := by
  unfold Accounts ConnPool.owed at hs
  omega

theorem Accounts.leave (hs : s.Accounts) (thread : Fin n)
    (howed : next.1.owed = s.pool.owed + Exit.handsOut (some next.2)) :
    (s.leave thread next).Accounts := by
  unfold Accounts Threads.leave at *
  rw [howed, hs, Exit.handsOut, length_append, bind_some]
  omega

theorem Accounts.handBack (hs : s.Accounts) {i : Nat} (hi : i < s.inUse.length)
    (howed : pool.owed = s.pool.owed - 1) : (s.handBack i pool).Accounts := by
  unfold Accounts Threads.handBack at *
  rw [howed, hs, length_eraseIdx_of_lt hi]
  omega

theorem step_accounts (cfg : PoolConfig) (s : Threads n) (stretch : Stretch n)
    (hs : s.Accounts) : (step cfg s stretch).Accounts := by
  cases stretch with
  | acquire thread readings | wake thread readings =>
    rw [step]
    split
    · exact hs.leave thread (ConnPool.acquireLoop_spec cfg readings s.pool).1
    · exact hs
  | timeout thread =>
    rw [step]
    split
    · exact hs.leave thread (by simp [Exit.handsOut])
    · exact hs
  | created thread createdAt =>
    simp only [step]
    split
    · cases createdAt with
      | some createdAt =>
        refine hs.leave thread ?_
        simp only [ConnPool.owed, Exit.handsOut, bind_some, toList_some, length_singleton]
        omega
      | none => exact hs.leave thread (by simp [Exit.handsOut])
    · exact hs
  | release thread i healthy now =>
    rw [step]
    split
    case isTrue hin => exact hs.handBack hin.2 (s.pool.release_owed healthy now)
    case isFalse => exact hs
  | invalidate thread i =>
    rw [step]
    split
    case isTrue hin => exact hs.handBack hin.2 (s.pool.release_owed false 0)
    case isFalse => exact hs

/-- **The books balance.**  Whatever the threads do, `total_` is the number of
connections that are idle or in use whenever the mutex is free. -/
theorem total_eq_idle_add_inUse (cfg : PoolConfig) (n : Nat) (created : Nat → Option UInt64)
    (stretches : List (Stretch n)) :
    Always (step cfg) (fun s => s.pool.total = s.pool.idle.length + s.inUse.length
        ∧ 0 ≤ s.pool.total) (start cfg created) stretches := by
  have hstart : (start cfg created : Threads n).Accounts := (ConnPool.new_spec cfg created).1
  have haccounts : Always (step cfg) Accounts (start cfg created) stretches :=
    always_of_step (step_accounts cfg) hstart stretches
  intro before after heq
  have hs := haccounts before after heq
  refine ⟨?_, hs.total_nonneg⟩
  unfold Accounts ConnPool.owed at hs
  omega

/-! ## One thread, or no room at all -/

/-- The count is within bounds, and whoever is about to count up has room. -/
structure Guarded (cfg : PoolConfig) (s : Threads n) : Prop where
  accounts : s.Accounts
  total_le : s.pool.total ≤ cfg.maxSize
  room : ∀ thread, s.phase thread = .creating → s.pool.total < cfg.maxSize

/-- A thread that does not count up leaves the others the room they have. -/
theorem Guarded.leave (hs : s.Guarded cfg) (thread : Fin n)
    (haccounts : (s.leave thread next).Accounts) (hle : next.1.total ≤ s.pool.total)
    (hcreating : next.2.phase = .creating → next.1.total < cfg.maxSize) :
    (s.leave thread next).Guarded cfg where
  accounts := haccounts
  total_le := hle.trans hs.total_le
  room other hother := by
    by_cases heq : other = thread
    · rw [heq] at hother
      exact hcreating (by simpa [Threads.leave] using hother)
    · have hold : s.phase other = .creating := by simpa [Threads.leave, heq] using hother
      exact lt_of_le_of_lt hle (hs.room other hold)

theorem Guarded.handBack (hs : s.Guarded cfg) {i : Nat}
    (haccounts : (s.handBack i pool).Accounts) (hle : pool.total ≤ s.pool.total) :
    (s.handBack i pool).Guarded cfg where
  accounts := haccounts
  total_le := hle.trans hs.total_le
  room other hother := lt_of_le_of_lt hle (hs.room other hother)

/-- Counting up is safe when no other thread has room reserved: either there is
no other thread, or there is no room. -/
theorem Guarded.count (hs : s.Guarded cfg) (hn : n ≤ 1 ∨ cfg.maxSize = 0) {thread : Fin n}
    (hthread : s.phase thread = .creating) (haccounts : (s.leave thread next).Accounts)
    (htotal : next.1.total = s.pool.total + 1) (hphase : next.2.phase ≠ .creating) :
    (s.leave thread next).Guarded cfg where
  accounts := haccounts
  total_le := htotal.trans_le (hs.room thread hthread)
  room other hother := by
    have hroom := hs.room thread hthread
    have hnonneg := hs.accounts.total_nonneg
    have heq : other = thread := by
      have := other.isLt
      have := thread.isLt
      exact Fin.ext (by omega)
    rw [heq] at hother
    exact absurd (by simpa [Threads.leave] using hother) hphase

theorem step_guarded (cfg : PoolConfig) (hn : n ≤ 1 ∨ cfg.maxSize = 0) (s : Threads n)
    (stretch : Stretch n) (hs : s.Guarded cfg) : (step cfg s stretch).Guarded cfg := by
  have haccounts := step_accounts cfg s stretch hs.accounts
  cases stretch with
  | acquire thread readings | wake thread readings =>
    obtain ⟨-, hle, hcreating⟩ := ConnPool.acquireLoop_spec cfg readings s.pool
    rw [step] at haccounts ⊢
    split_ifs at haccounts ⊢
    · exact hs.leave thread haccounts hle hcreating
    · exact hs
  | timeout thread =>
    rw [step] at haccounts ⊢
    split_ifs at haccounts ⊢
    · exact hs.leave thread haccounts le_rfl nofun
    · exact hs
  | created thread createdAt =>
    simp only [step] at haccounts ⊢
    split_ifs at haccounts ⊢ with hthread
    · cases createdAt with
      | some createdAt => exact hs.count hn hthread haccounts rfl nofun
      | none => exact hs.leave thread haccounts le_rfl nofun
    · exact hs
  | release thread i healthy now =>
    rw [step] at haccounts ⊢
    split_ifs at haccounts ⊢
    · exact hs.handBack haccounts (s.pool.release_total_le healthy now)
    · exact hs
  | invalidate thread i =>
    rw [step] at haccounts ⊢
    split_ifs at haccounts ⊢
    · exact hs.handBack haccounts (s.pool.release_total_le false 0)
    · exact hs

theorem start_guarded (hmin : cfg.minSize ≤ cfg.maxSize) (created : Nat → Option UInt64) :
    (start cfg created : Threads n).Guarded cfg := by
  obtain ⟨howed, hle⟩ := ConnPool.new_spec cfg created
  exact ⟨howed, hle.trans (Int.ofNat_le.mpr hmin), nofun⟩

/-! ## Two threads past the test -/

/-- Nothing idle, nobody in a call, and `k` connections counted. -/
def Busy (k : Nat) (s : Threads n) : Prop :=
  s.pool = ⟨[], k⟩ ∧ s.phase = fun _ => .outside

/-- A clock at zero and a server that never answers. -/
def noReading : Nat → Reading := fun _ => ⟨0, false, 0⟩

/-- One connection made from start to end. -/
def connect (thread : Fin n) : List (Stretch n) :=
  [.acquire thread noReading, .created thread (some 0)]

/-- Both threads make the test before either counts. -/
def race (first second : Fin n) : List (Stretch n) :=
  [.acquire first noReading, .acquire second noReading,
    .created first (some 0), .created second (some 0)]

theorem step_acquire_of_idle_nil {thread : Fin n} (hpool : s.pool = ⟨[], k⟩)
    (hroom : k < cfg.maxSize) (hthread : s.phase thread = .outside) :
    step cfg s (.acquire thread noReading) = s.leave thread (⟨[], k⟩, { phase := .creating }) := by
  rw [step, if_pos hthread, hpool,
    ConnPool.acquireLoop_of_idle_nil cfg _ rfl (Int.ofNat_lt.mpr hroom)]

theorem Busy.connect (hs : s.Busy k) (hroom : k < cfg.maxSize) (thread : Fin n) :
    Busy (k + 1) ((connect thread).foldl (step cfg) s) := by
  obtain ⟨hpool, hphase⟩ := hs
  rw [Threads.connect, foldl_cons,
    step_acquire_of_idle_nil hpool hroom (congrFun hphase thread), foldl_cons, foldl_nil]
  simp [Busy, step, Threads.leave, hphase]

/-- The thread fills the pool up to any `k` within `max_size`. -/
theorem exists_busy (cfg : PoolConfig) (thread : Fin n) (hk : k ≤ cfg.maxSize) :
    ∃ stretches : List (Stretch n),
      Busy k (stretches.foldl (step cfg) (start cfg fun _ => none)) := by
  induction k with
  | zero => exact ⟨[], ConnPool.new_of_none cfg, rfl⟩
  | succ k ih =>
    obtain ⟨stretches, hbusy⟩ := ih (Nat.le_of_succ_le hk)
    refine ⟨stretches ++ connect thread, ?_⟩
    rw [foldl_append]
    exact hbusy.connect hk thread

theorem Busy.race (hs : s.Busy k) (hroom : k < cfg.maxSize) {first second : Fin n}
    (hne : first ≠ second) :
    ((race first second).foldl (step cfg) s).pool.total = k + 2 := by
  obtain ⟨hpool, hphase⟩ := hs
  -- the first thread's test leaves the pool as the second one finds it
  have hsecond : (s.leave first (⟨[], k⟩, { phase := .creating })).phase second = .outside := by
    simp [Threads.leave, hne.symm, hphase]
  rw [Threads.race, foldl_cons, step_acquire_of_idle_nil hpool hroom (congrFun hphase first),
    foldl_cons, step_acquire_of_idle_nil rfl hroom hsecond]
  have htotal : (k : Int) + 1 + 1 = k + 2 := by omega
  simpa [step, Threads.leave, hne, hne.symm] using htotal

/-- **Within `max_size` on every run**, exactly when the constructor stays within
it and there are no two threads to race for the last place. -/
theorem total_le_iff (cfg : PoolConfig) (n : Nat) :
    (∀ (created : Nat → Option UInt64) (stretches : List (Stretch n)),
        Always (step cfg) (fun s => s.pool.total ≤ cfg.maxSize) (start cfg created) stretches)
      ↔ cfg.minSize ≤ cfg.maxSize ∧ (n ≤ 1 ∨ cfg.maxSize = 0) := by
  constructor
  · intro h
    constructor
    · -- every attempt of the constructor works
      have hstart := h (fun _ => some 0) [] [] [] rfl
      rw [foldl_nil, start, ConnPool.new_total_of_some] at hstart
      exact Int.ofNat_le.mp hstart
    · by_contra hrace
      obtain ⟨hn, hmax⟩ := not_or.mp hrace
      let first : Fin n := ⟨0, by omega⟩
      let second : Fin n := ⟨1, by omega⟩
      have hne : first ≠ second := by simp [first, second]
      obtain ⟨stretches, hbusy⟩ := exists_busy cfg first (Nat.sub_le cfg.maxSize 1)
      have hroom : cfg.maxSize - 1 < cfg.maxSize := by omega
      have hover := hbusy.race hroom hne
      have hle := h (fun _ => none) (stretches ++ race first second) _ [] (append_nil _).symm
      rw [foldl_append, hover] at hle
      omega
  · rintro ⟨hmin, hn⟩ created stretches before after heq
    have hguarded : Always (step cfg) (Guarded cfg) (start cfg created) stretches :=
      always_of_step (step_guarded cfg hn) (start_guarded hmin created) stretches
    exact (hguarded before after heq).total_le

/-- Room for one connection, two threads, two connections. -/
theorem two_threads_pass_the_test : ((race 0 1).foldl (step { minSize := 0, maxSize := 1 })
      (start { minSize := 0, maxSize := 1 } (fun _ => none) : Threads 2)).pool.total = 2 :=
  Busy.race (k := 0) ⟨ConnPool.new_of_none _, rfl⟩ (by decide) (by decide)

end Threads

end SpatialDb.Net
