import SpatialDb.Lib.Bytes
import SpatialDb.Lib.Runs

/-!
# The stream of the log

Model of `flushAOF` and `liveAOF` of `aof.go`: commands gather in `aofbuf`, a
flush writes them to the file and wakes the streams that sleep, and a stream
sends a follower what is behind a position of the file.  It finds the end of the
file and goes to sleep in two steps, and a flush may come between them; the
server wakes all streams four times a second besides (`server.go`).

The write and the broadcast of a flush are one step here: a stream that is not
asleep and acts between them is one that acts before a later `broadcast`.
-/

namespace SpatialDb.Server

open Lib List

/-- Where `liveAOF` is: in `io.Copy`, in its loop, at the end of the file, or
asleep in `s.fcond.Wait`. -/
inductive Phase where
  | copying
  | reading
  | atEnd
  | asleep
  deriving DecidableEq

/-- A leader and one of its streams; `unsent` is the file behind the position of
the stream. -/
structure LiveAOF where
  aofbuf : Bytes := []
  sent : Bytes := []
  unsent : Bytes
  phase : Phase := .copying

inductive LiveOp where
  | write (command : Bytes)
  | flush
  /-- A read of up to `n + 1` bytes. -/
  | read (n : Nat)
  | sleep
  | broadcast

namespace LiveAOF

variable (x : LiveAOF)

def broadcast : LiveAOF :=
  if x.phase = .asleep then { x with phase := .reading } else x

def flushAOF : LiveAOF :=
  if x.aofbuf = [] then x
  else { x.broadcast with unsent := x.unsent ++ x.aofbuf, aofbuf := [] }

def read (n : Nat) : LiveAOF :=
  if x.unsent = [] then { x with phase := if x.phase = .copying then .reading else .atEnd }
  else { x with sent := x.sent ++ x.unsent.take (n + 1), unsent := x.unsent.drop (n + 1) }

def step : LiveOp → LiveAOF
  | .write command => { x with aofbuf := x.aofbuf ++ command }
  | .flush => x.flushAOF
  | .read n => if x.phase = .copying ∨ x.phase = .reading then x.read n else x
  | .sleep => if x.phase = .atEnd then { x with phase := .asleep } else x
  | .broadcast => x.broadcast

/-- The bytes that an operation adds to the log. -/
def written : LiveOp → Bytes
  | .write command => command
  | _ => []

/-- A stream that sleeps, or is about to, has sent the whole file. -/
def Drained : Prop := x.phase = .atEnd ∨ x.phase = .asleep → x.unsent = []

variable (op : LiveOp)

/-- A flush of something, between the end of the file and the sleep. -/
def Missed : Prop := op = .flush ∧ x.phase = .atEnd ∧ x.aofbuf ≠ []

theorem step_log :
    (x.step op).sent ++ ((x.step op).unsent ++ (x.step op).aofbuf) =
      x.sent ++ (x.unsent ++ x.aofbuf) ++ written op := by
  cases op with
  | write command => simp [step, written]
  | flush =>
    simp only [step, flushAOF, broadcast]
    split_ifs <;> simp_all [written]
  | read n =>
    simp only [step, read]
    split_ifs
    · simp [written]
    · simp [written]
    · show x.sent ++ _ ++ (_ ++ x.aofbuf) = _ ++ []
      rw [append_nil, append_assoc, ← append_assoc (take _ _), take_append_drop]
    · simp [written]
  | sleep | broadcast =>
    simp only [step, broadcast]
    split_ifs <;> simp [written]

theorem step_drained_iff (h : x.Drained) : (x.step op).Drained ↔ ¬ x.Missed op := by
  cases op with
  | write command => simp_all [step, Drained, Missed]
  | flush =>
    simp only [step, flushAOF, broadcast, Missed, true_and]
    split_ifs with hbuf hphase <;> simp_all [Drained]
  | read n =>
    simp only [step, read]
    split_ifs <;> simp_all [Drained, Missed]
  | sleep | broadcast =>
    simp only [step, broadcast]
    split_ifs <;> simp_all [Drained, Missed]

/-- A stream that does not sleep over bytes sends them all with as many reads. -/
theorem reads_unsent (ns : List Nat) (x : LiveAOF) (hlen : x.unsent.length ≤ ns.length)
    (hdrained : x.Drained) : ((ns.map .read).foldl step x).unsent = [] := by
  induction ns generalizing x with
  | nil => exact length_eq_zero_iff.mp (Nat.le_zero.mp hlen)
  | cons n ns ih =>
    refine ih _ ?_ ((step_drained_iff x (.read n) hdrained).mpr (by simp [Missed]))
    simp only [step, read]
    split_ifs with hphase hnil
    · simp [hnil]
    · simp [hnil]
    · simp only [length_drop, length_cons] at hlen ⊢
      omega
    · rw [hdrained (by cases h : x.phase <;> simp_all)]
      exact Nat.zero_le _

/-- **In every order of the steps a stream sends the log from its position on,
byte for byte.  It sleeps over no byte of the file exactly if no flush comes
between the end of the file and its sleep; and a broadcast makes it send what it
has slept over.** -/
theorem run_sent_iff (rest : Bytes) (ops : List LiveOp) :
    let x := ops.foldl step { unsent := rest }
    x.sent ++ (x.unsent ++ x.aofbuf) = rest ++ ops.flatMap written ∧
    (Always step Drained { unsent := rest } ops ↔
      AtEach step (fun x op => ¬ x.Missed op) { unsent := rest } ops) ∧
    ∀ ns : List Nat, x.unsent.length ≤ ns.length →
      ((LiveOp.sleep :: .broadcast :: ns.map .read).foldl step x).unsent = [] := by
  refine ⟨?_, always_iff step_drained_iff (by simp [Drained]) ops, fun ns hlen => ?_⟩
  · induction ops using reverseRecOn with
    | nil => simp
    | append_singleton ops op ih => simp_all [foldl_append, flatMap_append, step_log]
  · refine reads_unsent ns _ ?_ ?_
    · simp only [step, broadcast]
      split_ifs <;> exact hlen
    · simp only [step, broadcast]
      split_ifs <;> simp_all [Drained]

theorem run_sleeps_over_byte :
    let x := [.read 0, .read 0, .write (lit "x"), .flush, .sleep].foldl step { unsent := [] }
    x.phase = .asleep ∧ x.unsent = lit "x" ∧
      ([LiveOp.sleep, .broadcast, .read 0].foldl step x).unsent = [] :=
  ⟨rfl, rfl, (run_sent_iff [] _).2.2 [0] (by decide)⟩

end LiveAOF

end SpatialDb.Server
