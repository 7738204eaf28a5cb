import AudioKernel.Lib.Exclusive
import AudioKernel.Lib.Machine
import AudioKernel.Lib.WaitQueue
import AudioKernel.Sync.Objects

/-! `Condition::wait` and `Condition::notify`, step by step, by any number of threads that share `the_lock`. -/
namespace AudioKernel
open Lib

variable {T : Type}

/-- The argument of `notify` in `notifyAll`. -/
def allLimit : ℕ := 2 ^ 64 - 1

/-- Where a thread is. From `waitLocked` to `waitSchedule` the callback of `wait` acts for it, on the stack of another
thread. A `wait` carries its `old_epoch`, and a `notify` its `limit` and its loop variable. -/
inductive CondPc (T : Type)
  | out
  | lockWait
  | inside
  | waitBlock (oldEpoch : ℕ)
  | waitLocked (oldEpoch : ℕ)
  | waitQueued (oldEpoch : ℕ)
  | asleep (oldEpoch : ℕ)
  | waitMissed (oldEpoch : ℕ)
  | waitSchedule (oldEpoch : ℕ)
  | relock
  | notifying (limit i : ℕ)
  | handing (next : T) (limit i : ℕ)
  | failed

namespace CondPc

def holdsLock : CondPc T → Bool
  | inside | waitLocked _ | waitQueued _ | waitMissed _ | notifying _ _ | handing _ _ _ | failed => true
  | _ => false

/-- The thread has been added to the queue and has not been scheduled since. -/
def enqueued : CondPc T → Bool
  | waitQueued _ | asleep _ => true
  | _ => false

def hands? : CondPc T → Option T
  | handing next _ _ => some next
  | _ => none

/-- The thread is in a `wait` that has released the lock, and has not been scheduled. -/
def wait? : CondPc T → Option ℕ
  | waitBlock e | waitLocked e | waitQueued e | asleep e | waitMissed e | waitSchedule e => some e
  | _ => none

/-- The `wait` has not found that the epoch has changed, either. -/
def pending? : CondPc T → Option ℕ
  | waitBlock e | waitLocked e | waitQueued e | asleep e => some e
  | _ => none

end CondPc

/-- What is remembered of a call of `notify`: its limit, and where every thread was when it began. -/
structure Notify (T : Type) where
  limit : ℕ
  before : T → CondPc T

/-- A condition and the threads that use it. Recorded are the number of calls of `notify`, the one that began last, the
ones that have ended, and for every thread how often it has waited and been scheduled. -/
structure CondState (T : Type) where
  cond : Condition T
  pc : T → CondPc T
  notifies : ℕ
  current : Notify T
  completed : List (Notify T)
  waits : T → ℕ
  schedules : T → ℕ

/-- A thread takes or gives back the lock, calls `wait` or `notify`, or takes its next step in them. -/
inductive CondAct (T : Type)
  | lock (t : T)
  | unlock (t : T)
  | wait (t : T)
  | notify (t : T) (limit : ℕ)
  | step (t : T)

namespace CondState

variable [DecidableEq T] (s : CondState T)

def setPc (t : T) (pc : CondPc T) : CondState T := { s with pc := Function.update s.pc t pc }

/-- A failed assertion stops the thread. -/
def fail (t : T) : CondState T := s.setPc t .failed

def schedule (t : T) : CondState T :=
  { s.setPc t .relock with schedules := Function.update s.schedules t (s.schedules t + 1) }

def beginWait (t : T) : CondState T :=
  if s.cond.taken then
    { s.setPc t (.waitBlock s.cond.epoch) with
      cond := s.cond.unlock
      waits := Function.update s.waits t (s.waits t + 1) }
  else s.fail t

def beginNotify (t : T) (limit : ℕ) : CondState T :=
  if s.cond.taken then
    { s.setPc t (.notifying limit 0) with
      cond := s.cond.nextEpoch
      notifies := s.notifies + 1
      current := ⟨limit, s.pc⟩ }
  else s.fail t

def endNotify (t : T) : CondState T := { s.setPc t .inside with completed := s.current :: s.completed }

def canStep (t : T) : Bool :=
  match s.pc t with
  | .out | .inside | .asleep _ | .failed => false
  | .lockWait | .waitBlock _ | .relock => !s.cond.taken
  | _ => true

def stepThread (t : T) : CondState T :=
  match s.pc t with
  | .out | .inside | .asleep _ | .failed => s
  | .lockWait | .relock => { s.setPc t .inside with cond := s.cond.lock }
  | .waitBlock e => { s.setPc t (.waitLocked e) with cond := s.cond.lock }
  | .waitLocked e =>
    if s.cond.epoch = e then { s.setPc t (.waitQueued e) with cond := s.cond.enqueue t }
    else if s.cond.epoch > e then s.setPc t (.waitMissed e)
    else s.fail t
  | .waitQueued e => { s.setPc t (.asleep e) with cond := s.cond.unlock }
  | .waitMissed e => { s.setPc t (.waitSchedule e) with cond := s.cond.unlock }
  | .waitSchedule _ => s.schedule t
  | .notifying limit i =>
    if i < limit then
      match s.cond.dequeue with
      | none => s.endNotify t
      | some (next, x) => { s.setPc t (.handing next limit i) with cond := x }
    else s.endNotify t
  | .handing next limit i => (s.setPc t (.notifying limit (i + 1))).schedule next

def enabled : CondAct T → Bool
  | .lock t => (s.pc t matches .out)
  | .unlock t | .wait t | .notify t _ => (s.pc t matches .inside)
  | .step t => s.canStep t

def next : CondAct T → CondState T
  | .lock t => s.setPc t .lockWait
  | .unlock t => { s.setPc t .out with cond := s.cond.unlock }
  | .wait t => s.beginWait t
  | .notify t limit => s.beginNotify t limit
  | .step t => s.stepThread t

end CondState

def CondState.new : CondState T where
  cond := ⟨false, 0, []⟩
  pc _ := .out
  notifies := 0
  current := ⟨0, fun _ => .out⟩
  completed := []
  waits _ := 0
  schedules _ := 0

def condMachine (T : Type) [DecidableEq T] : Machine (CondState T) (CondAct T) where
  init s := s = .new
  enabled s a := s.enabled a = true
  next := CondState.next

instance [DecidableEq T] (s : CondState T) (a : CondAct T) : Decidable ((condMachine T).enabled s a) :=
  inferInstanceAs (Decidable (_ = true))

end AudioKernel
