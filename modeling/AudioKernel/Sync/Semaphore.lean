import AudioKernel.Lib.Exclusive
import AudioKernel.Lib.Machine
import AudioKernel.Lib.WaitQueue
import AudioKernel.Sync.Objects

/-! `Semaphore::down` and `Semaphore::up`, step by step, by any number of threads on one semaphore. -/
namespace AudioKernel
open Lib

variable {T : Type}

/-- Where a thread is in `down` or `up`. In `block` it still holds the lock, which the callback releases on the stack
of another thread; it is `asleep` from then on. -/
inductive SemPc (T : Type)
  | out
  | downLock
  | downTest
  | downUnlock
  | downBlock
  | downRelease
  | asleep
  | upLock
  | upTake
  | upUnlock (next : Option T)
  | upSchedule (next : T)

namespace SemPc

def holdsLock : SemPc T → Bool
  | downTest | downUnlock | downBlock | downRelease | upTake | upUnlock _ => true
  | _ => false

/-- The thread has been added to the queue and has not been scheduled since. -/
def waits : SemPc T → Bool
  | downRelease | asleep => true
  | _ => false

/-- The thread that this one has taken from the queue and not yet scheduled. -/
def hands? : SemPc T → Option T
  | upUnlock next => next
  | upSchedule next => some next
  | _ => none

end SemPc

/-- A semaphore and the threads that use it. What has happened so far is recorded: how many calls of `down` have
taken or been handed a permit, how many calls of `up` have incremented the count or handed a permit over, in which order
threads were enqueued, handed a permit and scheduled, and who has got a permit without giving it back. -/
structure SemState (T : Type) where
  sem : Semaphore T
  pc : T → SemPc T
  downs : ℕ
  ups : ℕ
  enqueued : List T
  handed : List T
  scheduled : List T
  owners : List T

/-- A thread calls `down` or `up`, or takes its next step in it. -/
inductive SemAct (T : Type)
  | down (t : T)
  | up (t : T)
  | step (t : T)

namespace SemState

variable [DecidableEq T] (s : SemState T)

def setPc (t : T) (pc : SemPc T) : SemState T := { s with pc := Function.update s.pc t pc }

/-- A sleeping thread cannot take a step, and a spinning one needs the lock to be free. -/
def canStep (t : T) : Bool :=
  match s.pc t with
  | .out | .asleep => false
  | .downLock | .upLock => !s.sem.taken
  | _ => true

def stepThread (t : T) : SemState T :=
  match s.pc t with
  | .out | .asleep => s
  | .downLock => { s.setPc t .downTest with sem := s.sem.lock }
  | .downTest =>
    match s.sem.tryDown with
    | some x => { s.setPc t .downUnlock with sem := x, downs := s.downs + 1, owners := t :: s.owners }
    | none => s.setPc t .downBlock
  | .downUnlock => { s.setPc t .out with sem := s.sem.unlock }
  | .downBlock => { s.setPc t .downRelease with sem := s.sem.enqueue t, enqueued := s.enqueued ++ [t] }
  | .downRelease => { s.setPc t .asleep with sem := s.sem.unlock }
  | .upLock => { s.setPc t .upTake with sem := s.sem.lock }
  | .upTake =>
    match s.sem.handOver with
    | (none, x) => { s.setPc t (.upUnlock none) with sem := x, ups := s.ups + 1, owners := s.owners.erase t }
    | (some next, x) =>
      { s.setPc t (.upUnlock (some next)) with
        sem := x
        downs := s.downs + 1
        ups := s.ups + 1
        handed := s.handed ++ [next]
        owners := next :: s.owners.erase t }
  | .upUnlock none => { s.setPc t .out with sem := s.sem.unlock }
  | .upUnlock (some next) => { s.setPc t (.upSchedule next) with sem := s.sem.unlock }
  | .upSchedule next => { (s.setPc t .out).setPc next .out with scheduled := s.scheduled ++ [next] }

def enabled : SemAct T → Bool
  | .down t | .up t => (s.pc t matches .out)
  | .step t => s.canStep t

def next : SemAct T → SemState T
  | .down t => s.setPc t .downLock
  | .up t => s.setPc t .upLock
  | .step t => s.stepThread t

end SemState

def SemState.new (n : ℕ) : SemState T where
  sem := ⟨n, false, []⟩
  pc _ := .out
  downs := 0
  ups := 0
  enqueued := []
  handed := []
  scheduled := []
  owners := []

def semMachine (T : Type) [DecidableEq T] (n : ℕ) : Machine (SemState T) (SemAct T) where
  init s := s = .new n
  enabled s a := s.enabled a = true
  next := SemState.next

instance [DecidableEq T] (n : ℕ) (s : SemState T) (a : SemAct T) : Decidable ((semMachine T n).enabled s a) :=
  inferInstanceAs (Decidable (_ = true))

end AudioKernel
