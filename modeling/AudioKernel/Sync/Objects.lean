import Mathlib.Algebra.Group.Nat.Defs
import Mathlib.Data.List.Basic

/-! The objects of `semaphore.h` and `condition.h`, and the steps that are taken on them under their locks. The
pointers to the waiting threads are of any type. -/
namespace AudioKernel

/-- Threads by the addresses of their control blocks, which are words of a 32-bit address space. -/
abbrev TcbPtr : Type := Fin (2 ^ 30)

variable {T : Type}

/-- `class Semaphore`: `taken` is the word of its `ISL`. -/
structure Semaphore (T : Type) where
  count : ℕ
  taken : Bool
  waiting : List T

namespace Semaphore

def lock (s : Semaphore T) : Semaphore T := { s with taken := true }

def unlock (s : Semaphore T) : Semaphore T := { s with taken := false }

def tryDown (s : Semaphore T) : Option (Semaphore T) :=
  if s.count > 0 then some { s with count := s.count - 1 } else none

/-- The callback of `down` adds the thread that has blocked. -/
def enqueue (s : Semaphore T) (me : T) : Semaphore T := { s with waiting := s.waiting ++ [me] }

/-- `up` takes the first waiting thread, or else increments the `uint64_t` count. -/
def handOver (s : Semaphore T) : Option T × Semaphore T :=
  match s.waiting with
  | next :: rest => (some next, { s with waiting := rest })
  | [] => (none, { s with count := (s.count + 1) % 2 ^ 64 })

theorem handOver_nil {s : Semaphore T} (hw : s.waiting = []) :
    s.handOver = (none, { s with count := (s.count + 1) % 2 ^ 64 }) := by
  unfold handOver
  rw [hw]

theorem handOver_cons {s : Semaphore T} {next : T} {rest : List T} (hw : s.waiting = next :: rest) :
    s.handOver = (some next, { s with waiting := rest }) := by
  unfold handOver
  rw [hw]

end Semaphore

/-- `class Condition`: `taken` is the word of `the_lock`. -/
structure Condition (T : Type) where
  taken : Bool
  epoch : ℕ
  queue : List T

namespace Condition

def lock (k : Condition T) : Condition T := { k with taken := true }

def unlock (k : Condition T) : Condition T := { k with taken := false }

/-- `epoch += 1` on a `uint64_t`. -/
def nextEpoch (k : Condition T) : Condition T := { k with epoch := (k.epoch + 1) % 2 ^ 64 }

def enqueue (k : Condition T) (me : T) : Condition T := { k with queue := k.queue ++ [me] }

def dequeue (k : Condition T) : Option (T × Condition T) :=
  match k.queue with
  | next :: rest => some (next, { k with queue := rest })
  | [] => none

theorem dequeue_nil {k : Condition T} (hq : k.queue = []) : k.dequeue = none := by
  unfold dequeue
  rw [hq]

theorem dequeue_cons {k : Condition T} {next : T} {rest : List T} (hq : k.queue = next :: rest) :
    k.dequeue = some (next, { k with queue := rest }) := by
  unfold dequeue
  rw [hq]

end Condition
end AudioKernel
