import AudioKernel.Sync.AtomicCalls

/-! `BoundedBuffer::put` and `BoundedBuffer::get`, by any number of threads on one buffer. -/
namespace AudioKernel
open Lib

variable {T V : Type}

/-- The semaphores of a buffer. -/
inductive BufferSem
  | nEmpty
  | nFull
  | lock
  deriving DecidableEq

/-- Where a thread is in `put` or `get`, with the local value that it carries. -/
inductive BufferPc (V : Type)
  | out
  | putEmpty (t : V)
  | putEmptyAsleep (t : V)
  | putLock (t : V)
  | putLockAsleep (t : V)
  | putStore (t : V)
  | putCount (t : V)
  | putUnlock
  | putFull
  | getFull
  | getFullAsleep
  | getLock
  | getLockAsleep
  | getLoad
  | getHead (out : V)
  | getCount (out : V)
  | getUnlock (out : V)
  | getEmpty (out : V)
  deriving DecidableEq

namespace BufferPc

def asleep? : BufferPc V → Option BufferSem
  | putEmptyAsleep _ => some .nEmpty
  | getFullAsleep => some .nFull
  | putLockAsleep _ | getLockAsleep => some .lock
  | _ => none

/-- Where a sleeping thread goes on once it has been handed a permit. -/
def wake : BufferPc V → BufferPc V
  | putEmptyAsleep t => putLock t
  | putLockAsleep t => putStore t
  | getFullAsleep => getLock
  | getLockAsleep => getLoad
  | p => p

/-- The permits that a thread has. One of `nEmpty` turns into one of `nFull` when `put` counts its value, and back when
`get` does. -/
def permits : BufferSem → BufferPc V → ℕ
  | .nEmpty, putLock _ | .nEmpty, putLockAsleep _ | .nEmpty, putStore _ | .nEmpty, putCount _ => 1
  | .nEmpty, getUnlock _ | .nEmpty, getEmpty _ => 1
  | .nFull, getLock | .nFull, getLockAsleep | .nFull, getLoad | .nFull, getHead _ | .nFull, getCount _ => 1
  | .nFull, putUnlock | .nFull, putFull => 1
  | .lock, putStore _ | .lock, putCount _ | .lock, putUnlock => 1
  | .lock, getLoad | .lock, getHead _ | .lock, getCount _ | .lock, getUnlock _ => 1
  | _, _ => 0

end BufferPc

/-- A buffer and the threads that use it. Recorded are which cells hold a value that no `get` has read, and what `put`
and `get` have counted in and out of the buffer so far. -/
structure BufferState (T V : Type) where
  calls : SemProgram BufferSem T (BufferPc V)
  head : ℕ
  n : ℕ
  data : ℕ → V
  undelivered : ℕ → Bool
  puts : List V
  gets : List V

/-- A thread calls `put` or `get`, or takes its next step in it. -/
inductive BufferAct (T V : Type)
  | put (me : T) (t : V)
  | get (me : T)
  | step (me : T)

namespace BufferState

variable [DecidableEq T] (N : ℕ) (s : BufferState T V)

def setPc (me : T) (q : BufferPc V) : BufferState T V := { s with calls := s.calls.setPc me q }

def down (k : BufferSem) (me : T) (got blocked : BufferPc V) : BufferState T V :=
  { s with calls := s.calls.down k me got blocked }

def up (k : BufferSem) (me : T) (q : BufferPc V) : BufferState T V := { s with calls := s.calls.up k me q .wake }

def tail : ℕ := ((s.head + s.n) % 2 ^ 32) % N

def stepThread (me : T) : BufferState T V :=
  match s.calls.pc me with
  | .out | .putEmptyAsleep _ | .putLockAsleep _ | .getFullAsleep | .getLockAsleep => s
  | .putEmpty t => s.down .nEmpty me (.putLock t) (.putEmptyAsleep t)
  | .putLock t => s.down .lock me (.putStore t) (.putLockAsleep t)
  | .putStore t =>
    { s.setPc me (.putCount t) with
      data := Function.update s.data (s.tail N) t
      undelivered := Function.update s.undelivered (s.tail N) true }
  | .putCount t => { s.setPc me .putUnlock with n := (s.n + 1) % 2 ^ 32, puts := s.puts ++ [t] }
  | .putUnlock => s.up .lock me .putFull
  | .putFull => s.up .nFull me .out
  | .getFull => s.down .nFull me .getLock .getFullAsleep
  | .getLock => s.down .lock me .getLoad .getLockAsleep
  | .getLoad =>
    { s.setPc me (.getHead (s.data s.head)) with undelivered := Function.update s.undelivered s.head false }
  | .getHead out => { s.setPc me (.getCount out) with head := ((s.head + 1) % 2 ^ 32) % N }
  | .getCount out =>
    { s.setPc me (.getUnlock out) with n := (s.n + 2 ^ 32 - 1) % 2 ^ 32, gets := s.gets ++ [out] }
  | .getUnlock out => s.up .lock me (.getEmpty out)
  | .getEmpty _ => s.up .nEmpty me .out

def enabled : BufferAct T V → Bool
  | .put me _ | .get me => (s.calls.pc me matches .out)
  | .step me => !(s.calls.pc me matches .out) && (s.calls.pc me).asleep?.isNone

def next : BufferAct T V → BufferState T V
  | .put me t => s.setPc me (.putEmpty t)
  | .get me => s.setPc me .getFull
  | .step me => s.stepThread N me

end BufferState

/-- `BoundedBuffer(N)`, with what `new T[N]` has left in the cells. -/
def BufferState.new (N : ℕ) (data : ℕ → V) : BufferState T V where
  calls :=
    { sem := fun
        | .nEmpty => ⟨N, false, []⟩
        | .nFull => ⟨0, false, []⟩
        | .lock => ⟨1, false, []⟩
      pc := fun _ => .out }
  head := 0
  n := 0
  data := data
  undelivered := fun _ => false
  puts := []
  gets := []

def bufferMachine (T : Type) [DecidableEq T] (N : ℕ) (data : ℕ → V) :
    Machine (BufferState T V) (BufferAct T V) where
  init s := s = .new N data
  enabled s a := s.enabled a = true
  next s a := s.next N a

instance [DecidableEq T] (N : ℕ) (data : ℕ → V) (s : BufferState T V) (a : BufferAct T V) :
    Decidable ((bufferMachine T N data).enabled s a) :=
  inferInstanceAs (Decidable (_ = true))

end AudioKernel
