import AudioKernel.Lib.Machine
import AudioKernel.Sync.Objects
import Mathlib.Data.Finset.Insert

/-! The scheduler of `threads.h` and `threads.cc`: `block` and its callbacks, `schedule`, `yield`, `stop`,
`delete_zombies`, the timer tick of `pit.cc`, and the semaphores and conditions that block threads. The cores
take their steps in any order. -/
namespace AudioKernel
open Lib

/-- A TCB: the idle thread of a core, or the thread with the given id. -/
inductive Tcb
  | idle (core : ℕ)
  | thread (id : ℕ)
  deriving DecidableEq

namespace Tcb

def isIdle : Tcb → Bool
  | idle _ => true
  | thread _ => false

def thread? : Tcb → Option ℕ
  | idle _ => none
  | thread t => some t

end Tcb

inductive BlockOption
  | mustBlock
  | canReturn
  deriving DecidableEq

/-- The functions that are passed to `block`. That of `wait` takes `the_lock`, then compares the epochs, and
then may still have to schedule the thread. -/
inductive Callback
  | yield
  | stop
  | down (s : ℕ)
  | wait (k oldEpoch : ℕ)
  | waitLocked (k oldEpoch : ℕ)
  | waitSchedule
  deriving DecidableEq

/-- Where a call of `block` stands, with its `core_id`, `me` and `next_tcb`. A thread that has been switched
away from is `away` until another one switches to it. -/
inductive Stage
  | enter
  | remove (core : ℕ) (me : Tcb)
  | activate (core : ℕ) (me next : Tcb)
  | switch (core : ℕ) (me next : Tcb)
  | away
  deriving DecidableEq

def Stage.next? : Stage → Option Tcb
  | activate _ _ next | switch _ _ next => some next
  | _ => none

structure Call where
  option : BlockOption
  callback : Callback
  stage : Stage
  deriving DecidableEq

/-- What a thread does when it is not inside `block`. `handing next rest` is about to call `schedule(next)`,
in the loop of `notify` when there is a `rest`. -/
inductive Base
  | free
  | stopping
  | downLocked (s : ℕ)
  | upLocked (s : ℕ)
  | handing (next : Tcb) (rest : Option (ℕ × ℕ))
  | notifying (k left : ℕ)
  | relock (k : ℕ)
  | reaping (it : Tcb)
  deriving DecidableEq

/-- The cores: the thread on whose stack each runs, its entry of `activeThreads`, and the callback that it has
not finished, with the thread that was switched away from. `calls` are the calls of `block` on the stack of a
thread, the innermost one first: a tick calls `block` in the middle of another call. -/
structure Cpu where
  stack : ℕ → Tcb
  active : ℕ → Tcb
  pending : ℕ → Option (Callback × Tcb)
  calls : Tcb → List Call
  noPreempt : Tcb → Bool

namespace Cpu

def setCalls (p : Cpu) (t : Tcb) (l : List Call) : Cpu := { p with calls := Function.update p.calls t l }

def setNoPreempt (p : Cpu) (t : Tcb) (b : Bool) : Cpu := { p with noPreempt := Function.update p.noPreempt t b }

/-- The thread that runs on core `c` calls `block`. -/
def call (p : Cpu) (c : ℕ) (option : BlockOption) (callback : Callback) : Cpu :=
  p.setCalls (p.stack c) (⟨option, callback, .enter⟩ :: p.calls (p.stack c))

/-- `gheith_contextSwitch` on core `c`, up to the call of its action. -/
def contextSwitch (p : Cpu) (c : ℕ) (me next : Tcb) (callback : Callback) : Cpu :=
  let p := (p.setNoPreempt me false).setNoPreempt next false
  { p with stack := Function.update p.stack c next, pending := Function.update p.pending c (some (callback, me)) }

/-- The action has returned: `block` returns on the stack of the target. A new thread has no call to return to
and starts at `entry`. -/
def resume (p : Cpu) (c : ℕ) : Cpu :=
  let p := { p with pending := Function.update p.pending c none }
  match p.calls (p.stack c) with
  | ⟨_, _, .away⟩ :: rest => p.setCalls (p.stack c) rest
  | _ => p

end Cpu

/-- The state of the scheduler. Threads below `created` have been made; the others are as their constructor
will leave them. -/
structure Sched where
  cpu : Cpu
  base : Tcb → Base
  readyQ : List Tcb
  zombies : List Tcb
  sem : ℕ → Semaphore Tcb
  cond : ℕ → Condition Tcb
  created : ℕ
  deleted : Finset ℕ

/-- A step of core `c`. The thread on it may call any of the functions when it is not inside one. -/
inductive Act
  | tick (c : ℕ)
  | block (c : ℕ)
  | callback (c : ℕ)
  | yield (c : ℕ)
  | stop (c : ℕ)
  | stopLoop (c : ℕ)
  | create (c : ℕ)
  | schedule (c : ℕ)
  | down (c s : ℕ)
  | downLocked (c : ℕ)
  | up (c s : ℕ)
  | upLocked (c : ℕ)
  | lock (c k : ℕ)
  | unlock (c k : ℕ)
  | wait (c k : ℕ)
  | relock (c : ℕ)
  | notify (c k limit : ℕ)
  | notifyLoop (c : ℕ)
  | reap (c : ℕ)
  | delete (c : ℕ)

def Act.core : Act → ℕ
  | tick c | block c | callback c | yield c | stop c | stopLoop c | create c | schedule c | down c _ | downLocked c
  | up c _ | upLocked c | lock c _ | unlock c _ | wait c _ | relock c | notify c _ _ | notifyLoop c | reap c
  | delete c => c

namespace Sched

variable (s : Sched)

def current (c : ℕ) : Tcb := s.cpu.stack c

def setBase (t : Tcb) (b : Base) : Sched := { s with base := Function.update s.base t b }

def setSem (i : ℕ) (x : Semaphore Tcb) : Sched := { s with sem := Function.update s.sem i x }

def setCond (k : ℕ) (x : Condition Tcb) : Sched := { s with cond := Function.update s.cond k x }

def schedule (t : Tcb) : Sched := if t.isIdle then s else { s with readyQ := s.readyQ ++ [t] }

/-- The handler of the timer interrupt, `apitHandler`. -/
def apitHandler (c : ℕ) : Sched :=
  let me := s.cpu.active c
  if me.isIdle ∨ s.cpu.noPreempt me then s else { s with cpu := s.cpu.call c .canReturn .yield }

/-- The next step of the call `call` of `block`, innermost on the stack that core `c` runs on. -/
def stepBlock (c : ℕ) (call : Call) (rest : List Call) : Sched :=
  match call.stage with
  | .enter =>
    let me := s.cpu.active c
    { s with cpu := (s.cpu.setNoPreempt me true).setCalls (s.current c) ({ call with stage := .remove c me } :: rest) }
  | .remove core me =>
    match s.readyQ with
    | next :: q =>
      { s with
        cpu := s.cpu.setCalls (s.current c) ({ call with stage := .activate core me next } :: rest)
        readyQ := q }
    | [] =>
      if call.option = .canReturn then { s with cpu := s.cpu.setCalls (s.current c) rest }
      else if me.isIdle then s
      else
        { s with
          cpu := s.cpu.setCalls (s.current c) ({ call with stage := .activate core me (.idle core) } :: rest) }
  | .activate core me next =>
    let p := s.cpu.setNoPreempt next true
    let p := { p with active := Function.update p.active core next }
    { s with cpu := p.setCalls (s.current c) ({ call with stage := .switch core me next } :: rest) }
  | .switch _ me next =>
    { s with
      cpu := (s.cpu.setCalls (s.current c) ({ call with stage := .away } :: rest)).contextSwitch c me next call.callback }
  | .away => s

def resume (c : ℕ) : Sched := { s with cpu := s.cpu.resume c }

/-- The next step of a callback on core `c`. -/
def stepCallback (c : ℕ) (callback : Callback) (me : Tcb) : Sched :=
  match callback with
  | .yield | .waitSchedule => (s.schedule me).resume c
  | .stop => (if me.isIdle then s else { s with zombies := s.zombies ++ [me] }).resume c
  | .down i => (s.setSem i ((s.sem i).enqueue me).unlock).resume c
  | .wait k oldEpoch =>
    { s.setCond k (s.cond k).lock with
      cpu := { s.cpu with pending := Function.update s.cpu.pending c (some (.waitLocked k oldEpoch, me)) } }
  | .waitLocked k oldEpoch =>
    if (s.cond k).epoch = oldEpoch then (s.setCond k ((s.cond k).enqueue me).unlock).resume c
    else
      { s.setCond k (s.cond k).unlock with
        cpu := { s.cpu with pending := Function.update s.cpu.pending c (some (.waitSchedule, me)) } }

/-- The thread on core `c` runs, outside `block`. -/
def Outside (c : ℕ) : Prop := s.cpu.pending c = none ∧ s.cpu.calls (s.current c) = []

instance (c : ℕ) : Decidable (s.Outside c) := inferInstanceAs (Decidable (_ ∧ _))

def At (c : ℕ) (b : Base) : Prop := s.Outside c ∧ s.base (s.current c) = b

instance (c : ℕ) (b : Base) : Decidable (s.At c b) := inferInstanceAs (Decidable (_ ∧ _))

/-- The callback on core `c` can go on: that of `wait` needs the lock. -/
def callbackReady (c : ℕ) : Bool :=
  match s.cpu.pending c with
  | none => false
  | some (.wait k _, _) => !(s.cond k).taken
  | some _ => true

/-- The end of `wait` can take the lock. -/
def relockReady (c : ℕ) : Bool :=
  match s.base (s.current c) with
  | .relock k => !(s.cond k).taken
  | _ => false

/-- A spin lock is taken when it is free. A tick is possible whenever no callback runs: that interrupts are off
while a lock is held only makes it rarer. -/
def enabled : Act → Prop
  | .tick c => s.cpu.pending c = none
  | .block c => s.cpu.pending c = none ∧ s.cpu.calls (s.current c) ≠ []
  | .callback c => s.callbackReady c = true
  | .yield c | .stop c | .create c | .reap c => s.At c .free
  | .stopLoop c => s.At c .stopping
  | .schedule c => s.Outside c ∧ (s.base (s.current c) matches .handing _ _)
  | .down c i | .up c i => s.At c .free ∧ (s.sem i).taken = false
  | .downLocked c => s.Outside c ∧ (s.base (s.current c) matches .downLocked _)
  | .upLocked c => s.Outside c ∧ (s.base (s.current c) matches .upLocked _)
  | .lock c k => s.At c .free ∧ (s.cond k).taken = false
  | .unlock c k | .wait c k | .notify c k _ => s.At c .free ∧ (s.cond k).taken = true
  | .relock c => s.Outside c ∧ s.relockReady c = true
  | .notifyLoop c => s.Outside c ∧ (s.base (s.current c) matches .notifying _ _)
  | .delete c => s.Outside c ∧ (s.base (s.current c) matches .reaping _)

instance (a : Act) : Decidable (s.enabled a) :=
  match a with
  | .tick _ | .callback _ | .yield _ | .stop _ | .create _ | .reap _ | .stopLoop _ => by
    unfold enabled; infer_instance
  | .block _ | .schedule _ | .down _ _ | .up _ _ | .downLocked _ | .upLocked _ | .lock _ _ | .unlock _ _ | .wait _ _
  | .notify _ _ _ | .relock _ | .notifyLoop _ | .delete _ => by unfold enabled; infer_instance

def next : Act → Sched
  | .tick c => s.apitHandler c
  | .block c =>
    match s.cpu.calls (s.current c) with
    | [] => s
    | call :: rest => s.stepBlock c call rest
  | .callback c =>
    match s.cpu.pending c with
    | none => s
    | some (callback, me) => s.stepCallback c callback me
  | .yield c => { s with cpu := s.cpu.call c .canReturn .yield }
  | .stop c => s.setBase (s.current c) .stopping
  | .stopLoop c => { s with cpu := s.cpu.call c .mustBlock .stop }
  | .create c =>
    { s.setBase (s.current c) (.handing (.thread s.created) none) with created := s.created + 1 }
  | .schedule c =>
    match s.base (s.current c) with
    | .handing t none => (s.setBase (s.current c) .free).schedule t
    | .handing t (some (k, left)) => (s.setBase (s.current c) (.notifying k left)).schedule t
    | _ => s
  | .down c i => (s.setSem i (s.sem i).lock).setBase (s.current c) (.downLocked i)
  | .downLocked c =>
    match s.base (s.current c) with
    | .downLocked i =>
      match (s.sem i).tryDown with
      | some x => (s.setSem i x.unlock).setBase (s.current c) .free
      | none => { s.setBase (s.current c) .free with cpu := s.cpu.call c .mustBlock (.down i) }
    | _ => s
  | .up c i => (s.setSem i (s.sem i).lock).setBase (s.current c) (.upLocked i)
  | .upLocked c =>
    match s.base (s.current c) with
    | .upLocked i =>
      match (s.sem i).handOver with
      | (none, x) => (s.setSem i x.unlock).setBase (s.current c) .free
      | (some t, x) => (s.setSem i x.unlock).setBase (s.current c) (.handing t none)
    | _ => s
  | .lock _ k => s.setCond k (s.cond k).lock
  | .unlock _ k => s.setCond k (s.cond k).unlock
  | .wait c k =>
    { (s.setCond k (s.cond k).unlock).setBase (s.current c) (.relock k) with
      cpu := s.cpu.call c .mustBlock (.wait k (s.cond k).epoch) }
  | .relock c =>
    match s.base (s.current c) with
    | .relock k => (s.setCond k (s.cond k).lock).setBase (s.current c) .free
    | _ => s
  | .notify c k limit => (s.setCond k (s.cond k).nextEpoch).setBase (s.current c) (.notifying k limit)
  | .notifyLoop c =>
    match s.base (s.current c) with
    | .notifying k (left + 1) =>
      match (s.cond k).dequeue with
      | some (t, x) => (s.setCond k x).setBase (s.current c) (.handing t (some (k, left)))
      | none => s.setBase (s.current c) .free
    | .notifying _ 0 => s.setBase (s.current c) .free
    | _ => s
  | .reap c =>
    match s.zombies with
    | it :: rest => { s.setBase (s.current c) (.reaping it) with zombies := rest }
    | [] => s
  | .delete c =>
    match s.base (s.current c) with
    | .reaping (.thread t) => { s.setBase (s.current c) .free with deleted := insert t s.deleted }
    | .reaping (.idle _) => s.setBase (s.current c) .free
    | _ => s

section next
variable {s} {c : ℕ}

theorem next_block_nil (h : s.cpu.calls (s.cpu.stack c) = []) : s.next (.block c) = s := by
  simp only [next, current, h]

theorem next_block_cons {call : Call} {rest : List Call} (h : s.cpu.calls (s.cpu.stack c) = call :: rest) :
    s.next (.block c) = s.stepBlock c call rest := by
  simp only [next, current, h]

theorem next_callback_none (h : s.cpu.pending c = none) : s.next (.callback c) = s := by
  simp only [next, h]

theorem next_callback_some {x : Callback × Tcb} (h : s.cpu.pending c = some x) :
    s.next (.callback c) = s.stepCallback c x.1 x.2 := by
  simp only [next, h]

end next

/-- Every core runs its idle thread, at the beginning of `stop`; some new threads have been scheduled. -/
def Booted : Prop :=
  (∀ c, s.cpu.stack c = .idle c ∧ s.cpu.active c = .idle c ∧ s.cpu.pending c = none) ∧
    (∀ t, s.cpu.calls t = []) ∧ (∀ t, s.cpu.noPreempt (.thread t) = false) ∧
    (∀ c, s.base (.idle c) = .stopping) ∧ (∀ t, s.base (.thread t) = .free) ∧
    s.readyQ = (List.range s.created).map .thread ∧ s.zombies = [] ∧ s.deleted = ∅ ∧
    (∀ i, (s.sem i).waiting = [] ∧ (s.sem i).taken = false) ∧ (∀ k, (s.cond k).queue = [] ∧ (s.cond k).taken = false)

end Sched

def schedMachine (cores : ℕ) : Machine Sched Act where
  init := Sched.Booted
  enabled s a := a.core < cores ∧ s.enabled a
  next := Sched.next

instance (cores : ℕ) (s : Sched) (a : Act) : Decidable ((schedMachine cores).enabled s a) :=
  inferInstanceAs (Decidable (_ ∧ _))

end AudioKernel
