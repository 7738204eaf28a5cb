import AudioKernel.Lib.Exclusive
import AudioKernel.Lib.Machine

/-! `InterruptSafeLock::lock` and `InterruptSafeLock::unlock` of `atomic.h`, step by step, by any number of threads, each
with its own interrupt flag. -/
namespace AudioKernel
open Lib

variable {T : Type}

/-- Where a thread is in `lock` or `unlock`, with the `wasDisabled` that it holds. -/
inductive SafeLockPc
  | out
  | lockRead
  | lockDisable
  | lockExchange (wasDisabled : Bool)
  | lockStore (wasDisabled : Bool)
  | lockRestore (wasDisabled : Bool)
  | critical
  | unlockRead
  | unlockClear (wasDisabled : Bool)
  | unlockRestore (wasDisabled : Bool)
  deriving DecidableEq

namespace SafeLockPc

/-- Between the exchange that has taken the lock and the store that gives it back. -/
def holdsLock : SafeLockPc → Bool
  | lockStore _ | critical | unlockRead | unlockClear _ => true
  | _ => false

def disabled : SafeLockPc → Bool
  | out | lockRead | lockDisable => false
  | _ => true

def wasDisabled? : SafeLockPc → Option Bool
  | lockExchange was | lockStore was | lockRestore was | unlockClear was | unlockRestore was => some was
  | lockDisable => some false
  | _ => none

end SafeLockPc

/-- The lock, and the threads that use it: `interrupts` is the interrupt flag of a thread. Recorded is the flag that it
had when it called `lock`. -/
structure SafeLockState (T : Type) where
  taken : Bool
  was : Bool
  interrupts : T → Bool
  pc : T → SafeLockPc
  before : T → Bool

/-- A thread sets or clears its flag outside, calls `lock` or `unlock`, or takes its next step in them. -/
inductive SafeLockAct (T : Type)
  | setFlag (t : T) (on : Bool)
  | lock (t : T)
  | unlock (t : T)
  | step (t : T)

namespace SafeLockState

variable [DecidableEq T] (s : SafeLockState T)

def setPc (t : T) (pc : SafeLockPc) : SafeLockState T := { s with pc := Function.update s.pc t pc }

def setInterrupts (t : T) (on : Bool) : SafeLockState T := { s with interrupts := Function.update s.interrupts t on }

def restore (t : T) (wasDisabled : Bool) : SafeLockState T := if !wasDisabled then s.setInterrupts t true else s

def stepThread (t : T) : SafeLockState T :=
  match s.pc t with
  | .out | .critical => s
  | .lockRead => if s.interrupts t then s.setPc t .lockDisable else s.setPc t (.lockExchange true)
  | .lockDisable => (s.setInterrupts t false).setPc t (.lockExchange false)
  | .lockExchange was =>
    if s.taken then s.setPc t (.lockRestore was) else { s.setPc t (.lockStore was) with taken := true }
  | .lockStore was => { s.setPc t .critical with was := was }
  | .lockRestore was => (s.restore t was).setPc t .lockRead
  | .unlockRead => s.setPc t (.unlockClear s.was)
  | .unlockClear was => { s.setPc t (.unlockRestore was) with taken := false }
  | .unlockRestore was => (s.restore t was).setPc t .out

def enabled : SafeLockAct T → Bool
  | .setFlag t _ | .lock t => s.pc t = .out
  | .unlock t => s.pc t = .critical
  | .step t => s.pc t ≠ .out ∧ s.pc t ≠ .critical

def next : SafeLockAct T → SafeLockState T
  | .setFlag t on => s.setInterrupts t on
  | .lock t => { s.setPc t .lockRead with before := Function.update s.before t (s.interrupts t) }
  | .unlock t => s.setPc t .unlockRead
  | .step t => s.stepThread t

/-- `InterruptSafeLock()`, before any thread has called `lock`. -/
def Fresh : Prop := s.taken = false ∧ s.was = false ∧ ∀ t, s.pc t = .out

end SafeLockState

def safeLockMachine (T : Type) [DecidableEq T] : Machine (SafeLockState T) (SafeLockAct T) where
  init := SafeLockState.Fresh
  enabled s a := s.enabled a = true
  next := SafeLockState.next

instance [DecidableEq T] (s : SafeLockState T) (a : SafeLockAct T) : Decidable ((safeLockMachine T).enabled s a) :=
  inferInstanceAs (Decidable (_ = true))

namespace SafeLockState

/-- What a thread relies on: its flag, its `wasDisabled`, and in the critical section the field `was`, all go back to
the flag that it had when it called `lock`. -/
structure Inv (s : SafeLockState T) : Prop where
  lock : Exclusive s.taken fun t => (s.pc t).holdsLock = true
  off : ∀ t, (s.pc t).disabled = true → s.interrupts t = false
  same : ∀ t, s.pc t = .lockRead ∨ s.pc t = .lockDisable → s.interrupts t = s.before t
  local_was : ∀ t was, (s.pc t).wasDisabled? = some was → was = !s.before t
  shared_was : ∀ t, s.pc t = .critical ∨ s.pc t = .unlockRead → s.was = !s.before t

namespace Inv

variable {s s' : SafeLockState T} {t : T} {q : SafeLockPc}

theorem fresh (h : s.Fresh) : Inv s := by
  obtain ⟨-, -, hout⟩ := h
  constructor
  case lock =>
    constructor
    · intro t u ht
      rw [hout t] at ht
      cases ht
    · intro _ t ht
      rw [hout t] at ht
      cases ht
  case off =>
    intro t ht
    rw [hout t] at ht
    cases ht
  case same =>
    intro t ht
    rw [hout t] at ht
    simp at ht
  case local_was =>
    intro t was ht
    rw [hout t] at ht
    cases ht
  case shared_was =>
    intro t ht
    rw [hout t] at ht
    simp at ht

variable [DecidableEq T]

/-- A step of `t`: what it relies on afterwards, while nobody else is disturbed. -/
theorem of_step (h : Inv s) (hpc : s'.pc = Function.update s.pc t q)
    (hothers : ∀ u, u ≠ t → s'.interrupts u = s.interrupts u ∧ s'.before u = s.before u)
    (hlock : Exclusive s'.taken fun u => (s'.pc u).holdsLock = true)
    (hoff : q.disabled = true → s'.interrupts t = false)
    (hsame : q = .lockRead ∨ q = .lockDisable → s'.interrupts t = s'.before t)
    (hlocal : ∀ was, q.wasDisabled? = some was → was = !s'.before t)
    (hshared : q = .critical ∨ q = .unlockRead → s'.was = !s'.before t)
    (hwas : s'.was = s.was ∨ (s.pc t).holdsLock = true) : Inv s' := by
  have hself : s'.pc t = q := by rw [hpc, Function.update_self]
  have hpcs : ∀ u, u ≠ t → s'.pc u = s.pc u := by
    intro u hu
    rw [hpc, Function.update_of_ne hu]
  constructor
  case lock => exact hlock
  case off =>
    intro u hu
    by_cases hut : u = t
    · rw [hut, hself] at hu
      rw [hut]
      exact hoff hu
    · rw [hpcs u hut] at hu
      rw [(hothers u hut).1]
      exact h.off u hu
  case same =>
    intro u hu
    by_cases hut : u = t
    · rw [hut, hself] at hu
      rw [hut]
      exact hsame hu
    · rw [hpcs u hut] at hu
      rw [(hothers u hut).1, (hothers u hut).2]
      exact h.same u hu
  case local_was =>
    intro u was hu
    by_cases hut : u = t
    · rw [hut, hself] at hu
      rw [hut]
      exact hlocal was hu
    · rw [hpcs u hut] at hu
      rw [(hothers u hut).2]
      exact h.local_was u was hu
  case shared_was =>
    intro u hu
    by_cases hut : u = t
    · rw [hut, hself] at hu
      rw [hut]
      exact hshared hu
    · rw [hpcs u hut] at hu
      rw [(hothers u hut).2]
      rcases hwas with hwas | hholds
      · rw [hwas]
        exact h.shared_was u hu
      · -- two threads in the critical section
        have hu' : (s.pc u).holdsLock = true := by rcases hu with hu | hu <;> rw [hu] <;> rfl
        exact absurd (h.lock.unique u t hu' hholds) hut

/-- A step of `t` that changes nothing but its program point, and does not take or give back the lock. -/
theorem setPc (h : Inv s) (hholds : q.holdsLock = true → (s.pc t).holdsLock = true)
    (hoff : q.disabled = true → s.interrupts t = false)
    (hsame : q = .lockRead ∨ q = .lockDisable → s.interrupts t = s.before t)
    (hlocal : ∀ was, q.wasDisabled? = some was → was = !s.before t)
    (hshared : q = .critical ∨ q = .unlockRead → s.was = !s.before t) : Inv (s.setPc t q) :=
  h.of_step rfl (fun _ _ => ⟨rfl, rfl⟩) (h.lock.update_keep hholds) hoff hsame hlocal hshared (.inl rfl)

theorem restore_self (h : Inv s) {was : Bool} (ht : (s.pc t).wasDisabled? = some was) (hd : (s.pc t).disabled = true) :
    (s.restore t was).interrupts t = s.before t := by
  have hoff := h.off t hd
  have hwas := h.local_was t was ht
  unfold restore
  cases was with
  | false =>
    have hbefore : s.before t = true := by simpa using hwas.symm
    rw [hbefore]
    exact Function.update_self ..
  | true =>
    have hbefore : s.before t = false := by simpa using hwas.symm
    rw [hbefore]
    exact hoff

theorem restore_other {u : T} (hu : u ≠ t) (was : Bool) :
    (s.restore t was).interrupts u = s.interrupts u := by
  unfold restore
  split_ifs
  · exact Function.update_of_ne hu ..
  · rfl

theorem restore_frame (was : Bool) : (s.restore t was).pc = s.pc ∧
    (s.restore t was).before = s.before ∧ (s.restore t was).was = s.was ∧ (s.restore t was).taken = s.taken := by
  unfold restore
  split_ifs <;> exact ⟨rfl, rfl, rfl, rfl⟩

/-- The thread goes back to the flag that it had when it called `lock`. -/
theorem restore {was : Bool} (h : Inv s) (ht : (s.pc t).wasDisabled? = some was) (hd : (s.pc t).disabled = true)
    (hq : q = .lockRead ∨ q = .out) : Inv ((s.restore t was).setPc t q) := by
  obtain ⟨hpc, hbefore, hwas, htaken⟩ := restore_frame (s := s) (t := t) was
  have hself : (s.restore t was).interrupts t = s.before t := h.restore_self ht hd
  have hholds : q.holdsLock = false := by rcases hq with hq | hq <;> rw [hq] <;> rfl
  apply h.of_step (t := t) (q := q)
  case hpc => rw [← hpc]; rfl
  case hothers =>
    intro u hu
    exact ⟨restore_other hu was, congrFun hbefore u⟩
  case hlock =>
    show Exclusive (s.restore t was).taken fun u => (Function.update (s.restore t was).pc t q u).holdsLock = true
    rw [htaken, hpc]
    apply h.lock.update_keep
    intro hq'
    rw [hholds] at hq'
    cases hq'
  case hoff =>
    intro hq'
    rcases hq with hq | hq <;> rw [hq] at hq' <;> cases hq'
  case hsame =>
    intro _
    show (s.restore t was).interrupts t = (s.restore t was).before t
    rw [hself, hbefore]
  case hlocal =>
    intro was' hq'
    rcases hq with hq | hq <;> rw [hq] at hq' <;> cases hq'
  case hshared =>
    intro hq'
    rcases hq with hq | hq <;> rw [hq] at hq' <;> simp at hq'
  case hwas => exact .inl hwas

theorem stepThread (h : Inv s) : Inv (s.stepThread t) := by
  have hoff := h.off t
  have hsame := h.same t
  have hlocal := h.local_was t
  have hshared := h.shared_was t
  cases ht : s.pc t with
  | out | critical => simpa only [SafeLockState.stepThread, ht] using h
  | lockRead =>
    have hflag : s.interrupts t = s.before t := hsame (.inl ht)
    simp only [SafeLockState.stepThread, ht]
    split_ifs with hon
    · have hbefore : s.before t = true := by rw [← hflag, hon]
      apply h.setPc <;> simp [SafeLockPc.holdsLock, SafeLockPc.disabled, SafeLockPc.wasDisabled?, hflag, hbefore]
    · have hbefore : s.before t = false := by rw [← hflag]; simpa using hon
      apply h.setPc <;> simp [SafeLockPc.holdsLock, SafeLockPc.disabled, SafeLockPc.wasDisabled?, hflag, hbefore]
  | lockDisable =>
    have hwas : false = !s.before t := hlocal false (by rw [ht]; rfl)
    simp only [SafeLockState.stepThread, ht]
    apply h.of_step (t := t) (q := .lockExchange false)
    case hpc => rfl
    case hothers => exact fun u hu => ⟨Function.update_of_ne hu .., rfl⟩
    case hlock => exact h.lock.update_keep fun hholds => absurd hholds Bool.false_ne_true
    case hoff => exact fun _ => Function.update_self ..
    case hsame => simp
    case hlocal =>
      intro was hw
      cases hw
      exact hwas
    case hshared => simp
    case hwas => exact .inl rfl
  | lockExchange was =>
    have hdisabled : s.interrupts t = false := hoff (by rw [ht]; rfl)
    have hwas : was = !s.before t := hlocal was (by rw [ht]; rfl)
    simp only [SafeLockState.stepThread, ht]
    split_ifs with htaken
    · apply h.setPc <;> simp [SafeLockPc.holdsLock, SafeLockPc.wasDisabled?, hdisabled, hwas]
    · apply h.of_step (t := t) (q := .lockStore was)
      case hpc => rfl
      case hothers => exact fun u _ => ⟨rfl, rfl⟩
      case hlock => exact h.lock.update_acquire (by simpa using htaken)
      case hoff => exact fun _ => hdisabled
      case hsame => simp
      case hlocal =>
        intro was' hw
        cases hw
        exact hwas
      case hshared => simp
      case hwas => exact .inl rfl
  | lockStore was =>
    have hdisabled : s.interrupts t = false := hoff (by rw [ht]; rfl)
    have hwas : was = !s.before t := hlocal was (by rw [ht]; rfl)
    simp only [SafeLockState.stepThread, ht]
    apply h.of_step (t := t) (q := .critical)
    case hpc => rfl
    case hothers => exact fun u _ => ⟨rfl, rfl⟩
    case hlock => exact h.lock.update_keep fun _ => by rw [ht]; rfl
    case hoff => exact fun _ => hdisabled
    case hsame => simp
    case hlocal => simp [SafeLockPc.wasDisabled?]
    case hshared => exact fun _ => hwas
    case hwas => exact .inr (by rw [ht]; rfl)
  | lockRestore was =>
    simp only [SafeLockState.stepThread, ht]
    exact h.restore (by rw [ht]; rfl) (by rw [ht]; rfl) (.inl rfl)
  | unlockRead =>
    have hdisabled : s.interrupts t = false := hoff (by rw [ht]; rfl)
    have hwas : s.was = !s.before t := hshared (.inr ht)
    simp only [SafeLockState.stepThread, ht]
    apply h.setPc <;> simp [SafeLockPc.holdsLock, SafeLockPc.wasDisabled?, ht, hdisabled, hwas]
  | unlockClear was =>
    have hdisabled : s.interrupts t = false := hoff (by rw [ht]; rfl)
    have hwas : was = !s.before t := hlocal was (by rw [ht]; rfl)
    simp only [SafeLockState.stepThread, ht]
    apply h.of_step (t := t) (q := .unlockRestore was)
    case hpc => rfl
    case hothers => exact fun u _ => ⟨rfl, rfl⟩
    case hlock => exact h.lock.update_release (by rw [ht]; rfl) rfl
    case hoff => exact fun _ => hdisabled
    case hsame => simp
    case hlocal =>
      intro was' hw
      cases hw
      exact hwas
    case hshared => simp
    case hwas => exact .inl rfl
  | unlockRestore was =>
    simp only [SafeLockState.stepThread, ht]
    exact h.restore (by rw [ht]; rfl) (by rw [ht]; rfl) (.inr rfl)

theorem next (h : Inv s) {a : SafeLockAct T} (he : s.enabled a = true) : Inv (s.next a) := by
  cases a with
  | setFlag t on =>
    have ht : s.pc t = .out := by simpa [SafeLockState.enabled] using he
    apply h.of_step (t := t) (q := .out)
    case hpc => rw [← ht]; exact (Function.update_eq_self ..).symm
    case hothers => exact fun u hu => ⟨Function.update_of_ne hu .., rfl⟩
    case hlock => exact h.lock
    case hoff => simp [SafeLockPc.disabled]
    case hsame => simp
    case hlocal => simp [SafeLockPc.wasDisabled?]
    case hshared => simp
    case hwas => exact .inl rfl
  | lock t =>
    apply h.of_step (t := t) (q := .lockRead)
    case hpc => rfl
    case hothers => exact fun u hu => ⟨rfl, Function.update_of_ne hu ..⟩
    case hlock => exact h.lock.update_keep fun hholds => absurd hholds Bool.false_ne_true
    case hoff => simp [SafeLockPc.disabled]
    case hsame =>
      intro _
      show s.interrupts t = Function.update s.before t (s.interrupts t) t
      rw [Function.update_self]
    case hlocal => simp [SafeLockPc.wasDisabled?]
    case hshared => simp
    case hwas => exact .inl rfl
  | unlock t =>
    have ht : s.pc t = .critical := by simpa [SafeLockState.enabled] using he
    have hdisabled : s.interrupts t = false := h.off t (by rw [ht]; rfl)
    have hwas : s.was = !s.before t := h.shared_was t (.inl ht)
    apply h.setPc <;> simp [SafeLockPc.holdsLock, SafeLockPc.wasDisabled?, ht, hdisabled, hwas]
  | step t => exact h.stepThread

theorem reachable (h : (safeLockMachine T).Reachable s) : Inv s := by
  apply h.invariant
  · exact fun s hs => Inv.fresh hs
  · exact fun s a hi he => hi.next he

end Inv

variable [DecidableEq T]

/-- At most one thread holds the lock, with interrupts disabled; and the step by which `unlock` returns leaves a thread
with the flag that it had when it called `lock`. -/
theorem lock_restores_interrupts (s : SafeLockState T) (h : (safeLockMachine T).Reachable s) :
    (∀ t u, (s.pc t).holdsLock = true → (s.pc u).holdsLock = true → t = u) ∧
    (∀ t, (s.pc t).holdsLock = true → s.interrupts t = false) ∧
    ∀ t was, s.pc t = .unlockRestore was →
      (s.next (.step t)).pc t = .out ∧ (s.next (.step t)).interrupts t = s.before t := by
  have hinv : Inv s := Inv.reachable h
  refine ⟨hinv.lock.unique, ?_, ?_⟩
  · intro t ht
    apply hinv.off t
    cases hpc : s.pc t <;> rw [hpc] at ht <;> first | rfl | cases ht
  · intro t was ht
    have hnext : s.next (.step t) = (s.restore t was).setPc t .out := by
      simp only [next, stepThread, ht]
    rw [hnext]
    refine ⟨Function.update_self .., ?_⟩
    show (s.restore t was).interrupts t = s.before t
    exact hinv.restore_self (by rw [ht]; rfl) (by rw [ht]; rfl)

/-- Thread `false` calls `lock` with interrupts enabled, thread `true` without, and has to try again. -/
def contended : List (SafeLockAct Bool) :=
  [.lock false, .step false, .step false, .step false, .lock true, .step true, .step true, .step true, .step false,
    .step true, .unlock false, .step false, .step false, .step true, .step true]

theorem contended_restores : ∃ s, (safeLockMachine Bool).Reachable s ∧
    (s.pc true = .critical ∧ s.interrupts true = false) ∧ (s.next (.step false)).interrupts false = true := by
  have hinit : (safeLockMachine Bool).Reachable ⟨false, false, fun t => !t, fun _ => .out, fun _ => false⟩ :=
    .init ⟨rfl, rfl, fun _ => rfl⟩
  have hrun : ∃ s, (safeLockMachine Bool).Run ⟨false, false, fun t => !t, fun _ => .out, fun _ => false⟩ contended s ∧
      decide (s.pc true = .critical ∧ s.pc false = .unlockRestore false ∧ s.before false = true) = true :=
    Machine.exists_run_of_replay (by decide)
  obtain ⟨s, hs, hcheck⟩ := hrun
  obtain ⟨hcritical, hrestore, hbefore⟩ := of_decide_eq_true hcheck
  obtain ⟨-, hdisabled, hreturn⟩ := lock_restores_interrupts s (hs.reachable hinit)
  refine ⟨s, hs.reachable hinit, ⟨hcritical, hdisabled true (by rw [hcritical]; rfl)⟩, ?_⟩
  rw [(hreturn false false hrestore).2, hbefore]

end SafeLockState
end AudioKernel
