import AudioKernel.Sync.Condition
import Mathlib.Data.Fintype.Card

/-! The lock and the queue of a condition: what every step keeps, however often the epoch wraps around. -/
namespace AudioKernel
open Lib

variable {T : Type}

namespace CondState

/-- The callers hold the lock where they must, every enqueued thread is in the queue or in the hands of one call of
`notify`, and `notifyAll` has enough turns left for the whole queue. -/
structure Inv (s : CondState T) : Prop where
  lock : Exclusive s.cond.taken fun t => (s.pc t).holdsLock = true
  queue : WaitQueue s.cond.queue (fun t => (s.pc t).hands?) fun t => (s.pc t).enqueued = true
  asleep : ∀ u x, (s.pc u).hands? = some x → ∃ e, s.pc x = .asleep e
  drain : ∀ t i, s.pc t = .notifying allLimit i → s.cond.queue.length + i ≤ allLimit
  drain_handing : ∀ t x i, s.pc t = .handing x allLimit i → s.cond.queue.length + i < allLimit

namespace Inv

variable {s s' : CondState T} {t : T} {q : CondPc T} {e limit i : ℕ}

theorem new : Inv (CondState.new : CondState T) := by
  constructor
  case lock =>
    constructor
    · intro t u ht
      cases ht
    · intro _ t ht
      cases ht
  case queue => exact WaitQueue.empty fun _ => Bool.false_ne_true
  case asleep =>
    intro u x hu
    cases hu
  case drain =>
    intro t i ht
    cases ht
  case drain_handing =>
    intro t x i ht
    cases ht

/-- Only one thread is in the critical section, so that no other one can be there at the same time. -/
theorem not_holds (h : Inv s) (ht : (s.pc t).holdsLock = true) {u : T} (hu : u ≠ t) : (s.pc u).holdsLock = false := by
  cases hholds : (s.pc u).holdsLock with
  | false => rfl
  | true => exact absurd (h.lock.unique u t hholds ht) hu

section step
variable [DecidableEq T]

/-- A step of `t` that leaves the queue and the hands of `t` alone. -/
theorem quiet (h : Inv s) (hpc : s'.pc = Function.update s.pc t q) (hawake : ∀ e, s.pc t ≠ .asleep e)
    (henqueued : q.enqueued = (s.pc t).enqueued) (hhands : q.hands? = (s.pc t).hands?)
    (hqueue : s'.cond.queue = s.cond.queue) (hlock : Exclusive s'.cond.taken fun t => (s'.pc t).holdsLock = true)
    (hdrain : ∀ i, q = .notifying allLimit i → s.cond.queue.length + i ≤ allLimit)
    (hhanding : ∀ x i, q ≠ .handing x allLimit i) : Inv s' := by
  have hhands' : ∀ u, (s'.pc u).hands? = (s.pc u).hands? := by
    intro u
    rw [hpc]
    by_cases hu : u = t
    · rw [hu, Function.update_self, hhands]
    · rw [Function.update_of_ne hu]
  constructor
  case lock => exact hlock
  case queue =>
    rw [hqueue]
    apply h.queue.congr hhands'
    intro u
    rw [hpc]
    by_cases hu : u = t
    · rw [hu, Function.update_self, henqueued]
    · rw [Function.update_of_ne hu]
  case asleep =>
    intro u x hu
    rw [hhands'] at hu
    obtain ⟨e, he⟩ := h.asleep u x hu
    have hxt : x ≠ t := fun hxt => hawake e (by rw [← hxt]; exact he)
    exact ⟨e, by rw [hpc, Function.update_of_ne hxt]; exact he⟩
  case drain =>
    intro u i hu
    rw [hqueue]
    rw [hpc] at hu
    by_cases hut : u = t
    · rw [hut, Function.update_self] at hu
      exact hdrain i hu
    · rw [Function.update_of_ne hut] at hu
      exact h.drain u i hu
  case drain_handing =>
    intro u x i hu
    rw [hqueue]
    rw [hpc] at hu
    by_cases hut : u = t
    · rw [hut, Function.update_self] at hu
      exact absurd hu (hhanding x i)
    · rw [Function.update_of_ne hut] at hu
      exact h.drain_handing u x i hu

/-- The thread takes the lock, which is free. -/
theorem acquire {p : CondPc T} (h : Inv s) (ht : s.pc t = p) (hp : p.enqueued = false) (hq : q.enqueued = false)
    (hp' : p.hands? = none) (hq' : q.hands? = none) (hloop : ∀ i, q ≠ .notifying allLimit i)
    (hfree : s.cond.taken = false) : Inv { s.setPc t q with cond := s.cond.lock } := by
  apply h.quiet (t := t) (q := q)
  case hpc | hqueue => rfl
  case hawake =>
    intro e he
    rw [← ht, he] at hp
    cases hp
  case henqueued => rw [ht, hp, hq]
  case hhands => rw [ht, hp', hq']
  case hlock => exact h.lock.update_acquire hfree
  case hdrain => exact fun i hi => absurd hi (hloop i)
  case hhanding =>
    intro x i hi
    rw [hi] at hq'
    cases hq'

/-- The thread in the critical section gives the lock back. -/
theorem release {p : CondPc T} (h : Inv s) (ht : s.pc t = p) (hholds : p.holdsLock = true)
    (hp : p.hands? = none) (hq : q.holdsLock = false) (hwaits : q.enqueued = p.enqueued)
    (hpc : s'.pc = Function.update s.pc t q) (hcond : s'.cond = s.cond.unlock) : Inv s' := by
  apply h.quiet hpc
  case hawake =>
    intro e he
    rw [← ht, he] at hholds
    cases hholds
  case henqueued => rw [ht, hwaits]
  case hhands =>
    rw [ht, hp]
    cases q <;> first | rfl | cases hq
  case hqueue => rw [hcond]; rfl
  case hlock =>
    rw [hcond, hpc]
    exact h.lock.update_release (by rw [ht]; exact hholds) hq
  case hdrain =>
    intro i hi
    rw [hi] at hq
    cases hq
  case hhanding =>
    intro y i hi
    rw [hi] at hq
    cases hq

/-- The thread in the critical section stays there and leaves the queue alone, but may finish a call of `notify`. -/
theorem keep {p : CondPc T} (h : Inv s) (ht : s.pc t = p) (hholds : p.holdsLock = true) (hp : p.hands? = none)
    (hwaits : q.enqueued = p.enqueued) (hq : q.hands? = none) (hloop : ∀ i, q ≠ .notifying allLimit i)
    (hpc : s'.pc = Function.update s.pc t q) (htaken : s'.cond.taken = s.cond.taken)
    (hqueue : s'.cond.queue = s.cond.queue) : Inv s' := by
  apply h.quiet hpc
  case hawake =>
    intro e he
    rw [← ht, he] at hholds
    cases hholds
  case henqueued => rw [ht, hwaits]
  case hhands => rw [ht, hp, hq]
  case hqueue => exact hqueue
  case hlock =>
    rw [htaken, hpc]
    exact h.lock.update_keep fun _ => by rw [ht]; exact hholds
  case hdrain => exact fun i hi => absurd hi (hloop i)
  case hhanding =>
    intro x i hi
    rw [hi] at hq
    cases hq

/-- The callback of `wait` adds the thread to the queue. -/
theorem enqueue (h : Inv s) (ht : s.pc t = .waitLocked e) :
    Inv { s.setPc t (.waitQueued e) with cond := s.cond.enqueue t } := by
  have hholds : (s.pc t).holdsLock = true := by rw [ht]; rfl
  have hother : ∀ u, u ≠ t → (s.pc u).holdsLock = false := fun u hu => h.not_holds hholds hu
  have hpcs : ∀ u, u ≠ t → Function.update s.pc t (.waitQueued e) u = s.pc u := fun u hu => Function.update_of_ne hu ..
  have hself : Function.update s.pc t (.waitQueued e) t = .waitQueued e := Function.update_self ..
  constructor
  case lock => exact h.lock.update_keep fun _ => hholds
  case queue =>
    apply h.queue.enqueue (t := t)
    · rw [ht]
      exact Bool.false_ne_true
    · intro u
      change (Function.update s.pc t (.waitQueued e) u).hands? = (s.pc u).hands?
      by_cases hu : u = t
      · rw [hu, hself, ht]
        rfl
      · rw [hpcs u hu]
    · intro u
      change (Function.update s.pc t (.waitQueued e) u).enqueued = true ↔ _
      by_cases hu : u = t
      · simp [hu, CondPc.enqueued]
      · simp [hu]
  case asleep =>
    intro u x hu
    change (Function.update s.pc t (.waitQueued e) u).hands? = some x at hu
    have hut : u ≠ t := by
      intro he
      rw [he, hself] at hu
      cases hu
    rw [hpcs u hut] at hu
    obtain ⟨e', he'⟩ := h.asleep u x hu
    have hxt : x ≠ t := by
      intro he
      rw [he, ht] at he'
      cases he'
    exact ⟨e', (hpcs x hxt).trans he'⟩
  case drain =>
    intro u i hu
    change Function.update s.pc t (.waitQueued e) u = _ at hu
    by_cases hut : u = t
    · rw [hut, hself] at hu
      cases hu
    · rw [hpcs u hut] at hu
      have hnot := hother u hut
      rw [hu] at hnot
      cases hnot
  case drain_handing =>
    intro u x i hu
    change Function.update s.pc t (.waitQueued e) u = _ at hu
    by_cases hut : u = t
    · rw [hut, hself] at hu
      cases hu
    · rw [hpcs u hut] at hu
      have hnot := hother u hut
      rw [hu] at hnot
      cases hnot

/-- `notify` takes the first thread of the queue. -/
theorem take {x : T} {rest : List T} (h : Inv s) (ht : s.pc t = .notifying limit i) (hw : s.cond.queue = x :: rest) :
    Inv { s.setPc t (.handing x limit i) with cond := { s.cond with queue := rest } } := by
  have hholds : (s.pc t).holdsLock = true := by rw [ht]; rfl
  have hother : ∀ u, u ≠ t → (s.pc u).holdsLock = false := fun u hu => h.not_holds hholds hu
  have hpcs : ∀ u, u ≠ t → Function.update s.pc t (.handing x limit i) u = s.pc u :=
    fun u hu => Function.update_of_ne hu ..
  have hself : Function.update s.pc t (.handing x limit i) t = .handing x limit i := Function.update_self ..
  have hqueue := h.queue
  rw [hw] at hqueue
  constructor
  case lock => exact h.lock.update_keep fun _ => hholds
  case queue =>
    apply hqueue.take (t := t) (x := x)
    · rw [ht]
      rfl
    · change (Function.update s.pc t (.handing x limit i) t).hands? = some x
      rw [hself]
      rfl
    · intro u hu
      change (Function.update s.pc t (.handing x limit i) u).hands? = (s.pc u).hands?
      rw [hpcs u hu]
    · intro u
      change (Function.update s.pc t (.handing x limit i) u).enqueued = true ↔ _
      by_cases hu : u = t
      · rw [hu, hself, ht]
        rfl
      · rw [hpcs u hu]
  case asleep =>
    intro u y hu
    change (Function.update s.pc t (.handing x limit i) u).hands? = some y at hu
    have hy : ∃ e, s.pc y = .asleep e := by
      by_cases hut : u = t
      · rw [hut, hself] at hu
        cases hu
        -- a thread that is still in the callback would hold the lock together with `t`
        have hwaits : (s.pc x).enqueued = true := hqueue.waits_of_mem List.mem_cons_self
        cases hpc : s.pc x with
        | waitQueued e =>
          have hxt := h.lock.unique x t (by rw [hpc]; rfl) hholds
          rw [hxt, ht] at hpc
          cases hpc
        | asleep e => exact ⟨e, rfl⟩
        | _ =>
          rw [hpc] at hwaits
          cases hwaits
      · rw [hpcs u hut] at hu
        exact h.asleep u y hu
    obtain ⟨e, he⟩ := hy
    have hyt : y ≠ t := by
      intro hyt
      rw [hyt, ht] at he
      cases he
    exact ⟨e, (hpcs y hyt).trans he⟩
  case drain =>
    intro u j hu
    change Function.update s.pc t (.handing x limit i) u = _ at hu
    by_cases hut : u = t
    · rw [hut, hself] at hu
      cases hu
    · rw [hpcs u hut] at hu
      have hnot := hother u hut
      rw [hu] at hnot
      cases hnot
  case drain_handing =>
    intro u y j hu
    change Function.update s.pc t (.handing x limit i) u = _ at hu
    change rest.length + j < allLimit
    by_cases hut : u = t
    · rw [hut, hself] at hu
      cases hu
      have hdrain := h.drain t i ht
      rw [hw, List.length_cons] at hdrain
      omega
    · rw [hpcs u hut] at hu
      have hnot := hother u hut
      rw [hu] at hnot
      cases hnot

omit [DecidableEq T] in
/-- The thread that has been taken is not the one that has taken it. -/
theorem handing_ne {x : T} (h : Inv s) (ht : s.pc t = .handing x limit i) : x ≠ t := by
  obtain ⟨e, hasleep⟩ := h.asleep t x (by rw [ht]; rfl)
  intro he
  rw [he, ht] at hasleep
  cases hasleep

/-- `notify` schedules the thread that it has taken. -/
theorem wake {x : T} (h : Inv s) (ht : s.pc t = .handing x limit i)
    (hpc : s'.pc = Function.update (Function.update s.pc t (.notifying limit (i + 1))) x .relock)
    (hcond : s'.cond = s.cond) : Inv s' := by
  have hholds : (s.pc t).holdsLock = true := by rw [ht]; rfl
  obtain ⟨e, hasleep⟩ := h.asleep t x (by rw [ht]; rfl)
  have hxt := h.handing_ne ht
  have hx : s'.pc x = .relock := by rw [hpc, Function.update_self]
  have hself : s'.pc t = .notifying limit (i + 1) := by rw [hpc, Function.update_of_ne hxt.symm, Function.update_self]
  have hpcs : ∀ u, u ≠ t → u ≠ x → s'.pc u = s.pc u := by
    intro u hut hux
    rw [hpc, Function.update_of_ne hux, Function.update_of_ne hut]
  have hother : ∀ u, u ≠ t → (s'.pc u).holdsLock = false := by
    intro u hut
    by_cases hux : u = x
    · rw [hux, hx]
      rfl
    · rw [hpcs u hut hux]
      exact h.not_holds hholds hut
  constructor
  case lock =>
    rw [hcond]
    apply h.lock.mono
    intro u hu
    by_cases hut : u = t
    · rw [hut]
      exact hholds
    · rw [hother u hut] at hu
      cases hu
  case queue =>
    rw [hcond]
    apply h.queue.wake (t := t) (x := x)
    · rw [ht]
      rfl
    · rw [hself]
      rfl
    · intro u hut
      by_cases hux : u = x
      · rw [hux, hx, hasleep]
        rfl
      · rw [hpcs u hut hux]
    · intro u
      by_cases hut : u = t
      · rw [hut, hself, ht]
        simp [CondPc.enqueued]
      · by_cases hux : u = x
        · rw [hux, hx]
          simp [CondPc.enqueued]
        · rw [hpcs u hut hux]
          simp [hux]
  case asleep =>
    intro u y hu
    have hut : u ≠ t := by
      intro he
      rw [he, hself] at hu
      cases hu
    have hux : u ≠ x := by
      intro he
      rw [he, hx] at hu
      cases hu
    rw [hpcs u hut hux] at hu
    -- another call of `notify` that has taken a thread would hold the lock together with `t`
    have hnot := h.not_holds hholds hut
    cases hpcu : s.pc u with
    | handing z limit' i' =>
      rw [hpcu] at hnot
      cases hnot
    | _ =>
      rw [hpcu] at hu
      cases hu
  case drain =>
    intro u j hu
    rw [hcond]
    by_cases hut : u = t
    · rw [hut, hself] at hu
      cases hu
      have hdrain := h.drain_handing t x i ht
      omega
    · have hnot := hother u hut
      rw [hu] at hnot
      cases hnot
  case drain_handing =>
    intro u y j hu
    by_cases hut : u = t
    · rw [hut, hself] at hu
      cases hu
    · have hnot := hother u hut
      rw [hu] at hnot
      cases hnot

/-- A callback that has given the lock back schedules its thread. -/
theorem wakeSelf (h : Inv s) (ht : s.pc t = .waitSchedule e) : Inv (s.schedule t) := by
  apply h.quiet (t := t) (q := .relock)
  case hpc | hqueue => rfl
  case hawake =>
    rw [ht]
    simp
  case henqueued | hhands =>
    rw [ht]
    rfl
  case hlock => exact h.lock.update_keep fun hholds => absurd hholds Bool.false_ne_true
  case hdrain => simp
  case hhanding => simp

theorem stepThread (h : Inv s) (hcan : s.canStep t = true) : Inv (s.stepThread t) := by
  cases ht : s.pc t with
  | out | inside | asleep | failed => simp [canStep, ht] at hcan
  | lockWait | relock =>
    have hfree : s.cond.taken = false := by simpa [canStep, ht] using hcan
    simp only [CondState.stepThread, ht]
    exact h.acquire ht rfl rfl rfl rfl (by simp) hfree
  | waitBlock e =>
    have hfree : s.cond.taken = false := by simpa [canStep, ht] using hcan
    simp only [CondState.stepThread, ht]
    exact h.acquire ht rfl rfl rfl rfl (by simp) hfree
  | waitLocked e =>
    simp only [CondState.stepThread, ht]
    split_ifs with hepoch hlater
    · exact h.enqueue ht
    · exact h.keep (q := .waitMissed e) ht rfl rfl rfl rfl (by simp) rfl rfl rfl
    · exact h.keep (q := .failed) ht rfl rfl rfl rfl (by simp) rfl rfl rfl
  | waitQueued e =>
    simp only [CondState.stepThread, ht]
    exact h.release (q := .asleep e) ht rfl rfl rfl rfl rfl rfl
  | waitMissed e =>
    simp only [CondState.stepThread, ht]
    exact h.release (q := .waitSchedule e) ht rfl rfl rfl rfl rfl rfl
  | waitSchedule e =>
    simp only [CondState.stepThread, ht]
    exact h.wakeSelf ht
  | notifying limit i =>
    have hend : Inv (s.endNotify t) := h.keep (q := .inside) ht rfl rfl rfl rfl (by simp) rfl rfl rfl
    simp only [CondState.stepThread, ht]
    split_ifs with hlt
    · cases hw : s.cond.queue with
      | nil =>
        rw [Condition.dequeue_nil hw]
        exact hend
      | cons x rest =>
        rw [Condition.dequeue_cons hw]
        exact h.take ht hw
    · exact hend
  | handing x limit i =>
    simp only [CondState.stepThread, ht]
    exact h.wake ht rfl rfl

theorem beginWait (h : Inv s) (ht : s.pc t = .inside) : Inv (s.beginWait t) := by
  unfold CondState.beginWait
  split_ifs
  · exact h.release (q := .waitBlock s.cond.epoch) ht rfl rfl rfl rfl rfl rfl
  · exact h.keep (q := .failed) ht rfl rfl rfl rfl (by simp) rfl rfl rfl

/-- There are fewer threads than turns of the loop of `notifyAll`. -/
theorem beginNotify [Fintype T] (hT : Fintype.card T ≤ allLimit) (h : Inv s) (ht : s.pc t = .inside) :
    Inv (s.beginNotify t limit) := by
  have hlen : s.cond.queue.length ≤ allLimit := h.queue.nodup.length_le_card.trans hT
  unfold CondState.beginNotify
  split_ifs
  · apply h.quiet (t := t) (q := .notifying limit 0)
    case hpc | hqueue => rfl
    case hawake =>
      rw [ht]
      simp
    case henqueued | hhands =>
      rw [ht]
      rfl
    case hlock => exact h.lock.update_keep fun _ => by rw [ht]; rfl
    case hdrain =>
      intro i hi
      cases hi
      exact hlen
    case hhanding => simp
  · exact h.keep (q := .failed) ht rfl rfl rfl rfl (by simp) rfl rfl rfl

theorem next [Fintype T] (hT : Fintype.card T ≤ allLimit) (h : Inv s) {a : CondAct T} (he : s.enabled a = true) :
    Inv (s.next a) := by
  cases a with
  | lock t =>
    have ht : s.pc t = .out := by cases hpc : s.pc t <;> simp [enabled, hpc] at he ⊢
    apply h.quiet (t := t) (q := .lockWait)
    case hpc | hqueue => rfl
    case hawake =>
      rw [ht]
      simp
    case henqueued | hhands =>
      rw [ht]
      rfl
    case hlock => exact h.lock.update_keep fun hholds => absurd hholds Bool.false_ne_true
    case hdrain => simp
    case hhanding => simp
  | unlock t =>
    have ht : s.pc t = .inside := by cases hpc : s.pc t <;> simp [enabled, hpc] at he ⊢
    exact h.release (q := .out) ht rfl rfl rfl rfl rfl rfl
  | wait t =>
    have ht : s.pc t = .inside := by cases hpc : s.pc t <;> simp [enabled, hpc] at he ⊢
    exact h.beginWait ht
  | notify t limit =>
    have ht : s.pc t = .inside := by cases hpc : s.pc t <;> simp [enabled, hpc] at he ⊢
    exact h.beginNotify hT ht
  | step t => exact h.stepThread he

end step
end Inv
end CondState
end AudioKernel
