import AudioKernel.Sync.Semaphore

/-! The permits of a semaphore are conserved, and its queue is served in order. -/
namespace AudioKernel
open Lib

variable {T : Type}

namespace SemState

def InHands (s : SemState T) (t : T) : Prop := ∃ u, (s.pc u).hands? = some t

variable [DecidableEq T]

structure Inv (n : ℕ) (s : SemState T) : Prop where
  lock : Exclusive s.sem.taken fun t => (s.pc t).holdsLock = true
  queue : WaitQueue s.sem.waiting (fun t => (s.pc t).hands?) fun t => (s.pc t).waits = true
  asleep : ∀ t, s.InHands t → s.pc t = .asleep
  empty : 0 < s.sem.count → s.sem.waiting = []
  blocked : ∀ t, s.pc t = .downBlock → s.sem.count = 0
  fifo : s.enqueued = s.handed ++ s.sem.waiting
  in_hands : ∀ t, s.InHands t → s.handed.count t = s.scheduled.count t + 1
  settled : ∀ t, ¬ s.InHands t → s.handed.count t = s.scheduled.count t
  permits_mod : (s.sem.count + s.downs) % 2 ^ 64 = (n + s.ups) % 2 ^ 64
  permits : n + s.ups < 2 ^ 64 → s.sem.count + s.downs = n + s.ups

namespace Inv

variable {n : ℕ} {s s' : SemState T} {t : T} {pc : SemPc T}

theorem new (n : ℕ) : Inv n (SemState.new n : SemState T) := by
  constructor
  case lock =>
    constructor
    · intro t u ht
      cases ht
    · intro _ t ht
      cases ht
  case queue => exact WaitQueue.empty fun _ => Bool.false_ne_true
  case asleep =>
    intro t ⟨u, hu⟩
    cases hu
  case empty => exact fun _ => rfl
  case blocked =>
    intro t ht
    cases ht
  case fifo => rfl
  case in_hands =>
    intro t ⟨u, hu⟩
    cases hu
  case settled => exact fun _ _ => rfl
  case permits_mod => rfl
  case permits => exact fun _ => rfl

/-- What a step that moves no waiting thread keeps. -/
structure Quiet (s s' : SemState T) (t : T) (pc : SemPc T) : Prop where
  update : s'.pc = Function.update s.pc t pc
  awake : s.pc t ≠ .asleep
  waits : pc.waits = (s.pc t).waits
  hands : pc.hands? = (s.pc t).hands?
  waiting : s'.sem.waiting = s.sem.waiting
  enqueued : s'.enqueued = s.enqueued
  handed : s'.handed = s.handed
  scheduled : s'.scheduled = s.scheduled

theorem Quiet.hands_eq (hq : Quiet s s' t pc) (u : T) : (s'.pc u).hands? = (s.pc u).hands? := by
  rw [hq.update]
  by_cases hu : u = t
  · rw [hu, Function.update_self, hq.hands]
  · rw [Function.update_of_ne hu]

theorem Quiet.inHands (hq : Quiet s s' t pc) (u : T) : s'.InHands u ↔ s.InHands u := by
  unfold InHands
  simp only [hq.hands_eq]

theorem Quiet.waits_eq (hq : Quiet s s' t pc) (u : T) : (s'.pc u).waits = (s.pc u).waits := by
  rw [hq.update]
  by_cases hu : u = t
  · rw [hu, Function.update_self, hq.waits]
  · rw [Function.update_of_ne hu]

theorem quiet (h : Inv n s) (hq : Quiet s s' t pc) (hlock : Exclusive s'.sem.taken fun t => (s'.pc t).holdsLock = true)
    (hempty : 0 < s'.sem.count → s.sem.waiting = []) (hblocked : ∀ t, s'.pc t = .downBlock → s'.sem.count = 0)
    (hmod : (s'.sem.count + s'.downs) % 2 ^ 64 = (n + s'.ups) % 2 ^ 64)
    (hpermits : n + s'.ups < 2 ^ 64 → s'.sem.count + s'.downs = n + s'.ups) : Inv n s' := by
  constructor
  case lock => exact hlock
  case queue =>
    rw [hq.waiting]
    exact h.queue.congr hq.hands_eq fun u => by rw [hq.waits_eq]
  case asleep =>
    intro u hu
    have hasleep := h.asleep u ((hq.inHands u).mp hu)
    have hut : u ≠ t := fun he => hq.awake (by rw [← he]; exact hasleep)
    rw [hq.update, Function.update_of_ne hut]
    exact hasleep
  case empty =>
    rw [hq.waiting]
    exact hempty
  case blocked => exact hblocked
  case fifo =>
    rw [hq.enqueued, hq.handed, hq.waiting]
    exact h.fifo
  case in_hands =>
    intro u hu
    rw [hq.handed, hq.scheduled]
    exact h.in_hands u ((hq.inHands u).mp hu)
  case settled =>
    intro u hu
    rw [hq.handed, hq.scheduled]
    exact h.settled u fun hu' => hu ((hq.inHands u).mpr hu')
  case permits_mod => exact hmod
  case permits => exact hpermits

theorem quiet_of {p q : SemPc T} (ht : s.pc t = p) (hp : p ≠ .asleep) (hwaits : q.waits = p.waits)
    (hhands : q.hands? = p.hands?) (hpcs : s'.pc = Function.update s.pc t q) (hx : s'.sem.waiting = s.sem.waiting)
    (hlogs : s'.enqueued = s.enqueued ∧ s'.handed = s.handed ∧ s'.scheduled = s.scheduled) : Quiet s s' t q := by
  subst ht
  exact ⟨hpcs, hp, hwaits, hhands, hx, hlogs.1, hlogs.2.1, hlogs.2.2⟩

/-- A step that leaves the count alone, too. -/
theorem quiet_count (h : Inv n s) (hq : Quiet s s' t pc)
    (hlock : Exclusive s'.sem.taken fun t => (s'.pc t).holdsLock = true) (hcount : s'.sem.count = s.sem.count)
    (hpc : pc = .downBlock → s.sem.count = 0) (hdowns : s'.downs = s.downs) (hups : s'.ups = s.ups) : Inv n s' := by
  apply h.quiet hq hlock
  · rw [hcount]
    exact h.empty
  · intro u hu
    rw [hcount]
    rw [hq.update] at hu
    by_cases hut : u = t
    · rw [hut, Function.update_self] at hu
      exact hpc hu
    · rw [Function.update_of_ne hut] at hu
      exact h.blocked u hu
  · rw [hcount, hdowns, hups]
    exact h.permits_mod
  · rw [hcount, hdowns, hups]
    exact h.permits

/-- While a thread is in the critical section, no other one is in `block` with the lock. -/
theorem not_blocked (h : Inv n s) (ht : (s.pc t).holdsLock = true) (q : SemPc T) (hq : q ≠ .downBlock) (u : T) :
    Function.update s.pc t q u ≠ .downBlock := by
  intro hu
  by_cases hut : u = t
  · rw [hut, Function.update_self] at hu
    exact hq hu
  · rw [Function.update_of_ne hut] at hu
    exact hut (h.lock.unique u t (by rw [hu]; rfl) ht)

omit [DecidableEq T] in
/-- A thread that sleeps is not the one that takes a step. -/
theorem ne_of_asleep {p : SemPc T} {u : T} (hu : s.pc u = .asleep) (ht : s.pc t = p) (hp : p ≠ .asleep) :
    u ≠ t := by
  rintro rfl
  exact hp (ht.symm.trans hu)

/-- The callback of `down` adds the thread to the queue. -/
theorem enqueue (h : Inv n s) (ht : s.pc t = .downBlock) : Inv n (s.stepThread t) := by
  have hnext : s.stepThread t =
      { s.setPc t .downRelease with sem := s.sem.enqueue t, enqueued := s.enqueued ++ [t] } := by
    simp only [stepThread, ht]
  rw [hnext]
  have hlocked : (s.pc t).holdsLock = true := by rw [ht]; rfl
  have hhands : ∀ u, (Function.update s.pc t .downRelease u).hands? = (s.pc u).hands? := by
    intro u
    by_cases hu : u = t
    · rw [hu, Function.update_self, ht]
      rfl
    · rw [Function.update_of_ne hu]
  have hinHands : ∀ u, ({ s.setPc t .downRelease with
      sem := s.sem.enqueue t, enqueued := s.enqueued ++ [t] } : SemState T).InHands u ↔ s.InHands u := by
    intro u
    change (∃ v, (Function.update s.pc t .downRelease v).hands? = some u) ↔ _
    simp only [hhands]
    rfl
  constructor
  case lock => exact h.lock.update_keep fun _ => hlocked
  case queue =>
    apply h.queue.enqueue (t := t)
    · rw [ht]
      exact Bool.false_ne_true
    · exact hhands
    · intro u
      change (Function.update s.pc t .downRelease u).waits = true ↔ _
      by_cases hu : u = t
      · simp [hu, SemPc.waits]
      · simp [hu]
  case asleep =>
    intro u hu
    have hasleep := h.asleep u ((hinHands u).mp hu)
    change Function.update s.pc t .downRelease u = .asleep
    rw [Function.update_of_ne (ne_of_asleep hasleep ht (by simp))]
    exact hasleep
  case empty =>
    intro hc
    have hzero := h.blocked t ht
    change 0 < s.sem.count at hc
    omega
  case blocked =>
    intro u hu
    exact absurd hu (h.not_blocked hlocked .downRelease (by simp) u)
  case fifo =>
    change s.enqueued ++ [t] = s.handed ++ (s.sem.waiting ++ [t])
    rw [h.fifo, List.append_assoc]
  case in_hands =>
    intro u hu
    exact h.in_hands u ((hinHands u).mp hu)
  case settled =>
    intro u hu
    exact h.settled u fun hu' => hu ((hinHands u).mpr hu')
  case permits_mod => exact h.permits_mod
  case permits => exact h.permits

/-- Whoever is in the queue sleeps: it cannot still be in the critical section of `down` together with `t`. -/
theorem asleep_of_mem {x : T} (h : Inv n s) (ht : s.pc t = .upTake) (hx : x ∈ s.sem.waiting) : s.pc x = .asleep := by
  have hwaits : (s.pc x).waits = true := h.queue.waits_of_mem hx
  cases hpc : s.pc x <;> rw [hpc] at hwaits <;> first | rfl | cases hwaits
  have hxt := h.lock.unique x t (by rw [hpc]; rfl) (by rw [ht]; rfl)
  rw [hxt, ht] at hpc
  cases hpc

/-- Who is in the hands of some thread when `t` has taken `x` from the queue. -/
theorem inHands_take {x : T} (ht : s.pc t = .upTake) (u : T) :
    (∃ v, (Function.update s.pc t (.upUnlock (some x)) v).hands? = some u) ↔ u = x ∨ s.InHands u := by
  constructor
  · rintro ⟨v, hv⟩
    by_cases hvt : v = t
    · rw [hvt, Function.update_self] at hv
      exact .inl (Option.some.inj hv).symm
    · rw [Function.update_of_ne hvt] at hv
      exact .inr ⟨v, hv⟩
  · rintro (hu | ⟨v, hv⟩)
    · exact ⟨t, by rw [Function.update_self, hu]; rfl⟩
    · have hvt : v ≠ t := by
        rintro rfl
        rw [ht] at hv
        cases hv
      exact ⟨v, by rw [Function.update_of_ne hvt]; exact hv⟩

/-- `up` hands its permit to the first thread of the queue. -/
theorem handOver {x : T} {rest : List T} (h : Inv n s) (ht : s.pc t = .upTake) (hw : s.sem.waiting = x :: rest) :
    Inv n (s.stepThread t) := by
  have hnext : s.stepThread t =
      { s.setPc t (.upUnlock (some x)) with
        sem := { s.sem with waiting := rest }
        downs := s.downs + 1
        ups := s.ups + 1
        handed := s.handed ++ [x]
        owners := x :: s.owners.erase t } := by
    simp only [stepThread, ht, Semaphore.handOver_cons hw]
  rw [hnext]
  have hlocked : (s.pc t).holdsLock = true := by rw [ht]; rfl
  have hxqueue : x ∈ s.sem.waiting := by
    rw [hw]
    exact List.mem_cons_self
  have hnot : ¬ s.InHands x := by
    rintro ⟨u, hu⟩
    exact h.queue.not_hands hxqueue u hu
  have hinHands (u : T) := inHands_take (x := x) ht u
  constructor
  case lock => exact h.lock.update_keep fun _ => hlocked
  case queue =>
    have hqueue := h.queue
    rw [hw] at hqueue
    apply hqueue.take (t := t) (x := x)
    · rw [ht]
      rfl
    · change (Function.update s.pc t (.upUnlock (some x)) t).hands? = _
      rw [Function.update_self]
      rfl
    · intro u hu
      change (Function.update s.pc t (.upUnlock (some x)) u).hands? = _
      rw [Function.update_of_ne hu]
    · intro u
      change (Function.update s.pc t (.upUnlock (some x)) u).waits = true ↔ _
      by_cases hu : u = t
      · rw [hu, Function.update_self, ht]
        rfl
      · rw [Function.update_of_ne hu]
  case asleep =>
    intro u hu
    have hu' : s.pc u = .asleep := by
      rcases (hinHands u).mp hu with he | hu
      · rw [he]
        exact h.asleep_of_mem ht hxqueue
      · exact h.asleep u hu
    change Function.update s.pc t _ u = .asleep
    rw [Function.update_of_ne (ne_of_asleep hu' ht (by simp))]
    exact hu'
  case empty =>
    intro hc
    have hnil := h.empty hc
    rw [hw] at hnil
    cases hnil
  case blocked =>
    intro u hu
    exact absurd hu (h.not_blocked hlocked (.upUnlock (some x)) (by simp) u)
  case fifo =>
    change s.enqueued = s.handed ++ [x] ++ rest
    rw [h.fifo, hw, List.append_assoc]
    rfl
  case in_hands =>
    intro u hu
    change (s.handed ++ [x]).count u = s.scheduled.count u + 1
    rw [List.count_append]
    rcases (hinHands u).mp hu with he | hu'
    · subst he
      rw [h.settled u hnot, List.count_singleton_self]
    · have hux : u ≠ x := fun he => hnot (by rw [← he]; exact hu')
      rw [h.in_hands u hu', List.count_singleton, if_neg (by simpa using hux.symm)]
  case settled =>
    intro u hu
    have hu' := not_or.mp fun hu' => hu ((hinHands u).mpr hu')
    change (s.handed ++ [x]).count u = s.scheduled.count u
    rw [List.count_append, h.settled u hu'.2, List.count_singleton, if_neg (by simpa using Ne.symm hu'.1)]
    rfl
  case permits_mod =>
    have hmod := h.permits_mod
    change (s.sem.count + (s.downs + 1)) % 2 ^ 64 = (n + (s.ups + 1)) % 2 ^ 64
    omega
  case permits =>
    intro hlt
    change n + (s.ups + 1) < 2 ^ 64 at hlt
    change s.sem.count + (s.downs + 1) = n + (s.ups + 1)
    have hpermits := h.permits (by omega)
    omega

/-- Where the threads are when `t` has scheduled `x`. -/
def woken (pc : T → SemPc T) (t x : T) : T → SemPc T := Function.update (Function.update pc t .out) x .out

theorem woken_cases (pc : T → SemPc T) (t x u : T) :
    woken pc t x u = .out ∧ (u = t ∨ u = x) ∨ woken pc t x u = pc u ∧ u ≠ t ∧ u ≠ x := by
  unfold woken
  by_cases hux : u = x
  · exact .inl ⟨by rw [hux, Function.update_self], .inr hux⟩
  by_cases hut : u = t
  · exact .inl ⟨by rw [Function.update_of_ne hux, hut, Function.update_self], .inl hut⟩
  · exact .inr ⟨by rw [Function.update_of_ne hux, Function.update_of_ne hut], hut, hux⟩

theorem woken_other {pc : T → SemPc T} {t x u : T} (hut : u ≠ t) (hux : u ≠ x) : woken pc t x u = pc u :=
  (Function.update_of_ne hux ..).trans (Function.update_of_ne hut ..)

/-- Only `t` had `x` in its hands. -/
theorem inHands_woken {x : T} (h : Inv n s) (ht : s.pc t = .upSchedule x) (u : T) :
    (∃ v, (woken s.pc t x v).hands? = some u) ↔ s.InHands u ∧ u ≠ x := by
  have hhands : (s.pc t).hands? = some x := by
    rw [ht]
    rfl
  constructor
  · rintro ⟨v, hv⟩
    rcases woken_cases s.pc t x v with ⟨hvout, -⟩ | ⟨hvs, hvt, -⟩
    · rw [hvout] at hv
      cases hv
    · rw [hvs] at hv
      refine ⟨⟨v, hv⟩, ?_⟩
      rintro rfl
      exact hvt (h.queue.hands_unique hv hhands)
  · rintro ⟨⟨v, hv⟩, hux⟩
    have hvt : v ≠ t := by
      rintro rfl
      exact hux (Option.some.inj (hv.symm.trans hhands))
    have hvx : v ≠ x := by
      rintro rfl
      rw [h.asleep v ⟨t, hhands⟩] at hv
      cases hv
    exact ⟨v, by rw [woken_other hvt hvx]; exact hv⟩

/-- `schedule` wakes the thread that `up` has taken from the queue. -/
theorem schedule {x : T} (h : Inv n s) (ht : s.pc t = .upSchedule x) : Inv n (s.stepThread t) := by
  have hnext : s.stepThread t = { (s.setPc t .out).setPc x .out with scheduled := s.scheduled ++ [x] } := by
    simp only [stepThread, ht]
  rw [hnext]
  have hhands : s.InHands x := ⟨t, by rw [ht]; rfl⟩
  have hasleep := h.asleep x hhands
  have hcases := woken_cases s.pc t x
  have hinHands := h.inHands_woken ht
  constructor
  case lock =>
    apply h.lock.mono
    intro u hu
    change (woken s.pc t x u).holdsLock = true at hu
    rcases hcases u with ⟨huout, -⟩ | ⟨hus, -⟩
    · rw [huout] at hu
      cases hu
    · rw [hus] at hu
      exact hu
  case queue =>
    apply h.queue.wake (t := t) (x := x)
    · rw [ht]
      rfl
    · change (woken s.pc t x t).hands? = none
      rcases hcases t with ⟨htout, -⟩ | ⟨-, htt, -⟩
      · rw [htout]
        rfl
      · exact absurd rfl htt
    · intro u hu
      change (woken s.pc t x u).hands? = (s.pc u).hands?
      rcases hcases u with ⟨huout, hu'⟩ | ⟨hus, -⟩
      · rw [huout, hu'.resolve_left hu, hasleep]
        rfl
      · rw [hus]
    · intro u
      change (woken s.pc t x u).waits = true ↔ _
      rcases hcases u with ⟨huout, hu⟩ | ⟨hus, -, hux⟩
      · rw [huout]
        rcases hu with hu | hu
        · simp [hu, ht, SemPc.waits]
        · simp [hu, SemPc.waits]
      · rw [hus]
        simp [hux]
  case asleep =>
    intro u hu
    obtain ⟨hu', hux⟩ := (hinHands u).mp hu
    have hasleep' := h.asleep u hu'
    exact (woken_other (ne_of_asleep hasleep' ht (by simp)) hux).trans hasleep'
  case empty => exact h.empty
  case blocked =>
    intro u hu
    change woken s.pc t x u = .downBlock at hu
    rcases hcases u with ⟨huout, -⟩ | ⟨hus, -⟩
    · rw [huout] at hu
      cases hu
    · exact h.blocked u (hus.symm.trans hu)
  case fifo => exact h.fifo
  case in_hands =>
    intro u hu
    obtain ⟨hu', hux⟩ := (hinHands u).mp hu
    change s.handed.count u = (s.scheduled ++ [x]).count u + 1
    rw [List.count_append, h.in_hands u hu', List.count_singleton, if_neg (by simpa using hux.symm)]
  case settled =>
    intro u hu
    change s.handed.count u = (s.scheduled ++ [x]).count u
    rw [List.count_append]
    by_cases hux : u = x
    · rw [hux, h.in_hands x hhands, List.count_singleton_self]
    · have hu' : ¬ s.InHands u := fun hu' => hu ((hinHands u).mpr ⟨hu', hux⟩)
      rw [h.settled u hu', List.count_singleton, if_neg (by simpa using Ne.symm hux)]
      rfl
  case permits_mod => exact h.permits_mod
  case permits => exact h.permits

/-- A thread calls `down` or `up`. -/
theorem call (h : Inv n s) (ht : s.pc t = .out) (q : SemPc T) (hq : q = .downLock ∨ q = .upLock) : Inv n (s.setPc t q) := by
  have hcall : q.waits = false ∧ q.hands? = none ∧ q.holdsLock = false ∧ q ≠ .downBlock := by
    rcases hq with hq | hq <;> rw [hq] <;> exact ⟨rfl, rfl, rfl, (by simp)⟩
  obtain ⟨hwaits, hhands, hholds, hblock⟩ := hcall
  have hquiet : Quiet s (s.setPc t q) t q := quiet_of ht (by simp) hwaits hhands rfl rfl ⟨rfl, rfl, rfl⟩
  apply h.quiet_count hquiet
  · exact h.lock.update_keep fun hq' => by rw [hholds] at hq'; cases hq'
  · rfl
  · exact fun he => absurd he hblock
  · rfl
  · rfl

/-- A thread takes the lock, which is free. -/
theorem acquire {p q : SemPc T} (h : Inv n s) (ht : s.pc t = p) (hp : p ≠ .asleep) (hwaits : q.waits = p.waits)
    (hhands : q.hands? = p.hands?) (hq : q ≠ .downBlock) (hfree : s.sem.taken = false) :
    Inv n { s.setPc t q with sem := s.sem.lock } := by
  have hquiet : Quiet s { s.setPc t q with sem := s.sem.lock } t q := quiet_of ht hp hwaits hhands rfl rfl ⟨rfl, rfl, rfl⟩
  exact h.quiet_count hquiet (h.lock.update_acquire hfree) rfl (fun he => absurd he hq) rfl rfl

/-- The thread in the critical section leaves it. -/
theorem release {p q : SemPc T} (h : Inv n s) (ht : s.pc t = p) (hp : p.holdsLock = true) (hq : q.holdsLock = false)
    (hwaits : q.waits = p.waits) (hhands : q.hands? = p.hands?) : Inv n { s.setPc t q with sem := s.sem.unlock } := by
  have hp' : p ≠ .asleep := fun he => by rw [he] at hp; cases hp
  have hq' : q ≠ .downBlock := fun he => by rw [he] at hq; cases hq
  have hquiet : Quiet s { s.setPc t q with sem := s.sem.unlock } t q := quiet_of ht hp' hwaits hhands rfl rfl ⟨rfl, rfl, rfl⟩
  exact h.quiet_count hquiet (h.lock.update_release (by rw [ht]; exact hp) hq) rfl (fun he => absurd he hq') rfl rfl

/-- `down` takes a permit or goes on to block. -/
theorem test (h : Inv n s) (ht : s.pc t = .downTest) : Inv n (s.stepThread t) := by
  have hlocked : (s.pc t).holdsLock = true := by rw [ht]; rfl
  by_cases hc : s.sem.count > 0
  · have htry : s.sem.tryDown = some { s.sem with count := s.sem.count - 1 } := if_pos hc
    simp only [SemState.stepThread, ht, htry]
    have hquiet : Quiet s { s.setPc t .downUnlock with
      sem := { s.sem with count := s.sem.count - 1 }, downs := s.downs + 1, owners := t :: s.owners } t .downUnlock :=
      quiet_of ht (by simp) rfl rfl rfl rfl ⟨rfl, rfl, rfl⟩
    have hsum : s.sem.count - 1 + (s.downs + 1) = s.sem.count + s.downs := by omega
    apply h.quiet hquiet
    · exact h.lock.update_keep fun _ => hlocked
    · exact fun _ => h.empty hc
    · intro u hu
      exact absurd hu (h.not_blocked hlocked .downUnlock (by simp) u)
    · change (s.sem.count - 1 + (s.downs + 1)) % 2 ^ 64 = _
      rw [hsum]
      exact h.permits_mod
    · intro hlt
      change s.sem.count - 1 + (s.downs + 1) = _
      rw [hsum]
      exact h.permits hlt
  · have htry : s.sem.tryDown = none := if_neg hc
    simp only [SemState.stepThread, ht, htry]
    have hquiet : Quiet s (s.setPc t .downBlock) t .downBlock := quiet_of ht (by simp) rfl rfl rfl rfl ⟨rfl, rfl, rfl⟩
    exact h.quiet_count hquiet (h.lock.update_keep fun _ => hlocked) rfl (fun _ => by omega) rfl rfl

/-- `up` increments the count when no thread waits. -/
theorem increment (h : Inv n s) (ht : s.pc t = .upTake) (hw : s.sem.waiting = []) : Inv n (s.stepThread t) := by
  have hlocked : (s.pc t).holdsLock = true := by rw [ht]; rfl
  simp only [SemState.stepThread, ht, Semaphore.handOver_nil hw]
  have hquiet : Quiet s { s.setPc t (.upUnlock none) with
      sem := { s.sem with count := (s.sem.count + 1) % 2 ^ 64 }, ups := s.ups + 1, owners := s.owners.erase t }
      t (.upUnlock none) :=
    quiet_of ht (by simp) rfl rfl rfl rfl ⟨rfl, rfl, rfl⟩
  apply h.quiet hquiet
  · exact h.lock.update_keep fun _ => hlocked
  · exact fun _ => hw
  · intro u hu
    exact absurd hu (h.not_blocked hlocked (.upUnlock none) (by simp) u)
  · have hmod := h.permits_mod
    change ((s.sem.count + 1) % 2 ^ 64 + s.downs) % 2 ^ 64 = (n + (s.ups + 1)) % 2 ^ 64
    omega
  · intro hlt
    change n + (s.ups + 1) < 2 ^ 64 at hlt
    have hpermits := h.permits (by omega)
    change (s.sem.count + 1) % 2 ^ 64 + s.downs = n + (s.ups + 1)
    rw [Nat.mod_eq_of_lt (by omega)]
    omega

theorem stepThread (h : Inv n s) (hcan : s.canStep t = true) : Inv n (s.stepThread t) := by
  cases ht : s.pc t with
  | out | asleep => simp [canStep, ht] at hcan
  | downLock =>
    have hfree : s.sem.taken = false := by simpa [canStep, ht] using hcan
    simp only [SemState.stepThread, ht]
    exact h.acquire ht (by simp) rfl rfl (by simp) hfree
  | downTest => exact h.test ht
  | downUnlock =>
    simp only [SemState.stepThread, ht]
    exact h.release ht rfl rfl rfl rfl
  | downBlock => exact h.enqueue ht
  | downRelease =>
    simp only [SemState.stepThread, ht]
    exact h.release ht rfl rfl rfl rfl
  | upLock =>
    have hfree : s.sem.taken = false := by simpa [canStep, ht] using hcan
    simp only [SemState.stepThread, ht]
    exact h.acquire ht (by simp) rfl rfl (by simp) hfree
  | upTake =>
    cases hw : s.sem.waiting with
    | cons x rest => exact h.handOver ht hw
    | nil => exact h.increment ht hw
  | upUnlock next =>
    cases next <;> simp only [SemState.stepThread, ht]
    · exact h.release ht rfl rfl rfl rfl
    · exact h.release ht rfl rfl rfl rfl
  | upSchedule x => exact h.schedule ht

theorem next (h : Inv n s) {a : SemAct T} (he : s.enabled a = true) : Inv n (s.next a) := by
  cases a with
  | down t =>
    have ht : s.pc t = .out := by
      cases hpc : s.pc t <;> simp [enabled, hpc] at he ⊢
    exact h.call ht _ (.inl rfl)
  | up t =>
    have ht : s.pc t = .out := by
      cases hpc : s.pc t <;> simp [enabled, hpc] at he ⊢
    exact h.call ht _ (.inr rfl)
  | step t => exact h.stepThread he

end Inv
end SemState
end AudioKernel
