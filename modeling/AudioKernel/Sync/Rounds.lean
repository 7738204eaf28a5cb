import AudioKernel.Sync.ReusableBarrier
import Mathlib.Algebra.BigOperators.Fin
import Mathlib.Algebra.Order.BigOperators.Group.Finset

/-! The rounds of a reusable barrier are separate, however many there are. -/
namespace AudioKernel
open Lib

section cond
variable {T : Type}

/-- Where a thread can be on the condition while it is there in `sync`. -/
def SyncPc.Fits : SyncPc → CondPc T → Prop
  | .idle, pc => pc = .out
  | .entering, pc => pc = .lockWait ∨ pc = .inside
  | .counted _, pc | .leaving, pc | .failed, pc => pc = .inside
  | .waiting t, pc => pc = .inside ∨ pc = .relock ∨ pc = .failed ∨ ∃ e, pc.wait? = some e ∧ e ≤ t
  | .releasing, pc => pc = .inside ∨ ∃ i, pc = .notifying allLimit i ∨ ∃ x, pc = .handing x allLimit i

/-- Only `notifyAll` is called. -/
theorem SyncPc.Fits.notifies_all {q : SyncPc} {pc : CondPc T} {limit i : ℕ} (h : q.Fits pc)
    (hpc : pc.loop? = some (limit, i)) : limit = allLimit := by
  cases q <;> cases pc <;> simp_all [SyncPc.Fits, CondPc.loop?, CondPc.wait?]

/-- Only a thread that waits for the next round is in the queue. -/
theorem SyncPc.Fits.waiting_of_enqueued {q : SyncPc} {pc : CondPc T} {e : ℕ} (h : q.Fits pc)
    (hwait : pc.wait? = some e) : ∃ t, q = .waiting t ∧ e ≤ t := by
  cases q <;> cases pc <;> simp_all [SyncPc.Fits, CondPc.wait?]

theorem SyncPc.Fits.relock {q : SyncPc} {e : ℕ} (h : q.Fits (.asleep e : CondPc T)) : q.Fits (.relock : CondPc T) := by
  cases q <;> simp_all [SyncPc.Fits]

namespace CondState

variable [DecidableEq T] {s : CondState T} {t u : T}

/-- Only `notify` changes the epoch, at its beginning. -/
theorem stepThread_epoch : (s.stepThread t).cond.epoch = s.cond.epoch := by
  cases ht : s.pc t with
  | notifying limit i =>
    cases hw : s.cond.queue with
    | nil => simp [stepThread, ht, Condition.dequeue_nil hw, endNotify, setPc]
    | cons x rest =>
      simp only [stepThread, ht, Condition.dequeue_cons hw]
      split_ifs <;> rfl
  | waitLocked e =>
    simp only [stepThread, ht]
    split_ifs <;> rfl
  | _ => simp [stepThread, ht, setPc, schedule, Condition.lock, Condition.unlock]

/-- A step lets another thread be, or schedules it. -/
theorem stepThread_other (hbase : Inv s) (hu : u ≠ t) : (s.stepThread t).pc u = s.pc u ∨
    (∃ e, s.pc u = .asleep e) ∧ (s.stepThread t).pc u = .relock := by
  have hpc : ∀ q, Function.update s.pc t q u = s.pc u := fun q => Function.update_of_ne hu ..
  cases ht : s.pc t with
  | out | inside | asleep | failed => exact .inl (by simp only [stepThread, ht])
  | lockWait | relock | waitBlock | waitQueued | waitMissed | waitSchedule =>
    simp only [stepThread, ht]
    exact .inl (hpc _)
  | waitLocked e =>
    simp only [stepThread, ht]
    split_ifs <;> exact .inl (hpc _)
  | notifying limit i =>
    cases hw : s.cond.queue with
    | nil =>
      simp only [stepThread, ht, Condition.dequeue_nil hw, ite_self]
      exact .inl (hpc _)
    | cons x rest =>
      simp only [stepThread, ht, Condition.dequeue_cons hw]
      split_ifs <;> exact .inl (hpc _)
  | handing x limit i =>
    simp only [stepThread, ht]
    by_cases hux : u = x
    · refine .inr ⟨?_, ?_⟩
      · rw [hux]
        exact hbase.asleep t x (by rw [ht]; rfl)
      · rw [hux]
        exact Function.update_self ..
    · exact .inl ((Function.update_of_ne hux ..).trans (hpc _))

/-- A thread gets into the queue only while the epoch is the one that its `wait` has recorded. -/
theorem stepThread_enqueued {e : ℕ} (hbase : Inv s) (h : (s.stepThread t).Enqueued u e) :
    s.Enqueued u e ∨ e = s.cond.epoch := by
  by_cases hu : u = t
  · subst hu
    obtain ⟨henq, hwait⟩ := h
    cases hpc : s.pc u with
    | notifying limit i =>
      cases hw : s.cond.queue with
      | nil => simp [stepThread, hpc, Condition.dequeue_nil hw, endNotify, setPc, CondPc.enqueued] at henq
      | cons x rest =>
        simp only [stepThread, hpc, Condition.dequeue_cons hw] at henq
        split_ifs at henq <;> simp [endNotify, setPc, CondPc.enqueued] at henq
    | handing x limit i =>
      have hux := (hbase.handing_ne hpc).symm
      simp [stepThread, hpc, schedule, setPc, Function.update_of_ne hux, CondPc.enqueued] at henq
    | waitLocked e' =>
      simp only [stepThread, hpc] at henq hwait
      split_ifs at henq hwait with hepoch
      · have he : e' = e := by simpa [setPc, CondPc.wait?] using hwait
        exact .inr (by omega)
      all_goals simp [setPc, fail, CondPc.enqueued] at henq
    | waitQueued e' =>
      have he : e' = e := by simpa [stepThread, hpc, setPc, CondPc.wait?] using hwait
      refine .inl ⟨?_, ?_⟩
      · rw [hpc]
        rfl
      · rw [hpc, ← he]
        rfl
    | asleep e' =>
      simp only [stepThread, hpc] at henq hwait
      exact .inl ⟨by rw [hpc]; rfl, by rw [hpc]; exact hwait⟩
    | _ => simp [stepThread, hpc, setPc, schedule, CondPc.enqueued] at henq
  · rcases stepThread_other hbase hu with hsame | ⟨-, hrelock⟩
    · unfold Enqueued at h
      rw [hsame] at h
      exact .inl h
    · have henq := h.1
      rw [hrelock] at henq
      cases henq

/-- Between the calls of `notifyAll`, all threads in the queue wait for the next one. -/
def Fresh (s : CondState T) : Prop :=
  (∀ t, (s.pc t).loop? = none) → ∀ t e, s.Enqueued t e → e = s.cond.epoch

theorem Fresh.stepThread (hbase : Inv s) (hall : ∀ limit i, (s.pc t).loop? = some (limit, i) → limit = allLimit)
    (h : s.Fresh) : (s.stepThread t).Fresh := by
  intro hloop u e henq
  rw [stepThread_epoch]
  rcases stepThread_enqueued hbase henq with henq | he
  case inr => exact he
  cases hpc : (s.pc t).loop? with
  | none =>
    refine h (fun v => ?_) u e henq
    by_cases hv : v = t
    · rw [hv, hpc]
    · rcases stepThread_other hbase hv with hsame | ⟨⟨e', hasleep⟩, -⟩
      · rw [← hsame]
        exact hloop v
      · rw [hasleep]
        rfl
  | some x =>
    obtain ⟨limit, i⟩ := x
    obtain rfl := hall limit i hpc
    have hend := hloop t
    cases ht : s.pc t with
    | notifying limit' i' =>
      rw [ht] at hpc
      cases hpc
      -- the loop has come to its end, which it has not before the queue is empty
      have hdrain := hbase.drain t i ht
      cases hw : s.cond.queue with
      | nil => exact absurd henq (hbase.not_enqueued ht hw u e)
      | cons x rest =>
        rw [hw, List.length_cons] at hdrain
        have hlt : i < allLimit := by omega
        simp [CondState.stepThread, ht, Condition.dequeue_cons hw, hlt, setPc, CondPc.loop?] at hend
    | handing x limit' i' =>
      have htx := (hbase.handing_ne ht).symm
      simp [CondState.stepThread, ht, schedule, setPc, Function.update_of_ne htx, CondPc.loop?] at hend
    | _ =>
      rw [ht] at hpc
      cases hpc

end CondState

/-- A thread stays on the condition where its place in `sync` says. -/
theorem SyncPc.Fits.stepThread [DecidableEq T] {s : CondState T} {q : SyncPc} {t : T} (hbase : CondState.Inv s)
    (h : q.Fits (s.pc t)) : q.Fits ((s.stepThread t).pc t) := by
  cases ht : s.pc t with
  | out | inside | asleep | failed =>
    rw [ht] at h
    simpa only [CondState.stepThread, ht] using h
  | lockWait | relock | waitBlock | waitQueued | waitMissed | waitSchedule =>
    rw [ht] at h
    cases q <;> simp_all [SyncPc.Fits, CondState.stepThread, CondState.setPc, CondState.schedule, CondPc.wait?]
  | waitLocked e =>
    rw [ht] at h
    obtain ⟨tl, rfl, hle⟩ := h.waiting_of_enqueued (e := e) rfl
    simp only [CondState.stepThread, ht]
    split_ifs <;> simp [SyncPc.Fits, CondState.setPc, CondState.fail, CondPc.wait?, hle]
  | notifying limit i =>
    rw [ht] at h
    obtain rfl := h.notifies_all rfl
    have hreleasing : q = .releasing := by cases q <;> simp_all [SyncPc.Fits, CondPc.wait?]
    rw [hreleasing]
    cases hw : s.cond.queue with
    | nil => simp [CondState.stepThread, ht, Condition.dequeue_nil hw, CondState.endNotify, CondState.setPc, SyncPc.Fits]
    | cons x rest =>
      simp only [CondState.stepThread, ht, Condition.dequeue_cons hw]
      split_ifs <;> simp [CondState.endNotify, CondState.setPc, SyncPc.Fits]
  | handing x limit i =>
    have htx := (hbase.handing_ne ht).symm
    rw [ht] at h
    obtain rfl := h.notifies_all rfl
    have hreleasing : q = .releasing := by cases q <;> simp_all [SyncPc.Fits, CondPc.wait?]
    rw [hreleasing]
    simp [CondState.stepThread, ht, CondState.schedule, CondState.setPc, Function.update_of_ne htx, SyncPc.Fits]

end cond

/-- What a thread there in `sync` has counted, when the count of the barrier has been reset `rounds` times. -/
def SyncPc.Counts (rounds arrived returned : ℕ) : SyncPc → Prop
  | .idle | .entering => arrived = rounds ∧ returned = rounds
  | .counted t => arrived = rounds + 1 ∧ returned = rounds ∧ t = rounds % 2 ^ 64
  | .waiting t => arrived = returned + 1 ∧ t = returned % 2 ^ 64 ∧ (arrived = rounds ∨ arrived = rounds + 1)
  | .releasing | .leaving => arrived = rounds ∧ returned + 1 = rounds
  | .failed => False

namespace SyncPc.Counts

variable {q : SyncPc} {rounds arrived returned e : ℕ}

theorem between (h : q.Counts rounds arrived returned) :
    rounds ≤ arrived ∧ arrived ≤ rounds + 1 ∧ returned ≤ rounds := by
  cases q <;> simp only [SyncPc.Counts] at h <;> omega

theorem count (h : SyncPc.entering.Counts rounds arrived returned) (he : e = rounds % 2 ^ 64) :
    (SyncPc.counted e).Counts rounds (arrived + 1) returned :=
  ⟨congrArg (· + 1) h.1, h.2, he⟩

theorem wait (h : (SyncPc.counted e).Counts rounds arrived returned) :
    (SyncPc.waiting e).Counts rounds arrived returned := by
  obtain ⟨harrived, hreturned, he⟩ := h
  exact ⟨by omega, by rw [hreturned, he], .inr harrived⟩

/-- The epoch is later than the one that the thread has read, so that its round is over. -/
theorem leave (h : (SyncPc.waiting e).Counts rounds arrived returned) (he : e < rounds % 2 ^ 64) :
    SyncPc.leaving.Counts rounds arrived returned := by
  obtain ⟨harrived, hread, hround⟩ := h
  rcases hround with hround | hround
  · exact ⟨hround, by omega⟩
  · have hreturned : returned = rounds := by omega
    rw [hread, hreturned] at he
    exact absurd he (lt_irrefl _)

/-- When every thread has counted down, the next round begins. -/
theorem reset (h : (SyncPc.counted e).Counts rounds arrived returned) :
    SyncPc.releasing.Counts (rounds + 1) arrived returned :=
  ⟨h.1, congrArg (· + 1) h.2.1⟩

theorem reset_other (h : q.Counts rounds arrived returned) (hq : ∀ e, q ≠ .counted e) (harrived : arrived = rounds + 1) :
    q.Counts (rounds + 1) arrived returned := by
  cases q <;> simp_all [SyncPc.Counts]

end SyncPc.Counts

namespace BarrierState

variable {N : ℕ}

/-- Every thread is in the round that the barrier is in, or has still to leave the one before. -/
structure Rounds (s : BarrierState N) : Prop where
  base : CondState.Inv s.newEpoch
  fits : ∀ t, (s.pc t).Fits (s.newEpoch.pc t)
  counts : ∀ t, (s.pc t).Counts s.rounds (s.arrived t) (s.returned t)
  entered : ∀ t, s.entered t = s.arrived t + if s.pc t = .entering then 1 else 0
  epoch : s.epoch = s.rounds % 2 ^ 64
  signals : s.newEpoch.cond.epoch = s.epoch
  sum : s.count + ∑ t, s.arrived t = N * (s.rounds + 1)
  zero : s.count = 0 → ∃ t e, s.pc t = .counted e
  fresh : s.newEpoch.Fresh

namespace Rounds

variable {s s' : BarrierState N} {t : Fin N} {q : SyncPc}

theorem new (hpos : 0 < N) : Rounds (.new N) := by
  constructor
  case base => exact .new
  case fits => exact fun _ => rfl
  case counts => exact fun _ => ⟨rfl, rfl⟩
  case entered => exact fun _ => rfl
  case epoch | signals => rfl
  case sum => simp [BarrierState.new]
  case zero =>
    intro hzero
    change N = 0 at hzero
    omega
  case fresh =>
    intro _ t e henq
    cases henq.1

theorem cond (h : Rounds s) (hcan : s.newEpoch.canStep t = true) :
    Rounds { s with newEpoch := s.newEpoch.stepThread t } := by
  constructor
  case base => exact h.base.stepThread hcan
  case fits =>
    intro u
    by_cases hu : u = t
    · rw [hu]
      exact (h.fits t).stepThread h.base
    · have hfits := h.fits u
      rcases CondState.stepThread_other h.base hu with hsame | ⟨⟨e, hasleep⟩, hrelock⟩
      · show (s.pc u).Fits ((s.newEpoch.stepThread t).pc u)
        rw [hsame]
        exact hfits
      · show (s.pc u).Fits ((s.newEpoch.stepThread t).pc u)
        rw [hasleep] at hfits
        rw [hrelock]
        exact hfits.relock
  case counts => exact h.counts
  case entered => exact h.entered
  case epoch => exact h.epoch
  case signals => exact CondState.stepThread_epoch.trans h.signals
  case sum => exact h.sum
  case zero => exact h.zero
  case fresh => exact h.fresh.stepThread h.base fun limit i hloop => (h.fits t).notifies_all hloop

/-- A step of `t` in the round that it is in. -/
theorem local_step (h : Rounds s) (hbase : CondState.Inv s'.newEpoch) (hpc : s'.pc = Function.update s.pc t q)
    (hothers : ∀ u, u ≠ t → s'.newEpoch.pc u = s.newEpoch.pc u ∧ s'.arrived u = s.arrived u ∧
      s'.returned u = s.returned u ∧ s'.entered u = s.entered u)
    (hfits : q.Fits (s'.newEpoch.pc t)) (hcounts : q.Counts s.rounds (s'.arrived t) (s'.returned t))
    (hentered : s'.entered t = s'.arrived t + if q = .entering then 1 else 0)
    (hround : s'.rounds = s.rounds ∧ s'.epoch = s.epoch ∧ s'.newEpoch.cond.epoch = s.newEpoch.cond.epoch)
    (hsum : s'.count + ∑ u, s'.arrived u = s.count + ∑ u, s.arrived u)
    (hzero : s'.count = 0 → (∃ e, q = .counted e) ∨ s.count = 0 ∧ ∀ e, s.pc t ≠ .counted e)
    (hquiet : (s.newEpoch.pc t).loop? = none) (hawake : (s'.newEpoch.pc t).enqueued = false) : Rounds s' := by
  obtain ⟨hrounds, hepoch, hsignals⟩ := hround
  have hself : s'.pc t = q := by rw [hpc, Function.update_self]
  have hpcs : ∀ u, u ≠ t → s'.pc u = s.pc u := by
    intro u hu
    rw [hpc, Function.update_of_ne hu]
  constructor
  case base => exact hbase
  case fits =>
    intro u
    by_cases hu : u = t
    · rw [hu, hself]
      exact hfits
    · rw [hpcs u hu, (hothers u hu).1]
      exact h.fits u
  case counts =>
    intro u
    rw [hrounds]
    by_cases hu : u = t
    · rw [hu, hself]
      exact hcounts
    · obtain ⟨-, harrived, hreturned, -⟩ := hothers u hu
      rw [hpcs u hu, harrived, hreturned]
      exact h.counts u
  case entered =>
    intro u
    by_cases hu : u = t
    · rw [hu, hself]
      exact hentered
    · obtain ⟨-, harrived, -, hent⟩ := hothers u hu
      rw [hpcs u hu, harrived, hent]
      exact h.entered u
  case epoch => rw [hepoch, hrounds, h.epoch]
  case signals => rw [hsignals, hepoch, h.signals]
  case sum => rw [hsum, hrounds, h.sum]
  case zero =>
    intro hcount
    rcases hzero hcount with ⟨e, he⟩ | ⟨hold, hnot⟩
    · exact ⟨t, e, hself.trans he⟩
    · obtain ⟨u, e, hu⟩ := h.zero hold
      have hut : u ≠ t := by
        intro hut
        rw [hut] at hu
        exact hnot e hu
      exact ⟨u, e, (hpcs u hut).trans hu⟩
  case fresh =>
    intro hloop u e henq
    have hut : u ≠ t := by
      intro hut
      rw [hut] at henq
      rw [henq.1] at hawake
      cases hawake
    rw [hsignals]
    refine h.fresh (fun v => ?_) u e ?_
    · by_cases hv : v = t
      · rw [hv]
        exact hquiet
      · rw [← (hothers v hv).1]
        exact hloop v
    · unfold CondState.Enqueued at henq ⊢
      rw [(hothers u hut).1] at henq
      exact henq

/-- The thread with the last count begins the next round. -/
theorem reset {e : ℕ} (hpos : 0 < N) (hN : N ≤ allLimit) (h : Rounds s) (ht : s.pc t = .counted e)
    (hin : s.newEpoch.pc t = .inside) (hcount : s.count = 0) :
    Rounds { s.setPc t .releasing with
      epoch := (s.epoch + 1) % 2 ^ 64
      count := N
      rounds := s.rounds + 1
      newEpoch := s.newEpoch.beginNotify t allLimit } := by
  have htaken : s.newEpoch.cond.taken = true := h.base.lock.taken_of_holds (t := t) (by rw [hin]; rfl)
  have hbegin : s.newEpoch.beginNotify t allLimit = { s.newEpoch.setPc t (.notifying allLimit 0) with
      cond := s.newEpoch.cond.nextEpoch
      notifies := s.newEpoch.notifies + 1
      current := ⟨allLimit, s.newEpoch.pc⟩ } := by
    rw [CondState.beginNotify, if_pos htaken]
  -- nobody is left to count down
  have harrived : ∀ u, s.arrived u = s.rounds + 1 := by
    have hle : ∀ u ∈ Finset.univ, s.arrived u ≤ s.rounds + 1 := fun u _ => (h.counts u).between.2.1
    have hsum : ∑ u, s.arrived u = ∑ _u : Fin N, (s.rounds + 1) := by
      rw [Finset.sum_const, Finset.card_univ, Fintype.card_fin, smul_eq_mul, ← h.sum, hcount, Nat.zero_add]
    intro u
    exact (Finset.sum_eq_sum_iff_of_le hle).mp hsum u (Finset.mem_univ u)
  constructor
  case base => exact h.base.beginNotify (by rw [Fintype.card_fin]; exact hN) hin
  case fits =>
    intro u
    show (Function.update s.pc t .releasing u).Fits ((s.newEpoch.beginNotify t allLimit).pc u)
    rw [hbegin]
    show (Function.update s.pc t .releasing u).Fits (Function.update s.newEpoch.pc t (.notifying allLimit 0) u)
    by_cases hu : u = t
    · rw [hu, Function.update_self, Function.update_self]
      exact .inr ⟨0, .inl rfl⟩
    · rw [Function.update_of_ne hu, Function.update_of_ne hu]
      exact h.fits u
  case counts =>
    intro u
    have hcounts := h.counts u
    show (Function.update s.pc t .releasing u).Counts (s.rounds + 1) (s.arrived u) (s.returned u)
    by_cases hu : u = t
    · rw [hu, Function.update_self]
      rw [hu, ht] at hcounts
      exact hcounts.reset
    · rw [Function.update_of_ne hu]
      refine hcounts.reset_other (fun e' hpc => hu ?_) (harrived u)
      -- two threads that have counted down would both hold the lock
      have hfits := h.fits u
      rw [hpc] at hfits
      exact h.base.lock.unique u t (by rw [hfits]; rfl) (by rw [hin]; rfl)
  case entered =>
    intro u
    have hentered := h.entered u
    show s.entered u = s.arrived u + if Function.update s.pc t .releasing u = .entering then 1 else 0
    by_cases hu : u = t
    · rw [hu, Function.update_self]
      rw [hu, ht] at hentered
      exact hentered
    · rw [Function.update_of_ne hu]
      exact hentered
  case epoch =>
    show (s.epoch + 1) % 2 ^ 64 = (s.rounds + 1) % 2 ^ 64
    rw [h.epoch, Nat.mod_add_mod]
  case signals =>
    show (s.newEpoch.beginNotify t allLimit).cond.epoch = (s.epoch + 1) % 2 ^ 64
    rw [hbegin, ← h.signals]
    rfl
  case sum =>
    show N + ∑ u, s.arrived u = N * (s.rounds + 1 + 1)
    have hsum := h.sum
    rw [hcount] at hsum
    rw [Nat.mul_succ, ← hsum]
    omega
  case zero =>
    intro hzero
    change N = 0 at hzero
    omega
  case fresh =>
    intro hloop
    have hself := hloop t
    change ((s.newEpoch.beginNotify t allLimit).pc t).loop? = none at hself
    rw [hbegin] at hself
    simp [CondState.setPc, CondPc.loop?] at hself

/-- The thread goes on in `sync`, and does nothing else. -/
theorem setPc (h : Rounds s) (hin : s.newEpoch.pc t = .inside) (hfits : q.Fits (.inside : CondPc (Fin N)))
    (hq : q ≠ .entering) (hs : s.pc t ≠ .entering) (hcount : s.count = 0 → ∀ e, s.pc t ≠ .counted e)
    (hcounts : q.Counts s.rounds (s.arrived t) (s.returned t)) : Rounds (s.setPc t q) := by
  have hentered := h.entered t
  rw [if_neg hs] at hentered
  apply h.local_step (t := t) (q := q)
  case hbase => exact h.base
  case hpc => rfl
  case hothers => exact fun u _ => ⟨rfl, rfl, rfl, rfl⟩
  case hfits =>
    show q.Fits (s.newEpoch.pc t)
    rw [hin]
    exact hfits
  case hcounts => exact hcounts
  case hentered =>
    rw [if_neg hq]
    exact hentered
  case hround => exact ⟨rfl, rfl, rfl⟩
  case hsum => rfl
  case hzero => exact fun hzero => .inr ⟨hzero, hcount hzero⟩
  case hquiet =>
    rw [hin]
    rfl
  case hawake =>
    show (s.newEpoch.pc t).enqueued = false
    rw [hin]
    rfl

theorem call (hN : N ≤ allLimit) (h : Rounds s) (ht : s.pc t = .idle) : Rounds (s.next (.call t)) := by
  have hout : s.newEpoch.pc t = .out := by
    have hfits := h.fits t
    rwa [ht] at hfits
  have hcounts := h.counts t
  have hentered := h.entered t
  rw [ht] at hcounts hentered
  apply h.local_step (t := t) (q := .entering)
  case hbase => exact h.base.next (by rw [Fintype.card_fin]; exact hN) (a := .lock t) (by simp [CondState.enabled, hout])
  case hpc => rfl
  case hothers => exact fun u hu => ⟨Function.update_of_ne hu .., rfl, rfl, Function.update_of_ne hu ..⟩
  case hfits => exact .inl (Function.update_self ..)
  case hcounts => exact hcounts
  case hentered =>
    show Function.update s.entered t (s.entered t + 1) t = s.arrived t + 1
    rw [Function.update_self, hentered]
    rfl
  case hround => exact ⟨rfl, rfl, rfl⟩
  case hsum => rfl
  case hzero => exact fun hzero => .inr ⟨hzero, by rw [ht]; simp⟩
  case hquiet =>
    rw [hout]
    rfl
  case hawake =>
    show (Function.update s.newEpoch.pc t .lockWait t).enqueued = false
    rw [Function.update_self]
    rfl

/-- The thread has seen that its round is not over, and calls `wait` in the epoch of the round. -/
theorem beginWait {e : ℕ} (h : Rounds s) (ht : s.pc t = .waiting e) (hin : s.newEpoch.pc t = .inside)
    (hepoch : s.epoch ≤ e) : Rounds { s with newEpoch := s.newEpoch.beginWait t } := by
  have htaken : s.newEpoch.cond.taken = true := h.base.lock.taken_of_holds (t := t) (by rw [hin]; rfl)
  have hbase := h.base.beginWait hin
  rw [CondState.beginWait, if_pos htaken] at hbase ⊢
  have hself : Function.update s.newEpoch.pc t (.waitBlock s.newEpoch.cond.epoch) t = .waitBlock s.newEpoch.cond.epoch :=
    Function.update_self ..
  apply h.local_step (t := t) (q := s.pc t)
  case hbase => exact hbase
  case hpc => exact (Function.update_eq_self ..).symm
  case hothers => exact fun u hu => ⟨Function.update_of_ne hu .., rfl, rfl, rfl⟩
  case hfits =>
    show (s.pc t).Fits (Function.update s.newEpoch.pc t (.waitBlock s.newEpoch.cond.epoch) t)
    rw [hself, ht, h.signals]
    exact .inr (.inr (.inr ⟨s.epoch, rfl, hepoch⟩))
  case hcounts => exact h.counts t
  case hentered => exact h.entered t
  case hround => exact ⟨rfl, rfl, rfl⟩
  case hsum => rfl
  case hzero => exact fun hzero => .inr ⟨hzero, by rw [ht]; simp⟩
  case hquiet =>
    rw [hin]
    rfl
  case hawake =>
    show (Function.update s.newEpoch.pc t (.waitBlock s.newEpoch.cond.epoch) t).enqueued = false
    rw [hself]
    rfl

theorem leave (h : Rounds s) (ht : s.pc t = .leaving) (hin : s.newEpoch.pc t = .inside) :
    Rounds { s.setPc t .idle with
      newEpoch := s.newEpoch.next (.unlock t)
      returned := Function.update s.returned t (s.returned t + 1) } := by
  have hcounts := h.counts t
  have hentered := h.entered t
  rw [ht] at hcounts hentered
  apply h.local_step (t := t) (q := .idle)
  case hbase => exact h.base.release (q := .out) hin rfl rfl rfl rfl rfl rfl
  case hpc => rfl
  case hothers => exact fun u hu => ⟨Function.update_of_ne hu .., rfl, Function.update_of_ne hu .., rfl⟩
  case hfits => exact Function.update_self ..
  case hcounts =>
    show SyncPc.idle.Counts s.rounds (s.arrived t) (Function.update s.returned t (s.returned t + 1) t)
    rw [Function.update_self]
    exact hcounts
  case hentered => exact hentered
  case hround => exact ⟨rfl, rfl, rfl⟩
  case hsum => rfl
  case hzero => exact fun hzero => .inr ⟨hzero, by rw [ht]; simp⟩
  case hquiet =>
    rw [hin]
    rfl
  case hawake =>
    show (Function.update s.newEpoch.pc t .out t).enqueued = false
    rw [Function.update_self]
    rfl

theorem stepSync (hpos : 0 < N) (hN : N ≤ allLimit) (h : Rounds s) (hin : s.newEpoch.pc t = .inside) :
    Rounds (s.stepSync t) := by
  have hcounts := h.counts t
  have hentered := h.entered t
  have hquiet : (s.newEpoch.pc t).loop? = none := by rw [hin]; rfl
  have hawake : (s.newEpoch.pc t).enqueued = false := by rw [hin]; rfl
  cases ht : s.pc t with
  | idle | failed => simpa only [BarrierState.stepSync, ht] using h
  | entering =>
    rw [ht] at hcounts hentered
    have hcount : s.count ≠ 0 := by
      intro hzero
      obtain ⟨u, e, hu⟩ := h.zero hzero
      have hfits := h.fits u
      rw [hu] at hfits
      have hut := h.base.lock.unique u t (by rw [hfits]; rfl) (by rw [hin]; rfl)
      rw [hut, ht] at hu
      cases hu
    have harrived : Function.update s.arrived t (s.arrived t + 1) t = s.arrived t + 1 := Function.update_self ..
    simp only [BarrierState.stepSync, ht, if_pos hcount]
    apply h.local_step (t := t) (q := .counted s.epoch)
    case hbase => exact h.base
    case hpc => rfl
    case hothers => exact fun u hu => ⟨rfl, Function.update_of_ne hu .., rfl, rfl⟩
    case hfits => exact hin
    case hcounts =>
      show (SyncPc.counted s.epoch).Counts s.rounds (Function.update s.arrived t (s.arrived t + 1) t) (s.returned t)
      rw [harrived]
      exact hcounts.count h.epoch
    case hentered =>
      show s.entered t = Function.update s.arrived t (s.arrived t + 1) t + 0
      rw [harrived]
      exact hentered
    case hround => exact ⟨rfl, rfl, rfl⟩
    case hsum =>
      show s.count - 1 + ∑ u, Function.update s.arrived t (s.arrived t + 1) u = s.count + ∑ u, s.arrived u
      have hrest := Finset.sum_erase_add Finset.univ s.arrived (Finset.mem_univ t)
      rw [Finset.sum_update_of_mem (Finset.mem_univ t), Finset.sdiff_singleton_eq_erase]
      omega
    case hzero => exact fun _ => .inl ⟨s.epoch, rfl⟩
    case hquiet => exact hquiet
    case hawake => exact hawake
  | counted e =>
    by_cases hcount : s.count = 0
    · simp only [BarrierState.stepSync, ht, if_pos hcount]
      exact h.reset hpos hN ht hin hcount
    · rw [ht] at hcounts
      simp only [BarrierState.stepSync, ht, if_neg hcount]
      exact h.setPc hin (.inl rfl) (by simp) (by rw [ht]; simp) (fun hzero => absurd hzero hcount) hcounts.wait
  | waiting e =>
    rw [ht] at hcounts
    by_cases hover : s.epoch ≤ e
    · simp only [BarrierState.stepSync, ht, if_pos hover]
      exact h.beginWait ht hin hover
    · have hlater : e < s.rounds % 2 ^ 64 := by
        rw [← h.epoch]
        omega
      simp only [BarrierState.stepSync, ht, if_neg hover]
      exact h.setPc hin rfl (by simp) (by rw [ht]; simp) (by rw [ht]; simp) (hcounts.leave hlater)
  | releasing =>
    rw [ht] at hcounts
    simp only [BarrierState.stepSync, ht]
    exact h.setPc hin rfl (by simp) (by rw [ht]; simp) (by rw [ht]; simp) hcounts
  | leaving =>
    simp only [BarrierState.stepSync, ht]
    exact h.leave ht hin

theorem next (hpos : 0 < N) (hN : N ≤ allLimit) (h : Rounds s) {a : BarrierAct N} (he : s.enabled a) :
    Rounds (s.next a) := by
  cases a with
  | call t => exact h.call hN he
  | cond t => exact h.cond he
  | sync t =>
    have hin : s.newEpoch.pc t = .inside := by
      cases hpc : s.newEpoch.pc t <;> simp [BarrierState.enabled, hpc] at he ⊢
    exact h.stepSync hpos hN hin

theorem reachable (hpos : 0 < N) (hN : N ≤ allLimit) (h : (barrierMachine N).Reachable s) : Rounds s := by
  apply h.invariant
  · intro s hs
    change s = .new N at hs
    rw [hs]
    exact .new hpos
  · intro s a hi he
    exact hi.next hpos hN he

theorem not_failed (h : Rounds s) (t : Fin N) : s.pc t ≠ .failed := by
  intro ht
  have hcounts := h.counts t
  rw [ht] at hcounts
  exact hcounts

theorem count_le (h : Rounds s) : s.count ≤ N := by
  have hle : ∑ _u : Fin N, s.rounds ≤ ∑ u, s.arrived u := Finset.sum_le_sum fun u _ => (h.counts u).between.1
  rw [Finset.sum_const, Finset.card_univ, Fintype.card_fin, smul_eq_mul] at hle
  have hsum := h.sum
  rw [Nat.mul_succ] at hsum
  omega

theorem count_ne_zero (h : Rounds s) (hfree : s.newEpoch.cond.taken = false) : s.count ≠ 0 := by
  intro hzero
  obtain ⟨t, e, ht⟩ := h.zero hzero
  have hfits := h.fits t
  rw [ht] at hfits
  exact h.base.lock.free hfree t (by rw [hfits]; rfl)

theorem waits_of_queue (h : Rounds s) (hfree : s.newEpoch.cond.taken = false) (ht : t ∈ s.newEpoch.cond.queue) :
    ∃ e, s.pc t = .waiting e ∧ s.epoch ≤ e := by
  have henq : (s.newEpoch.pc t).enqueued = true := h.base.queue.waits_of_mem ht
  have hwait : ∃ e, (s.newEpoch.pc t).wait? = some e := by
    cases hpc : s.newEpoch.pc t <;> simp [hpc, CondPc.enqueued, CondPc.wait?] at henq ⊢
  obtain ⟨e, hwait⟩ := hwait
  have hloop : ∀ u, (s.newEpoch.pc u).loop? = none := by
    intro u
    cases hu : (s.newEpoch.pc u).loop? with
    | none => rfl
    | some x => exact absurd (CondPc.holds_of_loop hu) (h.base.lock.free hfree u)
  have he := h.fresh hloop t e ⟨henq, hwait⟩
  obtain ⟨e', hpc, hle⟩ := (h.fits t).waiting_of_enqueued hwait
  rw [he, h.signals] at hle
  exact ⟨e', hpc, hle⟩

end Rounds

/-- Nobody has returned from its `k`-th call of `sync` before everybody has begun its own and counted down in it; the
count is never 0 when a thread comes to count down; and while the lock is free, the count is in its range and every
thread in the queue waits for a round that is not over. -/
theorem rounds_separate (N : ℕ) (hpos : 0 < N) (hN : N < 2 ^ 32) (s : BarrierState N)
    (h : (barrierMachine N).Reachable s) :
    (∀ k t u, k ≤ s.returned t → k ≤ s.arrived u ∧ k ≤ s.entered u) ∧
    (∀ t, s.pc t ≠ .failed) ∧
    (s.newEpoch.cond.taken = false → 1 ≤ s.count ∧ s.count ≤ N) ∧
    (s.newEpoch.cond.taken = false → ∀ t ∈ s.newEpoch.cond.queue, ∃ e, s.pc t = .waiting e ∧ ¬ s.epoch > e) := by
  have hrounds : Rounds s := Rounds.reachable hpos (by rw [allLimit]; omega) h
  refine ⟨?_, hrounds.not_failed, ?_, ?_⟩
  · intro k t u hk
    have hreturned := (hrounds.counts t).between.2.2
    have harrived := (hrounds.counts u).between.1
    have hentered := hrounds.entered u
    omega
  · intro hfree
    have hne := hrounds.count_ne_zero hfree
    have hle := hrounds.count_le
    omega
  · intro hfree t ht
    obtain ⟨e, hpc, hle⟩ := hrounds.waits_of_queue hfree ht
    exact ⟨e, hpc, by omega⟩

/-- Thread 0 waits, thread 1 ends the round, and is back in the queue before thread 0 has taken the lock again. -/
def overtake : List (BarrierAct 2) :=
  [.call 0, .cond 0, .sync 0, .sync 0, .sync 0, .cond 0, .cond 0, .cond 0,
    .call 1, .cond 1, .sync 1, .sync 1, .cond 1, .cond 1, .cond 1, .sync 1, .sync 1,
    .call 1, .cond 1, .sync 1, .sync 1, .sync 1, .cond 1, .cond 1, .cond 1]

theorem overtake_separate : ∃ s, (barrierMachine 2).Reachable s ∧ (s.returned 0 = 0 ∧ s.returned 1 = 1) ∧
    (1 ≤ s.arrived 0 ∧ 1 ≤ s.entered 0) ∧ (1 ≤ s.count ∧ s.count ≤ 2) ∧ ∃ e, s.pc 1 = .waiting e ∧ ¬ s.epoch > e := by
  have hrun : ∃ s, (barrierMachine 2).Run (.new 2) overtake s ∧
      decide ((s.returned 0 = 0 ∧ s.returned 1 = 1) ∧ s.newEpoch.cond.taken = false ∧
        s.newEpoch.cond.queue = [1]) = true :=
    Machine.exists_run_of_replay (by decide +kernel)
  obtain ⟨s, hs, hcheck⟩ := hrun
  obtain ⟨hreturned, hfree, hqueue⟩ := of_decide_eq_true hcheck
  have hreach := hs.reachable (.init rfl)
  obtain ⟨hseparate, -, hcount, hwaits⟩ := rounds_separate 2 (by omega) (by omega) s hreach
  refine ⟨s, hreach, hreturned, hseparate 1 1 0 hreturned.2.ge, hcount hfree, hwaits hfree 1 ?_⟩
  rw [hqueue]
  exact List.mem_singleton_self 1

end BarrierState
end AudioKernel
