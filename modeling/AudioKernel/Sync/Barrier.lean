import AudioKernel.Sync.AtomicCalls

/-! `Barrier::sync`, by each of the threads that the barrier has been made for. -/
namespace AudioKernel
open Lib

variable {T : Type}

/-- Where a thread is in its call of `sync`. It is `asleep` in `down`. -/
inductive BarrierPc
  | entering
  | down
  | asleep
  | up
  | returned
  | panicked
  deriving DecidableEq

namespace BarrierPc

def asleep? : BarrierPc → Option Unit
  | asleep => some ()
  | _ => none

/-- The permit that a thread is about to pass on. -/
def permits (_ : Unit) : BarrierPc → ℕ
  | up => 1
  | _ => 0

/-- Whether the thread has its decrement still before it. -/
def absent : BarrierPc → ℕ
  | entering => 1
  | _ => 0

theorem absent_eq_zero {p : BarrierPc} : p.absent = 0 ↔ p ≠ .entering := by
  cases p <;> simp [absent]

theorem permits_ne_zero {p : BarrierPc} : p.permits () ≠ 0 ↔ p = .up := by
  cases p <;> simp [permits]

end BarrierPc

def int32 (x : ℤ) : ℤ := x.bmod (2 ^ 32)

theorem int32_eq {x : ℤ} (hlo : -2 ^ 31 ≤ x) (hhi : x < 2 ^ 31) : int32 x = x := by
  unfold int32
  exact Int.bmod_eq_of_le (by omega) (by omega)

/-- A barrier, whose `count` is an `int32_t`, with its semaphore and the threads that use it. -/
structure Barrier (T : Type) where
  count : ℤ
  sem : SemProgram Unit T BarrierPc

namespace Barrier

variable [DecidableEq T] (s : Barrier T)

/-- The next step of `sync`; the thread that `up` hands the permit to returns from its `down`. -/
def stepThread (me : T) : Barrier T :=
  match s.sem.pc me with
  | .entering =>
    let x := int32 (s.count - 1)
    { count := x, sem := s.sem.setPc me (if x < 0 then .panicked else if x = 0 then .up else .down) }
  | .down => { s with sem := s.sem.down () me .up .asleep }
  | .up => { s with sem := s.sem.up () me .returned fun _ => .up }
  | .asleep | .returned | .panicked => s

def canStep (me : T) : Bool :=
  match s.sem.pc me with
  | .entering | .down | .up => true
  | .asleep | .returned | .panicked => false

end Barrier

def Barrier.new (N : ℕ) : Barrier T where
  count := int32 N
  sem := ⟨fun _ => ⟨0, false, []⟩, fun _ => .entering⟩

/-- The runs of a barrier that has been made for the threads of `T`. -/
def barrierCalls (T : Type) [DecidableEq T] [Fintype T] : Machine (Barrier T) T where
  init s := s = .new (Fintype.card T)
  enabled s me := s.canStep me = true
  next := Barrier.stepThread

instance [DecidableEq T] [Fintype T] (s : Barrier T) (me : T) : Decidable ((barrierCalls T).enabled s me) :=
  inferInstanceAs (Decidable (_ = true))

namespace Barrier

/-- There is a permit from the last decrement on, which the threads pass on. -/
structure Inv [Fintype T] (s : Barrier T) : Prop where
  queued : s.sem.Queued BarrierPc.asleep?
  count : s.count = ((∑ t, (s.sem.pc t).absent : ℕ) : ℤ)
  permits : s.sem.total BarrierPc.permits () = if ∑ t, (s.sem.pc t).absent = 0 then 1 else 0
  returned : ∀ t, s.sem.pc t = .returned → ∑ t, (s.sem.pc t).absent = 0
  waiting : 0 < (s.sem.sem ()).count → (s.sem.sem ()).waiting = []
  unpanicked : ∀ t, s.sem.pc t ≠ .panicked

namespace Inv

variable [Fintype T] {s s' : Barrier T} {me : T}

theorem new (hpos : 1 ≤ Fintype.card T) (hlt : Fintype.card T < 2 ^ 31) :
    Inv (Barrier.new (Fintype.card T) : Barrier T) := by
  have hsum : ∑ t : T, ((Barrier.new (Fintype.card T) : Barrier T).sem.pc t).absent = Fintype.card T := by
    simp [Barrier.new, BarrierPc.absent]
  constructor
  case queued => exact ⟨fun _ => List.nodup_nil, fun _ _ => by simp [Barrier.new, BarrierPc.asleep?]⟩
  case count =>
    have hcount : int32 (Fintype.card T) = Fintype.card T := int32_eq (by omega) (by omega)
    simp only [hsum]
    simp only [Barrier.new]
    exact hcount
  case permits =>
    rw [hsum, if_neg (by omega)]
    simp [Barrier.new, SemProgram.total, BarrierPc.permits]
  case returned => simp [Barrier.new]
  case waiting => simp [Barrier.new]
  case unpanicked => simp [Barrier.new]

/-- A permit is there once all threads have arrived, and only then. -/
theorem all_arrived (h : Inv s) (hup : s.sem.pc me = .up) : ∑ t, (s.sem.pc t).absent = 0 := by
  have hle := SemProgram.le_total (s := s.sem) (w := BarrierPc.permits) (j := ()) (t := me)
  rw [hup, h.permits] at hle
  by_contra hne
  rw [if_neg hne] at hle
  exact absurd hle (by decide)

theorem count_le (h : Inv s) : (s.sem.sem ()).count ≤ 1 := by
  have htotal := h.permits
  unfold SemProgram.total at htotal
  split_ifs at htotal <;> omega

variable [DecidableEq T]

theorem entering (h : Inv s) (hlt : Fintype.card T < 2 ^ 31) (ht : s.sem.pc me = .entering) : Inv (s.stepThread me) := by
  have hcard : ∑ t, (s.sem.pc t).absent ≤ Fintype.card T := sum_le_card fun p => by cases p <;> simp [BarrierPc.absent]
  have hone : 1 ≤ ∑ t, (s.sem.pc t).absent := by
    have hle : (s.sem.pc me).absent ≤ ∑ t, (s.sem.pc t).absent := le_sum
    rw [ht] at hle
    exact hle
  -- the value that the thread gets is how many are still missing
  have hx : int32 (s.count - 1) = ((∑ t, (s.sem.pc t).absent - 1 : ℕ) : ℤ) := by
    rw [h.count, int32_eq (by omega) (by omega)]
    omega
  have hnone : s.sem.total BarrierPc.permits () = 0 := by rw [h.permits, if_neg (by omega)]
  obtain ⟨q, hq, hstep⟩ : ∃ q, q = (if ∑ t, (s.sem.pc t).absent = 1 then BarrierPc.up else .down) ∧
      s.stepThread me = ⟨((∑ t, (s.sem.pc t).absent - 1 : ℕ) : ℤ), s.sem.setPc me q⟩ := by
    refine ⟨_, rfl, ?_⟩
    simp only [stepThread, ht, hx]
    rw [if_neg (by omega)]
    congr 2
    split_ifs <;> first | rfl | omega
  have hawake : q.asleep? = none ∧ q.absent = 0 ∧ q ≠ .panicked ∧ q ≠ .returned := by
    rw [hq]
    split_ifs <;> simp [BarrierPc.asleep?, BarrierPc.absent]
  have hsum := sum_update BarrierPc.absent s.sem.pc me q
  rw [ht, hawake.2.1] at hsum
  have hsum : ∑ t, (Function.update s.sem.pc me q t).absent + 1 = ∑ t, (s.sem.pc t).absent := hsum
  rw [hstep]
  constructor
  case queued => exact h.queued.setPc (by rw [ht]; rfl) hawake.1
  case count =>
    show ((∑ t, (s.sem.pc t).absent - 1 : ℕ) : ℤ) = ((∑ t, (Function.update s.sem.pc me q t).absent : ℕ) : ℤ)
    omega
  case permits =>
    have htotal := SemProgram.total_setPc (s := s.sem) (w := BarrierPc.permits) (j := ()) (t := me) (q := q)
    rw [ht, hnone] at htotal
    have htotal : (s.sem.setPc me q).total BarrierPc.permits () = q.permits () := by
      rw [zero_add] at htotal
      exact htotal
    show (s.sem.setPc me q).total BarrierPc.permits () =
      if ∑ t, (Function.update s.sem.pc me q t).absent = 0 then 1 else 0
    rw [htotal]
    by_cases hlast : ∑ t, (s.sem.pc t).absent = 1
    · rw [if_pos (by omega), hq, if_pos hlast]
      rfl
    · rw [if_neg (by omega), hq, if_neg hlast]
      rfl
  case returned =>
    intro u hu
    have hu : Function.update s.sem.pc me q u = .returned := hu
    by_cases hum : u = me
    · rw [hum, Function.update_self] at hu
      exact absurd hu hawake.2.2.2
    · rw [Function.update_of_ne hum] at hu
      exact absurd (h.returned u hu) (by omega)
  case waiting => exact h.waiting
  case unpanicked =>
    intro u
    show Function.update s.sem.pc me q u ≠ .panicked
    by_cases hum : u = me
    · rw [hum, Function.update_self]
      exact hawake.2.2.1
    · rw [Function.update_of_ne hum]
      exact h.unpanicked u

/-- A call on the semaphore, which passes a permit on or waits for one. -/
theorem of_call (h : Inv s) (me : T) (q : BarrierPc) (ht : s.sem.pc me ≠ .entering) (hcount : s'.count = s.count)
    (hqueued : s'.sem.Queued BarrierPc.asleep?)
    (htotal : s'.sem.total BarrierPc.permits () = s.sem.total BarrierPc.permits ()) (hself : s'.sem.pc me = q)
    (hothers : ∀ u, u ≠ me → s'.sem.pc u = s.sem.pc u ∨ s.sem.pc u = .asleep ∧ s'.sem.pc u = .up)
    (hq : q ≠ .entering ∧ q ≠ .panicked) (hreturned : q = .returned → ∑ t, (s.sem.pc t).absent = 0)
    (hwaiting : 0 < (s'.sem.sem ()).count → (s'.sem.sem ()).waiting = []) : Inv s' := by
  have hsame : ∑ t, (s'.sem.pc t).absent = ∑ t, (s.sem.pc t).absent := by
    refine Finset.sum_congr rfl fun u _ => ?_
    by_cases hum : u = me
    · rw [hum, hself, BarrierPc.absent_eq_zero.mpr hq.1, BarrierPc.absent_eq_zero.mpr ht]
    · rcases hothers u hum with hu | ⟨hasleep, hup⟩
      · rw [hu]
      · rw [hasleep, hup]
        rfl
  constructor
  case queued => exact hqueued
  case count => rw [hcount, hsame, h.count]
  case permits => rw [htotal, hsame, h.permits]
  case returned =>
    intro u hu
    rw [hsame]
    by_cases hum : u = me
    · rw [hum, hself] at hu
      exact hreturned hu
    · rcases hothers u hum with hsame' | ⟨-, hup⟩
      · rw [hsame'] at hu
        exact h.returned u hu
      · rw [hup] at hu
        cases hu
  case waiting => exact hwaiting
  case unpanicked =>
    intro u
    by_cases hum : u = me
    · rw [hum, hself]
      exact hq.2
    · rcases hothers u hum with hsame' | ⟨-, hup⟩
      · rw [hsame']
        exact h.unpanicked u
      · rw [hup]
        exact BarrierPc.noConfusion

theorem down (h : Inv s) (ht : s.sem.pc me = .down) : Inv (s.stepThread me) := by
  have hawake : (s.sem.pc me).asleep? = none := by rw [ht]; rfl
  have hstep : s.stepThread me = { s with sem := s.sem.down () me .up .asleep } := by simp only [stepThread, ht]
  have hself := SemProgram.down_self s.sem () me .up .asleep
  rw [hstep]
  apply h.of_call me ((s.sem.down () me .up .asleep).pc me)
  case ht => rw [ht]; exact BarrierPc.noConfusion
  case hcount => rfl
  case hqueued => exact h.queued.down hawake rfl rfl
  case htotal =>
    apply SemProgram.total_down
    · intro j
      rw [ht]
      rfl
    · intro j
      rw [ht]
      rfl
  case hself => rfl
  case hothers => exact fun u hu => .inl (SemProgram.down_other hu)
  case hq => rcases hself with ⟨-, hpc⟩ | ⟨-, hpc⟩ <;> rw [hpc] <;> simp
  case hreturned => rcases hself with ⟨-, hpc⟩ | ⟨-, hpc⟩ <;> rw [hpc] <;> simp
  case hwaiting =>
    rcases SemProgram.down_cases s.sem () me .up .asleep with ⟨x, hx, hdown⟩ | ⟨-, hdown⟩
    · have hsome := Semaphore.tryDown_some hx
      rw [hdown]
      intro hpos
      show x.waiting = []
      rw [hsome.2.1]
      exact h.waiting (by omega)
    · -- it waits because the count is 0
      intro hpos
      rcases hself with ⟨-, hpc⟩ | ⟨hzero, -⟩
      · rw [hdown] at hpc
        have hpc : Function.update s.sem.pc me BarrierPc.asleep me = .up := hpc
        rw [Function.update_self] at hpc
        cases hpc
      · rw [hdown] at hpos
        have hpos : 0 < (s.sem.sem ()).count := hpos
        omega

theorem up (h : Inv s) (ht : s.sem.pc me = .up) : Inv (s.stepThread me) := by
  have hawake : (s.sem.pc me).asleep? = none := by rw [ht]; rfl
  have hstep : s.stepThread me = { s with sem := s.sem.up () me .returned fun _ => .up } := by
    simp only [stepThread, ht]
  have hasleep : ∀ p : BarrierPc, p.asleep? = some () → p = .asleep := by
    intro p hp
    cases p <;> first | rfl | cases hp
  rw [hstep]
  apply h.of_call me .returned
  case ht => rw [ht]; exact BarrierPc.noConfusion
  case hcount => rfl
  case hqueued =>
    show (s.sem.up () me .returned fun _ => .up).Queued BarrierPc.asleep?
    exact h.queued.up hawake rfl fun _ _ => rfl
  case htotal =>
    apply SemProgram.total_up h.queued hawake
    · intro j
      rw [ht]
      rfl
    · intro p hp j
      rw [hasleep p hp]
      rfl
    · have hle := h.count_le
      omega
  case hself => exact h.queued.up_self hawake
  case hothers =>
    intro u hu
    rcases h.queued.up_other (fun _ => .up) hu with hsame | ⟨hp, hwoken⟩
    · exact .inl hsame
    · exact .inr ⟨hasleep _ hp, hwoken⟩
  case hq => simp
  case hreturned => exact fun _ => h.all_arrived ht
  case hwaiting =>
    rcases SemProgram.up_cases s.sem () me .returned (fun _ => .up) with ⟨hnil, hup⟩ | ⟨u, rest, hw, hup⟩
    · rw [hup]
      exact fun _ => hnil
    · -- a permit that has been handed over is not counted
      rw [hup]
      intro hpos
      have hempty := h.waiting hpos
      rw [hw] at hempty
      cases hempty

theorem stepThread (h : Inv s) (hlt : Fintype.card T < 2 ^ 31) (me : T) : Inv (s.stepThread me) := by
  cases ht : s.sem.pc me with
  | entering => exact h.entering hlt ht
  | down => exact h.down ht
  | up => exact h.up ht
  | asleep | returned | panicked =>
    simp only [Barrier.stepThread, ht]
    exact h

theorem reachable (hpos : 1 ≤ Fintype.card T) (hlt : Fintype.card T < 2 ^ 31) (h : (barrierCalls T).Reachable s) :
    Inv s := by
  refine h.invariant ?_ ?_
  · intro s hs
    have hs : s = .new (Fintype.card T) := hs
    rw [hs]
    exact .new hpos hlt
  · exact fun s me hi _ => hi.stepThread hlt me

end Inv

/-- A state in which no thread can go on: all calls have returned. -/
theorem Inv.all_return [Fintype T] {s : Barrier T} (h : Inv s) (hstuck : ∀ t, s.canStep t = false) (t : T) :
    s.sem.pc t = .returned := by
  have hat : ∀ u, s.sem.pc u = .returned ∨ s.sem.pc u = .asleep := by
    intro u
    have hcan := hstuck u
    have hfine := h.unpanicked u
    cases hu : s.sem.pc u <;> simp [canStep, hu] at hcan hfine ⊢
  have harrived : ∑ u, (s.sem.pc u).absent = 0 := by
    refine Finset.sum_eq_zero fun u _ => ?_
    rcases hat u with hu | hu <;> rw [hu] <;> rfl
  have hunheld : ∑ u, (s.sem.pc u).permits () = 0 := by
    refine Finset.sum_eq_zero fun u _ => ?_
    rcases hat u with hu | hu <;> rw [hu] <;> rfl
  -- the permit is in the count, so nobody waits for it
  have hcount : (s.sem.sem ()).count = 1 := by
    have hpermits := h.permits
    rw [if_pos harrived] at hpermits
    unfold SemProgram.total at hpermits
    omega
  have hnobody := h.waiting (by omega)
  rcases hat t with ht | ht
  · exact ht
  · have hmem := (h.queued.mem_iff () t).mpr (by rw [ht]; rfl)
    rw [hnobody] at hmem
    cases hmem

/-- No call returns before the last decrement, and from then on there is a permit that wakes whoever waits, until all
calls have returned. -/
theorem opens_when_full (N : ℕ) (hN : 1 ≤ N) (threads : Finset TcbPtr) (hthreads : threads.card = N)
    (s : Barrier threads) (h : (barrierCalls threads).Reachable s) :
    ((∃ t, s.sem.pc t = .returned) → ∀ u, s.sem.pc u ≠ .entering) ∧ (∀ t, s.sem.pc t ≠ .panicked) ∧
      ((∀ u, s.sem.pc u ≠ .entering) → ∀ t ∈ (s.sem.sem ()).waiting, (s.sem.sem ()).count = 0 →
        ∃ u, u ≠ t ∧ s.sem.pc u = .up) ∧
      ((∀ t, s.canStep t = false) → ∀ t, s.sem.pc t = .returned) := by
  have hcard : Fintype.card threads = N := by rw [Fintype.card_coe, hthreads]
  have hlt : N < 2 ^ 31 := by
    have hle := Finset.card_le_univ threads
    rw [Fintype.card_fin] at hle
    omega
  have hinv := Inv.reachable (by omega) (by omega) h
  have harrived : ∑ t, (s.sem.pc t).absent = 0 ↔ ∀ u, s.sem.pc u ≠ .entering := by
    simp [Finset.sum_eq_zero_iff, BarrierPc.absent_eq_zero]
  refine ⟨?_, hinv.unpanicked, ?_, hinv.all_return⟩
  · rintro ⟨t, ht⟩
    exact harrived.mp (hinv.returned t ht)
  · intro hall t ht hcount
    have hpermits := hinv.permits
    rw [if_pos (harrived.mpr hall)] at hpermits
    unfold SemProgram.total at hpermits
    have hsum : ∑ u, (s.sem.pc u).permits () ≠ 0 := by omega
    obtain ⟨u, hu⟩ := exists_of_sum_ne_zero hsum
    have hup := BarrierPc.permits_ne_zero.mp hu
    refine ⟨u, ?_, hup⟩
    -- one who waits is asleep
    intro hut
    have hasleep := (hinv.queued.mem_iff () t).mp ht
    rw [← hut, hup] at hasleep
    cases hasleep

/-- Of two threads the first one waits, and the second one is about to let it go. -/
theorem two_threads_open : ∃ s : Barrier ({0, 1} : Finset TcbPtr),
    ((∀ u, s.sem.pc u ≠ .entering) ∧ (s.sem.sem ()).waiting = [⟨0, by decide⟩] ∧ (s.sem.sem ()).count = 0) ∧
      ∃ u, u ≠ ⟨0, by decide⟩ ∧ s.sem.pc u = .up := by
  have hrun : ∃ s, (barrierCalls ({0, 1} : Finset TcbPtr)).Run (.new 2)
      [⟨0, by decide⟩, ⟨0, by decide⟩, ⟨1, by decide⟩] s ∧
      decide ((∀ u, s.sem.pc u ≠ .entering) ∧ (s.sem.sem ()).waiting = [⟨0, by decide⟩] ∧
        (s.sem.sem ()).count = 0) = true :=
    Machine.exists_run_of_replay (by decide)
  obtain ⟨s, hrun, hs⟩ := hrun
  have hs := of_decide_eq_true hs
  have hreach := hrun.reachable (.init rfl)
  refine ⟨s, hs, (opens_when_full 2 (by decide) {0, 1} rfl s hreach).2.2.1 hs.1 _ ?_ hs.2.2⟩
  rw [hs.2.1]
  exact List.mem_singleton_self _

end Barrier
end AudioKernel
