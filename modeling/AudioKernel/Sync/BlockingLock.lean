import AudioKernel.Sync.Permits

/-! What holds of a semaphore in every run, and the mutual exclusion of `BlockingLock`, which is a semaphore with one
permit. -/
namespace AudioKernel
open Lib

variable {T : Type} [DecidableEq T]

namespace SemState

/-- Permits are conserved, up to the width of the count; no permit is left while a thread waits; every wait is handed
at most one permit, in the order of the queue, and is scheduled once for it. -/
structure Conserved (n : ℕ) (s : SemState T) : Prop where
  permits_mod : (s.sem.count + s.downs) % 2 ^ 64 = (n + s.ups) % 2 ^ 64
  permits : n + s.ups < 2 ^ 64 → s.sem.count + s.downs = n + s.ups
  no_lost_wakeup : s.sem.taken = false → 0 < s.sem.count → s.sem.waiting = []
  waits_iff : ∀ t, (s.pc t).waits = true ↔ t ∈ s.sem.waiting ∨ s.InHands t
  queued_or_handed : ∀ t, t ∈ s.sem.waiting → ¬ s.InHands t
  one_hand : ∀ u v t, (s.pc u).hands? = some t → (s.pc v).hands? = some t → u = v
  in_order : s.enqueued = s.handed ++ s.sem.waiting
  queued : ∀ t, t ∈ s.sem.waiting → s.enqueued.count t = s.handed.count t + 1
  handed : ∀ t, t ∉ s.sem.waiting → s.enqueued.count t = s.handed.count t
  in_hands : ∀ t, s.InHands t → s.handed.count t = s.scheduled.count t + 1
  scheduled : ∀ t, ¬ s.InHands t → s.handed.count t = s.scheduled.count t

variable {n : ℕ} {s : SemState T} {t : T}

theorem Inv.conserved (h : Inv n s) : Conserved n s := by
  constructor
  case permits_mod => exact h.permits_mod
  case permits => exact h.permits
  case no_lost_wakeup => exact fun _ => h.empty
  case waits_iff =>
    intro t
    constructor
    · exact h.queue.mem_or_hands
    · intro ht
      rcases ht with ht | ⟨u, hu⟩
      · exact h.queue.waits_of_mem ht
      · exact h.queue.waits_of_hands hu
  case queued_or_handed =>
    intro t ht ⟨u, hu⟩
    exact h.queue.not_hands ht u hu
  case one_hand => exact fun u v t hu hv => h.queue.hands_unique hu hv
  case in_order => exact h.fifo
  case queued =>
    intro t ht
    have hone : s.sem.waiting.count t = 1 := List.count_eq_one_of_mem h.queue.nodup ht
    rw [h.fifo, List.count_append, hone]
  case handed =>
    intro t ht
    rw [h.fifo, List.count_append, List.count_eq_zero_of_not_mem ht, Nat.add_zero]
  case in_hands => exact h.in_hands
  case scheduled => exact h.settled

theorem reachable_inv (h : (semMachine T n).Reachable s) : Inv n s := by
  apply h.invariant
  · intro s hs
    change s = .new n at hs
    rw [hs]
    exact .new n
  · intro s a hi he
    exact hi.next he

/-- Only a thread that has got a permit gives one back: `unlock` is called by the thread that holds the lock. -/
def Disciplined (s : SemState T) : SemAct T → Prop
  | .up t => t ∈ s.owners
  | _ => True

/-- The permits are with their owners, and a thread that is about to give one back has one. -/
structure Owned (n : ℕ) (s : SemState T) : Prop where
  owners : s.sem.count + s.owners.length = n
  giving : ∀ t, s.pc t = .upLock ∨ s.pc t = .upTake → t ∈ s.owners

namespace Owned

theorem setPc {s' : SemState T} {pc : SemPc T} (h : Owned n s) (hpc : s'.pc = Function.update s.pc t pc)
    (hsum : s'.sem.count + s'.owners.length = s.sem.count + s.owners.length)
    (hkeep : ∀ u, u ≠ t → u ∈ s.owners → u ∈ s'.owners) (ht : pc = .upLock ∨ pc = .upTake → t ∈ s'.owners) :
    Owned n s' := by
  constructor
  · rw [hsum]
    exact h.owners
  · intro u hu
    rw [hpc] at hu
    by_cases hut : u = t
    · rw [hut, Function.update_self] at hu
      rw [hut]
      exact ht hu
    · rw [Function.update_of_ne hut] at hu
      exact hkeep u hut (h.giving u hu)

theorem stepThread (hn : n < 2 ^ 64) (h : Owned n s) : Owned n (s.stepThread t) := by
  have hquiet : ∀ pc : SemPc T, pc ≠ .upLock → pc ≠ .upTake → ∀ s' : SemState T,
      s'.pc = Function.update s.pc t pc → s'.sem.count = s.sem.count → s'.owners = s.owners → Owned n s' := by
    intro pc hpc hpc' s' hpcs hcount howners
    apply h.setPc hpcs
    · rw [hcount, howners]
    · intro u _ hu
      rw [howners]
      exact hu
    · intro hu
      rcases hu with hu | hu
      · exact absurd hu hpc
      · exact absurd hu hpc'
  cases ht : s.pc t with
  | out | asleep =>
    simp only [SemState.stepThread, ht]
    exact h
  | downLock =>
    simp only [SemState.stepThread, ht]
    exact hquiet .downTest (by simp) (by simp) _ rfl rfl rfl
  | downUnlock =>
    simp only [SemState.stepThread, ht]
    exact hquiet .out (by simp) (by simp) _ rfl rfl rfl
  | downBlock =>
    simp only [SemState.stepThread, ht]
    exact hquiet .downRelease (by simp) (by simp) _ rfl rfl rfl
  | downRelease =>
    simp only [SemState.stepThread, ht]
    exact hquiet .asleep (by simp) (by simp) _ rfl rfl rfl
  | downTest =>
    by_cases hc : s.sem.count > 0
    · have htry : s.sem.tryDown = some { s.sem with count := s.sem.count - 1 } := if_pos hc
      simp only [SemState.stepThread, ht, htry]
      apply h.setPc rfl
      · change s.sem.count - 1 + (t :: s.owners).length = _
        rw [List.length_cons]
        omega
      · exact fun u _ hu => List.mem_cons_of_mem _ hu
      · exact fun _ => List.mem_cons_self
    · have htry : s.sem.tryDown = none := if_neg hc
      simp only [SemState.stepThread, ht, htry]
      exact hquiet .downBlock (by simp) (by simp) _ rfl rfl rfl
  | upLock =>
    simp only [SemState.stepThread, ht]
    apply h.setPc (t := t)
    case hpc | hsum => rfl
    case hkeep => exact fun u _ hu => hu
    case ht => exact fun _ => h.giving t (.inl ht)
  | upTake =>
    have hmem := h.giving t (.inr ht)
    have hlen := List.length_erase_of_mem hmem
    have hpos := List.length_pos_of_mem hmem
    have hsum := h.owners
    cases hw : s.sem.waiting with
    | nil =>
      simp only [SemState.stepThread, ht, Semaphore.handOver_nil hw]
      apply h.setPc rfl
      · change (s.sem.count + 1) % 2 ^ 64 + (s.owners.erase t).length = _
        rw [hlen, Nat.mod_eq_of_lt (by omega)]
        omega
      · exact fun u hut hu => (List.mem_erase_of_ne hut).mpr hu
      · exact fun hu => by rcases hu with hu | hu <;> cases hu
    | cons x rest =>
      simp only [SemState.stepThread, ht, Semaphore.handOver_cons hw]
      apply h.setPc rfl
      · change s.sem.count + (x :: s.owners.erase t).length = _
        rw [List.length_cons, hlen]
        omega
      · exact fun u hut hu => List.mem_cons_of_mem _ ((List.mem_erase_of_ne hut).mpr hu)
      · exact fun hu => by rcases hu with hu | hu <;> cases hu
  | upUnlock next =>
    cases next <;> simp only [SemState.stepThread, ht]
    · exact hquiet .out (by simp) (by simp) _ rfl rfl rfl
    · exact hquiet (.upSchedule _) (by simp) (by simp) _ rfl rfl rfl
  | upSchedule x =>
    simp only [SemState.stepThread, ht]
    have hout : Owned n (s.setPc t .out) := hquiet .out (by simp) (by simp) _ rfl rfl rfl
    apply hout.setPc (t := x)
    case hpc | hsum => rfl
    case hkeep => exact fun u _ hu => hu
    case ht => exact fun hu => by rcases hu with hu | hu <;> cases hu

theorem next (hn : n < 2 ^ 64) (h : Owned n s) {a : SemAct T} (hdisc : s.Disciplined a) : Owned n (s.next a) := by
  cases a with
  | down t =>
    apply h.setPc (t := t)
    case hpc | hsum => rfl
    case hkeep => exact fun u _ hu => hu
    case ht => exact fun hu => by rcases hu with hu | hu <;> cases hu
  | up t =>
    apply h.setPc (t := t)
    case hpc | hsum => rfl
    case hkeep => exact fun u _ hu => hu
    case ht => exact fun _ => hdisc
  | step t => exact h.stepThread hn

end Owned

/-- The thread has returned from `lock` and not called `unlock`. -/
def Inside (s : SemState T) (t : T) : Prop := s.pc t = .out ∧ t ∈ s.owners

/-- For every run of a semaphore: its permits are conserved and no wakeup is lost. With one permit, and when only its
owner gives it back, at most one thread has it. -/
theorem permits_conserved (T : Type) [DecidableEq T] (n : ℕ) :
    (∀ s : SemState T, (semMachine T n).Reachable s → s.Conserved n) ∧
      ∀ s : SemState T, ((semMachine T 1).restrict Disciplined).Reachable s →
        ∀ t u, s.Inside t → s.Inside u → t = u := by
  constructor
  · intro s h
    exact (reachable_inv h).conserved
  · intro s h t u ht hu
    have howned : Owned 1 s := by
      apply h.invariant
      · intro s hs
        change s = .new 1 at hs
        rw [hs]
        exact ⟨rfl, fun t ht => by rcases ht with ht | ht <;> cases ht⟩
      · intro s a ho he
        exact ho.next (by omega) he.2
    have hone : s.owners.length ≤ 1 := by
      have hsum := howned.owners
      omega
    match hl : s.owners, ht.2, hu.2 with
    | [x], htx, hux =>
      rw [List.mem_singleton.mp htx, List.mem_singleton.mp hux]
    | _ :: _ :: _, _, _ => simp [hl] at hone

instance (s : SemState T) : (a : SemAct T) → Decidable (s.Disciplined a)
  | .up t => inferInstanceAs (Decidable (t ∈ s.owners))
  | .down _ | .step _ => .isTrue trivial

/-- Threads 0 and 1 wait; thread 2 takes thread 0 from the queue and thread 3 takes thread 1, and is the first one to
call `schedule`. -/
def overtaking : List (SemAct ℕ) :=
  [.down 0, .step 0, .step 0, .step 0, .step 0, .down 1, .step 1, .step 1, .step 1, .step 1,
    .up 2, .step 2, .step 2, .step 2, .up 3, .step 3, .step 3, .step 3, .step 3, .step 2]

/-- Thread 1 waits for the lock until thread 0 hands it over. -/
def handOver : List (SemAct ℕ) :=
  [.down 0, .step 0, .step 0, .step 0, .down 1, .step 1, .step 1, .step 1, .step 1, .up 0, .step 0, .step 0, .step 0,
    .step 0]

theorem one_permit_conserved :
    (∃ s : SemState ℕ, (semMachine ℕ 0).Reachable s ∧ s.scheduled = [1, 0] ∧ s.Conserved 0) ∧
      ∃ s : SemState ℕ, ((semMachine ℕ 1).restrict Disciplined).Reachable s ∧ s.Inside 1 ∧ ∀ t, s.Inside t → t = 1 := by
  constructor
  · have hrun : ∃ s, (semMachine ℕ 0).Run (.new 0) overtaking s ∧ decide (s.scheduled = [1, 0]) = true :=
      Machine.exists_run_of_replay (by decide)
    obtain ⟨s, hs, hcheck⟩ := hrun
    have hreach := hs.reachable (.init rfl)
    exact ⟨s, hreach, of_decide_eq_true hcheck, (permits_conserved ℕ 0).1 s hreach⟩
  · have hrun : ∃ s, ((semMachine ℕ 1).restrict Disciplined).Run (.new 1) handOver s ∧
        decide (s.enabled (.up 1) = true ∧ 1 ∈ s.owners) = true :=
      Machine.exists_run_of_replay (by decide)
    obtain ⟨s, hs, hcheck⟩ := hrun
    obtain ⟨hcalls, howner⟩ := of_decide_eq_true hcheck
    have hreach := hs.reachable (.init rfl)
    have hinside : s.Inside 1 := by
      refine ⟨?_, howner⟩
      cases hpc : s.pc 1 <;> simp [enabled, hpc] at hcalls ⊢
    exact ⟨s, hreach, hinside, fun t ht => (permits_conserved ℕ 1).2 s hreach t 1 ht hinside⟩

/-- When no thread waits, any number of calls of `up` can come one after the other. -/
theorem reachable_ups (k : ℕ) : ∃ s : SemState ℕ, (semMachine ℕ 0).Reachable s ∧ (∀ t, s.pc t = .out) ∧
    s.sem = ⟨k % 2 ^ 64, false, []⟩ ∧ s.ups = k ∧ s.downs = 0 := by
  induction k with
  | zero => exact ⟨.new 0, .init rfl, fun _ => rfl, rfl, rfl, rfl⟩
  | succ k ih =>
    obtain ⟨⟨sem, pc, downs, ups, enqueued, handed, scheduled, owners⟩, hs, hpc, hsem, hups, hdowns⟩ := ih
    have hpc' : pc = fun _ => .out := funext hpc
    change sem = _ at hsem
    subst hpc' hsem
    have hcall := hs.step (a := SemAct.up 0) rfl
    have hlock := hcall.step (a := SemAct.step 0) rfl
    have htake := hlock.step (a := SemAct.step 0) rfl
    have hunlock : (semMachine ℕ 0).Reachable
        ⟨⟨(k % 2 ^ 64 + 1) % 2 ^ 64, false, []⟩,
          Function.update (Function.update (Function.update (Function.update (fun _ => .out) 0 .upLock) 0 .upTake) 0
            (.upUnlock none)) 0 .out,
          downs, ups + 1, enqueued, handed, scheduled, owners.erase 0⟩ :=
      htake.step (a := SemAct.step 0) rfl
    refine ⟨_, hunlock, ?_, ?_, ?_, hdowns⟩
    · intro t
      by_cases ht : t = 0
      · simp [ht]
      · simp [Function.update_of_ne ht]
    · change (⟨(k % 2 ^ 64 + 1) % 2 ^ 64, false, []⟩ : Semaphore ℕ) = _
      rw [Nat.mod_add_mod]
    · change ups + 1 = k + 1
      rw [show ups = k from hups]

/-- The count starts again from zero after 2^64 calls of `up`, and `schedule` need not be called in the order in which
the permits are handed over. -/
theorem permits_not_conserved :
    (∃ s : SemState ℕ, (semMachine ℕ 0).Reachable s ∧ s.sem.count + s.downs ≠ 0 + s.ups) ∧
      ∃ s : SemState ℕ, (semMachine ℕ 0).Reachable s ∧ s.enqueued = [0, 1] ∧ s.handed = [0, 1] ∧
        s.scheduled = [1, 0] := by
  constructor
  · obtain ⟨s, hs, -, hsem, hups, hdowns⟩ := reachable_ups (2 ^ 64)
    refine ⟨s, hs, ?_⟩
    rw [hsem, hups, hdowns, Nat.mod_self]
    change 0 ≠ 0 + 2 ^ 64
    omega
  · have hrun : ∃ s, (semMachine ℕ 0).Run (.new 0) overtaking s ∧
        decide (s.enqueued = [0, 1] ∧ s.handed = [0, 1] ∧ s.scheduled = [1, 0]) = true :=
      Machine.exists_run_of_replay (by decide)
    obtain ⟨s, hs, hcheck⟩ := hrun
    exact ⟨s, hs.reachable (.init rfl), of_decide_eq_true hcheck⟩

end SemState
end AudioKernel
