import AudioKernel.Sync.Fifo

/-! The calls of `put` and `get` come to their ends, or wait for room or for a value that nobody is about to bring. -/
namespace AudioKernel
open Lib

variable {T V : Type}

theorem Semaphore.tryDown_none {x : Semaphore T} (h : x.tryDown = none) : x.count = 0 := by
  unfold tryDown at h
  split_ifs at h with hpos
  omega

namespace SemProgram

variable {K P : Type} {s s' : SemProgram K T P} {k : K} {t : T} {got blocked q : P} {wake : P → P} {asleep? : P → Option K}
  {f : P → ℕ}

/-- Nobody waits for a permit that is there. -/
def Prompt (s : SemProgram K T P) : Prop := ∀ k, 0 < (s.sem k).count → (s.sem k).waiting = []

theorem Prompt.count_eq_zero (h : Prompt s) (hqueued : Queued asleep? s) (ht : asleep? (s.pc t) = some k) :
    (s.sem k).count = 0 := by
  have hmem := (hqueued.mem_iff k t).mpr ht
  by_contra hcount
  rw [h k (by omega)] at hmem
  exact absurd hmem List.not_mem_nil

/-- The steps that all threads together have still to take, when `f` says it of one. -/
def toGo [Fintype T] (f : P → ℕ) (s : SemProgram K T P) : ℕ := ∑ u, f (s.pc u)

theorem toGo_lt [Fintype T] (hself : f (s'.pc t) < f (s.pc t)) (hother : ∀ u, u ≠ t → f (s'.pc u) ≤ f (s.pc u)) :
    s'.toGo f < s.toGo f := by
  apply Finset.sum_lt_sum
  · intro u _
    by_cases hu : u = t
    · rw [hu]
      exact Nat.le_of_lt hself
    · exact hother u hu
  · exact ⟨t, Finset.mem_univ t, hself⟩

theorem toGo_le [Fintype T] {n : ℕ} (hf : ∀ p, f p ≤ n) (s : SemProgram K T P) : s.toGo f ≤ n * Fintype.card T := by
  have hle : ∑ u, f (s.pc u) ≤ ∑ _u : T, n := Finset.sum_le_sum fun u _ => hf (s.pc u)
  rw [Finset.sum_const, Finset.card_univ] at hle
  change _ ≤ Fintype.card T * n at hle
  rw [Nat.mul_comm] at hle
  exact hle

variable [DecidableEq T]

theorem toGo_setPc [Fintype T] (hq : f q < f (s.pc t)) : (s.setPc t q).toGo f < s.toGo f := by
  apply toGo_lt
  · change f (Function.update s.pc t q t) < _
    rw [Function.update_self]
    exact hq
  · intro u hu
    change f (Function.update s.pc t q u) ≤ _
    rw [Function.update_of_ne hu]

variable [DecidableEq K]

omit [DecidableEq T] in
/-- One semaphore is changed. -/
theorem Prompt.update {x : Semaphore T} (h : Prompt s) (hx : 0 < x.count → x.waiting = []) (pc : T → P) :
    Prompt ⟨Function.update s.sem k x, pc⟩ := by
  intro j hj
  change 0 < (Function.update s.sem k x j).count at hj
  change (Function.update s.sem k x j).waiting = []
  by_cases hjk : j = k
  · subst hjk
    rw [Function.update_self] at hj ⊢
    exact hx hj
  · rw [Function.update_of_ne hjk] at hj ⊢
    exact h j hj

theorem Prompt.down (h : Prompt s) : Prompt (s.down k t got blocked) := by
  rcases down_cases s k t got blocked with ⟨x, hx, hdown⟩ | ⟨hx, hdown⟩
  · obtain ⟨hcount, hwaiting, -⟩ := Semaphore.tryDown_some hx
    rw [hdown]
    apply h.update
    intro _
    rw [hwaiting]
    exact h k (by omega)
  · rw [hdown]
    apply h.update
    intro hpos
    change 0 < (s.sem k).count at hpos
    rw [Semaphore.tryDown_none hx] at hpos
    exact absurd hpos (Nat.lt_irrefl 0)

/-- A permit is only kept when nobody waits for it. -/
theorem Prompt.up (h : Prompt s) : Prompt (s.up k t q wake) := by
  rcases up_cases s k t q wake with ⟨hw, hup⟩ | ⟨u, rest, hw, hup⟩
  · rw [hup]
    apply h.update
    intro _
    exact hw
  · rw [hup]
    apply h.update
    intro hpos
    have hnil := h k hpos
    rw [hw] at hnil
    cases hnil

variable [Fintype T]

theorem toGo_down (hgot : f got < f (s.pc t)) (hblocked : f blocked < f (s.pc t)) :
    (s.down k t got blocked).toGo f < s.toGo f := by
  apply toGo_lt
  · rcases down_self s k t got blocked with ⟨-, hself⟩ | ⟨-, hself⟩
    · rw [hself]
      exact hgot
    · rw [hself]
      exact hblocked
  · intro u hu
    rw [down_other hu]

theorem toGo_up (h : Queued asleep? s) (ht : asleep? (s.pc t) = none) (hq : f q < f (s.pc t))
    (hwake : ∀ p, asleep? p = some k → f (wake p) ≤ f p) : (s.up k t q wake).toGo f < s.toGo f := by
  apply toGo_lt
  · rw [h.up_self ht]
    exact hq
  · intro u hu
    rcases h.up_other wake hu with hsame | ⟨hasleep, hwoken⟩
    · rw [hsame]
    · rw [hwoken]
      exact hwake _ hasleep

end SemProgram

namespace BufferPc

/-- At most so many steps are left of the call. -/
def toGo : BufferPc V → ℕ
  | out => 0
  | putFull | getEmpty _ => 1
  | putUnlock | getUnlock _ => 2
  | putCount _ | getCount _ => 3
  | putStore _ | getHead _ => 4
  | putLockAsleep _ | getLoad => 5
  | putLock _ | getLockAsleep => 6
  | putEmptyAsleep _ | getLock => 7
  | putEmpty _ | getFullAsleep => 8
  | getFull => 9

theorem toGo_le (p : BufferPc V) : p.toGo ≤ 9 := by
  cases p <;> simp [toGo]

theorem toGo_wake (p : BufferPc V) : p.wake.toGo ≤ p.toGo := by
  cases p <;> simp [wake, toGo]

end BufferPc

namespace BufferState

variable [Fintype T] [DecidableEq T] {N : ℕ} {data : ℕ → V} {s t : BufferState T V} {me : T}

omit [Fintype T] in
/-- `down` and `up` leave no permit to a semaphore that a thread waits for. -/
theorem prompt_next (h : s.calls.Prompt) (a : BufferAct T V) : (s.next N a).calls.Prompt := by
  cases a with
  | put me t => exact h
  | get me => exact h
  | step me =>
    change (s.stepThread N me).calls.Prompt
    cases ht : s.calls.pc me with
    | putEmpty t | putLock t | getFull | getLock =>
      simp only [stepThread, ht]
      exact h.down
    | putUnlock | putFull | getUnlock out | getEmpty out =>
      simp only [stepThread, ht]
      exact h.up
    | _ =>
      simp only [stepThread, ht]
      exact h

/-- A step brings the call nearer to its end, and a call that is woken by it no farther from it. -/
theorem toGo_step (h : Inv N s) (he : s.enabled (.step me : BufferAct T V) = true) :
    (s.stepThread N me).calls.toGo BufferPc.toGo < s.calls.toGo BufferPc.toGo := by
  cases ht : s.calls.pc me with
  | out | putEmptyAsleep t | putLockAsleep t | getFullAsleep | getLockAsleep =>
    simp [enabled, ht, BufferPc.asleep?] at he
  | putEmpty t | putLock t | getFull | getLock =>
    simp only [stepThread, ht]
    apply SemProgram.toGo_down <;> rw [ht] <;> simp [BufferPc.toGo]
  | putUnlock | putFull | getUnlock out | getEmpty out =>
    simp only [stepThread, ht]
    apply SemProgram.toGo_up h.queued
    · rw [ht]
      rfl
    · rw [ht]
      simp [BufferPc.toGo]
    · exact fun p _ => p.toGo_wake
  | putStore t | putCount t | getLoad | getHead out | getCount out =>
    simp only [stepThread, ht]
    apply SemProgram.toGo_setPc
    rw [ht]
    simp [BufferPc.toGo]

omit [Fintype T] in
theorem prompt_reachable (h : (bufferMachine T N data).Reachable s) : s.calls.Prompt := by
  apply h.invariant
  · intro s hs
    change s = .new N data at hs
    rw [hs]
    intro k _
    cases k <;> rfl
  · exact fun s a hi _ => prompt_next hi a

/-- No call is under way, or all of them wait in `put` and the buffer is full, or all of them wait in `get` and it is
empty. -/
def Rest (N : ℕ) (s : BufferState T V) : Prop :=
  (∀ me, s.calls.pc me = .out) ∨
    (s.n = N ∧ ∀ me, s.calls.pc me = .out ∨ ∃ t, s.calls.pc me = .putEmptyAsleep t) ∨
    (s.n = 0 ∧ ∀ me, s.calls.pc me = .out ∨ s.calls.pc me = .getFullAsleep)

omit [DecidableEq T] in
/-- When no thread can go on, the lock is free, and so nobody waits for it. -/
theorem stays (h : Inv N s) (hprompt : s.calls.Prompt) (hstill : ∀ me, s.enabled (.step me : BufferAct T V) = false)
    (me : T) : s.calls.pc me = .out ∨ (∃ t, s.calls.pc me = .putEmptyAsleep t) ∨ s.calls.pc me = .getFullAsleep := by
  have hpermits : ∀ u, (s.calls.pc u).permits .lock = 0 := by
    intro u
    have hu := hstill u
    cases hpc : s.calls.pc u <;> first | rfl | simp [enabled, hpc, BufferPc.asleep?] at hu
  have hlock : (s.calls.sem .lock).count = 1 := by
    have htotal := h.lock
    unfold SemProgram.total at htotal
    rw [Finset.sum_eq_zero fun u _ => hpermits u] at htotal
    exact htotal
  have hnobody : (s.calls.pc me).asleep? ≠ some .lock := by
    intro hasleep
    have hzero := hprompt.count_eq_zero h.queued hasleep
    omega
  have hme := hstill me
  cases hpc : s.calls.pc me with
  | out => exact .inl rfl
  | putEmptyAsleep t => exact .inr (.inl ⟨t, rfl⟩)
  | getFullAsleep => exact .inr (.inr rfl)
  | putLockAsleep t | getLockAsleep =>
    rw [hpc] at hnobody
    exact absurd rfl hnobody
  | _ => simp [enabled, hpc, BufferPc.asleep?] at hme

omit [DecidableEq T] in
theorem rest (h : Inv N s) (hN : 1 ≤ N) (hprompt : s.calls.Prompt)
    (hstill : ∀ me, s.enabled (.step me : BufferAct T V) = false) : Rest N s := by
  have hstays := stays h hprompt hstill
  have hpermits : ∀ k u, (s.calls.pc u).permits k = 0 := by
    intro k u
    rcases hstays u with hu | ⟨t, hu⟩ | hu <;> rw [hu] <;> cases k <;> rfl
  have hempty := h.nEmpty
  have hfull := h.nFull
  unfold SemProgram.total at hempty hfull
  rw [Finset.sum_eq_zero fun u _ => hpermits .nEmpty u] at hempty
  rw [Finset.sum_eq_zero fun u _ => hpermits .nFull u] at hfull
  by_cases hput : ∃ me t, s.calls.pc me = .putEmptyAsleep t
  · -- the buffer is full, and no thread waits for a value
    obtain ⟨me, t, hme⟩ := hput
    have hzero : (s.calls.sem .nEmpty).count = 0 := hprompt.count_eq_zero h.queued (t := me) (by rw [hme]; rfl)
    refine .inr (.inl ⟨by omega, fun u => ?_⟩)
    rcases hstays u with hu | hu | hu
    · exact .inl hu
    · exact .inr hu
    · have hzero' : (s.calls.sem .nFull).count = 0 := hprompt.count_eq_zero h.queued (t := u) (by rw [hu]; rfl)
      omega
  by_cases hget : ∃ me, s.calls.pc me = .getFullAsleep
  · obtain ⟨me, hme⟩ := hget
    have hzero : (s.calls.sem .nFull).count = 0 := hprompt.count_eq_zero h.queued (t := me) (by rw [hme]; rfl)
    refine .inr (.inr ⟨by omega, fun u => ?_⟩)
    rcases hstays u with hu | ⟨t, hu⟩ | hu
    · exact .inl hu
    · exact absurd ⟨u, t, hu⟩ hput
    · exact .inr hu
  · refine .inl fun u => ?_
    rcases hstays u with hu | ⟨t, hu⟩ | hu
    · exact hu
    · exact absurd ⟨u, t, hu⟩ hput
    · exact absurd ⟨u, hu⟩ hget

/-- The calls under way cannot block one another: in whatever order their steps are taken, it is over after nine for every
thread at most, and what is then left of them waits for room in a full buffer or for a value from an empty one. -/
theorem calls_end (hN : 1 ≤ N) (hN' : N ≤ 2 ^ 31) (h : (bufferMachine T N data).Reachable s) {as : List (BufferAct T V)}
    (hrun : (bufferMachine T N data).Run s as t) (hsteps : ∀ a ∈ as, ∃ me, a = .step me) :
    as.length ≤ 9 * Fintype.card T ∧
      ((∀ me, ¬ (bufferMachine T N data).enabled t (.step me)) → Rest N t) := by
  have hlength := hrun.length_add_le h hsteps (fun s => s.calls.toGo BufferPc.toGo) fun s a hs he ha => by
    obtain ⟨me, rfl⟩ := ha
    exact toGo_step (.reachable hN hN' hs) he
  have hle := s.calls.toGo_le BufferPc.toGo_le
  refine ⟨by omega, fun hstill => ?_⟩
  have ht := hrun.reachable h
  exact rest (.reachable hN hN' ht) hN (prompt_reachable ht) fun me => Bool.eq_false_iff.mpr (hstill me)

/-- Two threads put into a buffer of one cell, and nobody gets. -/
def twoPuts : List (BufferAct Bool ℕ) :=
  [.step false, .step true] ++ List.replicate 5 (.step false)

theorem calls_end_full : ∃ s t : BufferState Bool ℕ, (bufferMachine Bool 1 fun _ => 0).Run s twoPuts t ∧
    twoPuts.length ≤ 9 * 2 ∧ Rest 1 t ∧ t.calls.pc true = .putEmptyAsleep 7 := by
  obtain ⟨s, hs, hcheck⟩ : ∃ s, (bufferMachine Bool 1 fun _ => 0).Run (.new 1 fun _ => 0) [.put false 5, .put true 7] s ∧
      ((bufferMachine Bool 1 fun _ => 0).replay s twoPuts).any (fun t => decide ((∀ me,
        ¬ (bufferMachine Bool 1 fun _ => 0).enabled t (.step me)) ∧ t.calls.pc true = .putEmptyAsleep 7)) = true :=
    Machine.exists_run_of_replay (by decide)
  obtain ⟨t, ht, hcheck⟩ := Machine.exists_run_of_replay hcheck
  obtain ⟨hstill, hasleep⟩ := of_decide_eq_true hcheck
  obtain ⟨hlength, hrest⟩ := calls_end (by decide) (by decide) (hs.reachable (.init rfl)) ht (by simp [twoPuts])
  exact ⟨s, t, ht, hlength, hrest hstill, hasleep⟩

end BufferState
end AudioKernel
