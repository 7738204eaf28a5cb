import AudioKernel.Boot.Startup

/-! The runs of the processors that are started: no two have one stack, and `kernelMain` gets one thread. -/
namespace AudioKernel
open Lib

namespace Startup

variable {others : ℕ} {s : Startup others} {i : Fin (others + 1)}

/-- Where a step leads to. -/
inductive Edge (total : ℕ) : StartPc → StartPc → Prop
  | resetEIP : Edge total .resetEIP .pickKernelStack
  | pickKernelStack : Edge total .pickKernelStack .kernelInit
  | kernelInit (first : Bool) : Edge total .kernelInit (if first then .discover else .nextRunning)
  | discover : Edge total .discover .calibrate
  | calibrate : Edge total .calibrate .firstRunning
  | firstRunning : Edge total .firstRunning (.init 1)
  | init (id : ℕ) : id < total → Edge total (.init id) (.reset id)
  | initEnd (id : ℕ) : Edge total (.init id) .perCore
  | reset (id : ℕ) : Edge total (.reset id) (.spin id)
  | spin (id : ℕ) : Edge total (.spin id) (.init (id + 1))
  | nextRunning : Edge total .nextRunning .smpInit
  | smpInit : Edge total .smpInit .perCore
  | perCore : Edge total .perCore .sti
  | sti : Edge total .sti .arrive
  | arrive (last : Bool) : Edge total .arrive (if last then .mainThread else .stop)
  | mainThread : Edge total .mainThread .stop

/-- The processor is not off, at the end or kept waiting. -/
def Moves (s : Startup others) (i : Fin (others + 1)) : Prop :=
  s.pc i ≠ .off ∧ s.pc i ≠ .waitForSipi ∧ s.pc i ≠ .stop ∧ ∀ id, s.pc i = .spin id → id < s.running

theorem goto_self (s : Startup others) (i : Fin (others + 1)) (q : StartPc) : (s.goto i q).pc i = q := by
  rw [goto]
  exact Function.update_self i q s.pc

theorem next_edge (h : Moves s i) : Edge (others + 1) (s.pc i) ((s.next i).pc i) := by
  obtain ⟨hoff, hwait, hstop, hspin⟩ := h
  cases hpc : s.pc i with
  | off => exact absurd hpc hoff
  | waitForSipi => exact absurd hpc hwait
  | stop => exact absurd hpc hstop
  | kernelInit =>
    simp only [Startup.next, hpc, goto_self]
    exact .kernelInit !s.smpInitDone
  | init id =>
    simp only [Startup.next, hpc]
    split_ifs with hid
    · rw [goto_self]
      exact .init id hid
    · rw [goto_self]
      exact .initEnd id
  | spin id =>
    have hless := hspin id hpc
    simp only [Startup.next, hpc]
    rw [if_neg (by omega), goto_self]
    exact .spin id
  | arrive =>
    simp only [Startup.next, hpc, goto_self]
    simpa using @Edge.arrive (others + 1) (decide (s.howManyAreHere + 1 = others + 1))
  | _ =>
    simp only [Startup.next, hpc, goto_self]
    constructor

theorem goto_of_ne {j : Fin (others + 1)} (hj : j ≠ i) (s : Startup others) (q : StartPc) : (s.goto i q).pc j = s.pc j := by
  rw [goto]
  exact Function.update_of_ne hj q s.pc

/-- Only the first processor starts others. -/
theorem Inv.eq_zero (h : Inv s) (hpc : (∃ id, s.pc i = .init id) ∨ ∃ id, s.pc i = .reset id) : i = 0 := by
  by_contra hi
  have hoff : s.pc i ≠ .off ∧ s.pc i ≠ .waitForSipi := by
    rcases hpc with ⟨id, hpc⟩ | ⟨id, hpc⟩
    · rw [hpc]
      exact ⟨StartPc.noConfusion, StartPc.noConfusion⟩
    · rw [hpc]
      exact ⟨StartPc.noConfusion, StartPc.noConfusion⟩
  rcases goes_enabled (h.goes i hi) hoff.1 hoff.2 with hcounted | ⟨-, hstarting⟩
  · rcases hpc with ⟨id, hpc⟩ | ⟨id, hpc⟩
    · exact ne_of_flag hcounted rfl hpc
    · exact ne_of_flag hcounted rfl hpc
  · rcases hpc with ⟨id, hpc⟩ | ⟨id, hpc⟩
    · exact ne_of_flag hstarting rfl hpc
    · exact ne_of_flag hstarting rfl hpc

/-- A processor that does not take the step is only told to wait or to start. -/
theorem next_others (h : Inv s) (hmax : others < MAX_PROCS) {j : Fin (others + 1)} (hj : j ≠ i) :
    (s.next i).pc j = s.pc j ∨ s.pc j = .off ∧ (s.next i).pc j = .waitForSipi ∨
      s.pc j = .waitForSipi ∧ (s.next i).pc j = .resetEIP := by
  have hsmall : others < 16 := hmax
  cases hpc : s.pc i with
  | init id =>
    obtain rfl := h.eq_zero (.inl ⟨id, hpc⟩)
    simp only [Startup.next, hpc]
    split_ifs with hid
    · rw [goto_of_ne hj, ipi_pc (by omega)]
      split_ifs with heq
      · rw [h.at_init hpc heq]
        exact .inr (.inl ⟨rfl, rfl⟩)
      · exact .inl rfl
    · rw [goto_of_ne hj]
      exact .inl rfl
  | reset id =>
    obtain rfl := h.eq_zero (.inr ⟨id, hpc⟩)
    have hruns := h.runs
    rw [hpc] at hruns
    have hlt : id < others + 1 := hruns.2.1
    simp only [Startup.next, hpc]
    rw [goto_of_ne hj, ipi_pc (by omega)]
    split_ifs with heq
    · rw [h.at_reset hpc heq]
      exact .inr (.inr ⟨rfl, rfl⟩)
    · exact .inl rfl
  | spin id =>
    simp only [Startup.next, hpc]
    split_ifs
    · exact .inl rfl
    · rw [goto_of_ne hj]
      exact .inl rfl
  | off | waitForSipi | stop =>
    left
    rw [Startup.next, hpc]
  | _ =>
    simp only [Startup.next, hpc]
    rw [goto_of_ne hj]
    exact .inl rfl

/-- How many processors are in `howManyAreHere`, and how many are about to make the thread. -/
def hereCount (s : Startup others) : ℕ := ∑ i, (s.pc i).here.toNat

def mainCount (s : Startup others) : ℕ := ∑ i, if s.pc i = .mainThread then 1 else 0

/-- The thread for `kernelMain` is made, or about to be, when all are there. -/
structure Counts (s : Startup others) : Prop where
  here : s.howManyAreHere = s.hereCount
  mains : s.mains.length + s.mainCount = if s.howManyAreHere = others + 1 then 1 else 0

/-- What the processor that takes a step adds to a sum over all of them. -/
theorem sum_next (h : Inv s) (hmax : others < MAX_PROCS) (f : StartPc → ℕ) (hf : f .off = 0 ∧ f .waitForSipi = 0 ∧ f .resetEIP = 0) :
    ∑ j, f ((s.next i).pc j) + f (s.pc i) = ∑ j, f (s.pc j) + f ((s.next i).pc i) := by
  have hsame : ∀ j, f ((s.next i).pc j) = f (Function.update s.pc i ((s.next i).pc i) j) := by
    intro j
    by_cases hj : j = i
    · rw [hj, Function.update_self]
    · rw [Function.update_of_ne hj]
      rcases next_others h hmax hj with hpc | ⟨hold, hnew⟩ | ⟨hold, hnew⟩
      · rw [hpc]
      · rw [hold, hnew, hf.1, hf.2.1]
      · rw [hold, hnew, hf.2.1, hf.2.2]
  rw [Finset.sum_congr rfl fun j _ => hsame j]
  exact sum_update f s.pc i _

theorem Counts.fresh (h : s.Fresh) : Counts s := by
  obtain ⟨hfirst, hothers, -, -, -, hhere, -, hmains⟩ := h
  have hpc : ∀ i, (s.pc i).here = false ∧ s.pc i ≠ .mainThread := by
    intro i
    by_cases hi : i = 0
    · rw [hi, hfirst]
      exact ⟨rfl, StartPc.noConfusion⟩
    · rw [hothers i hi]
      exact ⟨rfl, StartPc.noConfusion⟩
  constructor
  case here =>
    rw [hhere, hereCount, Finset.sum_eq_zero]
    intro i _
    rw [(hpc i).1]
    rfl
  case mains =>
    rw [hmains, hhere, mainCount, Finset.sum_eq_zero, if_neg (by omega)]
    · rfl
    · intro i _
      rw [if_neg (hpc i).2]

theorem here_le (s : Startup others) : s.hereCount ≤ others + 1 := by
  have hle : ∑ i, (s.pc i).here.toNat ≤ Fintype.card (Fin (others + 1)) :=
    sum_le_card (f := fun q : StartPc => q.here.toNat) fun q => Bool.toNat_le _
  rw [Fintype.card_fin] at hle
  exact hle

/-- Only `arrive` and `mainThread` change the counters. -/
theorem next_shared (s : Startup others) (i : Fin (others + 1)) :
    (s.next i).howManyAreHere = s.howManyAreHere + (if s.pc i = .arrive then 1 else 0) ∧
    (s.next i).mains = s.mains ++ if s.pc i = .mainThread then [i] else [] := by
  cases hpc : s.pc i with
  | init id => by_cases hid : id < others + 1 <;> simp [Startup.next, hpc, hid, goto, ipi]
  | spin id => by_cases hid : s.running ≤ id <;> simp [Startup.next, hpc, hid, goto]
  | _ => simp [Startup.next, hpc, goto, setEsp, ipi]

theorem edge_here {total : ℕ} {q q' : StartPc} (h : Edge total q q') (harrive : q ≠ .arrive) (hmain : q ≠ .mainThread) :
    q.here = false ∧ q'.here = false ∧ q' ≠ .mainThread := by
  cases h with
  | kernelInit first => cases first <;> exact ⟨rfl, rfl, StartPc.noConfusion⟩
  | arrive last => exact absurd rfl harrive
  | mainThread => exact absurd rfl hmain
  | _ => exact ⟨rfl, rfl, StartPc.noConfusion⟩

theorem Counts.next (h : Counts s) (hinv : Inv s) (hmax : others < MAX_PROCS) (hmoves : Moves s i) : Counts (s.next i) := by
  obtain ⟨hhere, hmains⟩ := next_shared s i
  have hsum := sum_next (i := i) hinv hmax (fun q => q.here.toNat) ⟨rfl, rfl, rfl⟩
  have hmain := sum_next (i := i) hinv hmax (fun q => if q = .mainThread then 1 else 0) ⟨rfl, rfl, rfl⟩
  change (s.next i).hereCount + _ = s.hereCount + _ at hsum
  change (s.next i).mainCount + _ = s.mainCount + _ at hmain
  have hle := here_le (s.next i)
  have hbefore := h.here
  have hbeforeMains := h.mains
  by_cases harrive : s.pc i = .arrive
  · have hnew : (s.next i).pc i = if s.howManyAreHere + 1 = others + 1 then .mainThread else .stop := by
      simp only [Startup.next, harrive, goto_self]
    rw [if_pos harrive] at hhere
    rw [if_neg (by rw [harrive]; exact StartPc.noConfusion), List.append_nil] at hmains
    rw [harrive, hnew] at hsum hmain
    by_cases hlast : s.howManyAreHere + 1 = others + 1
    · rw [if_pos hlast] at hsum hmain
      rw [if_pos rfl, if_neg StartPc.noConfusion] at hmain
      rw [if_neg (by omega)] at hbeforeMains
      change _ + 0 = _ + 1 at hsum
      refine ⟨by omega, ?_⟩
      rw [hmains, hhere, if_pos hlast]
      omega
    · rw [if_neg hlast] at hsum hmain
      rw [if_neg StartPc.noConfusion, if_neg StartPc.noConfusion] at hmain
      change _ + 0 = _ + 1 at hsum
      rw [if_neg (by omega)] at hbeforeMains
      refine ⟨by omega, ?_⟩
      rw [hmains, hhere, if_neg hlast]
      omega
  · rw [if_neg harrive, Nat.add_zero] at hhere
    by_cases hthread : s.pc i = .mainThread
    · have hnew : (s.next i).pc i = .stop := by simp only [Startup.next, hthread, goto_self]
      rw [if_pos hthread] at hmains
      rw [hthread, hnew, if_pos rfl, if_neg StartPc.noConfusion] at hmain
      rw [hthread, hnew] at hsum
      change _ + 1 = _ + 1 at hsum
      refine ⟨by omega, ?_⟩
      rw [hmains, hhere, List.length_append, List.length_singleton, ← hbeforeMains]
      omega
    · obtain ⟨hold, hnew, hne⟩ := edge_here (next_edge hmoves) harrive hthread
      rw [if_neg hthread, List.append_nil] at hmains
      rw [hold, hnew] at hsum
      rw [if_neg hthread, if_neg hne] at hmain
      refine ⟨by omega, ?_⟩
      rw [hmains, hhere, ← hbeforeMains]
      omega

/-- A processor that does not move stays where it is. -/
theorem next_of_not_moves (h : ¬ Moves s i) : s.next i = s := by
  cases hpc : s.pc i with
  | off | waitForSipi | stop => rw [Startup.next, hpc]
  | spin id =>
    have hle : s.running ≤ id := by
      by_contra hless
      exact h ⟨by simp [hpc], by simp [hpc], by simp [hpc], fun id' hid => by rw [hpc] at hid; cases hid; omega⟩
    simp only [Startup.next, hpc]
    exact if_pos hle
  | _ => exact absurd ⟨by simp [hpc], by simp [hpc], by simp [hpc], by simp [hpc]⟩ h

theorem Counts.reachable (hmax : others < MAX_PROCS) (h : (startupMachine others).Reachable s) : Counts s := by
  apply h.invariant_of (J := Inv)
  · exact fun s hs => .reachable hmax hs
  · exact fun s hs => .fresh hs
  · intro s i hinv hs _
    by_cases hmoves : Moves s i
    · exact hs.next hinv hmax hmoves
    · change Counts (s.next i)
      rw [next_of_not_moves hmoves]
      exact hs

theorem Counts.all_here (h : Counts s) (hall : s.howManyAreHere = others + 1) (i : Fin (others + 1)) :
    (s.pc i).here = true := by
  by_contra hi
  have hsum := sum_update (fun q : StartPc => q.here.toNat) s.pc i .stop
  have hle : ∑ j, (Function.update s.pc i .stop j).here.toNat ≤ Fintype.card (Fin (others + 1)) :=
    sum_le_card (f := fun q : StartPc => q.here.toNat) fun q => Bool.toNat_le _
  have hhere : s.howManyAreHere = ∑ j, (s.pc j).here.toNat := h.here
  rw [Bool.not_eq_true] at hi
  rw [hi] at hsum
  rw [Fintype.card_fin] at hle
  change _ + 0 = _ + 1 at hsum
  omega

/-- A processor other than the first one picks its stack while the first one waits for it. -/
theorem Inv.picks (h : Inv s) (hpc : s.pc i = .pickKernelStack) : i = 0 ∨ s.pc 0 = .spin i := by
  by_cases hi : i = 0
  · exact .inl hi
  · rcases goes_enabled (h.goes i hi) (by rw [hpc]; exact StartPc.noConfusion) (by rw [hpc]; exact StartPc.noConfusion)
      with hcounted | ⟨hspin, -⟩
    · exact absurd hpc (ne_of_flag hcounted rfl)
    · exact .inr hspin

theorem Inv.esp_ne (h : Inv s) {j : Fin (others + 1)} (hij : i ≠ j) (hi : s.esp i ≠ none) : s.esp i ≠ s.esp j := by
  have hstack : ∀ (id : ℕ) (q : StartPc), q.stack id = none ∨ q.stack id = some .tempStack ∧ q = .pickKernelStack ∨
      q.stack id = some (.forCPU id) := by
    intro id q
    cases q <;> simp [StartPc.stack]
  intro hsame
  rw [h.esp i] at hi
  rw [h.esp i, h.esp j] at hsame
  rcases hstack i (s.pc i) with hnone | ⟨htemp, hpick⟩ | hown
  · exact hi hnone
  · rcases hstack j (s.pc j) with hnone | ⟨-, hpick'⟩ | hown
    · rw [htemp, hnone] at hsame
      cases hsame
    · rcases h.picks hpick with rfl | hspin
      · rcases h.picks hpick' with rfl | hspin'
        · exact hij rfl
        · rw [hpick] at hspin'
          cases hspin'
      · rcases h.picks hpick' with rfl | hspin'
        · rw [hpick'] at hspin
          cases hspin
        · rw [hspin] at hspin'
          injection hspin' with heq
          exact hij (Fin.ext heq)
    · rw [htemp, hown] at hsame
      cases hsame
  · rcases hstack j (s.pc j) with hnone | ⟨htemp, -⟩ | hown'
    · rw [hown, hnone] at hsame
      cases hsame
    · rw [hown, htemp] at hsame
      cases hsame
    · rw [hown, hown'] at hsame
      injection hsame with heq
      injection heq with heq
      exact hij (Fin.ext heq)

theorem goes_initDone {i : ℕ} {p q : StartPc} (h : Goes i p q) (hq : q ≠ .off) : p.initDone = true := by
  cases p with
  | init id | reset id | spin id => rfl
  | perCore | sti | arrive | mainThread | stop => rfl
  | _ => exact absurd h hq

/-- Up to `MAX_PROCS` processors, however fast each one is: no two of them ever have the same stack, so that the one
`tempStack` is enough; the first one alone goes through the initializations for all, before any other is started; the thread
for `kernelMain` is made once at most, and not before all processors are there. -/
theorem startup_safe (hmax : others < MAX_PROCS) (h : (startupMachine others).Reachable s) :
    (∀ i j, i ≠ j → s.esp i ≠ none → s.esp i ≠ s.esp j) ∧
    (∀ i, i ≠ 0 → s.pc i ≠ .off → s.initialized = [0]) ∧ s.initialized.length ≤ 1 ∧
    s.mains.length ≤ 1 ∧ (s.mains ≠ [] → ∀ i, (s.pc i).here = true) := by
  have hinv := Inv.reachable hmax h
  have hcounts := Counts.reachable hmax h
  have hmains := hcounts.mains
  refine ⟨fun i j => hinv.esp_ne, ?_, ?_, ?_, ?_⟩
  · intro i hi hoff
    rw [hinv.initialized, goes_initDone (hinv.goes i hi) hoff]
    rfl
  · rw [hinv.initialized]
    split_ifs
    · exact Nat.le_refl 1
    · exact Nat.zero_le 1
  · split_ifs at hmains <;> omega
  · intro hne
    have hpos := List.length_pos_iff.mpr hne
    apply hcounts.all_here
    by_contra hall
    rw [if_neg hall] at hmains
    omega

/-- The second of two processors picks its stack while the first one waits for it. -/
theorem startup_safe_two : ∃ s, (startupMachine 1).Reachable s ∧ s.esp 1 = some .tempStack ∧ s.esp 1 ≠ s.esp 0 ∧
    s.initialized = [0] ∧ s.mains.length ≤ 1 := by
  obtain ⟨s, hrun, hcheck⟩ : ∃ s, (startupMachine 1).Run (start 1) [0, 0, 0, 0, 0, 0, 0, 0, 1, 0] s ∧
      decide (s.esp 1 = some .tempStack ∧ s.pc 1 = .pickKernelStack) = true :=
    Machine.exists_run_of_replay (by decide +kernel)
  obtain ⟨hesp, hpc⟩ := of_decide_eq_true hcheck
  have hreach := hrun.reachable (.init (start_fresh 1))
  obtain ⟨hne, hinitialized, -, hmains, -⟩ := startup_safe (by decide) hreach
  refine ⟨s, hreach, hesp, hne 1 0 (by decide) ?_, hinitialized 1 (by decide) ?_, hmains⟩
  · rw [hesp]
    exact Option.some_ne_none _
  · rw [hpc]
    exact StartPc.noConfusion

/-- How far a processor is from its end: the first one has more to do for each one that it starts. -/
def rank (others : ℕ) : StartPc → ℕ
  | .off => 3 * others + 30
  | .waitForSipi => 3 * others + 29
  | .resetEIP => 3 * others + 28
  | .pickKernelStack => 3 * others + 27
  | .kernelInit => 3 * others + 26
  | .discover => 3 * others + 25
  | .calibrate => 3 * others + 24
  | .firstRunning => 3 * others + 23
  | .init id => 3 * (others + 1 - id) + 12
  | .reset id => 3 * (others + 1 - id) + 11
  | .spin id => 3 * (others + 1 - id) + 10
  | .nextRunning => 6
  | .smpInit => 5
  | .perCore => 4
  | .sti => 3
  | .arrive => 2
  | .mainThread => 1
  | .stop => 0

theorem rank_edge {q q' : StartPc} (h : Edge (others + 1) q q') (hspin : ∀ id, q = .spin id → id < others + 1) :
    rank others q' < rank others q := by
  cases h with
  | kernelInit first => cases first <;> simp [rank]
  | arrive last => cases last <;> simp [rank]
  | spin id =>
    have hless := hspin id rfl
    simp only [rank]
    omega
  | firstRunning =>
    simp only [rank]
    omega
  | _ => simp [rank]

theorem rank_next (h : Inv s) (hmax : others < MAX_PROCS) (hmoves : Moves s i) :
    ∑ j, rank others ((s.next i).pc j) < ∑ j, rank others (s.pc j) := by
  have hless : rank others ((s.next i).pc i) < rank others (s.pc i) := by
    apply rank_edge (next_edge hmoves)
    intro id hpc
    by_cases hi : i = 0
    · subst hi
      have hruns := h.runs
      rw [hpc] at hruns
      exact hruns.2.1
    · rcases goes_enabled (h.goes i hi) hmoves.1 hmoves.2.1 with hcounted | ⟨-, hstarting⟩
      · exact absurd hpc (ne_of_flag hcounted rfl)
      · exact absurd hpc (ne_of_flag hstarting rfl)
  apply Finset.sum_lt_sum
  · intro j _
    by_cases hj : j = i
    · rw [hj]
      exact Nat.le_of_lt hless
    · rcases next_others h hmax hj with hpc | ⟨hold, hnew⟩ | ⟨hold, hnew⟩
      · rw [hpc]
      · rw [hold, hnew]
        exact Nat.le_succ _
      · rw [hold, hnew]
        exact Nat.le_succ _
  · exact ⟨i, Finset.mem_univ i, hless⟩

/-- The first processor waits only for one that goes on. -/
theorem exists_moves (h : Inv s) (hstop : ¬ ∀ i, s.pc i = .stop) : ∃ i, Moves s i := by
  have hruns := h.runs
  cases hcommon : (s.pc 0).common with
  | true =>
    have hmoves : ∀ i, s.pc i ≠ .stop → (s.pc i).counted = true → Moves s i := by
      intro i hi hcounted
      exact ⟨ne_of_flag hcounted rfl, ne_of_flag hcounted rfl, hi, fun id hpc => absurd hpc (ne_of_flag hcounted rfl)⟩
    rw [not_forall] at hstop
    obtain ⟨i, hi⟩ := hstop
    refine ⟨i, hmoves i hi ?_⟩
    by_cases hzero : i = 0
    · rw [hzero]
      exact common_counted hcommon
    · exact (goes_common hcommon).mp (h.goes i hzero)
  | false =>
    by_cases hspin : ∃ id, s.pc 0 = .spin id ∧ s.running ≤ id
    · obtain ⟨id, hpc, hle⟩ := hspin
      rw [hpc] at hruns
      obtain ⟨hpos, hlt, ⟨-, hnot⟩ | ⟨hrunning, -⟩⟩ := hruns
      · let i : Fin (others + 1) := ⟨id, hlt⟩
        have hi : i ≠ 0 := Fin.val_ne_zero_iff.mp (Nat.ne_of_gt hpos)
        have hgoes := h.goes i hi
        rw [hpc] at hgoes
        change if id < id then _ else if id = id then _ else _ at hgoes
        rw [if_neg (Nat.lt_irrefl id), if_pos rfl] at hgoes
        have hstarting := hgoes.resolve_right fun hcounted => hnot ⟨i, rfl, hcounted⟩
        exact ⟨i, ne_of_flag hstarting rfl, ne_of_flag hstarting rfl, ne_of_flag hstarting rfl,
          fun id hpc => absurd hpc (ne_of_flag hstarting rfl)⟩
      · omega
    · refine ⟨0, ?_, ?_, ?_, ?_⟩
      · intro hpc
        rw [hpc] at hruns
        exact hruns
      · intro hpc
        rw [hpc] at hruns
        exact hruns
      · intro hpc
        rw [hpc] at hcommon
        cases hcommon
      · intro id hpc
        by_contra hless
        exact hspin ⟨id, hpc, by omega⟩

/-- Wherever the processors stand, they can come to the end: each of them on its own stack and in `stop`, and with the
thread for `kernelMain` made. The first one is never left waiting. -/
theorem startup_ends (hmax : others < MAX_PROCS) (h : (startupMachine others).Reachable s) :
    ∃ is t, (startupMachine others).Run s is t ∧ (∀ i, t.pc i = .stop ∧ t.esp i = some (.forCPU i)) ∧ ∃ i, t.mains = [i] := by
  obtain ⟨is, t, hrun, -, -, hstop⟩ := @Machine.Reachable.leads _ _ _ (fun _ => True) (fun s => ∀ i, s.pc i = .stop)
    (fun _ => True) (fun s => ∑ j, rank others (s.pc j)) (fun s hs _ hstop => by
      have hinv := Inv.reachable hmax hs
      obtain ⟨i, hmoves⟩ := exists_moves hinv hstop
      exact ⟨i, trivial, ⟨hmoves.1, hmoves.2.1⟩, trivial, rank_next hinv hmax hmoves⟩) _ h trivial
  have ht := hrun.reachable h
  have hinv := Inv.reachable hmax ht
  have hcounts := Counts.reachable hmax ht
  refine ⟨is, t, hrun, fun i => ⟨hstop i, ?_⟩, ?_⟩
  · rw [hinv.esp i, hstop i]
    rfl
  · have hhere : t.howManyAreHere = others + 1 := by
      rw [hcounts.here, hereCount, Finset.sum_congr rfl fun i _ => by rw [hstop i]]
      simp [StartPc.here]
    have hmain : t.mainCount = 0 := by
      rw [mainCount, Finset.sum_eq_zero]
      intro i _
      rw [hstop i]
      rfl
    have hone := hcounts.mains
    rw [if_pos hhere, hmain, Nat.add_zero] at hone
    exact List.length_eq_one_iff.mp hone

theorem startup_ends_start : ∃ is t, (startupMachine 3).Run (start 3) is t ∧
    (∀ i, t.pc i = .stop ∧ t.esp i = some (.forCPU i)) ∧ ∃ i, t.mains = [i] :=
  startup_ends (by decide) (.init (start_fresh 3))

end Startup
end AudioKernel
