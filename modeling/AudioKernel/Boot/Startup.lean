import AudioKernel.Lib.Counting
import AudioKernel.Lib.Machine
import Mathlib.Data.Fin.Basic

/-! How the processors are started: `resetEIP` of `mbr.S`, `pickKernelStack` and `kernelInit` of `init.cc`, `SMP::ipi` and
`SMP::init` of `smp.h`. -/
namespace AudioKernel
open Lib

/-- Where a processor stands. The first one goes through the first branch of `kernelInit`, where it starts the others in
`init`, `reset` and `spin`; they go through the second one, `nextRunning` and `smpInit`. -/
inductive StartPc
  | off
  | waitForSipi
  | resetEIP
  | pickKernelStack
  | kernelInit
  | discover
  | calibrate
  | firstRunning
  | init (id : ℕ)
  | reset (id : ℕ)
  | spin (id : ℕ)
  | nextRunning
  | smpInit
  | perCore
  | sti
  | arrive
  | mainThread
  | stop
  deriving DecidableEq

inductive BootStack
  | tempStack
  | forCPU (id : ℕ)
  deriving DecidableEq

/-- The processors have the APIC ids from 0 on. Recorded are the processors that have gone through the discovery and the
initializations that follow it, and those that have made the thread for `kernelMain`. -/
structure Startup (others : ℕ) where
  pc : Fin (others + 1) → StartPc
  esp : Fin (others + 1) → Option BootStack
  smpInitDone : Bool
  running : ℕ
  howManyAreHere : ℕ
  initialized : List (Fin (others + 1))
  mains : List (Fin (others + 1))

def MAX_PROCS : ℕ := 16

/-- `script.ld` puts it there. -/
def resetEIP : ℕ := 0x8000

namespace StartPc

/-- A local APIC receives an interrupt command: 5 is INIT, 6 the start at a page. -/
def receive (num : ℕ) (pc : StartPc) : StartPc :=
  if num / 2 ^ 8 % 8 = 5 then waitForSipi
  else if num / 2 ^ 8 % 8 = 6 ∧ pc = waitForSipi ∧ num % 2 ^ 8 * 2 ^ 12 = AudioKernel.resetEIP then resetEIP
  else pc

/-- The processor is on its way to its `running.fetch_add`. -/
def starting : StartPc → Bool
  | resetEIP | pickKernelStack | kernelInit | nextRunning => true
  | _ => false

/-- The processor initializes what is its own, or is over with that. -/
def common : StartPc → Bool
  | perCore | sti | arrive | mainThread | stop => true
  | _ => false

/-- A processor that has been started is counted in `running`. -/
def counted (pc : StartPc) : Bool := pc = smpInit || pc.common

def here : StartPc → Bool
  | mainThread | stop => true
  | _ => false

/-- The first processor is over with the initializations for all. -/
def initDone : StartPc → Bool
  | calibrate | firstRunning | init _ | reset _ | spin _ => true
  | pc => pc.common

/-- The stack that goes with a place in the code. -/
def stack (id : ℕ) : StartPc → Option BootStack
  | off | waitForSipi | resetEIP => none
  | pickKernelStack => some .tempStack
  | _ => some (.forCPU id)

end StartPc

namespace Startup

variable {others : ℕ}

/-- `SMP::ipi`: the id is shifted into the upper bits of `icr_high`. -/
def ipi (s : Startup others) (id num : ℕ) : Startup others :=
  { s with pc := fun i => if (i : ℕ) = id * 2 ^ 24 % 2 ^ 32 / 2 ^ 24 then (s.pc i).receive num else s.pc i }

def goto (s : Startup others) (i : Fin (others + 1)) (pc : StartPc) : Startup others :=
  { s with pc := Function.update s.pc i pc }

def setEsp (s : Startup others) (i : Fin (others + 1)) (stack : BootStack) : Startup others :=
  { s with esp := Function.update s.esp i (some stack) }

def next (s : Startup others) (i : Fin (others + 1)) : Startup others :=
  let totalProcs := others + 1
  match s.pc i with
  | .off | .waitForSipi => s
  | .resetEIP => (s.setEsp i .tempStack).goto i .pickKernelStack
  | .pickKernelStack => (s.setEsp i (.forCPU (if s.smpInitDone then i else 0))).goto i .kernelInit
  | .kernelInit => s.goto i (if !s.smpInitDone then .discover else .nextRunning)
  | .discover => { s with smpInitDone := true, initialized := s.initialized ++ [i] }.goto i .calibrate
  | .calibrate => s.goto i .firstRunning
  | .firstRunning => { s with running := s.running + 1 }.goto i (.init 1)
  | .init id => if id < totalProcs then (s.ipi id 0x4500).goto i (.reset id) else s.goto i .perCore
  | .reset id => (s.ipi id (0x4600 ||| resetEIP / 2 ^ 12)).goto i (.spin id)
  | .spin id => if s.running ≤ id then s else s.goto i (.init (id + 1))
  | .nextRunning => { s with running := s.running + 1 }.goto i .smpInit
  | .smpInit => s.goto i .perCore
  | .perCore => s.goto i .sti
  | .sti => s.goto i .arrive
  | .arrive =>
    let myOrder := s.howManyAreHere + 1
    { s with howManyAreHere := myOrder }.goto i (if myOrder = totalProcs then .mainThread else .stop)
  | .mainThread => { s with mains := s.mains ++ [i] }.goto i .stop
  | .stop => s

/-- The first processor has come from the boot sector, and the others are off. -/
def Fresh (s : Startup others) : Prop :=
  s.pc 0 = .resetEIP ∧ (∀ i, i ≠ 0 → s.pc i = .off) ∧ (∀ i, s.esp i = none) ∧ s.smpInitDone = false ∧ s.running = 0 ∧
    s.howManyAreHere = 0 ∧ s.initialized = [] ∧ s.mains = []

def start (others : ℕ) : Startup others where
  pc := Function.update (fun _ => .off) 0 .resetEIP
  esp _ := none
  smpInitDone := false
  running := 0
  howManyAreHere := 0
  initialized := []
  mains := []

theorem start_fresh (others : ℕ) : (start others).Fresh := by
  refine ⟨rfl, fun i hi => ?_, fun _ => rfl, rfl, rfl, rfl, rfl, rfl⟩
  change Function.update (fun _ => StartPc.off) 0 .resetEIP i = _
  rw [Function.update_of_ne hi]

end Startup

/-- The processors that have been started take their steps in any order. -/
def startupMachine (others : ℕ) : Machine (Startup others) (Fin (others + 1)) where
  init := Startup.Fresh
  enabled s i := s.pc i ≠ .off ∧ s.pc i ≠ .waitForSipi
  next := Startup.next

instance {others : ℕ} (s : Startup others) (i : Fin (others + 1)) : Decidable ((startupMachine others).enabled s i) :=
  inferInstanceAs (Decidable (s.pc i ≠ .off ∧ s.pc i ≠ .waitForSipi))

namespace Startup

variable {others : ℕ} {s : Startup others} {i : Fin (others + 1)}

/-- Where the processor `i` stands when the first one is at `p`. -/
def Goes (i : ℕ) (p q : StartPc) : Prop :=
  match p with
  | .init id => if i < id then q.counted = true else q = .off
  | .reset id => if i < id then q.counted = true else if i = id then q = .waitForSipi else q = .off
  | .spin id =>
    if i < id then q.counted = true else if i = id then q.starting = true ∨ q.counted = true else q = .off
  | p => if p.common then q.counted = true else q = .off

/-- What `running` is when the first processor is at `p`, and whether the one that it waits for is counted. -/
def Runs (total running : ℕ) (isCounted : ℕ → Prop) (p : StartPc) : Prop :=
  match p with
  | .init id => 1 ≤ id ∧ id ≤ total ∧ running = id
  | .reset id => 1 ≤ id ∧ id < total ∧ running = id
  | .spin id => 1 ≤ id ∧ id < total ∧ (running = id ∧ ¬ isCounted id ∨ running = id + 1 ∧ isCounted id)
  | .off | .waitForSipi | .nextRunning | .smpInit => False
  | p => if p.common then running = total else running = 0

def CountedAt (s : Startup others) (id : ℕ) : Prop := ∃ i : Fin (others + 1), (i : ℕ) = id ∧ (s.pc i).counted = true

/-- What the first processor is about goes with what the others do. -/
structure Inv (s : Startup others) : Prop where
  goes : ∀ i : Fin (others + 1), i ≠ 0 → Goes i (s.pc 0) (s.pc i)
  runs : Runs (others + 1) s.running s.CountedAt (s.pc 0)
  done : s.smpInitDone = (s.pc 0).initDone
  esp : ∀ i, s.esp i = (s.pc i).stack i
  initialized : s.initialized = if (s.pc 0).initDone then [0] else []

theorem countedAt_iff : s.CountedAt i ↔ (s.pc i).counted = true := by
  constructor
  · rintro ⟨j, hj, hcounted⟩
    rw [Fin.ext hj] at hcounted
    exact hcounted
  · exact fun hcounted => ⟨i, rfl, hcounted⟩

theorem runs_congr {total running : ℕ} {C C' : ℕ → Prop} {p : StartPc} (h : Runs total running C p)
    (hC : ∀ id, 1 ≤ id → (C id ↔ C' id)) : Runs total running C' p := by
  cases p with
  | spin id =>
    obtain ⟨hpos, hlt, hrunning⟩ := h
    rw [hC id hpos] at hrunning
    exact ⟨hpos, hlt, hrunning⟩
  | _ => exact h

theorem goes_counted {i : ℕ} {p q q' : StartPc} (h : Goes i p q) (hq : q.counted = true) (hq' : q'.counted = true) :
    Goes i p q' := by
  have hoff : q ≠ .off := by
    rintro rfl
    cases hq
  have hwait : q ≠ .waitForSipi := by
    rintro rfl
    cases hq
  unfold Goes at h ⊢
  split at h <;> split_ifs at h ⊢ <;> simp_all

/-- A processor that takes a step is counted, or the first one waits for it. -/
theorem goes_enabled {i : ℕ} {p q : StartPc} (h : Goes i p q) (hoff : q ≠ .off) (hwait : q ≠ .waitForSipi) :
    q.counted = true ∨ p = .spin i ∧ q.starting = true := by
  unfold Goes at h
  split at h <;> split_ifs at h <;> simp_all [or_comm]

theorem ne_of_flag {f : StartPc → Bool} {q q' : StartPc} (h : f q = true) (h' : f q' = false) : q ≠ q' := by
  rintro rfl
  rw [h] at h'
  cases h'

/-- A step behind the two branches leaves all but the place in the code. -/
theorem next_common (h : (s.pc i).common = true) : ∃ q, q.common = true ∧ (s.next i).pc = Function.update s.pc i q ∧
    (s.next i).esp = s.esp ∧ (s.next i).smpInitDone = s.smpInitDone ∧ (s.next i).running = s.running ∧
    (s.next i).initialized = s.initialized := by
  cases hpc : s.pc i with
  | perCore => exact ⟨.sti, rfl, by simp [Startup.next, hpc, goto]⟩
  | sti => exact ⟨.arrive, rfl, by simp [Startup.next, hpc, goto]⟩
  | arrive =>
    refine ⟨if s.howManyAreHere + 1 = others + 1 then .mainThread else .stop, ?_, by simp [Startup.next, hpc, goto]⟩
    split_ifs
    · rfl
    · rfl
  | mainThread => exact ⟨.stop, rfl, by simp [Startup.next, hpc, goto]⟩
  | stop =>
    have hsame : Function.update s.pc i .stop = s.pc := by rw [← hpc, Function.update_eq_self]
    exact ⟨.stop, rfl, by simp [Startup.next, hpc, hsame]⟩
  | _ => simp [hpc, StartPc.common] at h

theorem common_counted {q : StartPc} (h : q.common = true) : q.counted = true := by
  rw [StartPc.counted, h, Bool.or_true]

theorem common_stack {q : StartPc} (h : q.common = true) (id : ℕ) : q.stack id = some (.forCPU id) := by
  cases q <;> first | rfl | cases h

theorem goes_common {i : ℕ} {p q : StartPc} (h : p.common = true) : Goes i p q ↔ q.counted = true := by
  cases p <;> first | exact Iff.rfl | cases h

theorem runs_common {total running : ℕ} {C : ℕ → Prop} {p : StartPc} (h : p.common = true) :
    Runs total running C p ↔ running = total := by
  cases p <;> first | exact Iff.rfl | cases h

theorem common_initDone {p : StartPc} (h : p.common = true) : p.initDone = true := by
  cases p <;> first | rfl | cases h

/-- The first processor goes on. The others may be told something, but stay counted or not, and where their stacks are. -/
theorem Inv.first {s' : Startup others} (h : Inv s)
    (hothers : ∀ i, i ≠ 0 → (s'.pc i).counted = (s.pc i).counted ∧ (s'.pc i).stack i = (s.pc i).stack i)
    (hgoes : ∀ i : Fin (others + 1), i ≠ 0 → Goes i (s.pc 0) (s.pc i) → Goes i (s'.pc 0) (s'.pc i))
    (hesp : s'.esp = Function.update s.esp 0 ((s'.pc 0).stack 0)) (hruns : Runs (others + 1) s'.running s.CountedAt (s'.pc 0))
    (hdone : s'.smpInitDone = (s'.pc 0).initDone)
    (hinitialized : s'.initialized = if (s'.pc 0).initDone then [0] else []) : Inv s' := by
  constructor
  case goes => exact fun i hi => hgoes i hi (h.goes i hi)
  case runs =>
    apply runs_congr hruns
    intro id hid
    have hne : ∀ i : Fin (others + 1), (i : ℕ) = id → i ≠ 0 := by
      rintro i hi rfl
      rw [Fin.val_zero] at hi
      omega
    constructor
    · rintro ⟨i, hi, hcounted⟩
      exact ⟨i, hi, by rw [(hothers i (hne i hi)).1]; exact hcounted⟩
    · rintro ⟨i, hi, hcounted⟩
      exact ⟨i, hi, by rw [← (hothers i (hne i hi)).1]; exact hcounted⟩
  case done => exact hdone
  case esp =>
    intro i
    by_cases hi : i = 0
    · rw [hi, hesp, Function.update_self]
      rfl
    · rw [hesp, Function.update_of_ne hi, (hothers i hi).2]
      exact h.esp i
  case initialized => exact hinitialized

/-- The first processor goes on, and the others do not notice. -/
theorem Inv.first_goto {s' : Startup others} {p : StartPc} (h : Inv s) (hpc : s'.pc = Function.update s.pc 0 p)
    (hesp : s'.esp = Function.update s.esp 0 (p.stack 0))
    (hgoes : ∀ i : Fin (others + 1), i ≠ 0 → Goes i (s.pc 0) (s.pc i) → Goes i p (s.pc i))
    (hruns : Runs (others + 1) s'.running s.CountedAt p) (hdone : s'.smpInitDone = p.initDone)
    (hinitialized : s'.initialized = if p.initDone then [0] else []) : Inv s' := by
  have hself : s'.pc 0 = p := by rw [hpc, Function.update_self]
  have hothers : ∀ i, i ≠ 0 → s'.pc i = s.pc i := fun i hi => by rw [hpc, Function.update_of_ne hi]
  apply h.first
  · exact fun i hi => by rw [hothers i hi]; exact ⟨rfl, rfl⟩
  · intro i hi hold
    rw [hself, hothers i hi]
    exact hgoes i hi hold
  · rw [hself, hesp]
  · rw [hself]
    exact hruns
  · rw [hself, hdone]
  · rw [hself, hinitialized]

/-- Another processor goes on, and is counted now if it has not been. -/
theorem Inv.other {s' : Startup others} {q : StartPc} (h : Inv s) (hi : i ≠ 0) (hpc : s'.pc = Function.update s.pc i q)
    (hesp : s'.esp = Function.update s.esp i (q.stack i)) (hdone : s'.smpInitDone = s.smpInitDone)
    (hinitialized : s'.initialized = s.initialized)
    (hstep : (s.pc i).counted = true ∧ q.counted = true ∧ s'.running = s.running ∨
      s.pc 0 = .spin i ∧ (s.pc i).counted = false ∧ (q.starting = true ∧ q.counted = false ∧ s'.running = s.running ∨
        q.counted = true ∧ s'.running = s.running + 1)) : Inv s' := by
  have hself : s'.pc i = q := by rw [hpc, Function.update_self]
  have hothers : ∀ j, j ≠ i → s'.pc j = s.pc j := fun j hj => by rw [hpc, Function.update_of_ne hj]
  have hfirst : s'.pc 0 = s.pc 0 := hothers 0 hi.symm
  constructor
  case goes =>
    intro j hj
    rw [hfirst]
    by_cases hji : j = i
    · subst hji
      rw [hself]
      rcases hstep with ⟨hold, hnew, -⟩ | ⟨hspin, -, hnew⟩
      · exact goes_counted (h.goes j hj) hold hnew
      · have hnew' : q.starting = true ∨ q.counted = true := hnew.imp (fun hq => hq.1) fun hq => hq.1
        simpa [hspin, Goes] using hnew'
    · rw [hothers j hji]
      exact h.goes j hj
  case runs =>
    have hcounted : ∀ id : ℕ, id ≠ i → (s.CountedAt id ↔ s'.CountedAt id) := by
      intro id hid
      constructor
      · rintro ⟨j, rfl, hj⟩
        exact ⟨j, rfl, by rw [hothers j fun hji => hid (congrArg Fin.val hji)]; exact hj⟩
      · rintro ⟨j, rfl, hj⟩
        exact ⟨j, rfl, by rw [← hothers j fun hji => hid (congrArg Fin.val hji)]; exact hj⟩
    rw [hfirst]
    rcases hstep with ⟨hold, hnew, hrunning⟩ | ⟨hspin, hold, hnew⟩
    · rw [hrunning]
      apply runs_congr h.runs
      intro id _
      by_cases hid : id = (i : ℕ)
      · rw [hid, countedAt_iff, countedAt_iff, hself, hold, hnew]
      · exact hcounted id hid
    · have hruns := h.runs
      rw [hspin] at hruns ⊢
      obtain ⟨hpos, hlt, ⟨hrunning, -⟩ | ⟨-, hc⟩⟩ := hruns
      · refine ⟨hpos, hlt, ?_⟩
        rw [countedAt_iff, hself]
        rcases hnew with ⟨-, hq, hsame⟩ | ⟨hq, hmore⟩
        · exact .inl ⟨by omega, by rw [hq]; exact Bool.false_ne_true⟩
        · exact .inr ⟨by omega, hq⟩
      · rw [countedAt_iff, hold] at hc
        cases hc
  case done => rw [hfirst, hdone, h.done]
  case esp =>
    intro j
    by_cases hji : j = i
    · rw [hji, hesp, Function.update_self, hself]
    · rw [hesp, Function.update_of_ne hji, hothers j hji]
      exact h.esp j
  case initialized => rw [hfirst, hinitialized, h.initialized]

theorem esp_self (h : Inv s) {q : StartPc} (hq : q.stack i = (s.pc i).stack i) :
    s.esp = Function.update s.esp i (q.stack i) := by
  rw [hq, ← h.esp i, Function.update_eq_self]

theorem Inv.next_other (h : Inv s) (hi : i ≠ 0) (hoff : s.pc i ≠ .off) (hwait : s.pc i ≠ .waitForSipi) :
    Inv (s.next i) := by
  rcases goes_enabled (h.goes i hi) hoff hwait with hcounted | ⟨hspin, hstarting⟩
  · cases hcommon : (s.pc i).common with
    | true =>
      obtain ⟨q, hq, hpc, hesp, hdone, hrunning, hinitialized⟩ := next_common hcommon
      refine h.other hi hpc ?_ hdone hinitialized (.inl ⟨hcounted, common_counted hq, hrunning⟩)
      rw [hesp]
      exact esp_self h (by rw [common_stack hq, common_stack hcommon])
    | false =>
      have hpc : s.pc i = .smpInit := by simpa [StartPc.counted, hcommon] using hcounted
      have hnext : s.next i = s.goto i .perCore := by rw [Startup.next, hpc]
      rw [hnext]
      exact h.other hi rfl (esp_self h (by rw [hpc]; rfl)) rfl rfl (.inl ⟨hcounted, rfl, rfl⟩)
  · have hdone : s.smpInitDone = true := by rw [h.done, hspin]; rfl
    cases hpc : s.pc i with
    | resetEIP =>
      have hnext : s.next i = (s.setEsp i .tempStack).goto i .pickKernelStack := by rw [Startup.next, hpc]
      rw [hnext]
      exact h.other hi rfl rfl rfl rfl (.inr ⟨hspin, by rw [hpc]; rfl, .inl ⟨rfl, rfl, rfl⟩⟩)
    | pickKernelStack =>
      have hnext : s.next i = (s.setEsp i (.forCPU i)).goto i .kernelInit := by
        rw [Startup.next, hpc, hdone]
        rfl
      rw [hnext]
      exact h.other hi rfl rfl rfl rfl (.inr ⟨hspin, by rw [hpc]; rfl, .inl ⟨rfl, rfl, rfl⟩⟩)
    | kernelInit =>
      have hnext : s.next i = s.goto i .nextRunning := by
        rw [Startup.next, hpc, hdone]
        rfl
      rw [hnext]
      exact h.other hi rfl (esp_self h (by rw [hpc]; rfl)) rfl rfl (.inr ⟨hspin, by rw [hpc]; rfl, .inl ⟨rfl, rfl, rfl⟩⟩)
    | nextRunning =>
      have hnext : s.next i = { s with running := s.running + 1 }.goto i .smpInit := by rw [Startup.next, hpc]
      rw [hnext]
      exact h.other hi rfl (esp_self h (by rw [hpc]; rfl)) rfl rfl (.inr ⟨hspin, by rw [hpc]; rfl, .inr ⟨rfl, rfl⟩⟩)
    | _ => simp [hpc, StartPc.starting] at hstarting

theorem ipi_pc {id : ℕ} (hid : id < 2 ^ 8) (num : ℕ) :
    (s.ipi id num).pc i = if (i : ℕ) = id then (s.pc i).receive num else s.pc i := by
  have hshift : id * 2 ^ 24 % 2 ^ 32 / 2 ^ 24 = id := by omega
  change (if (i : ℕ) = id * 2 ^ 24 % 2 ^ 32 / 2 ^ 24 then _ else _) = _
  rw [hshift]

/-- The first processor tells the one that is next something, and goes on. -/
theorem Inv.next_ipi {id num : ℕ} {p q r : StartPc} (h : Inv s) (hid : id < 2 ^ 8)
    (hfirst : (s.pc 0).stack 0 = p.stack 0 ∧ (s.pc 0).initDone = p.initDone)
    (hq : ∀ i : Fin (others + 1), (i : ℕ) = id → s.pc i = q) (hreceive : q.receive num = r)
    (hr : q.counted = r.counted ∧ ∀ i, q.stack i = r.stack i) (hgoes : Goes id p r)
    (hrest : ∀ (i : ℕ) q, i ≠ 0 → i ≠ id → Goes i (s.pc 0) q → Goes i p q)
    (hruns : Runs (others + 1) s.running s.CountedAt p) : Inv ((s.ipi id num).goto 0 p) := by
  have hself : ((s.ipi id num).goto 0 p).pc 0 = p := by
    change Function.update (s.ipi id num).pc 0 p 0 = p
    rw [Function.update_self]
  have hpc : ∀ i : Fin (others + 1), i ≠ 0 → ((s.ipi id num).goto 0 p).pc i = if (i : ℕ) = id then r else s.pc i := by
    intro i hi
    change Function.update (s.ipi id num).pc 0 p i = _
    rw [Function.update_of_ne hi, ipi_pc hid]
    split_ifs with heq
    · rw [hq i heq, hreceive]
    · rfl
  apply h.first
  · intro i hi
    rw [hpc i hi]
    split_ifs with heq
    · rw [hq i heq]
      exact ⟨hr.1.symm, (hr.2 i).symm⟩
    · exact ⟨rfl, rfl⟩
  · intro i hi hold
    rw [hself, hpc i hi]
    split_ifs with heq
    · rw [heq]
      exact hgoes
    · exact hrest i _ (Fin.val_ne_zero_iff.mpr hi) heq hold
  · rw [hself, ← hfirst.1]
    change s.esp = _
    have hesp := h.esp 0
    rw [Fin.val_zero] at hesp
    rw [← hesp, Function.update_eq_self]
  · rw [hself]
    exact hruns
  · rw [hself, ← hfirst.2]
    exact h.done
  · rw [hself, ← hfirst.2]
    exact h.initialized

/-- The processor that is told to wait is off. -/
theorem Inv.at_init {id : ℕ} (h : Inv s) (hpc : s.pc 0 = .init id) (hi : (i : ℕ) = id) : s.pc i = .off := by
  have hruns := h.runs
  rw [hpc] at hruns
  have hpos : 1 ≤ id := hruns.1
  have hgoes := h.goes i (by rintro rfl; rw [Fin.val_zero] at hi; omega)
  rw [hpc] at hgoes
  change if (i : ℕ) < id then _ else _ at hgoes
  rw [if_neg (by omega)] at hgoes
  exact hgoes

theorem Inv.at_reset {id : ℕ} (h : Inv s) (hpc : s.pc 0 = .reset id) (hi : (i : ℕ) = id) : s.pc i = .waitForSipi := by
  have hruns := h.runs
  rw [hpc] at hruns
  have hpos : 1 ≤ id := hruns.1
  have hgoes := h.goes i (by rintro rfl; rw [Fin.val_zero] at hi; omega)
  rw [hpc] at hgoes
  change if (i : ℕ) < id then _ else if (i : ℕ) = id then _ else _ at hgoes
  rw [if_neg (by omega), if_pos hi] at hgoes
  exact hgoes

/-- The steps behind the two branches. -/
theorem Inv.next_common (h : Inv s) (hcommon : (s.pc 0).common = true) : Inv (s.next 0) := by
  have hruns := h.runs
  have hdone := h.done
  have hinitialized := h.initialized
  obtain ⟨q, hq, hpc, hesp, hdone', hrunning, hinitialized'⟩ := Startup.next_common hcommon
  rw [runs_common hcommon] at hruns
  refine h.first_goto hpc ?_ (fun i _ hq' => ?_) ?_ ?_ ?_
  · rw [hesp]
    exact esp_self h (by rw [common_stack hq, common_stack hcommon])
  · rw [goes_common hcommon] at hq'
    rw [goes_common hq]
    exact hq'
  · rw [runs_common hq, hrunning, hruns]
  · rw [hdone', hdone, common_initDone hcommon, common_initDone hq]
  · rw [hinitialized', hinitialized, common_initDone hcommon, common_initDone hq]

theorem Inv.next_firstRunning (h : Inv s) (hpc : s.pc 0 = .firstRunning) : Inv (s.next 0) := by
  have hruns := h.runs
  have hdone := h.done
  have hinitialized := h.initialized
  rw [hpc] at hruns hdone hinitialized
  have hnext : s.next 0 = { s with running := s.running + 1 }.goto 0 (.init 1) := by rw [Startup.next, hpc]
  rw [hnext]
  refine h.first_goto rfl (esp_self h (by rw [hpc]; rfl)) (fun i hi hq => ?_) ?_ hdone hinitialized
  · have hi' := Fin.val_ne_zero_iff.mpr hi
    rw [hpc] at hq
    change if (i : ℕ) < 1 then _ else _
    rw [if_neg (by omega)]
    exact hq
  · have hzero : s.running = 0 := hruns
    exact ⟨Nat.le_refl 1, by omega, by change s.running + 1 = 1; omega⟩

/-- The next processor is told to wait, or all of them have been started. -/
theorem Inv.next_init {id : ℕ} (h : Inv s) (hmax : others < MAX_PROCS) (hpc : s.pc 0 = .init id) : Inv (s.next 0) := by
  have hruns := h.runs
  have hdone := h.done
  have hinitialized := h.initialized
  have hsmall : others < 16 := hmax
  rw [hpc] at hruns hdone hinitialized
  obtain ⟨hpos, hle, hrunning⟩ := hruns
  by_cases hid : id < others + 1
  · have hnext : s.next 0 = (s.ipi id 0x4500).goto 0 (.reset id) := by
      rw [Startup.next, hpc]
      exact if_pos hid
    rw [hnext]
    refine h.next_ipi (q := .off) (r := .waitForSipi) (by omega) ?_ ?_ rfl ⟨rfl, fun _ => rfl⟩ ?_ ?_ ?_
    · rw [hpc]
      exact ⟨rfl, rfl⟩
    · exact fun i hi => h.at_init hpc hi
    · change if id < id then _ else if id = id then _ else _
      rw [if_neg (Nat.lt_irrefl id), if_pos rfl]
    · intro i q _ hi hq
      rw [hpc] at hq
      change if i < id then _ else if i = id then _ else _
      rw [if_neg hi]
      exact hq
    · exact ⟨hpos, hid, hrunning⟩
  · have hnext : s.next 0 = s.goto 0 .perCore := by
      rw [Startup.next, hpc]
      exact if_neg hid
    rw [hnext]
    refine h.first_goto rfl (esp_self h (by rw [hpc]; rfl)) (fun i hi hq => ?_) ?_ hdone hinitialized
    · rw [hpc] at hq
      change if (i : ℕ) < id then _ else _ at hq
      rw [if_pos (by omega)] at hq
      exact hq
    · change s.running = others + 1
      omega

/-- The processor that waits is started. -/
theorem Inv.next_reset {id : ℕ} (h : Inv s) (hmax : others < MAX_PROCS) (hpc : s.pc 0 = .reset id) : Inv (s.next 0) := by
  have hruns := h.runs
  have hdone := h.done
  have hinitialized := h.initialized
  have hsmall : others < 16 := hmax
  rw [hpc] at hruns hdone hinitialized
  obtain ⟨hpos, hlt, hrunning⟩ := hruns
  have hnext : s.next 0 = (s.ipi id (0x4600 ||| resetEIP / 2 ^ 12)).goto 0 (.spin id) := by rw [Startup.next, hpc]
  have hwaits : ∀ i : Fin (others + 1), (i : ℕ) = id → s.pc i = .waitForSipi := fun i hi => h.at_reset hpc hi
  rw [hnext]
  refine h.next_ipi (q := .waitForSipi) (r := .resetEIP) (by omega) ?_ hwaits rfl ⟨rfl, fun _ => rfl⟩ ?_ ?_ ?_
  · rw [hpc]
    exact ⟨rfl, rfl⟩
  · change if id < id then _ else if id = id then _ else _
    rw [if_neg (Nat.lt_irrefl id), if_pos rfl]
    exact .inl rfl
  · intro i q _ hi hq
    rw [hpc] at hq
    change if i < id then _ else if i = id then _ else _ at hq
    change if i < id then _ else if i = id then _ else _
    rw [if_neg hi] at hq ⊢
    exact hq
  · refine ⟨hpos, hlt, .inl ⟨hrunning, ?_⟩⟩
    rintro ⟨i, hi, hcounted⟩
    rw [hwaits i hi] at hcounted
    cases hcounted

/-- The first processor goes on when the one that it has started is counted. -/
theorem Inv.next_spin {id : ℕ} (h : Inv s) (hpc : s.pc 0 = .spin id) : Inv (s.next 0) := by
  have hruns := h.runs
  have hdone := h.done
  have hinitialized := h.initialized
  rw [hpc] at hruns hdone hinitialized
  obtain ⟨hpos, hlt, hrunning⟩ := hruns
  rcases hrunning with ⟨hrunning, -⟩ | ⟨hrunning, hcounted⟩
  · have hnext : s.next 0 = s := by
      rw [Startup.next, hpc]
      exact if_pos (by omega)
    rw [hnext]
    exact h
  · have hnext : s.next 0 = s.goto 0 (.init (id + 1)) := by
      rw [Startup.next, hpc]
      exact if_neg (by omega)
    rw [hnext]
    refine h.first_goto rfl (esp_self h (by rw [hpc]; rfl)) (fun i hi hq => ?_) ⟨by omega, by omega, hrunning⟩ hdone
      hinitialized
    rw [hpc] at hq
    change if (i : ℕ) < id then _ else if (i : ℕ) = id then _ else _ at hq
    change if (i : ℕ) < id + 1 then _ else _
    by_cases heq : (i : ℕ) = id
    · rw [if_pos (by omega)]
      rw [← heq, countedAt_iff] at hcounted
      exact hcounted
    · by_cases hlt' : (i : ℕ) < id
      · rw [if_pos hlt'] at hq
        rw [if_pos (by omega)]
        exact hq
      · rw [if_neg hlt', if_neg heq] at hq
        rw [if_neg (by omega)]
        exact hq

theorem Inv.next_first (h : Inv s) (hmax : others < MAX_PROCS) : Inv (s.next 0) := by
  have hruns := h.runs
  have hdone := h.done
  have hinitialized := h.initialized
  cases hcommon : (s.pc 0).common with
  | true => exact h.next_common hcommon
  | false =>
    cases hpc : s.pc 0 with
    | resetEIP =>
      rw [hpc] at hruns hdone hinitialized
      have hnext : s.next 0 = (s.setEsp 0 .tempStack).goto 0 .pickKernelStack := by rw [Startup.next, hpc]
      rw [hnext]
      exact h.first_goto rfl rfl (fun i _ hq => by rw [hpc] at hq; exact hq) hruns hdone hinitialized
    | pickKernelStack =>
      rw [hpc] at hruns hdone hinitialized
      have hnext : s.next 0 = (s.setEsp 0 (.forCPU 0)).goto 0 .kernelInit := by
        rw [Startup.next, hpc, hdone]
        rfl
      rw [hnext]
      exact h.first_goto rfl rfl (fun i _ hq => by rw [hpc] at hq; exact hq) hruns hdone hinitialized
    | kernelInit =>
      rw [hpc] at hruns hdone hinitialized
      have hnext : s.next 0 = s.goto 0 .discover := by
        rw [Startup.next, hpc, hdone]
        rfl
      rw [hnext]
      exact h.first_goto rfl (esp_self h (by rw [hpc]; rfl)) (fun i _ hq => by rw [hpc] at hq; exact hq) hruns hdone
        hinitialized
    | discover =>
      rw [hpc] at hruns hdone hinitialized
      have hnext : s.next 0 = { s with smpInitDone := true, initialized := s.initialized ++ [0] }.goto 0 .calibrate := by
        rw [Startup.next, hpc]
      rw [hnext]
      refine h.first_goto rfl (esp_self h (by rw [hpc]; rfl)) (fun i _ hq => by rw [hpc] at hq; exact hq) hruns rfl ?_
      change s.initialized ++ [0] = [0]
      rw [hinitialized]
      rfl
    | calibrate =>
      rw [hpc] at hruns hdone hinitialized
      have hnext : s.next 0 = s.goto 0 .firstRunning := by rw [Startup.next, hpc]
      rw [hnext]
      exact h.first_goto rfl (esp_self h (by rw [hpc]; rfl)) (fun i _ hq => by rw [hpc] at hq; exact hq) hruns hdone
        hinitialized
    | firstRunning => exact h.next_firstRunning hpc
    | init id => exact h.next_init hmax hpc
    | reset id => exact h.next_reset hmax hpc
    | spin id => exact h.next_spin hpc
    | off => rw [hpc] at hruns; exact hruns.elim
    | waitForSipi => rw [hpc] at hruns; exact hruns.elim
    | nextRunning => rw [hpc] at hruns; exact hruns.elim
    | smpInit => rw [hpc] at hruns; exact hruns.elim
    | _ => rw [hpc] at hcommon; cases hcommon

theorem Inv.fresh (h : s.Fresh) : Inv s := by
  obtain ⟨hfirst, hothers, hesp, hdone, hrunning, -, hinitialized, -⟩ := h
  constructor
  case goes =>
    intro i hi
    rw [hfirst, hothers i hi]
    exact rfl
  case runs =>
    rw [hfirst]
    exact hrunning
  case done =>
    rw [hfirst]
    exact hdone
  case esp =>
    intro i
    rw [hesp i]
    by_cases hi : i = 0
    · rw [hi, hfirst]
      rfl
    · rw [hothers i hi]
      rfl
  case initialized =>
    rw [hfirst]
    exact hinitialized

theorem Inv.reachable (hmax : others < MAX_PROCS) (h : (startupMachine others).Reachable s) : Inv s := by
  apply h.invariant
  · exact fun s hs => .fresh hs
  · intro s i hs he
    by_cases hi : i = 0
    · rw [hi]
      exact hs.next_first hmax
    · exact hs.next_other hi he.1 he.2

end Startup
end AudioKernel
