import AudioKernel.Threads.Preemption

/-! The task state segments: `block` in `threads.h` tells the processor which stack to take when the program on it is
interrupted. -/
namespace AudioKernel
open Lib

/-- `interruptEsp` of a thread whose constructor has allocated its stack at the given address. -/
def interruptEsp (stack : ℕ → ℕ) : Tcb → ℕ
  | .idle _ => 0
  | .thread t => stack t + 2047 * 4

/-- The `core_id` and `next_tcb` of a call of `block` that is about to switch. -/
def Stage.switch? : Stage → Option (ℕ × Tcb)
  | switch core _ next => some (core, next)
  | _ => none

def Cpu.switching? (p : Cpu) (c : ℕ) : Option (ℕ × Tcb) :=
  (p.calls (p.stack c)).head?.bind fun call => call.stage.switch?

/-- The scheduler, `esp0` of every core, and whether the call of `block` on a core has stored it and not yet switched. -/
structure TssState where
  sched : Sched
  esp0 : ℕ → ℕ
  stored : ℕ → Bool

/-- A step of the scheduler, or the store to `tss[core_id].esp0` on core `c`. -/
inductive TssAct
  | sched (a : Act)
  | store (c : ℕ)

namespace TssState

variable (stack : ℕ → ℕ) (s : TssState)

/-- The switch comes after the store. -/
def ready : Act → Prop
  | .block c => s.sched.cpu.switching? c ≠ none → s.stored c = true
  | _ => True

def enabled : TssAct → Prop
  | .sched a => s.sched.enabled a ∧ s.ready a
  | .store c => s.sched.cpu.pending c = none ∧ s.sched.cpu.switching? c ≠ none ∧ s.stored c = false

def next : TssAct → TssState
  | .sched (.block c) => { s with sched := s.sched.next (.block c), stored := Function.update s.stored c false }
  | .sched a => { s with sched := s.sched.next a }
  | .store c =>
    match s.sched.cpu.switching? c with
    | none => s
    | some (core, next) =>
      { s with
        esp0 := Function.update s.esp0 core (interruptEsp stack next)
        stored := Function.update s.stored c true }

instance (a : Act) : Decidable (s.ready a) :=
  match a with
  | .block _ => by unfold ready; infer_instance
  | .tick _ | .callback _ | .yield _ | .stop _ | .stopLoop _ | .create _ | .schedule _ | .down _ _ | .downLocked _
  | .up _ _ | .upLocked _ | .lock _ _ | .unlock _ _ | .wait _ _ | .relock _ | .notify _ _ _ | .notifyLoop _ | .reap _
  | .delete _ => .isTrue trivial

instance (a : TssAct) : Decidable (s.enabled a) :=
  match a with
  | .sched _ | .store _ => by unfold enabled; infer_instance

end TssState

def TssAct.core : TssAct → ℕ
  | .sched a => a.core
  | .store c => c

def tssMachine (stack : ℕ → ℕ) (cores : ℕ) : Machine TssState TssAct where
  init s := s.sched.Booted ∧ (∀ c, s.esp0 c = 0) ∧ ∀ c, s.stored c = false
  enabled s a := a.core < cores ∧ s.enabled a
  next s a := s.next stack a

instance (stack : ℕ → ℕ) (cores : ℕ) (s : TssState) (a : TssAct) : Decidable ((tssMachine stack cores).enabled s a) :=
  inferInstanceAs (Decidable (_ ∧ _))

/-- A step on core `c` leaves the other cores and the calls of the other threads as they are. -/
structure Cpu.Local (p p' : Cpu) (c : ℕ) : Prop where
  stack : ∀ c', c' ≠ c → p'.stack c' = p.stack c'
  pending : ∀ c', c' ≠ c → p'.pending c' = p.pending c'
  calls : ∀ t, t ≠ p.stack c → p'.calls t = p.calls t

namespace Cpu

variable {p p' : Cpu} {c c' : ℕ}

theorem Local.refl (p : Cpu) (c : ℕ) : Local p p c := ⟨fun _ _ => rfl, fun _ _ => rfl, fun _ _ => rfl⟩

theorem local_setCalls (hstack : p'.stack = p.stack) (hpending : p'.pending = p.pending) (hcalls : p'.calls = p.calls)
    (l : List Call) : Local p (p'.setCalls (p.stack c) l) c := by
  constructor
  · intro c' _
    exact congrFun hstack c'
  · intro c' _
    exact congrFun hpending c'
  · intro t ht
    change Function.update p'.calls (p.stack c) l t = _
    rw [Function.update_of_ne ht, hcalls]

theorem local_resume (p : Cpu) (c : ℕ) : Local p (p.resume c) c := by
  dsimp only [resume]
  split
  · constructor
    · exact fun _ _ => rfl
    · exact fun c' hc => Function.update_of_ne hc ..
    · exact fun t ht => Function.update_of_ne ht ..
  · constructor
    · exact fun _ _ => rfl
    · exact fun c' hc => Function.update_of_ne hc ..
    · exact fun _ _ => rfl

theorem resume_stack (p : Cpu) (c : ℕ) : (p.resume c).stack = p.stack := by
  dsimp only [resume]
  split <;> rfl

/-- What a call of `block` is about to do depends on its own core. -/
theorem Local.switching (h : Local p p' c) (ha : Apart p) (hne : c' ≠ c) : p'.switching? c' = p.switching? c' := by
  unfold switching?
  rw [h.stack c' hne, h.calls _ (Control.stack_ne ha hne)]

/-- What is known of a call of `block` that is about to switch. -/
theorem switching_facts {core : ℕ} {next : Tcb} (h : Control p) (hp : p.pending c = none)
    (hswitch : p.switching? c = some (core, next)) :
    ∃ call rest me, p.calls (p.stack c) = call :: rest ∧ call.stage = .switch core me next ∧ core = c ∧
      p.active c = next ∧ p.noPreempt next = true := by
  have hrunning := (h.core c).running hp
  cases hcalls : p.calls (p.stack c) with
  | nil => simp [switching?, hcalls] at hswitch
  | cons call rest =>
    rw [hcalls] at hrunning
    change StageOk p c call.stage at hrunning
    cases hst : call.stage with
    | switch core' me next' =>
      simp only [switching?, hcalls, List.head?_cons, Option.bind_some, hst, Stage.switch?, Option.some.injEq,
        Prod.mk.injEq] at hswitch
      obtain ⟨rfl, rfl⟩ := hswitch
      rw [hst] at hrunning
      obtain ⟨hcore, -, hactive, hpre, -⟩ := hrunning
      exact ⟨call, rest, me, rfl, hst, hcore, hactive, hpre⟩
    | enter | remove | activate | away => simp [switching?, hcalls, hst, Stage.switch?] at hswitch

end Cpu

namespace Sched

variable {s : Sched} {c : ℕ} {call : Call} {rest : List Call}

theorem local_stepBlock : Cpu.Local s.cpu (s.stepBlock c call rest).cpu c := by
  cases hst : call.stage with
  | enter =>
    simp only [stepBlock, hst]
    apply Cpu.local_setCalls <;> rfl
  | remove core me =>
    cases hready : s.readyQ with
    | cons next q =>
      simp only [stepBlock, hst, hready]
      apply Cpu.local_setCalls <;> rfl
    | nil =>
      simp only [stepBlock, hst, hready]
      split_ifs
      · apply Cpu.local_setCalls <;> rfl
      · exact .refl ..
      · apply Cpu.local_setCalls <;> rfl
  | activate core me next =>
    simp only [stepBlock, hst]
    apply Cpu.local_setCalls <;> rfl
  | switch core me next =>
    simp only [stepBlock, hst]
    constructor
    · exact fun c' hc => Function.update_of_ne hc ..
    · exact fun c' hc => Function.update_of_ne hc ..
    · exact fun t ht => Function.update_of_ne ht ..
  | away =>
    simp only [stepBlock, hst]
    exact .refl ..

/-- `block` goes over to another stack in its last step only. -/
theorem stepBlock_stack (hcalls : s.cpu.calls (s.cpu.stack c) = call :: rest) :
    (s.stepBlock c call rest).cpu.stack c = ((s.cpu.switching? c).map Prod.snd).getD (s.cpu.stack c) := by
  cases hst : call.stage with
  | remove core me =>
    cases hready : s.readyQ with
    | cons next q =>
      simp only [stepBlock, Cpu.switching?, hcalls, List.head?_cons, Option.bind_some, hst, Stage.switch?, hready]
      rfl
    | nil =>
      simp only [stepBlock, Cpu.switching?, hcalls, List.head?_cons, Option.bind_some, hst, Stage.switch?, hready]
      split_ifs <;> rfl
  | switch core me next =>
    simp only [stepBlock, Cpu.switching?, hcalls, List.head?_cons, Option.bind_some, hst, Stage.switch?]
    exact Function.update_self ..
  | enter | activate | away =>
    simp only [stepBlock, Cpu.switching?, hcalls, List.head?_cons, Option.bind_some, hst, Stage.switch?]
    rfl

theorem schedule_cpu (s : Sched) (t : Tcb) : (s.schedule t).cpu = s.cpu := by
  unfold Sched.schedule
  split_ifs <;> rfl

/-- A callback changes the cores as `resume` does, or only what it has still to do. -/
theorem local_stepCallback {cb : Callback} {me : Tcb} :
    Cpu.Local s.cpu (s.stepCallback c cb me).cpu c ∧ (s.stepCallback c cb me).cpu.stack = s.cpu.stack := by
  have hresume : ∀ s' : Sched, s'.cpu = s.cpu →
      Cpu.Local s.cpu (s'.resume c).cpu c ∧ (s'.resume c).cpu.stack = s.cpu.stack := by
    intro s' hcpu
    change Cpu.Local s.cpu (s'.cpu.resume c) c ∧ (s'.cpu.resume c).stack = _
    rw [hcpu]
    exact ⟨Cpu.local_resume _ _, Cpu.resume_stack _ _⟩
  have hpending : ∀ x, Cpu.Local s.cpu { s.cpu with pending := Function.update s.cpu.pending c x } c := by
    intro x
    exact ⟨fun _ _ => rfl, fun c' hc => Function.update_of_ne hc .., fun _ _ => rfl⟩
  cases cb with
  | yield | waitSchedule => exact hresume _ (schedule_cpu s me)
  | stop =>
    apply hresume
    split_ifs <;> rfl
  | down i => exact hresume _ rfl
  | wait k oldEpoch => exact ⟨hpending _, rfl⟩
  | waitLocked k oldEpoch =>
    simp only [stepCallback]
    split_ifs
    · exact hresume _ rfl
    · exact ⟨hpending _, rfl⟩

/-- A step keeps to its core. -/
theorem local_next (s : Sched) (a : Act) : Cpu.Local s.cpu (s.next a).cpu a.core := by
  by_cases hblock : ∃ c, a = .block c
  · obtain ⟨c, rfl⟩ := hblock
    cases hcalls : s.cpu.calls (s.cpu.stack c) with
    | nil =>
      rw [next_block_nil hcalls]
      exact .refl ..
    | cons call rest =>
      rw [next_block_cons hcalls]
      exact local_stepBlock
  by_cases hcallback : ∃ c, a = .callback c
  · obtain ⟨c, rfl⟩ := hcallback
    cases hp : s.cpu.pending c with
    | none =>
      rw [next_callback_none hp]
      exact .refl ..
    | some x =>
      rw [next_callback_some hp]
      exact local_stepCallback.1
  push Not at hblock hcallback
  rcases Inv.next_cpu hblock hcallback with hsame | ⟨o, cb, hcall⟩
  · rw [hsame]
    exact .refl ..
  · rw [hcall]
    apply Cpu.local_setCalls <;> rfl

/-- Only `block` goes over to another stack. -/
theorem next_stack {a : Act} (hblock : ∀ c, a ≠ .block c) : (s.next a).cpu.stack = s.cpu.stack := by
  by_cases hcallback : ∃ c, a = .callback c
  · obtain ⟨c, rfl⟩ := hcallback
    cases hp : s.cpu.pending c with
    | none => rw [next_callback_none hp]
    | some x =>
      rw [next_callback_some hp]
      exact local_stepCallback.2
  push Not at hcallback
  rcases Inv.next_cpu hblock hcallback with hsame | ⟨o, cb, hcall⟩
  · rw [hsame]
  · rw [hcall]
    rfl

/-- While `block` is about to switch, nothing else happens on its core: a tick finds the next thread marked. -/
theorem next_of_switching {a : Act} {core : ℕ} {next : Tcb} (h : Inv s) (he : s.enabled a)
    (hp : s.cpu.pending a.core = none) (hswitch : s.cpu.switching? a.core = some (core, next))
    (hblock : ∀ c, a ≠ .block c) : s.next a = s := by
  obtain ⟨call, rest, me, hcalls, -, -, hactive, hpre⟩ := Cpu.switching_facts h.control hp hswitch
  by_cases htick : ∃ c, a = .tick c
  · obtain ⟨c, rfl⟩ := htick
    change s.cpu.active c = next at hactive
    change s.apitHandler c = s
    rw [apitHandler, hactive, if_pos (.inr hpre)]
  · push Not at htick
    have hcallback : ∀ c, a ≠ .callback c := by
      rintro c rfl
      change s.callbackReady c = true at he
      change s.cpu.pending c = none at hp
      simp [callbackReady, hp] at he
    have hout := (Inv.outside_of_enabled he htick hblock hcallback).2
    change s.cpu.calls (s.cpu.stack a.core) = [] at hout
    rw [hcalls] at hout
    cases hout

end Sched

namespace TssState

variable {stack : ℕ → ℕ} {cores : ℕ} {s : TssState} {c : ℕ}

/-- `esp0` of core `c` is that of the thread on it, or once it has been stored, of the one that it is about to switch to. -/
def Right (stack : ℕ → ℕ) (s : TssState) (c : ℕ) : Prop :=
  (s.stored c = false → s.esp0 c = interruptEsp stack (s.sched.current c)) ∧
    (s.stored c = true → s.sched.cpu.pending c = none ∧ ∃ core next,
      s.sched.cpu.switching? c = some (core, next) ∧ s.esp0 c = interruptEsp stack next)

structure Inv (stack : ℕ → ℕ) (s : TssState) : Prop where
  sched : s.sched.Inv
  right : ∀ c, Right stack s c

/-- A step on another core. -/
theorem Inv.right_other {t : TssState} {c' : ℕ} (h : Inv stack s) (hlocal : Cpu.Local s.sched.cpu t.sched.cpu c)
    (hesp0 : t.esp0 c' = s.esp0 c') (hstored : t.stored c' = s.stored c') (hne : c' ≠ c) : Right stack t c' := by
  have hright := h.right c'
  unfold Right Sched.current at hright ⊢
  rw [hesp0, hstored, hlocal.stack c' hne, hlocal.pending c' hne, hlocal.switching h.sched.apart hne]
  exact hright

/-- The store goes to the core that `block` runs on. -/
theorem Inv.next_store (h : Inv stack s) (he : s.enabled (.store c)) : Inv stack (s.next stack (.store c)) := by
  obtain ⟨hp, hswitch, -⟩ := he
  cases hcall : s.sched.cpu.switching? c with
  | none => exact absurd hcall hswitch
  | some x =>
    obtain ⟨core, next⟩ := x
    obtain ⟨call, rest, me, -, -, rfl, -⟩ := Cpu.switching_facts h.sched.control hp hcall
    have hnext : s.next stack (.store core) = { s with
        esp0 := Function.update s.esp0 core (interruptEsp stack next)
        stored := Function.update s.stored core true } := by
      simp only [TssState.next, hcall]
    rw [hnext]
    refine ⟨h.sched, fun c' => ?_⟩
    by_cases hc : c' = core
    · subst hc
      constructor
      · intro hfalse
        change Function.update s.stored c' true c' = false at hfalse
        rw [Function.update_self] at hfalse
        cases hfalse
      · intro _
        exact ⟨hp, c', next, hcall, Function.update_self ..⟩
    · exact h.right_other (.refl s.sched.cpu core) (Function.update_of_ne hc ..) (Function.update_of_ne hc ..) hc

/-- `block` switches to the thread whose `interruptEsp` it has stored, and the other steps of it stay on their stack. -/
theorem Inv.next_block (h : Inv stack s) (he : s.enabled (.sched (.block c))) :
    Inv stack (s.next stack (.sched (.block c))) := by
  obtain ⟨henabled, hready⟩ := he
  have hp : s.sched.cpu.pending c = none := henabled.1
  refine ⟨(h.sched.sound henabled).inv, fun c' => ?_⟩
  by_cases hc : c' = c
  · subst hc
    constructor
    · intro _
      change s.esp0 c' = interruptEsp stack ((s.sched.next (.block c')).cpu.stack c')
      cases hcalls : s.sched.cpu.calls (s.sched.cpu.stack c') with
      | nil => exact absurd hcalls henabled.2
      | cons call rest =>
        rw [Sched.next_block_cons hcalls, Sched.stepBlock_stack hcalls]
        cases hswitch : s.sched.cpu.switching? c' with
        | none =>
          have hstored : s.stored c' = false := by
            by_contra hstored
            obtain ⟨-, core, next, hsome, -⟩ := (h.right c').2 (by simpa using hstored)
            rw [hswitch] at hsome
            cases hsome
          exact (h.right c').1 hstored
        | some x =>
          have hstored : s.stored c' = true := hready (by rw [hswitch]; exact Option.some_ne_none x)
          obtain ⟨-, core, next, hsome, hesp0⟩ := (h.right c').2 hstored
          obtain rfl : x = (core, next) := Option.some.inj (hswitch.symm.trans hsome)
          exact hesp0
    · intro htrue
      change Function.update s.stored c' false c' = true at htrue
      rw [Function.update_self] at htrue
      cases htrue
  · exact h.right_other (s.sched.local_next (.block c)) rfl (Function.update_of_ne hc ..) hc

/-- The other steps stay on their stack, and between the store and the switch there is none. -/
theorem Inv.next_other {a : Act} (h : Inv stack s) (he : s.sched.enabled a) (hblock : ∀ c, a ≠ .block c) :
    Inv stack { s with sched := s.sched.next a } := by
  refine ⟨(h.sched.sound he).inv, fun c => ?_⟩
  by_cases hc : c = a.core
  · subst hc
    constructor
    · intro hstored
      change s.esp0 a.core = interruptEsp stack ((s.sched.next a).cpu.stack a.core)
      rw [Sched.next_stack hblock]
      exact (h.right _).1 hstored
    · intro hstored
      obtain ⟨hp, core, next, hswitch, hesp0⟩ := (h.right _).2 hstored
      have hsame := Sched.next_of_switching h.sched he hp hswitch hblock
      change (s.sched.next a).cpu.pending a.core = none ∧ ∃ core next,
        (s.sched.next a).cpu.switching? a.core = some (core, next) ∧ s.esp0 a.core = interruptEsp stack next
      rw [hsame]
      exact ⟨hp, core, next, hswitch, hesp0⟩
  · exact h.right_other (s.sched.local_next a) rfl rfl hc

theorem Inv.next {a : TssAct} (h : Inv stack s) (he : s.enabled a) : Inv stack (s.next stack a) := by
  cases a with
  | store c => exact h.next_store he
  | sched a =>
    by_cases hblock : ∃ c, a = .block c
    · obtain ⟨c, rfl⟩ := hblock
      exact h.next_block he
    · push Not at hblock
      have hnext : s.next stack (.sched a) = { s with sched := s.sched.next a } := by
        cases a with
        | block c => exact absurd rfl (hblock c)
        | _ => rfl
      rw [hnext]
      exact h.next_other he.1 hblock

theorem inv_reachable (h : (tssMachine stack cores).Reachable s) : Inv stack s := by
  refine h.invariant (fun s ⟨hbooted, hesp0, hstored⟩ => ⟨Sched.booted_inv hbooted, fun c => ⟨fun _ => ?_, ?_⟩⟩)
    fun s a hs he => hs.next he.2
  · change s.esp0 c = interruptEsp stack (s.sched.cpu.stack c)
    rw [hesp0, (hbooted.1 c).1]
    rfl
  · intro htrue
    rw [hstored] at htrue
    cases htrue

/-- Whatever the interleaving, and on whichever core a thread has come to run: when a program on it is interrupted, the
processor takes the stack of that thread. The thread is not deleted, and no other core takes its stack. -/
theorem esp0_own (h : (tssMachine stack cores).Reachable s) {t : ℕ} (hout : s.sched.Outside c)
    (ht : s.sched.current c = .thread t) :
    s.esp0 c = stack t + 2047 * 4 ∧ s.sched.Live t ∧ ∀ c', c' ≠ c → s.sched.current c' ≠ .thread t := by
  have hinv := inv_reachable h
  refine ⟨?_, ?_, fun c' hne => ?_⟩
  · have hstored : s.stored c = false := by
      by_contra hstored
      obtain ⟨-, core, next, hswitch, -⟩ := (hinv.right c).2 (by simpa using hstored)
      have hcalls : s.sched.cpu.calls (s.sched.cpu.stack c) = [] := hout.2
      simp [Cpu.switching?, hcalls] at hswitch
    rw [(hinv.right c).1 hstored, ht]
    rfl
  · apply hinv.sched.onePlace.live t (.core c)
    rw [← ht]
    exact Control.stack_onCore s.sched.cpu c
  · rw [← ht]
    exact Control.stack_ne hinv.sched.apart hne

/-- After `threadsInit`, with two threads in `readyQ`. -/
def boot : TssState := ⟨Sched.boot 2, fun _ => 0, fun _ => false⟩

/-- Thread 0 gets to run on core 1, yields, and goes on on core 0. -/
def migration : List TssAct :=
  [.sched (.stopLoop 1), .sched (.block 1), .sched (.block 1), .sched (.block 1), .store 1, .sched (.block 1),
    .sched (.callback 1), .sched (.yield 1), .sched (.block 1), .sched (.block 1), .sched (.block 1), .store 1,
    .sched (.block 1), .sched (.callback 1), .sched (.stopLoop 0), .sched (.block 0), .sched (.block 0),
    .sched (.block 0), .store 0, .sched (.block 0), .sched (.callback 0)]

theorem reachable_migration : ∃ s, (tssMachine (fun t => 0x200000 + 0x2000 * t) 2).Reachable s ∧ s.sched.Outside 0 ∧
    s.sched.current 0 = .thread 0 ∧ s.sched.Outside 1 ∧ s.sched.current 1 = .thread 1 := by
  obtain ⟨s, hrun, hcheck⟩ : ∃ s, (tssMachine (fun t => 0x200000 + 0x2000 * t) 2).Run boot migration s ∧
      decide (s.sched.Outside 0 ∧ s.sched.current 0 = .thread 0 ∧ s.sched.Outside 1 ∧ s.sched.current 1 = .thread 1) =
        true := Machine.exists_run_of_replay (by decide +kernel)
  exact ⟨s, hrun.reachable (.init ⟨Sched.boot_booted 2, fun _ => rfl, fun _ => rfl⟩), of_decide_eq_true hcheck⟩

theorem esp0_own_migration : ∃ s, (tssMachine (fun t => 0x200000 + 0x2000 * t) 2).Reachable s ∧
    s.esp0 0 = 0x200000 + 2047 * 4 ∧ s.esp0 1 = 0x202000 + 2047 * 4 := by
  obtain ⟨s, h, hout₀, ht₀, hout₁, ht₁⟩ := reachable_migration
  exact ⟨s, h, (esp0_own h hout₀ ht₀).1, (esp0_own h hout₁ ht₁).1⟩

end TssState
end AudioKernel
