import AudioKernel.Threads.Runs

/-! When `no_preempt` is set: only from the beginning of a call of `block` to its switch, unless the call returns
early. -/
namespace AudioKernel
open Lib

/-- The thread is the `me` of the call of `block` that runs on core `c`, or the `next_tcb` of it. -/
def Cpu.Masks (p : Cpu) (c : ℕ) (t : Tcb) : Prop :=
  match (p.calls (p.stack c)).head?.map Call.stage with
  | some (.remove _ _) | some (.activate _ _ _) => t = p.stack c
  | some (.switch _ _ next) => t = p.stack c ∨ t = next
  | _ => False

namespace Sched

variable {s s' : Sched} {cores c : ℕ}

/-- `block` finds no thread in `readyQ` and returns, as `CanReturn` lets it. -/
def EarlyReturn (s : Sched) : Act → Prop
  | .block c => ∃ call rest core me, s.cpu.calls (s.current c) = call :: rest ∧ call.stage = .remove core me ∧
      call.option = .canReturn ∧ s.readyQ = []
  | _ => False

/-- The same, looked up. -/
def returnsEarly (s : Sched) (c : ℕ) : Bool :=
  match s.cpu.calls (s.current c) with
  | [] => false
  | call :: _ => (call.stage matches .remove _ _) && decide (call.option = .canReturn ∧ s.readyQ = [])

theorem returnsEarly_iff (s : Sched) (c : ℕ) : s.returnsEarly c = true ↔ s.EarlyReturn (.block c) := by
  unfold returnsEarly EarlyReturn
  constructor
  · intro h
    cases hcalls : s.cpu.calls (s.current c) with
    | nil =>
      rw [hcalls] at h
      cases h
    | cons call rest =>
      rw [hcalls] at h
      obtain ⟨hremove, hreturn⟩ := Bool.and_eq_true_iff.mp h
      obtain ⟨hoption, hready⟩ := of_decide_eq_true hreturn
      cases hstage : call.stage <;> rw [hstage] at hremove <;> try cases hremove
      exact ⟨call, rest, _, _, hcalls, hstage, hoption, hready⟩
  · rintro ⟨call, rest, core, me, hcalls, hstage, hoption, hready⟩
    rw [hcalls]
    simp only [hstage, hoption, hready, and_self, decide_true, Bool.and_true]

instance (s : Sched) : (a : Act) → Decidable (s.EarlyReturn a)
  | .block c => decidable_of_iff (s.returnsEarly c = true) (s.returnsEarly_iff c)
  | .tick _ | .callback _ | .yield _ | .stop _ | .stopLoop _ | .create _ | .schedule _ | .down _ _ | .downLocked _
  | .up _ _ | .upLocked _ | .lock _ _ | .unlock _ _ | .wait _ _ | .relock _ | .notify _ _ _ | .notifyLoop _ | .reap _
  | .delete _ => .isFalse id

/-- A thread that runs outside `block` is not marked, and the next tick on its core makes it call `yield`. -/
def Preemptible (s : Sched) : Prop :=
  ∀ c t, s.cpu.pending c = none → s.current c = .thread t → (∀ call ∈ s.cpu.calls (s.current c), call.stage = .enter) →
    s.cpu.noPreempt (.thread t) = false ∧ s.next (.tick c) = { s with cpu := s.cpu.call c .canReturn .yield }

/-- Every marked thread is in a call of `block` that has begun and has not switched yet. -/
def Marked (s : Sched) : Prop := ∀ t, s.cpu.noPreempt (.thread t) = true → ∃ c, s.cpu.Masks c (.thread t)

namespace Inv

theorem masks_onCore {t : Tcb} (hm : s.cpu.Masks c t) : t ∈ s.cpu.onCore c := by
  unfold Cpu.Masks at hm
  cases hcalls : s.cpu.calls (s.cpu.stack c) with
  | nil => simp [hcalls] at hm
  | cons call rest =>
    cases hst : call.stage <;> simp only [hcalls, List.head?_cons, Option.map_some, hst] at hm
    case remove => rw [hm]; exact Control.stack_onCore s.cpu c
    case activate => rw [hm]; exact Control.stack_onCore s.cpu c
    case switch core me next =>
      rcases hm with hm | hm
      · rw [hm]
        exact Control.stack_onCore s.cpu c
      · rw [hm]
        exact Control.onCore_stage call rest hcalls (by rw [hst]; rfl)

theorem not_masks_of_enter {t : Tcb} (hcalls : ∀ call ∈ s.cpu.calls (s.cpu.stack c), call.stage = .enter) :
    ¬ s.cpu.Masks c t := by
  unfold Cpu.Masks
  cases hl : s.cpu.calls (s.cpu.stack c) with
  | nil => simp
  | cons call rest => simp [hcalls call (by simp [hl])]

/-- A thread whose calls of `block` have not begun is not marked. -/
theorem unmarked (h : Inv s) (hm : s.Marked) {t : ℕ} (hcur : s.current c = .thread t)
    (hcalls : ∀ call ∈ s.cpu.calls (s.current c), call.stage = .enter) : s.cpu.noPreempt (.thread t) = false := by
  by_contra hpre
  obtain ⟨c', hc'⟩ := hm t (by simpa using hpre)
  have hon : .thread t ∈ s.cpu.onCore c := by
    rw [← hcur]
    exact Control.stack_onCore s.cpu c
  have hc : c' = c := h.apart c' c _ (masks_onCore hc') hon
  rw [hc] at hc'
  exact not_masks_of_enter hcalls hc'

theorem preemptible (h : Inv s) (hm : s.Marked) : s.Preemptible := by
  intro c t hp hcur hcalls
  have hpre := h.unmarked hm hcur hcalls
  have hactive : s.cpu.active c = .thread t := (h.control.active_eq hp hcalls).trans hcur
  refine ⟨hpre, ?_⟩
  simp [next, apitHandler, hactive, hpre, Tcb.isIdle]

/-- What a core masks depends on the calls of the thread that runs on it. -/
theorem masks_congr {p p' : Cpu} {t : Tcb} (hstack : p'.stack c = p.stack c)
    (hcalls : p'.calls (p.stack c) = p.calls (p.stack c)) : p'.Masks c t ↔ p.Masks c t := by
  unfold Cpu.Masks
  rw [hstack, hcalls]

/-- A step on core `c` keeps the property when every thread that it leaves marked is masked by `c`, or was marked
before and not masked by `c`. -/
theorem marked_of_core (h : Inv s) (hm : s.Marked) (hstack : ∀ c', c' ≠ c → s'.cpu.stack c' = s.cpu.stack c')
    (hcalls : ∀ t, t ≠ s.cpu.stack c → s'.cpu.calls t = s.cpu.calls t)
    (hmark : ∀ t, s'.cpu.noPreempt (.thread t) = true →
      s'.cpu.Masks c (.thread t) ∨ s.cpu.noPreempt (.thread t) = true ∧ ¬ s.cpu.Masks c (.thread t)) : s'.Marked := by
  intro t ht
  rcases hmark t ht with hnew | ⟨hold, hnot⟩
  · exact ⟨c, hnew⟩
  · obtain ⟨c', hc'⟩ := hm t hold
    have hne : c' ≠ c := fun he => hnot (by rw [← he]; exact hc')
    exact ⟨c', (masks_congr (hstack c' hne) (hcalls _ (Control.stack_ne h.apart hne))).mpr hc'⟩

theorem marked_of_cpu (hm : s.Marked) (hcpu : s'.cpu = s.cpu) : s'.Marked := by
  unfold Marked
  rw [hcpu]
  exact hm

/-- A call of `block` that has not begun marks no thread. -/
theorem marked_call (h : Inv s) (hm : s.Marked) (hcalls : ∀ call ∈ s.cpu.calls (s.cpu.stack c), call.stage = .enter)
    {o : BlockOption} {cb : Callback} (hcpu : s'.cpu = s.cpu.call c o cb) : s'.Marked := by
  apply h.marked_of_core (c := c) hm
  · intro c' _
    rw [hcpu]
    rfl
  · intro t ht
    rw [hcpu]
    exact Function.update_of_ne ht ..
  · intro t ht
    rw [hcpu] at ht
    exact .inr ⟨ht, not_masks_of_enter hcalls⟩

/-- Outside `block` and its callbacks, a step changes the cores at most by a new call of `block`. -/
theorem next_cpu {a : Act} (hblock : ∀ c, a ≠ .block c) (hcallback : ∀ c, a ≠ .callback c) :
    (s.next a).cpu = s.cpu ∨ ∃ o cb, (s.next a).cpu = s.cpu.call a.core o cb := by
  cases a with
  | block c => exact absurd rfl (hblock c)
  | callback c => exact absurd rfl (hcallback c)
  | tick c =>
    simp only [next, apitHandler]
    split_ifs
    · exact .inl rfl
    · exact .inr ⟨_, _, rfl⟩
  | yield c | stopLoop c | wait c k => exact .inr ⟨_, _, rfl⟩
  | schedule c =>
    have hcpu : ∀ (s' : Sched) t, (s'.schedule t).cpu = s'.cpu := by
      intro s' t
      unfold Sched.schedule
      split_ifs <;> rfl
    simp only [next]
    split
    · exact .inl (hcpu _ _)
    · exact .inl (hcpu _ _)
    · exact .inl rfl
  | downLocked c =>
    simp only [next]
    split
    · split
      · exact .inl rfl
      · exact .inr ⟨_, _, rfl⟩
    · exact .inl rfl
  | upLocked c =>
    simp only [next]
    split
    · split <;> exact .inl rfl
    · exact .inl rfl
  | relock c =>
    simp only [next]
    split <;> exact .inl rfl
  | notifyLoop c =>
    simp only [next]
    split
    · split <;> exact .inl rfl
    · exact .inl rfl
    · exact .inl rfl
  | reap c =>
    simp only [next]
    split <;> exact .inl rfl
  | delete c =>
    simp only [next]
    split <;> exact .inl rfl
  | _ => exact .inl rfl

theorem outside_of_enabled {a : Act} (he : s.enabled a) (htick : ∀ c, a ≠ .tick c) (hblock : ∀ c, a ≠ .block c)
    (hcallback : ∀ c, a ≠ .callback c) : s.Outside a.core := by
  cases a with
  | tick c => exact absurd rfl (htick c)
  | block c => exact absurd rfl (hblock c)
  | callback c => exact absurd rfl (hcallback c)
  | yield c | stop c | create c | reap c | stopLoop c => exact he.1
  | down c i | up c i | lock c k | unlock c k | wait c k | notify c k limit => exact he.1.1
  | _ => exact he.1

section block
variable {call : Call} {rest : List Call} {cb : Callback} {me : Tcb}

/-- `block` marks its thread on entry and the next one when it activates it, and the switch clears both. -/
theorem marked_block (h : Inv s) (hm : s.Marked) (hp : s.cpu.pending c = none)
    (hcalls : s.cpu.calls (s.cpu.stack c) = call :: rest)
    (hno : ∀ core me, call.stage = .remove core me → call.option = .canReturn → s.readyQ ≠ []) :
    (s.stepBlock c call rest).Marked := by
  have hr := (h.control.core c).running hp
  rw [hcalls] at hr
  change StageOk s.cpu c call.stage at hr
  cases hst : call.stage with
  | enter =>
    rw [hst] at hr
    change s.cpu.active c = s.cpu.stack c at hr
    simp only [stepBlock, hst]
    apply h.marked_of_core (c := c) hm
    case hstack => exact fun _ _ => rfl
    case hcalls => exact fun t ht => Function.update_of_ne ht ..
    intro t ht
    change Function.update s.cpu.noPreempt (s.cpu.active c) true (.thread t) = true at ht
    by_cases htc : Tcb.thread t = s.cpu.stack c
    · refine .inl ?_
      simp [Cpu.Masks, Cpu.setCalls, Cpu.setNoPreempt, current, htc]
    · rw [hr, Function.update_of_ne htc] at ht
      refine .inr ⟨ht, ?_⟩
      simp [Cpu.Masks, hcalls, hst]
  | remove core me =>
    have hstep : ∀ st next, st = Stage.activate core me next → ∀ s' : Sched,
        s'.cpu = s.cpu.setCalls (s.cpu.stack c) ({ call with stage := st } :: rest) → s'.Marked := by
      intro st next hst' s' hcpu
      apply h.marked_of_core (c := c) hm
      · intro c' _
        rw [hcpu]
        rfl
      · intro t ht
        rw [hcpu]
        exact Function.update_of_ne ht ..
      · intro t ht
        rw [hcpu] at ht ⊢
        by_cases htc : Tcb.thread t = s.cpu.stack c
        · refine .inl ?_
          simp [Cpu.Masks, Cpu.setCalls, htc, hst']
        · refine .inr ⟨ht, ?_⟩
          simpa [Cpu.Masks, hcalls, hst] using htc
    cases hready : s.readyQ with
    | cons t q =>
      rw [stepBlock_next hst hready]
      exact hstep _ t rfl _ rfl
    | nil =>
      have ho : call.option ≠ .canReturn := fun ho => hno core me hst ho hready
      by_cases hidle : me.isIdle = true
      · rw [stepBlock_retry hst hready ho hidle]
        exact hm
      · rw [stepBlock_idle hst hready ho hidle]
        exact hstep _ _ rfl _ rfl
  | activate core me next =>
    rw [hst] at hr
    simp only [stepBlock, hst]
    apply h.marked_of_core (c := c) hm
    case hstack => exact fun _ _ => rfl
    case hcalls => exact fun t ht => Function.update_of_ne ht ..
    intro t ht
    change Function.update s.cpu.noPreempt next true (.thread t) = true at ht
    by_cases htn : Tcb.thread t = next
    · refine .inl ?_
      simp [Cpu.Masks, Cpu.setCalls, Cpu.setNoPreempt, current, htn]
    · by_cases htc : Tcb.thread t = s.cpu.stack c
      · refine .inl ?_
        simp [Cpu.Masks, Cpu.setCalls, Cpu.setNoPreempt, current, htc]
      · rw [Function.update_of_ne htn] at ht
        refine .inr ⟨ht, ?_⟩
        simpa [Cpu.Masks, hcalls, hst] using htc
  | switch core me next =>
    rw [hst] at hr
    obtain ⟨-, hme, -⟩ := hr
    simp only [stepBlock, hst]
    apply h.marked_of_core (c := c) hm
    case hstack => exact fun c' hc => Function.update_of_ne hc ..
    case hcalls => exact fun t ht => Function.update_of_ne ht ..
    intro t ht
    change Function.update (Function.update s.cpu.noPreempt me false) next false (.thread t) = true at ht
    have htn : Tcb.thread t ≠ next := by
      intro he
      rw [he, Function.update_self] at ht
      cases ht
    rw [Function.update_of_ne htn] at ht
    have htm : Tcb.thread t ≠ me := by
      intro he
      rw [he, Function.update_self] at ht
      cases ht
    rw [Function.update_of_ne htm] at ht
    refine .inr ⟨ht, ?_⟩
    rw [hme] at htm
    simp [Cpu.Masks, hcalls, hst, htm, htn]
  | away =>
    simp only [stepBlock, hst]
    exact hm

theorem marked_callback (h : Inv s) (hm : s.Marked) (hp : s.cpu.pending c = some (cb, me)) :
    (s.stepCallback c cb me).Marked := by
  have hnot : ∀ t, ¬ s.cpu.Masks c t := by
    intro t
    have hs := ((h.control.core c).switching cb me hp).2.1
    unfold Cpu.Masks
    cases hl : s.cpu.calls (s.cpu.stack c) with
    | nil => simp
    | cons call rest =>
      rw [hl] at hs
      have hst : call.stage = .away := hs
      simp [hst]
  have hresume : ∀ s' : Sched, s'.cpu = s.cpu.resume c → s'.Marked := by
    intro s' hcpu
    obtain ⟨rest, -, -, hres⟩ := h.control.resume_eq hp
    rw [hres] at hcpu
    apply h.marked_of_core (c := c) hm
    · intro c' _
      rw [hcpu]
    · intro t ht
      rw [hcpu]
      exact Function.update_of_ne ht ..
    · intro t ht
      rw [hcpu] at ht
      exact .inr ⟨ht, hnot _⟩
  have hpending : ∀ (s' : Sched) x, s'.cpu = { s.cpu with pending := x } → s'.Marked := by
    intro s' x hcpu
    apply h.marked_of_core (c := c) hm
    · intro c' _
      rw [hcpu]
    · intro t ht
      rw [hcpu]
    · intro t ht
      rw [hcpu] at ht
      exact .inr ⟨ht, hnot _⟩
  cases cb with
  | yield | waitSchedule =>
    apply hresume
    change (Sched.schedule s me).cpu.resume c = _
    unfold Sched.schedule
    split_ifs <;> rfl
  | stop =>
    apply hresume
    change Cpu.resume (ite (me.isIdle = true) s { s with zombies := s.zombies ++ [me] }).cpu c = _
    split_ifs <;> rfl
  | down i => exact hresume _ rfl
  | wait k epoch => exact hpending _ _ rfl
  | waitLocked k epoch =>
    by_cases hepoch : (s.cond k).epoch = epoch
    · simp only [stepCallback, hepoch, if_true]
      exact hresume _ rfl
    · simp only [stepCallback, hepoch, if_false]
      exact hpending _ _ rfl

end block

theorem marked_outside (h : Inv s) (hm : s.Marked) {a : Act} (he : s.enabled a) (htick : ∀ c, a ≠ .tick c)
    (hblock : ∀ c, a ≠ .block c) (hcallback : ∀ c, a ≠ .callback c) : (s.next a).Marked := by
  rcases next_cpu (s := s) hblock hcallback with hcpu | ⟨o, cb, hcpu⟩
  · exact marked_of_cpu hm hcpu
  · apply h.marked_call hm _ hcpu
    intro call hcall
    have hnil : s.cpu.calls (s.cpu.stack a.core) = [] := (outside_of_enabled he htick hblock hcallback).2
    rw [hnil] at hcall
    cases hcall

theorem marked_next (h : Inv s) (hm : s.Marked) {a : Act} (he : s.enabled a) (hno : ¬ s.EarlyReturn a) :
    (s.next a).Marked := by
  cases a with
  | block c =>
    cases hcalls : s.cpu.calls (s.cpu.stack c) with
    | nil =>
      rw [next_block_nil hcalls]
      exact hm
    | cons call rest =>
      rw [next_block_cons hcalls]
      apply h.marked_block hm he.1 hcalls
      intro core me hst ho hready
      exact hno ⟨call, rest, core, me, hcalls, hst, ho, hready⟩
  | callback c =>
    cases hp : s.cpu.pending c with
    | none =>
      rw [next_callback_none hp]
      exact hm
    | some x =>
      rw [next_callback_some hp]
      exact h.marked_callback hm hp
  | tick c =>
    by_cases hpre : s.cpu.noPreempt (s.cpu.active c) = true
    · apply marked_of_cpu hm
      simp [next, apitHandler, hpre]
    · rcases next_cpu (s := s) (a := .tick c) (by simp) (by simp) with hcpu | ⟨o, cb, hcpu⟩
      · exact marked_of_cpu hm hcpu
      · exact h.marked_call hm (h.enter_of_unmarked he hpre) hcpu
  | _ => exact h.marked_outside hm he (by simp) (by simp) (by simp)

/-- The thread that an early return goes back to stays marked. -/
theorem early_return (h : Inv s) {a : Act} (he : s.enabled a) (hearly : s.EarlyReturn a) : ¬ (s.next a).Preemptible := by
  cases a with
  | block c =>
    obtain ⟨call, rest, core, me, hcalls, hst, ho, hready⟩ := hearly
    have hr := (h.control.core c).running he.1
    have htail := h.control.tails (s.cpu.stack c)
    rw [current] at hcalls
    rw [hcalls] at hr htail
    change StageOk s.cpu c call.stage at hr
    rw [hst] at hr
    have hnext : s.next (.block c) = { s with cpu := s.cpu.setCalls (s.cpu.stack c) rest } := by
      rw [next_block_cons hcalls]
      exact stepBlock_return hst hready ho
    obtain ⟨t, ht⟩ : ∃ t, s.cpu.stack c = .thread t := by
      cases hstack : s.cpu.stack c with
      | thread t => exact ⟨t, rfl⟩
      | idle k =>
        have hidle := h.control.idle_calls k call (by rw [← hstack, hcalls]; exact List.mem_cons_self)
        exact absurd (ho.symm.trans hidle.1) (by simp)
    intro hpreemptible
    rw [hnext] at hpreemptible
    have hback : ∀ call' ∈ Function.update s.cpu.calls (s.cpu.stack c) rest (s.cpu.stack c), call'.stage = .enter := by
      rw [Function.update_self]
      exact htail
    have hpre : s.cpu.noPreempt (.thread t) = false := (hpreemptible c t he.1 ht hback).1
    rw [← ht, hr.2.2.2] at hpre
    cases hpre
  | _ => exact hearly.elim

end Inv

/-- In a run in which no call of `block` returns early, every thread that runs outside `block` can be preempted;
and right after any early return there is one that cannot. -/
theorem preemptible_without_early_return (cores : ℕ) :
    (∀ s, ((schedMachine cores).restrict fun s a => ¬ s.EarlyReturn a).Reachable s → s.Preemptible) ∧
      ∀ s a, (schedMachine cores).Reachable s → (schedMachine cores).enabled s a → s.EarlyReturn a →
        ¬ ((schedMachine cores).next s a).Preemptible := by
  constructor
  · intro s h
    have hinv : ∀ s, ((schedMachine cores).restrict fun s a => ¬ s.EarlyReturn a).Reachable s → Inv s :=
      fun s hs => reachable_inv hs.of_restrict
    have hmarked : s.Marked := by
      apply h.invariant_of hinv
      · intro s hs t ht
        rw [hs.2.2.1 t] at ht
        cases ht
      · intro s a hi hm he
        exact hi.marked_next hm he.1.2 he.2
    exact (hinv s h).preemptible hmarked
  · intro s a h he hearly
    exact (reachable_inv h).early_return he.2 hearly

/-- Thread 0 gets to run and calls `yield`. -/
def firstYield : List Act := firstRemove ++ [.block 0, .block 0, .callback 0, .yield 0, .block 0]

def yieldOver : List Act := firstYield ++ [.block 0, .block 0, .block 0, .callback 0]

/-- Thread 1 runs and can be preempted; and where `yield` finds no thread, thread 0 cannot be from then on. -/
theorem boot_preemptible :
    (∃ s, ((schedMachine 1).restrict fun s a => ¬ s.EarlyReturn a).Reachable s ∧ s.current 0 = .thread 1 ∧
      s.cpu.noPreempt (.thread 1) = false ∧ s.next (.tick 0) = { s with cpu := s.cpu.call 0 .canReturn .yield }) ∧
      ∃ s, (schedMachine 1).Reachable s ∧ s.EarlyReturn (.block 0) ∧ ¬ (s.next (.block 0)).Preemptible := by
  constructor
  · have hrun : ∃ s, ((schedMachine 1).restrict fun s a => ¬ s.EarlyReturn a).Run (boot 2) yieldOver s ∧
        decide (s.cpu.pending 0 = none ∧ s.current 0 = .thread 1 ∧ s.cpu.calls (s.current 0) = []) = true :=
      Machine.exists_run_of_replay (by decide)
    obtain ⟨s, hs, hcheck⟩ := hrun
    obtain ⟨hpending, hcurrent, hcalls⟩ := of_decide_eq_true hcheck
    have hreach := hs.reachable (.init (boot_booted 2))
    refine ⟨s, hreach, hcurrent, (preemptible_without_early_return 1).1 s hreach 0 _ hpending hcurrent ?_⟩
    rw [hcalls]
    exact fun call hcall => absurd hcall List.not_mem_nil
  · have hrun : ∃ s, (schedMachine 1).Run (boot 1) firstYield s ∧
        decide ((schedMachine 1).enabled s (.block 0) ∧ s.EarlyReturn (.block 0)) = true :=
      Machine.exists_run_of_replay (by decide)
    obtain ⟨s, hs, hcheck⟩ := hrun
    obtain ⟨henabled, hearly⟩ := of_decide_eq_true hcheck
    have hreach := hs.reachable (.init (boot_booted 1))
    exact ⟨s, hreach, hearly, (preemptible_without_early_return 1).2 s _ hreach henabled hearly⟩

/-- The only thread has returned from `yield`, and the ticks on its core do nothing. -/
theorem yield_alone_unpreemptible :
    ∃ s, (schedMachine 1).Reachable s ∧ s.At 0 .free ∧ s.current 0 = .thread 0 ∧
      s.cpu.noPreempt (.thread 0) = true ∧ s.next (.tick 0) = s := by
  have hrun : ∃ s, (schedMachine 1).Run (boot 1) (firstYield ++ [.block 0]) s ∧
      decide (s.At 0 .free ∧ s.current 0 = .thread 0 ∧ s.cpu.active 0 = .thread 0 ∧
        s.cpu.noPreempt (.thread 0) = true) = true :=
    Machine.exists_run_of_replay (by decide)
  obtain ⟨s, hs, hcheck⟩ := hrun
  obtain ⟨hat, hcur, hactive, hpre⟩ := of_decide_eq_true hcheck
  refine ⟨s, hs.reachable (.init (boot_booted 1)), hat, hcur, hpre, ?_⟩
  simp [next, apitHandler, hactive, hpre]

end Sched
end AudioKernel
