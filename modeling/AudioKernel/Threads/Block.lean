import AudioKernel.Threads.Steps

/-! The steps of `block` and of its callbacks keep the invariant. -/
namespace AudioKernel
open Lib

namespace Sched
namespace Inv

variable {s s' : Sched} {c : ℕ} {call : Call} {rest : List Call}

/-- The call of `block` on core `c` goes on to another stage. -/
theorem control_stage {p' : Cpu} {st : Stage} (h : Inv s) (hp : s.cpu.pending c = none)
    (hcalls : s.cpu.calls (s.cpu.stack c) = call :: rest)
    (hadv : Control.Advance s.cpu p' c ({ call with stage := st } :: rest)) (hst : StageOk p' c st)
    (hnext : ∀ k, st.next? = some (.idle k) → k = c) : Control p' := by
  apply h.control.advance h.apart hp hadv hst
  · have htail := h.control.tails (s.cpu.stack c)
    rw [hcalls] at htail
    exact htail
  · intro k hk call' hcall'
    have hidle := h.control.idle_calls k
    rw [← hk, hcalls] at hidle
    rcases List.mem_cons.mp hcall' with hc | hc
    · rw [hc]
      exact hidle call List.mem_cons_self
    · exact hidle call' (List.mem_cons_of_mem _ hc)
  · intro call' hcall' k hk
    cases hcall'
    exact hnext k hk

/-- The threads on each core, as the call goes on. -/
theorem onCore_stage {p' : Cpu} {st : Stage} (h : Inv s) (hp : s.cpu.pending c = none)
    (hadv : Control.Advance s.cpu p' c ({ call with stage := st } :: rest)) (c' : ℕ) :
    p'.onCore c' = if c' = c then s.cpu.stack c :: st.next?.toList else s.cpu.onCore c' := by
  rw [hadv.onCore h.apart]
  simp [Cpu.outgoing, hp]

/-- The threads on core `c` while `block` runs there. -/
theorem onCore_eq (hp : s.cpu.pending c = none) (hcalls : s.cpu.calls (s.cpu.stack c) = call :: rest) :
    s.cpu.onCore c = s.cpu.stack c :: call.stage.next?.toList := by
  simp [Cpu.onCore, Cpu.incoming, Cpu.outgoing, hp, hcalls]

theorem sound_cpu {p' : Cpu} (h : Inv s) (hcontrol : Control p') (hcore : ∀ c, p'.onCore c = s.cpu.onCore c) :
    Sound s { s with cpu := p' } := by
  have hq : QueuesKept s { s with cpu := p' } := ⟨rfl, rfl, fun _ => rfl, fun _ => rfl, rfl, rfl⟩
  exact h.sound_same hcontrol h.idle_base (hq.tcbs hcore fun _ => ⟨rfl, rfl⟩) ⟨rfl, rfl⟩

section block
variable {core : ℕ} {me next : Tcb}

/-! The three exits of `block` when `readyQ.remove()` finds no thread. -/

theorem stepBlock_return (hst : call.stage = .remove core me) (hready : s.readyQ = []) (ho : call.option = .canReturn) :
    s.stepBlock c call rest = { s with cpu := s.cpu.setCalls (s.cpu.stack c) rest } := by
  simp only [stepBlock, hst, hready, ho, if_true]
  rfl

theorem stepBlock_retry (hst : call.stage = .remove core me) (hready : s.readyQ = []) (ho : call.option ≠ .canReturn)
    (hme : me.isIdle = true) : s.stepBlock c call rest = s := by
  simp only [stepBlock, hst, hready, ho, hme, if_true, if_false]

theorem stepBlock_idle (hst : call.stage = .remove core me) (hready : s.readyQ = []) (ho : call.option ≠ .canReturn)
    (hme : ¬ me.isIdle = true) : s.stepBlock c call rest =
      { s with cpu := s.cpu.setCalls (s.cpu.stack c) ({ call with stage := .activate core me (.idle core) } :: rest) } := by
  simp only [stepBlock, hst, hready, ho, hme, if_false]
  rfl

theorem stepBlock_next {t : Tcb} {q : List Tcb} (hst : call.stage = .remove core me) (hready : s.readyQ = t :: q) :
    s.stepBlock c call rest =
      { s with
        cpu := s.cpu.setCalls (s.cpu.stack c) ({ call with stage := .activate core me t } :: rest)
        readyQ := q } := by
  simp only [stepBlock, hst, hready]
  rfl

theorem sound_enter (h : Inv s) (hp : s.cpu.pending c = none) (hcalls : s.cpu.calls (s.cpu.stack c) = call :: rest)
    (hst : call.stage = .enter) : Sound s (s.stepBlock c call rest) := by
  have hr := (h.control.core c).running hp
  rw [hcalls] at hr
  change StageOk s.cpu c call.stage at hr
  rw [hst] at hr
  change s.cpu.active c = s.cpu.stack c at hr
  have hadv := Control.advance_enter s.cpu c (s.cpu.active c) ({ call with stage := .remove c (s.cpu.active c) } :: rest)
  simp only [stepBlock, hst]
  apply h.sound_cpu
  · apply h.control_stage hp hcalls hadv
    · refine ⟨rfl, hr, hr, ?_⟩
      change Function.update s.cpu.noPreempt (s.cpu.active c) true (s.cpu.stack c) = true
      rw [hr, Function.update_self]
    · intro k hk
      cases hk
  · intro c'
    refine (h.onCore_stage hp hadv c').trans ?_
    by_cases hc : c' = c
    · rw [if_pos hc, hc, onCore_eq hp hcalls, hst]
      rfl
    · rw [if_neg hc]

/-- `readyQ.remove()` has found a thread, which is in transit to the core from here on. -/
theorem sound_found {t : Tcb} {q : List Tcb} (h : Inv s) (hp : s.cpu.pending c = none)
    (hcalls : s.cpu.calls (s.cpu.stack c) = call :: rest) (hst : call.stage = .remove core me)
    (hok : StageOk s.cpu c (.remove core me)) (hready : s.readyQ = t :: q) : Sound s (s.stepBlock c call rest) := by
  obtain ⟨hcore, hme, hactive, hpre⟩ := hok
  have hi : t ∈ s.tcbs .ready := by
    change t ∈ s.readyQ
    rw [hready]
    exact List.mem_cons_self
  obtain ⟨x, hx⟩ : ∃ x, t = .thread x := h.tcbs_not_idle rfl hi
  subst hx
  have hne : Tcb.thread x ≠ s.cpu.stack c := by
    intro he
    have hj : Tcb.thread x ∈ s.tcbs (.core c) := by
      rw [he]
      exact Control.stack_onCore s.cpu c
    cases h.unique hi hj
  have hadv := Control.advance_setCalls s.cpu c ({ call with stage := .activate core me (.thread x) } :: rest)
  have honCore := h.onCore_stage hp hadv
  rw [stepBlock_next hst hready]
  apply h.sound_move (x := x) (i := .ready) (j := .core c)
  case hcontrol =>
    apply h.control_stage hp hcalls hadv
    · exact ⟨hcore, hme, hactive, hpre, hne⟩
    · intro k hk
      cases hk
  case hbase => exact h.idle_base
  case hq => simp [Place.isQueue]
  case hids => exact ⟨rfl, rfl⟩
  case hm =>
    constructor
    case ne => simp
    case got =>
      change s.readyQ.Perm (_ :: q)
      rw [hready]
    case put =>
      change (Cpu.onCore _ c).Perm (_ :: s.cpu.onCore c)
      rw [onCore_eq hp hcalls, hst]
      refine (List.Perm.of_eq (honCore c)).trans ?_
      rw [if_pos rfl]
      exact List.Perm.swap ..
    case others =>
      intro j hj hj'
      cases j with
      | core c' =>
        have hc : c' ≠ c := fun he => hj' (by rw [he])
        refine (List.Perm.of_eq (honCore c')).trans ?_
        rw [if_neg hc]
        exact .refl _
      | ready => exact absurd rfl hj
      | _ => exact .refl _

/-- The early return of `CanReturn`. -/
theorem sound_return (h : Inv s) (hp : s.cpu.pending c = none) (hcalls : s.cpu.calls (s.cpu.stack c) = call :: rest)
    (hst : call.stage = .remove core me) (hok : StageOk s.cpu c (.remove core me)) :
    Sound s { s with cpu := s.cpu.setCalls (s.cpu.stack c) rest } := by
  have hadv := Control.advance_setCalls s.cpu c rest
  have htail := h.control.tails (s.cpu.stack c)
  rw [hcalls] at htail
  have henter : ∀ call' ∈ rest, call'.stage = .enter := htail
  apply h.sound_cpu
  · apply h.control.advance h.apart hp hadv
    · cases rest with
      | nil => exact hok.2.2.1
      | cons call' rest' =>
        change StageOk _ c call'.stage
        rw [henter call' List.mem_cons_self]
        exact hok.2.2.1
    · intro call' hcall'
      exact henter call' (List.mem_of_mem_tail hcall')
    · intro k hk call' hcall'
      apply h.control.idle_calls k
      rw [← hk, hcalls]
      exact List.mem_cons_of_mem _ hcall'
    · intro call' hcall' k hk
      rw [henter call' (List.mem_of_mem_head? hcall')] at hk
      cases hk
  · intro c'
    refine (hadv.onCore h.apart c').trans ?_
    by_cases hc : c' = c
    · rw [if_pos hc, hc, onCore_eq hp hcalls, hst]
      cases rest with
      | nil => simp [Cpu.outgoing, hp, Stage.next?]
      | cons call' rest' => simp [Cpu.outgoing, hp, henter call' List.mem_cons_self, Stage.next?]
    · rw [if_neg hc]

/-- `block` goes on with the idle thread of the core. -/
theorem sound_idle (h : Inv s) (hp : s.cpu.pending c = none) (hcalls : s.cpu.calls (s.cpu.stack c) = call :: rest)
    (hst : call.stage = .remove core me) (hok : StageOk s.cpu c (.remove core me)) (hidle : ¬ me.isIdle = true) :
    Sound s { s with
      cpu := s.cpu.setCalls (s.cpu.stack c) ({ call with stage := .activate core me (.idle core) } :: rest) } := by
  obtain ⟨hcore, hme, hactive, hpre⟩ := hok
  have hadv := Control.advance_setCalls s.cpu c ({ call with stage := .activate core me (.idle core) } :: rest)
  have honCore := h.onCore_stage hp hadv
  apply h.sound_core
  · apply h.control_stage hp hcalls hadv
    · refine ⟨hcore, hme, hactive, hpre, fun he => hidle ?_⟩
      have hst' : s.cpu.stack c = .idle core := he.symm
      rw [hme, hst']
      rfl
    · intro k hk
      cases hk
      exact hcore
  · exact h.idle_base
  · intro c'
    refine (List.Perm.of_eq (congrArg threads (honCore c'))).trans ?_
    by_cases hc : c' = c
    · rw [if_pos hc, hc, onCore_eq hp hcalls, hst]
      cases s.cpu.stack c <;> exact .refl _
    · rw [if_neg hc]
  · intro i hi
    cases i with
    | core c' => cases hi
    | _ => rfl
  · exact ⟨rfl, rfl⟩

theorem sound_remove (h : Inv s) (hp : s.cpu.pending c = none) (hcalls : s.cpu.calls (s.cpu.stack c) = call :: rest)
    (hst : call.stage = .remove core me) : Sound s (s.stepBlock c call rest) := by
  have hok := (h.control.core c).running hp
  rw [hcalls] at hok
  change StageOk s.cpu c call.stage at hok
  rw [hst] at hok
  cases hready : s.readyQ with
  | cons t q => exact h.sound_found hp hcalls hst hok hready
  | nil =>
    by_cases ho : call.option = .canReturn
    · rw [stepBlock_return hst hready ho]
      exact h.sound_return hp hcalls hst hok
    · by_cases hidle : me.isIdle = true
      · rw [stepBlock_retry hst hready ho hidle]
        exact h.sound_refl
      · rw [stepBlock_idle hst hready ho hidle]
        exact h.sound_idle hp hcalls hst hok hidle

theorem sound_activate (h : Inv s) (hp : s.cpu.pending c = none)
    (hcalls : s.cpu.calls (s.cpu.stack c) = call :: rest) (hst : call.stage = .activate core me next) :
    Sound s (s.stepBlock c call rest) := by
  have hr := (h.control.core c).running hp
  rw [hcalls] at hr
  change StageOk s.cpu c call.stage at hr
  rw [hst] at hr
  obtain ⟨hcore, hme, hactive, hpre, hne⟩ := hr
  subst hcore
  have hadv := Control.advance_activate s.cpu core next ({ call with stage := .switch core me next } :: rest)
  simp only [stepBlock, hst]
  apply h.sound_cpu
  · apply h.control_stage hp hcalls hadv
    · refine ⟨rfl, hme, ?_, ?_, hne⟩
      · change Function.update s.cpu.active core next core = next
        rw [Function.update_self]
      · change Function.update s.cpu.noPreempt next true next = true
        rw [Function.update_self]
    · intro k hk
      apply h.control.idle_core core k
      cases hk
      apply Control.onCore_stage call rest hcalls
      rw [hst]
      rfl
  · intro c'
    refine (h.onCore_stage hp hadv c').trans ?_
    by_cases hc : c' = core
    · rw [if_pos hc, hc, onCore_eq hp hcalls, hst]
      rfl
    · rw [if_neg hc]

theorem sound_switch (h : Inv s) (hp : s.cpu.pending c = none) (hcalls : s.cpu.calls (s.cpu.stack c) = call :: rest)
    (hst : call.stage = .switch core me next) : Sound s (s.stepBlock c call rest) := by
  obtain ⟨hme, hactive, hne, hin, hs⟩ := h.control.switch_facts h.apart hp hcalls hst
  have hnext : s.stepBlock c call rest = { s with cpu := Control.switched s.cpu c call rest me next } := by
    unfold stepBlock
    rw [hst]
    rfl
  rw [hnext]
  apply h.sound_core
  · exact h.control.switch h.apart hp hcalls hst
  · exact h.idle_base
  · intro c'
    change (threads ((Control.switched s.cpu c call rest me next).onCore c')).Perm _
    rw [Control.switched_onCore h.apart hne hs]
    by_cases hc : c' = c
    · rw [if_pos hc, hc, onCore_eq hp hcalls, hst, hme]
      exact (List.Perm.swap ..).filterMap _
    · rw [if_neg hc]
  · intro i hi
    cases i with
    | core c' => cases hi
    | _ => rfl
  · exact ⟨rfl, rfl⟩

theorem sound_block (h : Inv s) (hp : s.cpu.pending c = none) : Sound s (s.next (.block c)) := by
  cases hcalls : s.cpu.calls (s.cpu.stack c) with
  | nil =>
    rw [next_block_nil hcalls]
    exact h.sound_refl
  | cons call rest =>
    rw [next_block_cons hcalls]
    cases hst : call.stage with
    | enter => exact h.sound_enter hp hcalls hst
    | remove core me => exact h.sound_remove hp hcalls hst
    | activate core me next => exact h.sound_activate hp hcalls hst
    | switch core me next => exact h.sound_switch hp hcalls hst
    | away =>
      simp only [stepBlock, hst]
      exact h.sound_refl

end block

section callback
variable {cb : Callback} {me : Tcb} {x k epoch : ℕ}

/-- The threads on a core that is running a callback. -/
theorem pending_onCore (h : Inv s) (hp : s.cpu.pending c = some (cb, me)) : s.cpu.onCore c = [s.cpu.stack c, me] := by
  have hs := ((h.control.core c).switching cb me hp).2.1
  have hnone := Control.suspended_next hs
  unfold Cpu.onCore Cpu.incoming Cpu.outgoing
  rw [hnone, hp]
  rfl

/-- The callback puts the thread that was switched away from into a queue, and `block` returns. -/
theorem sound_publish {j : Place} (h : Inv s) (hp : s.cpu.pending c = some (cb, .thread x))
    (hcpu : s'.cpu = s.cpu.resume c) (hbase : s'.base = s.base) (hids : SameThreads s s') (hj : j.isCore = false)
    (hput : s'.tcbs j = s.tcbs j ++ [.thread x]) (hothers : ∀ i, i.isCore = false → i ≠ j → s'.tcbs i = s.tcbs i) :
    Sound s s' := by
  have hon : ∀ c', s'.tcbs (.core c') = if c' = c then [s.cpu.stack c] else s.cpu.onCore c' := by
    intro c'
    change s'.cpu.onCore c' = _
    rw [hcpu, h.control.resume_onCore h.apart hp]
  apply h.sound_move (x := x) (i := .core c) (j := j) _ _ _ _ hids
  · rw [hcpu]
    exact h.control.resume h.apart hp
  · rw [hbase]
    exact h.idle_base
  · constructor
    case ne =>
      intro he
      rw [← he] at hj
      cases hj
    case got =>
      rw [hon c, if_pos rfl]
      change (s.cpu.onCore c).Perm _
      rw [h.pending_onCore hp]
      exact List.Perm.swap ..
    case put =>
      rw [hput]
      exact List.perm_append_singleton ..
    case others =>
      intro i hi hi'
      cases hcore : i.isCore with
      | false => rw [hothers i hcore hi']
      | true =>
        cases i with
        | core c' =>
          have hc : c' ≠ c := fun he => hi (by rw [he])
          rw [hon c', if_neg hc]
          exact .refl _
        | _ => cases hcore
  · simp [Place.isQueue]

/-- Nothing is done with an idle thread. -/
theorem sound_drop (h : Inv s) {k : ℕ} (hp : s.cpu.pending c = some (cb, .idle k)) : Sound s (s.resume c) := by
  apply h.sound_core
  · exact h.control.resume h.apart hp
  · exact h.idle_base
  · intro c'
    change (threads ((s.cpu.resume c).onCore c')).Perm _
    rw [h.control.resume_onCore h.apart hp]
    by_cases hc : c' = c
    · rw [if_pos hc, hc, h.pending_onCore hp]
      cases s.cpu.stack c <;> exact .refl _
    · rw [if_neg hc]
  · intro i hi
    cases i with
    | core c' => cases hi
    | _ => rfl
  · exact ⟨rfl, rfl⟩

/-- The callback of `wait` goes on without giving the thread away. -/
theorem sound_pending {cb' : Callback} {y : Condition Tcb} (h : Inv s) (hp : s.cpu.pending c = some (cb, me))
    (hcb : cb ≠ .stop) (hy : y.queue = (s.cond k).queue) :
    Sound s { s.setCond k y with
      cpu := { s.cpu with pending := Function.update s.cpu.pending c (some (cb', me)) } } := by
  apply h.sound_same
  · exact h.control.setPending hp hcb
  · exact h.idle_base
  · have hcond : QueuesKept s (s.setCond k y) := queuesKept_cond hy
    exact QueuesKept.tcbs ⟨rfl, rfl, fun _ => rfl, hcond.cond, rfl, rfl⟩ (Control.setPending_onCore hp)
      fun _ => ⟨rfl, rfl⟩
  · exact ⟨rfl, rfl⟩

theorem sound_callback (h : Inv s) (hp : s.cpu.pending c = some (cb, me)) : Sound s (s.stepCallback c cb me) := by
  cases me with
  | idle k =>
    have hcb : cb = .stop := h.control.idle_pending c cb k hp
    subst hcb
    exact h.sound_drop hp
  | thread x =>
    cases cb with
    | yield | waitSchedule =>
      apply h.sound_publish (j := .ready) hp
      case hothers =>
        intro i hi hi'
        cases i with
        | core c' => cases hi
        | ready => exact absurd rfl hi'
        | _ => rfl
      case hids => exact ⟨rfl, rfl⟩
      all_goals rfl
    | stop =>
      apply h.sound_publish (j := .zombies) hp
      case hothers =>
        intro i hi hi'
        cases i with
        | core c' => cases hi
        | zombies => exact absurd rfl hi'
        | _ => rfl
      case hids => exact ⟨rfl, rfl⟩
      all_goals rfl
    | down i =>
      apply h.sound_publish (j := .sem i) hp
      case hput =>
        change (Function.update s.sem i _ i).waiting = _
        rw [Function.update_self]
        rfl
      case hothers =>
        intro j hj hj'
        cases j with
        | core c' => cases hj
        | sem i' =>
          change (Function.update s.sem i _ i').waiting = _
          rw [Function.update_of_ne fun he => hj' (by rw [he])]
          rfl
        | _ => rfl
      case hids => exact ⟨rfl, rfl⟩
      all_goals rfl
    | wait k epoch => exact h.sound_pending hp (by simp) rfl
    | waitLocked k epoch =>
      by_cases hepoch : (s.cond k).epoch = epoch
      · simp only [stepCallback, hepoch, if_true]
        apply h.sound_publish (j := .cond k) hp
        case hput =>
          change (Function.update s.cond k _ k).queue = _
          rw [Function.update_self]
          rfl
        case hothers =>
          intro j hj hj'
          cases j with
          | core c' => cases hj
          | cond k' =>
            change (Function.update s.cond k _ k').queue = _
            rw [Function.update_of_ne fun he => hj' (by rw [he])]
            rfl
          | _ => rfl
        case hids => exact ⟨rfl, rfl⟩
        all_goals rfl
      · simp only [stepCallback, hepoch, if_false]
        exact h.sound_pending hp (by simp) rfl

end callback

/-- Every step keeps the invariant. -/
theorem sound (h : Inv s) {a : Act} (he : s.enabled a) : Sound s (s.next a) := by
  cases a with
  | tick c => exact h.sound_tick he
  | block c => exact h.sound_block he.1
  | callback c =>
    cases hp : s.cpu.pending c with
    | none =>
      rw [next_callback_none hp]
      exact h.sound_refl
    | some cb =>
      rw [next_callback_some hp]
      exact h.sound_callback hp
  | yield c => exact h.sound_yield he
  | stop c => exact h.sound_stop he
  | stopLoop c => exact h.sound_stopLoop he
  | create c => exact h.sound_next_create he
  | schedule c =>
    obtain ⟨hout, hb⟩ := he
    cases hbase : s.base (s.current c) <;> rw [hbase] at hb <;> cases hb
    exact h.sound_schedule ⟨hout, hbase⟩
  | down c i => exact h.sound_down he.1
  | downLocked c =>
    obtain ⟨hout, hb⟩ := he
    cases hbase : s.base (s.current c) <;> rw [hbase] at hb <;> cases hb
    exact h.sound_downLocked ⟨hout, hbase⟩
  | up c i => exact h.sound_up he.1
  | upLocked c =>
    obtain ⟨hout, hb⟩ := he
    cases hbase : s.base (s.current c) <;> rw [hbase] at hb <;> cases hb
    exact h.sound_upLocked ⟨hout, hbase⟩
  | lock c k => exact h.sound_setCond rfl
  | unlock c k => exact h.sound_setCond rfl
  | wait c k => exact h.sound_wait he.1
  | relock c =>
    obtain ⟨hout, hb⟩ := he
    unfold relockReady at hb
    cases hbase : s.base (s.current c) <;> rw [hbase] at hb
    case relock k => exact h.sound_relock ⟨hout, hbase⟩
    all_goals cases hb
  | notify c k limit => exact h.sound_notify he.1
  | notifyLoop c =>
    obtain ⟨hout, hb⟩ := he
    cases hbase : s.base (s.current c) <;> rw [hbase] at hb <;> cases hb
    exact h.sound_notifyLoop ⟨hout, hbase⟩
  | reap c => exact h.sound_reap he
  | delete c =>
    obtain ⟨hout, hb⟩ := he
    cases hbase : s.base (s.current c) <;> rw [hbase] at hb <;> cases hb
    exact h.sound_next_delete ⟨hout, hbase⟩

end Inv
end Sched
end AudioKernel
