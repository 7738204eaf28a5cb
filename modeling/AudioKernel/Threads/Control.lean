import AudioKernel.Threads.Model

/-! What holds of the cores: where `activeThreads` points while `block` runs, and on whose stack. -/
namespace AudioKernel

namespace Cpu

variable (p : Cpu)

/-- The thread that `block` on core `c` has chosen and not yet switched to. -/
def incoming (c : ℕ) : Option Tcb := (p.calls (p.stack c)).head?.bind fun call => call.stage.next?

/-- The thread that core `c` has switched away from and not yet published. -/
def outgoing (c : ℕ) : Option Tcb := (p.pending c).map Prod.snd

/-- The threads that are running on core `c` or in transit into or out of it. -/
def onCore (c : ℕ) : List Tcb := p.stack c :: ((p.incoming c).toList ++ (p.outgoing c).toList)

end Cpu

/-- The thread has not run yet, or has been switched away from. -/
def Suspended : List Call → Prop
  | [] => True
  | call :: _ => call.stage = .away

/-- What a thread at the given stage of `block` on core `c` relies on. -/
def StageOk (p : Cpu) (c : ℕ) : Stage → Prop
  | .enter => p.active c = p.stack c
  | .remove core me => core = c ∧ me = p.stack c ∧ p.active c = p.stack c ∧ p.noPreempt (p.stack c) = true
  | .activate core me next =>
    core = c ∧ me = p.stack c ∧ p.active c = p.stack c ∧ p.noPreempt (p.stack c) = true ∧ next ≠ p.stack c
  | .switch core me next =>
    core = c ∧ me = p.stack c ∧ p.active c = next ∧ p.noPreempt next = true ∧ next ≠ p.stack c
  | .away => False

/-- The calls of the thread that runs on core `c`. -/
def RunningOk (p : Cpu) (c : ℕ) : List Call → Prop
  | [] => p.active c = p.stack c
  | call :: _ => StageOk p c call.stage

structure CoreOk (p : Cpu) (c : ℕ) : Prop where
  running : p.pending c = none → RunningOk p c (p.calls (p.stack c))
  switching : ∀ cb me, p.pending c = some (cb, me) →
    p.active c = p.stack c ∧ Suspended (p.calls (p.stack c)) ∧ me ≠ p.stack c

/-- An idle thread calls `block` from `stop` only. -/
def Call.IdleOk (call : Call) : Prop := call.option = .mustBlock ∧ call.callback = .stop

structure Control (p : Cpu) : Prop where
  core : ∀ c, CoreOk p c
  suspended : ∀ t, (∀ c, p.stack c ≠ t) → Suspended (p.calls t)
  tails : ∀ t, ∀ call ∈ (p.calls t).tail, call.stage = .enter
  idle_core : ∀ c k, .idle k ∈ p.onCore c → k = c
  idle_calls : ∀ k, ∀ call ∈ p.calls (.idle k), call.IdleOk
  idle_pending : ∀ c cb k, p.pending c = some (cb, .idle k) → cb = .stop

/-- No thread is on two cores. -/
def Apart (p : Cpu) : Prop := ∀ c c' t, t ∈ p.onCore c → t ∈ p.onCore c' → c = c'

namespace Control

variable {p : Cpu} {c c' : ℕ} {t : Tcb} {l : List Call}

theorem stack_onCore (p : Cpu) (c : ℕ) : p.stack c ∈ p.onCore c := by simp [Cpu.onCore]

theorem stack_ne (ha : Apart p) (hne : c' ≠ c) : p.stack c' ≠ p.stack c :=
  fun he => hne (ha c' c (p.stack c) (he ▸ stack_onCore p c') (stack_onCore p c))

theorem onCore_stage (call : Call) (rest : List Call) (hcalls : p.calls (p.stack c) = call :: rest) {next : Tcb}
    (hnext : call.stage.next? = some next) : next ∈ p.onCore c := by
  simp [Cpu.onCore, Cpu.incoming, hcalls, hnext]

/-- What holds of core `c` depends on its own variables and on the thread that runs on it. -/
theorem coreOk_congr {p' : Cpu} (h : CoreOk p c) (hstack : p'.stack c = p.stack c) (hactive : p'.active c = p.active c)
    (hpending : p'.pending c = p.pending c) (hcalls : p'.calls (p.stack c) = p.calls (p.stack c))
    (hpre : ∀ t ∈ p.onCore c, p.noPreempt t = true → p'.noPreempt t = true) : CoreOk p' c := by
  constructor
  · intro hp
    have hr := h.running (hpending.symm.trans hp)
    rw [hstack, hcalls]
    cases hl : p.calls (p.stack c) with
    | nil =>
      rw [hl] at hr
      change p'.active c = p'.stack c
      rw [hactive, hstack]
      exact hr
    | cons call rest =>
      rw [hl] at hr
      change StageOk p c call.stage at hr
      change StageOk p' c call.stage
      cases hst : call.stage <;> rw [hst] at hr <;> unfold StageOk at hr ⊢ <;> rw [hactive, hstack]
      case enter => exact hr
      case remove => exact ⟨hr.1, hr.2.1, hr.2.2.1, hpre _ (stack_onCore p c) hr.2.2.2⟩
      case activate => exact ⟨hr.1, hr.2.1, hr.2.2.1, hpre _ (stack_onCore p c) hr.2.2.2.1, hr.2.2.2.2⟩
      case switch core me next =>
        have hin : next ∈ p.onCore c := onCore_stage call rest hl (by rw [hst]; rfl)
        exact ⟨hr.1, hr.2.1, hr.2.2.1, hpre _ hin hr.2.2.2.1, hr.2.2.2.2⟩
      case away => exact hr
  · intro cb me hp
    rw [hactive, hstack, hcalls]
    exact h.switching cb me (hpending.symm.trans hp)

/-- `p'` differs from `p` in the calls of the thread that runs on core `c`, which are `l` now, in the entry of
`activeThreads` for `c`, and in that more threads may be marked as not to be preempted. -/
structure Advance (p p' : Cpu) (c : ℕ) (l : List Call) : Prop where
  stack : p'.stack = p.stack
  pending : p'.pending = p.pending
  calls : p'.calls = Function.update p.calls (p.stack c) l
  active : ∀ c', c' ≠ c → p'.active c' = p.active c'
  noPreempt : ∀ t, p.noPreempt t = true → p'.noPreempt t = true

theorem Advance.onCore {p' : Cpu} (hadv : Advance p p' c l) (ha : Apart p) (c' : ℕ) :
    p'.onCore c' =
      if c' = c then p.stack c :: ((l.head?.bind fun call => call.stage.next?).toList ++ (p.outgoing c).toList)
      else p.onCore c' := by
  unfold Cpu.onCore Cpu.incoming Cpu.outgoing
  rw [hadv.stack, hadv.pending, hadv.calls]
  by_cases hc : c' = c
  · subst hc
    rw [if_pos rfl, Function.update_self]
  · rw [if_neg hc, Function.update_of_ne (stack_ne ha hc)]

theorem advance {p' : Cpu} (h : Control p) (ha : Apart p) (hp : p.pending c = none) (hadv : Advance p p' c l)
    (hl : RunningOk p' c l) (htail : ∀ call ∈ l.tail, call.stage = .enter)
    (hidle : ∀ k, p.stack c = .idle k → ∀ call ∈ l, call.IdleOk)
    (hnext : ∀ call, l.head? = some call → ∀ k, call.stage.next? = some (.idle k) → k = c) : Control p' := by
  have hself : p'.calls (p.stack c) = l := by rw [hadv.calls, Function.update_self]
  have hother : ∀ t, t ≠ p.stack c → p'.calls t = p.calls t := by
    intro t ht
    rw [hadv.calls, Function.update_of_ne ht]
  constructor
  case core =>
    intro c'
    by_cases hc : c' = c
    · subst hc
      constructor
      · intro _
        rw [hadv.stack, hself]
        exact hl
      · intro cb me hp'
        rw [hadv.pending, hp] at hp'
        cases hp'
    · exact coreOk_congr (h.core c') (by rw [hadv.stack]) (hadv.active c' hc) (by rw [hadv.pending])
        (hother _ (stack_ne ha hc)) fun t _ => hadv.noPreempt t
  case suspended =>
    intro t ht
    rw [hadv.stack] at ht
    rw [hother t fun he => ht c he.symm]
    exact h.suspended t ht
  case tails =>
    intro t
    by_cases ht : t = p.stack c
    · rw [ht, hself]
      exact htail
    · rw [hother t ht]
      exact h.tails t
  case idle_core =>
    intro c' k hk
    rw [hadv.onCore ha] at hk
    by_cases hc : c' = c
    · subst hc
      rw [if_pos rfl] at hk
      simp only [List.mem_cons, List.mem_append, Option.mem_toList, Option.bind_eq_some_iff, Cpu.outgoing,
        Option.map_eq_some_iff] at hk
      rcases hk with hk | ⟨call, hcall, hk⟩ | ⟨x, hx, -⟩
      · exact h.idle_core c' k (by rw [hk]; exact stack_onCore p c')
      · exact hnext call hcall k hk
      · rw [hp] at hx
        cases hx
    · rw [if_neg hc] at hk
      exact h.idle_core c' k hk
  case idle_calls =>
    intro k
    by_cases hk : Tcb.idle k = p.stack c
    · rw [hk, hself]
      exact hidle k hk.symm
    · rw [hother _ hk]
      exact h.idle_calls k
  case idle_pending =>
    rw [hadv.pending]
    exact h.idle_pending

theorem advance_setCalls (p : Cpu) (c : ℕ) (l : List Call) : Advance p (p.setCalls (p.stack c) l) c l :=
  ⟨rfl, rfl, rfl, fun _ _ => rfl, fun _ ht => ht⟩

theorem advance_enter (p : Cpu) (c : ℕ) (me : Tcb) (l : List Call) :
    Advance p ((p.setNoPreempt me true).setCalls (p.stack c) l) c l := by
  refine ⟨rfl, rfl, rfl, fun _ _ => rfl, fun t ht => ?_⟩
  change Function.update p.noPreempt me true t = true
  by_cases he : t = me
  · rw [he, Function.update_self]
  · rw [Function.update_of_ne he, ht]

theorem advance_activate (p : Cpu) (c : ℕ) (next : Tcb) (l : List Call) :
    Advance p (({ p.setNoPreempt next true with
      active := Function.update p.active c next } : Cpu).setCalls (p.stack c) l) c l :=
  ⟨rfl, rfl, rfl, fun _ hc => Function.update_of_ne hc .., (advance_enter p c next l).noPreempt⟩

/-- When no call of `block` has begun on core `c`, `activeThreads` names the thread that runs there. -/
theorem active_eq (h : Control p) (hp : p.pending c = none)
    (hcalls : ∀ call ∈ p.calls (p.stack c), call.stage = .enter) : p.active c = p.stack c := by
  have hr := (h.core c).running hp
  cases hl : p.calls (p.stack c) with
  | nil =>
    rw [hl] at hr
    exact hr
  | cons call rest =>
    rw [hl] at hr
    change StageOk p c call.stage at hr
    rw [hcalls call (by simp [hl])] at hr
    exact hr

/-- The thread on core `c` calls `block`. -/
theorem call (h : Control p) (ha : Apart p) (hp : p.pending c = none)
    (hcalls : ∀ call ∈ p.calls (p.stack c), call.stage = .enter) (o : BlockOption) (cb : Callback)
    (hidle : ∀ k, p.stack c = .idle k → o = .mustBlock ∧ cb = .stop) : Control (p.call c o cb) := by
  apply h.advance ha hp (advance_setCalls p c _)
  · exact h.active_eq hp hcalls
  · exact hcalls
  · intro k hk call hcall
    rcases List.mem_cons.mp hcall with hc | hc
    · subst hc
      exact hidle k hk
    · exact h.idle_calls k call (by rw [← hk]; exact hc)
  · intro call hcall k hk
    cases hcall
    cases hk

section switch
variable {call : Call} {rest : List Call} {me next : Tcb}

/-- The cores after the thread on core `c` has switched to `next`. -/
def switched (p : Cpu) (c : ℕ) (call : Call) (rest : List Call) (me next : Tcb) : Cpu :=
  (p.setCalls (p.stack c) ({ call with stage := .away } :: rest)).contextSwitch c me next call.callback

/-- What is known when `block` is about to switch. -/
theorem switch_facts (h : Control p) (ha : Apart p) (hp : p.pending c = none)
    (hcalls : p.calls (p.stack c) = call :: rest) {core : ℕ} (hst : call.stage = .switch core me next) :
    me = p.stack c ∧ p.active c = next ∧ next ≠ p.stack c ∧ next ∈ p.onCore c ∧ Suspended (p.calls next) := by
  have hr := (h.core c).running hp
  rw [hcalls] at hr
  change StageOk p c call.stage at hr
  rw [hst] at hr
  obtain ⟨-, hme, hact, -, hne⟩ := hr
  have hin : next ∈ p.onCore c := onCore_stage call rest hcalls (by rw [hst]; rfl)
  refine ⟨hme, hact, hne, hin, h.suspended next fun c' he => ?_⟩
  have hc : c' = c := ha c' c next (he ▸ stack_onCore p c') hin
  rw [hc] at he
  exact hne he.symm

theorem suspended_next (hs : Suspended (p.calls next)) :
    ((p.calls next).head?.bind fun call => call.stage.next?) = none := by
  cases hl : p.calls next with
  | nil => rfl
  | cons call rest =>
    rw [hl] at hs
    have hst : call.stage = .away := hs
    simp [hst, Stage.next?]

theorem switched_onCore (ha : Apart p) (hne : next ≠ p.stack c) (hs : Suspended (p.calls next)) (c' : ℕ) :
    (switched p c call rest me next).onCore c' = if c' = c then [next, me] else p.onCore c' := by
  unfold switched Cpu.contextSwitch Cpu.onCore Cpu.incoming Cpu.outgoing Cpu.setNoPreempt Cpu.setCalls
  by_cases hc : c' = c
  · subst hc
    simp only [Function.update_self, Function.update_of_ne hne, suspended_next hs, Option.toList_none, List.nil_append,
      Option.map_some, Option.toList_some, if_true]
  · simp only [Function.update_of_ne hc, Function.update_of_ne (stack_ne ha hc), if_neg hc]

theorem switch (h : Control p) (ha : Apart p) (hp : p.pending c = none) (hcalls : p.calls (p.stack c) = call :: rest)
    {core : ℕ} (hst : call.stage = .switch core me next) : Control (switched p c call rest me next) := by
  obtain ⟨hme, hact, hne, hin, hs⟩ := h.switch_facts ha hp hcalls hst
  have hself : (switched p c call rest me next).calls (p.stack c) = { call with stage := .away } :: rest :=
    Function.update_self ..
  have hother : ∀ t, t ≠ p.stack c → (switched p c call rest me next).calls t = p.calls t :=
    fun t ht => Function.update_of_ne ht ..
  have hstack : (switched p c call rest me next).stack c = next := Function.update_self ..
  have hstack' : ∀ c', c' ≠ c → (switched p c call rest me next).stack c' = p.stack c' :=
    fun c' hc => Function.update_of_ne hc ..
  have hpend : (switched p c call rest me next).pending c = some (call.callback, me) := Function.update_self ..
  constructor
  case core =>
    intro c'
    by_cases hc : c' = c
    · subst hc
      constructor
      · intro hp'
        rw [hpend] at hp'
        cases hp'
      · intro cb' me' hp'
        rw [hpend] at hp'
        cases hp'
        rw [hstack, hother next hne]
        exact ⟨hact, hs, by rw [hme]; exact hne.symm⟩
    · apply coreOk_congr (h.core c')
      · exact hstack' c' hc
      · rfl
      · exact Function.update_of_ne hc ..
      · exact hother _ (stack_ne ha hc)
      · intro t ht hpre
        have htne : t ≠ next := fun he => hc (ha c' c t ht (by rw [he]; exact hin))
        have htme : t ≠ me := fun he => hc (ha c' c t ht (by rw [he, hme]; exact stack_onCore p c))
        change Function.update (Function.update p.noPreempt me false) next false t = true
        rw [Function.update_of_ne htne, Function.update_of_ne htme]
        exact hpre
  case suspended =>
    intro t ht
    by_cases hts : t = p.stack c
    · rw [hts, hself]
      rfl
    · rw [hother t hts]
      apply h.suspended t
      intro c' he
      by_cases hc : c' = c
      · rw [hc] at he
        exact hts he.symm
      · exact ht c' (by rw [hstack' c' hc]; exact he)
  case tails =>
    intro t
    by_cases hts : t = p.stack c
    · rw [hts, hself]
      have := h.tails (p.stack c)
      rw [hcalls] at this
      exact this
    · rw [hother t hts]
      exact h.tails t
  case idle_core =>
    intro c' k hk
    rw [switched_onCore ha hne hs] at hk
    by_cases hc : c' = c
    · subst hc
      rw [if_pos rfl] at hk
      apply h.idle_core c' k
      rcases List.mem_cons.mp hk with hk | hk
      · rw [hk]
        exact hin
      · rw [List.mem_singleton.mp hk, hme]
        exact stack_onCore p c'
    · rw [if_neg hc] at hk
      exact h.idle_core c' k hk
  case idle_calls =>
    intro k
    have hk := h.idle_calls k
    by_cases hks : Tcb.idle k = p.stack c
    · rw [hks, hself]
      rw [hks, hcalls] at hk
      intro call' hcall'
      rcases List.mem_cons.mp hcall' with hc | hc
      · rw [hc]
        exact hk call List.mem_cons_self
      · exact hk call' (List.mem_cons_of_mem _ hc)
    · rw [hother _ hks]
      exact hk
  case idle_pending =>
    intro c' cb' k hp'
    by_cases hc : c' = c
    · subst hc
      rw [hpend] at hp'
      cases hp'
      exact (h.idle_calls k call (by rw [hme, hcalls]; exact List.mem_cons_self)).2
    · have hp'' : (switched p c call rest me next).pending c' = p.pending c' := Function.update_of_ne hc ..
      rw [hp''] at hp'
      exact h.idle_pending c' cb' k hp'

end switch

section callback
variable {cb cb' : Callback} {me : Tcb}

/-- The callback on core `c` goes on. -/
theorem setPending (h : Control p) (hp : p.pending c = some (cb, me)) (hcb : cb ≠ .stop) :
    Control { p with pending := Function.update p.pending c (some (cb', me)) } := by
  have hself : Function.update p.pending c (some (cb', me)) c = some (cb', me) := Function.update_self ..
  constructor
  case core =>
    intro c'
    by_cases hc : c' = c
    · subst hc
      constructor
      · intro hp'
        change Function.update p.pending c' _ c' = none at hp'
        rw [hself] at hp'
        cases hp'
      · intro cb'' me' hp'
        change Function.update p.pending c' _ c' = _ at hp'
        rw [hself] at hp'
        cases hp'
        exact (h.core c').switching cb me hp
    · exact coreOk_congr (h.core c') rfl rfl (Function.update_of_ne hc ..) rfl fun t _ ht => ht
  case suspended => exact h.suspended
  case tails => exact h.tails
  case idle_core =>
    intro c' k hk
    apply h.idle_core c' k
    by_cases hc : c' = c
    · subst hc
      simpa [Cpu.onCore, Cpu.incoming, Cpu.outgoing, hp] using hk
    · simpa [Cpu.onCore, Cpu.incoming, Cpu.outgoing, Function.update_of_ne hc] using hk
  case idle_calls => exact h.idle_calls
  case idle_pending =>
    intro c' cb'' k hp'
    by_cases hc : c' = c
    · subst hc
      change Function.update p.pending c' _ c' = _ at hp'
      rw [hself] at hp'
      cases hp'
      exact absurd (h.idle_pending c' cb k hp) hcb
    · change Function.update p.pending c _ c' = _ at hp'
      rw [Function.update_of_ne hc] at hp'
      exact h.idle_pending c' cb'' k hp'

theorem setPending_onCore (hp : p.pending c = some (cb, me)) (c' : ℕ) :
    ({ p with pending := Function.update p.pending c (some (cb', me)) } : Cpu).onCore c' = p.onCore c' := by
  by_cases hc : c' = c
  · subst hc
    simp [Cpu.onCore, Cpu.incoming, Cpu.outgoing, hp]
  · simp [Cpu.onCore, Cpu.incoming, Cpu.outgoing, Function.update_of_ne hc]

/-- After the callback, the target has no call of `block` left or returns from one: in both cases it goes on
outside the call that had switched away from it. -/
theorem resume_eq (h : Control p) (hp : p.pending c = some (cb, me)) :
    ∃ rest, (∀ call ∈ rest, call ∈ p.calls (p.stack c)) ∧ (∀ call ∈ rest, call.stage = .enter) ∧
      p.resume c = { p with
        pending := Function.update p.pending c none
        calls := Function.update p.calls (p.stack c) rest } := by
  have hs := ((h.core c).switching cb me hp).2.1
  have htail := h.tails (p.stack c)
  unfold Cpu.resume
  cases hl : p.calls (p.stack c) with
  | nil =>
    refine ⟨[], by simp, by simp, ?_⟩
    simp only [hl]
    rw [← hl, Function.update_eq_self]
  | cons call rest =>
    rw [hl] at hs htail
    have hst : call.stage = .away := hs
    obtain ⟨o, f, st⟩ := call
    have hst' : st = .away := hst
    subst hst'
    refine ⟨rest, fun call hc => List.mem_cons_of_mem _ hc, htail, ?_⟩
    simp only [hl]
    rfl

theorem resume (h : Control p) (ha : Apart p) (hp : p.pending c = some (cb, me)) : Control (p.resume c) := by
  obtain ⟨hact, -, -⟩ := (h.core c).switching cb me hp
  obtain ⟨rest, hsub, henter, hres⟩ := h.resume_eq hp
  rw [hres]
  have hself : Function.update p.calls (p.stack c) rest (p.stack c) = rest := Function.update_self ..
  have hother : ∀ t, t ≠ p.stack c → Function.update p.calls (p.stack c) rest t = p.calls t :=
    fun t ht => Function.update_of_ne ht ..
  constructor
  case core =>
    intro c'
    by_cases hc : c' = c
    · subst hc
      constructor
      · intro _
        change RunningOk _ c' (Function.update p.calls (p.stack c') rest (p.stack c'))
        rw [hself]
        cases rest with
        | nil => exact hact
        | cons call rest =>
          change StageOk _ c' call.stage
          rw [henter call List.mem_cons_self]
          exact hact
      · intro cb' me' hp'
        change Function.update p.pending c' none c' = _ at hp'
        rw [Function.update_self] at hp'
        cases hp'
    · exact coreOk_congr (h.core c') rfl rfl (Function.update_of_ne hc ..) (hother _ (stack_ne ha hc)) fun t _ ht => ht
  case suspended =>
    intro t ht
    change Suspended (Function.update p.calls (p.stack c) rest t)
    rw [hother t fun he => ht c he.symm]
    exact h.suspended t ht
  case tails =>
    intro t
    change ∀ call ∈ (Function.update p.calls (p.stack c) rest t).tail, _
    by_cases ht : t = p.stack c
    · rw [ht, hself]
      intro call hcall
      exact henter call (List.mem_of_mem_tail hcall)
    · rw [hother t ht]
      exact h.tails t
  case idle_core =>
    intro c' k hk
    apply h.idle_core c' k
    by_cases hc : c' = c
    · subst hc
      have hnone : (rest.head?.bind fun call => call.stage.next?) = none := by
        cases rest with
        | nil => rfl
        | cons call rest => simp [henter call List.mem_cons_self, Stage.next?]
      simp only [Cpu.onCore, Cpu.incoming, Cpu.outgoing, hself, hnone, Function.update_self, Option.map_none,
        Option.toList_none, List.append_nil, List.mem_singleton] at hk
      rw [hk]
      exact stack_onCore p c'
    · simpa [Cpu.onCore, Cpu.incoming, Cpu.outgoing, Function.update_of_ne hc,
        Function.update_of_ne (stack_ne ha hc)] using hk
  case idle_calls =>
    intro k
    change ∀ call ∈ Function.update p.calls (p.stack c) rest (.idle k), _
    by_cases hk : Tcb.idle k = p.stack c
    · rw [hk, hself]
      intro call hcall
      exact h.idle_calls k call (by rw [hk]; exact hsub call hcall)
    · rw [hother _ hk]
      exact h.idle_calls k
  case idle_pending =>
    intro c' cb' k hp'
    change Function.update p.pending c none c' = _ at hp'
    by_cases hc : c' = c
    · subst hc
      rw [Function.update_self] at hp'
      cases hp'
    · rw [Function.update_of_ne hc] at hp'
      exact h.idle_pending c' cb' k hp'

theorem resume_onCore (h : Control p) (ha : Apart p) (hp : p.pending c = some (cb, me)) (c' : ℕ) :
    (p.resume c).onCore c' = if c' = c then [p.stack c] else p.onCore c' := by
  obtain ⟨rest, -, henter, hres⟩ := h.resume_eq hp
  rw [hres]
  by_cases hc : c' = c
  · subst hc
    have hnone : (rest.head?.bind fun call => call.stage.next?) = none := by
      cases rest with
      | nil => rfl
      | cons call rest => simp [henter call List.mem_cons_self, Stage.next?]
    simp [Cpu.onCore, Cpu.incoming, Cpu.outgoing, hnone]
  · simp [Cpu.onCore, Cpu.incoming, Cpu.outgoing, hc, Function.update_of_ne (stack_ne ha hc)]

end callback
end Control
end AudioKernel
