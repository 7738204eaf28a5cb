import AudioKernel.Threads.Places

/-! Every step of the scheduler keeps the invariant and moves at most one thread. -/
namespace AudioKernel
open Lib

namespace Sched

/-- A step keeps the invariant, and what it does to the places is known. -/
structure Sound (s s' : Sched) : Prop where
  inv : Inv s'
  change : Change s s'

/-- No thread is created or deleted. -/
structure SameThreads (s s' : Sched) : Prop where
  created : s'.created = s.created
  deleted : s'.deleted = s.deleted

variable {s s' : Sched} {c : ℕ}

theorem SameThreads.live (h : SameThreads s s') : s'.Live = s.Live := by
  unfold Live
  rw [h.created, h.deleted]

namespace Inv

theorem same_deleted_lt (h : Inv s) (hids : SameThreads s s') : ∀ t ∈ s'.deleted, t < s'.created := by
  rw [hids.created, hids.deleted]
  exact h.deleted_lt

theorem sound_of_change (h : Inv s) (hcontrol : Control s'.cpu) (hbase : ∀ k, s'.base (.idle k) = .stopping)
    (hidle : ∀ i, i.isCore = false → ∀ t ∈ s'.tcbs i, t ∈ s.tcbs i ∨ ∃ x, t = .thread x)
    (hdeleted : ∀ t ∈ s'.deleted, t < s'.created) (hchange : Change s s') : Sound s s' := by
  refine ⟨⟨hcontrol, fun i k hi hk => ?_, hbase, hdeleted, hchange.placed h.placed⟩, hchange⟩
  rcases hidle i hi _ hk with hk | ⟨x, hx⟩
  · exact h.idle_places i k hi hk
  · cases hx

/-- The queues stay, and the threads on each core are the same. -/
theorem sound_core (h : Inv s) (hcontrol : Control s'.cpu) (hbase : ∀ k, s'.base (.idle k) = .stopping)
    (hcore : ∀ c, (threads (s'.cpu.onCore c)).Perm (threads (s.cpu.onCore c)))
    (hqueue : ∀ i, i.isCore = false → s'.tcbs i = s.tcbs i) (hids : SameThreads s s') : Sound s s' := by
  apply h.sound_of_change hcontrol hbase
  · intro i hi t ht
    rw [hqueue i hi] at ht
    exact .inl ht
  · exact h.same_deleted_lt hids
  · apply Change.same _ hids.live
    intro i
    cases hi : i.isCore with
    | true =>
      cases i with
      | core c => exact hcore c
      | _ => cases hi
    | false =>
      unfold contents
      rw [hqueue i hi]

theorem sound_same (h : Inv s) (hcontrol : Control s'.cpu) (hbase : ∀ k, s'.base (.idle k) = .stopping)
    (htcbs : ∀ i, s'.tcbs i = s.tcbs i) (hids : SameThreads s s') : Sound s s' := by
  apply h.sound_core hcontrol hbase _ (fun i _ => htcbs i) hids
  intro c
  have hc := htcbs (.core c)
  change s'.cpu.onCore c = s.cpu.onCore c at hc
  rw [hc]

theorem perm_threads {l l' : List Tcb} {x : ℕ} (h : l.Perm (.thread x :: l')) : (threads l).Perm (x :: threads l') := by
  have hf := h.filterMap Tcb.thread?
  simpa [threads, Tcb.thread?] using hf

theorem sound_move (h : Inv s) (hcontrol : Control s'.cpu) (hbase : ∀ k, s'.base (.idle k) = .stopping) {x : ℕ}
    {i j : Place} (hm : Moves s.tcbs s'.tcbs (.thread x) i j) (hq : ¬ (i.isQueue = true ∧ j.isQueue = true))
    (hids : SameThreads s s') : Sound s s' := by
  apply h.sound_of_change hcontrol hbase
  · intro k hk t ht
    by_cases hkj : k = j
    · subst hkj
      rw [hm.put.mem_iff, List.mem_cons] at ht
      rcases ht with ht | ht
      · exact .inr ⟨x, ht⟩
      · exact .inl ht
    · by_cases hki : k = i
      · subst hki
        exact .inl (hm.got.mem_iff.mpr (List.mem_cons_of_mem _ ht))
      · exact .inl ((hm.others k hki hkj).mem_iff.mp ht)
  · exact h.same_deleted_lt hids
  · apply Change.move x i j _ hq hids.live
    exact ⟨hm.ne, perm_threads hm.got, perm_threads hm.put, fun k hi hj => (hm.others k hi hj).filterMap _⟩

theorem sound_create (h : Inv s) (hcontrol : Control s'.cpu) (hbase : ∀ k, s'.base (.idle k) = .stopping) {u : Tcb}
    (he : Enters s.tcbs s'.tcbs (.thread s.created) (.handed u)) (hcreated : s'.created = s.created + 1)
    (hdeleted : s'.deleted = s.deleted) : Sound s s' := by
  have hnew : s.created ∉ s.deleted := fun hd => lt_irrefl _ (h.deleted_lt _ hd)
  apply h.sound_of_change hcontrol hbase
  · intro k hk t ht
    by_cases hkj : k = .handed u
    · subst hkj
      rw [he.put.mem_iff, List.mem_cons] at ht
      rcases ht with ht | ht
      · exact .inr ⟨_, ht⟩
      · exact .inl ht
    · exact .inl ((he.others k hkj).mem_iff.mp ht)
  · intro t ht
    rw [hdeleted] at ht
    have hlt := h.deleted_lt t ht
    omega
  · apply Change.create s.created u ⟨perm_threads he.put, fun k hk => (he.others k hk).filterMap _⟩
    · exact fun hl => lt_irrefl _ hl.1
    · intro x
      unfold Live
      rw [hcreated, hdeleted]
      constructor
      · rintro ⟨hx, hd⟩
        rcases Nat.lt_succ_iff_lt_or_eq.mp hx with hlt | heq
        · exact .inl ⟨hlt, hd⟩
        · exact .inr heq
      · intro hx
        rcases hx with hx | hx
        · exact ⟨Nat.lt_succ_of_lt hx.1, hx.2⟩
        · rw [hx]
          exact ⟨Nat.lt_succ_self _, hnew⟩

theorem sound_delete (h : Inv s) (hcontrol : Control s'.cpu) (hbase : ∀ k, s'.base (.idle k) = .stopping) {x : ℕ}
    {u : Tcb} (he : Enters s'.tcbs s.tcbs (.thread x) (.reaped u)) (hcreated : s'.created = s.created)
    (hdeleted : s'.deleted = insert x s.deleted) : Sound s s' := by
  obtain ⟨place, hplace⟩ := h.placed
  have hx : s.Live x := by
    have hmem : x ∈ s.contents (.reaped u) := mem_contents.mpr (he.put.mem_iff.mpr List.mem_cons_self)
    exact hplace.live_of_mem hmem
  apply h.sound_of_change hcontrol hbase
  · intro k hk t ht
    by_cases hkj : k = .reaped u
    · subst hkj
      exact .inl (he.put.mem_iff.mpr (List.mem_cons_of_mem _ ht))
    · exact .inl ((he.others k hkj).mem_iff.mpr ht)
  · intro t ht
    rw [hdeleted, Finset.mem_insert] at ht
    rw [hcreated]
    rcases ht with ht | ht
    · rw [ht]
      exact hx.1
    · exact h.deleted_lt t ht
  · apply Change.delete x u ⟨perm_threads he.put, fun k hk => (he.others k hk).filterMap _⟩
    intro y
    unfold Live
    rw [hcreated, hdeleted, Finset.mem_insert, not_or]
    constructor
    · rintro ⟨hy, hne, hd⟩
      exact ⟨⟨hy, hd⟩, hne⟩
    · rintro ⟨⟨hy, hd⟩, hne⟩
      exact ⟨hy, hne, hd⟩

theorem sound_refl (h : Inv s) : Sound s s := h.sound_same h.control h.idle_base (fun _ => rfl) ⟨rfl, rfl⟩

/-! What the updates of the state do to the places. -/

/-- Outside its stop loop there are only threads, so that the idle threads stay where they are. -/
theorem idle_base_update (h : Inv s) {t : Tcb} (b : Base) (ht : ∀ k, t = .idle k → b = .stopping) (k : ℕ) :
    Function.update s.base t b (.idle k) = .stopping := by
  by_cases hk : Tcb.idle k = t
  · rw [hk, Function.update_self, ht k hk.symm]
  · rw [Function.update_of_ne hk]
    exact h.idle_base k

/-- An update keeps what a function reads off every value when it keeps it at the value that changes. -/
theorem update_keeps {α β γ : Type*} [DecidableEq α] {g : β → γ} {f : α → β} {a : α} {b : β} (hb : g b = g (f a))
    (x : α) : g (Function.update f a b x) = g (f x) := by
  by_cases hx : x = a
  · rw [hx, Function.update_self, hb]
  · rw [Function.update_of_ne hx]

/-- A call of `block` that has just begun does not concern the other threads. -/
theorem call_onCore (h : Inv s) (hcalls : ∀ call ∈ s.cpu.calls (s.cpu.stack c), call.stage = .enter) (o : BlockOption)
    (cb : Callback) (c' : ℕ) : (s.cpu.call c o cb).onCore c' = s.cpu.onCore c' := by
  have hadv := Control.advance_setCalls s.cpu c (⟨o, cb, .enter⟩ :: s.cpu.calls (s.cpu.stack c))
  have hon := hadv.onCore h.apart c'
  change (s.cpu.call c o cb).onCore c' = _ at hon
  rw [hon]
  by_cases hc : c' = c
  · subst hc
    have hnone : s.cpu.incoming c' = none := by
      unfold Cpu.incoming
      cases hl : s.cpu.calls (s.cpu.stack c') with
      | nil => rfl
      | cons call rest => simp [hcalls call (by simp [hl]), Stage.next?]
    rw [if_pos rfl, Cpu.onCore, hnone]
    rfl
  · rw [if_neg hc]

theorem at_calls {b : Base} (hat : s.At c b) : ∀ call ∈ s.cpu.calls (s.cpu.stack c), call.stage = .enter := by
  have hnil : s.cpu.calls (s.cpu.stack c) = [] := hat.1.2
  simp [hnil]

/-- No thread is taken from a queue or put into one. -/
structure QueuesKept (s s' : Sched) : Prop where
  ready : s'.readyQ = s.readyQ
  zombies : s'.zombies = s.zombies
  sem : ∀ i, (s'.sem i).waiting = (s.sem i).waiting
  cond : ∀ k, (s'.cond k).queue = (s.cond k).queue
  threads : SameThreads s s'

theorem QueuesKept.tcbs (hq : QueuesKept s s') (hcore : ∀ c, s'.cpu.onCore c = s.cpu.onCore c)
    (hbase : ∀ u, (s'.base u).handed? = (s.base u).handed? ∧ (s'.base u).reaped? = (s.base u).reaped?) (i : Place) :
    s'.tcbs i = s.tcbs i := by
  cases i with
  | core c => exact hcore c
  | ready => exact hq.ready
  | sem i => exact hq.sem i
  | cond k => exact hq.cond k
  | handed u => exact congrArg Option.toList (hbase u).1
  | zombies => exact hq.zombies
  | reaped u => exact congrArg Option.toList (hbase u).2

/-- The thread on core `c` goes on from `b` to `b'` and holds no other thread, before or after. -/
theorem sound_at (h : Inv s) {b b' : Base} (hat : s.At c b) (hq : QueuesKept s s')
    (hbase : s'.base = Function.update s.base (s.current c) b') (hhanded : b'.handed? = b.handed?)
    (hreaped : b'.reaped? = b.reaped?) (hidle : ∀ k, s.current c = .idle k → b' = .stopping)
    (hcpu : s'.cpu = s.cpu ∨ ∃ o cb, s'.cpu = s.cpu.call c o cb ∧
      ∀ k, s.current c = .idle k → o = .mustBlock ∧ cb = .stop) : Sound s s' := by
  have hcore : Control s'.cpu ∧ ∀ c, s'.cpu.onCore c = s.cpu.onCore c := by
    rcases hcpu with hcpu | ⟨o, cb, hcpu, hocb⟩
    · rw [hcpu]
      exact ⟨h.control, fun _ => rfl⟩
    · rw [hcpu]
      exact ⟨h.control.call h.apart hat.1.1 (at_calls hat) o cb hocb, h.call_onCore (at_calls hat) o cb⟩
  apply h.sound_same hcore.1
  · rw [hbase]
    exact h.idle_base_update b' hidle
  · apply hq.tcbs hcore.2
    intro u
    rw [hbase]
    exact ⟨update_keeps (by rw [hat.2, hhanded]) u, update_keeps (by rw [hat.2, hreaped]) u⟩
  · exact hq.threads

theorem queuesKept_sem {i : ℕ} {x : Semaphore Tcb} (hx : x.waiting = (s.sem i).waiting) : QueuesKept s (s.setSem i x) :=
  ⟨rfl, rfl, update_keeps (g := Semaphore.waiting) hx, fun _ => rfl, rfl, rfl⟩

theorem queuesKept_cond {k : ℕ} {x : Condition Tcb} (hx : x.queue = (s.cond k).queue) : QueuesKept s (s.setCond k x) :=
  ⟨rfl, rfl, fun _ => rfl, update_keeps (g := Condition.queue) hx, rfl, rfl⟩

section outside
variable {b : Base} {i k limit : ℕ}

/-- A thread that may be preempted is not inside `block`. -/
theorem enter_of_unmarked (h : Inv s) (hp : s.cpu.pending c = none) (hpre : ¬ s.cpu.noPreempt (s.cpu.active c) = true) :
    ∀ call ∈ s.cpu.calls (s.cpu.stack c), call.stage = .enter := by
  have hr := (h.control.core c).running hp
  have htail := h.control.tails (s.cpu.stack c)
  cases hl : s.cpu.calls (s.cpu.stack c) with
  | nil => simp
  | cons call rest =>
    rw [hl] at hr htail
    change StageOk s.cpu c call.stage at hr
    have hhead : call.stage = .enter := by
      cases hst : call.stage <;> rw [hst] at hr
      case remove => exact absurd (by rw [hr.2.2.1]; exact hr.2.2.2) hpre
      case activate => exact absurd (by rw [hr.2.2.1]; exact hr.2.2.2.1) hpre
      case switch => exact absurd (by rw [hr.2.2.1]; exact hr.2.2.2.1) hpre
      case away => exact hr.elim
    intro call' hcall'
    rcases List.mem_cons.mp hcall' with hc | hc
    · rw [hc]
      exact hhead
    · exact htail call' hc

theorem sound_tick (h : Inv s) (hp : s.cpu.pending c = none) : Sound s (s.apitHandler c) := by
  unfold apitHandler
  dsimp only
  split_ifs with hskip
  · exact h.sound_refl
  · obtain ⟨hidle, hpre⟩ := not_or.mp hskip
    have henter := h.enter_of_unmarked hp hpre
    have hactive := h.control.active_eq hp henter
    apply h.sound_same
    · apply h.control.call h.apart hp henter
      intro k hk
      rw [hactive, hk] at hidle
      exact absurd rfl hidle
    · exact h.idle_base
    · exact QueuesKept.tcbs ⟨rfl, rfl, fun _ => rfl, fun _ => rfl, rfl, rfl⟩ (h.call_onCore henter .canReturn .yield)
        fun _ => ⟨rfl, rfl⟩
    · exact ⟨rfl, rfl⟩

theorem not_idle (h : Inv s) (hat : s.At c b) (hb : b ≠ .stopping) (P : ℕ → Prop) : ∀ k, s.current c = .idle k → P k := by
  intro k hk
  obtain ⟨t, ht⟩ := h.current_thread hat hb
  rw [ht] at hk
  cases hk

theorem base_eq (hat : s.At c b) : s.base = Function.update s.base (s.current c) b := by
  rw [← hat.2, Function.update_eq_self]

theorem sound_yield (h : Inv s) (hat : s.At c .free) : Sound s (s.next (.yield c)) := by
  have hq : QueuesKept s (s.next (.yield c)) := ⟨rfl, rfl, fun _ => rfl, fun _ => rfl, rfl, rfl⟩
  have hbase : s.base = Function.update s.base (s.current c) .free := base_eq hat
  apply h.sound_at hat hq hbase rfl rfl
  · exact h.not_idle hat (by simp) _
  · exact .inr ⟨_, _, rfl, h.not_idle hat (by simp) _⟩

theorem sound_stop (h : Inv s) (hat : s.At c .free) : Sound s (s.next (.stop c)) := by
  have hq : QueuesKept s (s.next (.stop c)) := ⟨rfl, rfl, fun _ => rfl, fun _ => rfl, rfl, rfl⟩
  apply h.sound_at hat hq rfl rfl rfl
  · intro k hk
    rfl
  · exact .inl rfl

theorem sound_stopLoop (h : Inv s) (hat : s.At c .stopping) : Sound s (s.next (.stopLoop c)) := by
  have hq : QueuesKept s (s.next (.stopLoop c)) := ⟨rfl, rfl, fun _ => rfl, fun _ => rfl, rfl, rfl⟩
  have hbase : s.base = Function.update s.base (s.current c) .stopping := base_eq hat
  apply h.sound_at hat hq hbase rfl rfl
  · intro k hk
    rfl
  · exact .inr ⟨_, _, rfl, fun k hk => ⟨rfl, rfl⟩⟩

theorem sound_down (h : Inv s) (hat : s.At c .free) : Sound s (s.next (.down c i)) := by
  have hsem : QueuesKept s (s.setSem i (s.sem i).lock) := queuesKept_sem rfl
  have hq : QueuesKept s (s.next (.down c i)) := ⟨rfl, rfl, hsem.sem, fun _ => rfl, rfl, rfl⟩
  apply h.sound_at hat hq rfl rfl rfl
  · exact h.not_idle hat (by simp) _
  · exact .inl rfl

theorem sound_downLocked (h : Inv s) (hat : s.At c (.downLocked i)) : Sound s (s.next (.downLocked c)) := by
  simp only [next, hat.2]
  cases hx : (s.sem i).tryDown with
  | some x =>
    have hwaiting : x.waiting = (s.sem i).waiting := by
      unfold Semaphore.tryDown at hx
      split_ifs at hx
      cases hx
      rfl
    have hsem : QueuesKept s (s.setSem i x.unlock) := queuesKept_sem hwaiting
    have hq : QueuesKept s ((s.setSem i x.unlock).setBase (s.current c) .free) := ⟨rfl, rfl, hsem.sem, fun _ => rfl, rfl, rfl⟩
    apply h.sound_at hat hq rfl rfl rfl
    · exact h.not_idle hat (by simp) _
    · exact .inl rfl
  | none =>
    have hq : QueuesKept s { s.setBase (s.current c) .free with cpu := s.cpu.call c .mustBlock (.down i) } :=
      ⟨rfl, rfl, fun _ => rfl, fun _ => rfl, rfl, rfl⟩
    apply h.sound_at hat hq rfl rfl rfl
    · exact h.not_idle hat (by simp) _
    · exact .inr ⟨_, _, rfl, h.not_idle hat (by simp) _⟩

theorem sound_up (h : Inv s) (hat : s.At c .free) : Sound s (s.next (.up c i)) := by
  have hsem : QueuesKept s (s.setSem i (s.sem i).lock) := queuesKept_sem rfl
  have hq : QueuesKept s (s.next (.up c i)) := ⟨rfl, rfl, hsem.sem, fun _ => rfl, rfl, rfl⟩
  apply h.sound_at hat hq rfl rfl rfl
  · exact h.not_idle hat (by simp) _
  · exact .inl rfl

theorem sound_setCond (h : Inv s) {x : Condition Tcb} (hx : x.queue = (s.cond k).queue) : Sound s (s.setCond k x) :=
  h.sound_same h.control h.idle_base ((queuesKept_cond hx).tcbs (fun _ => rfl) fun _ => ⟨rfl, rfl⟩) ⟨rfl, rfl⟩

theorem sound_wait (h : Inv s) (hat : s.At c .free) : Sound s (s.next (.wait c k)) := by
  have hcond : QueuesKept s (s.setCond k (s.cond k).unlock) := queuesKept_cond rfl
  have hq : QueuesKept s (s.next (.wait c k)) := ⟨rfl, rfl, fun _ => rfl, hcond.cond, rfl, rfl⟩
  apply h.sound_at hat hq rfl rfl rfl
  · exact h.not_idle hat (by simp) _
  · exact .inr ⟨_, _, rfl, h.not_idle hat (by simp) _⟩

theorem sound_relock (h : Inv s) (hat : s.At c (.relock k)) : Sound s (s.next (.relock c)) := by
  have hnext : s.next (.relock c) = (s.setCond k (s.cond k).lock).setBase (s.current c) .free := by
    simp only [next, hat.2]
  rw [hnext]
  have hcond : QueuesKept s (s.setCond k (s.cond k).lock) := queuesKept_cond rfl
  have hq : QueuesKept s ((s.setCond k (s.cond k).lock).setBase (s.current c) .free) :=
    ⟨rfl, rfl, fun _ => rfl, hcond.cond, rfl, rfl⟩
  apply h.sound_at hat hq rfl rfl rfl
  · exact h.not_idle hat (by simp) _
  · exact .inl rfl

theorem sound_notify (h : Inv s) (hat : s.At c .free) : Sound s (s.next (.notify c k limit)) := by
  have hcond : QueuesKept s (s.setCond k (s.cond k).nextEpoch) := queuesKept_cond rfl
  have hq : QueuesKept s (s.next (.notify c k limit)) := ⟨rfl, rfl, fun _ => rfl, hcond.cond, rfl, rfl⟩
  apply h.sound_at hat hq rfl rfl rfl
  · exact h.not_idle hat (by simp) _
  · exact .inl rfl

end outside

section moving
variable {i k left : ℕ} {t u u' : Tcb} {b b' : Base}

theorem handed_self (hbase : s'.base = Function.update s.base u b') : s'.tcbs (.handed u) = b'.handed?.toList := by
  change (s'.base u).handed?.toList = _
  rw [hbase, Function.update_self]

theorem reaped_self (hbase : s'.base = Function.update s.base u b') : s'.tcbs (.reaped u) = b'.reaped?.toList := by
  change (s'.base u).reaped?.toList = _
  rw [hbase, Function.update_self]

theorem handed_other (hbase : s'.base = Function.update s.base u b') (hu : Place.handed u' ≠ .handed u) :
    s'.tcbs (.handed u') = s.tcbs (.handed u') := by
  change (s'.base u').handed?.toList = (s.base u').handed?.toList
  rw [hbase, Function.update_of_ne fun he => hu (by rw [he])]

theorem reaped_other (hbase : s'.base = Function.update s.base u b') (hu : Place.reaped u' ≠ .reaped u) :
    s'.tcbs (.reaped u') = s.tcbs (.reaped u') := by
  change (s'.base u').reaped?.toList = (s.base u').reaped?.toList
  rw [hbase, Function.update_of_ne fun he => hu (by rw [he])]

theorem handed_kept (hbase : s'.base = Function.update s.base u b') (hb : b'.handed? = (s.base u).handed?) :
    s'.tcbs (.handed u') = s.tcbs (.handed u') := by
  change (s'.base u').handed?.toList = (s.base u').handed?.toList
  rw [hbase, update_keeps (g := Base.handed?) hb]

theorem reaped_kept (hbase : s'.base = Function.update s.base u b') (hb : b'.reaped? = (s.base u).reaped?) :
    s'.tcbs (.reaped u') = s.tcbs (.reaped u') := by
  change (s'.base u').reaped?.toList = (s.base u').reaped?.toList
  rw [hbase, update_keeps (g := Base.reaped?) hb]

/-- The first in any place but a core is a thread. -/
theorem head_thread (h : Inv s) {i : Place} (hi : i.isCore = false) {rest : List Tcb} (hlist : s.tcbs i = t :: rest) :
    ∃ x, t = .thread x := by
  apply h.tcbs_not_idle hi
  rw [hlist]
  exact List.mem_cons_self

/-- A thread moves, and the one that runs goes on in its own code. -/
theorem sound_move_at (h : Inv s) (hat : s.At c b) (hb : b ≠ .stopping)
    (hbase : s'.base = Function.update s.base (s.current c) b') (hcpu : s'.cpu = s.cpu) (hids : SameThreads s s') {x : ℕ}
    {i j : Place} (hm : Moves s.tcbs s'.tcbs (.thread x) i j) (hq : ¬ (i.isQueue = true ∧ j.isQueue = true)) :
    Sound s s' := by
  apply h.sound_move _ _ hm hq hids
  · rw [hcpu]
    exact h.control
  · rw [hbase]
    exact h.idle_base_update _ (h.not_idle hat hb _)

/-- The caller of `new TCBImpl<T>(work)` holds the thread until it calls `schedule`. -/
theorem sound_next_create (h : Inv s) (hat : s.At c .free) : Sound s (s.next (.create c)) := by
  have hbase : (s.next (.create c)).base =
    Function.update s.base (s.current c) (.handing (.thread s.created) none) := rfl
  apply h.sound_create (u := s.current c)
  case hcontrol => exact h.control
  case hbase => exact h.idle_base_update _ (h.not_idle hat (by simp) _)
  case hcreated => rfl
  case hdeleted => rfl
  case he =>
    constructor
    case put =>
      rw [handed_self hbase]
      change [_].Perm (_ :: (s.base (s.current c)).handed?.toList)
      rw [hat.2]
      exact .refl _
    case others =>
      intro j hj
      cases j with
      | handed u => rw [handed_other hbase hj]
      | reaped u => rw [reaped_kept hbase (by rw [hat.2]; rfl)]
      | _ => exact .refl _

theorem sound_schedule {rest : Option (ℕ × ℕ)} (h : Inv s) (hat : s.At c (.handing t rest)) :
    Sound s (s.next (.schedule c)) := by
  have hplace : s.tcbs (.handed (s.current c)) = [t] := by
    change (s.base (s.current c)).handed?.toList = [t]
    rw [hat.2]
    rfl
  obtain ⟨x, rfl⟩ := h.head_thread rfl hplace
  obtain ⟨b', hb', hnext⟩ : ∃ b' : Base, (b'.handed? = none ∧ b'.reaped? = none) ∧
      s.next (.schedule c) = { s.setBase (s.current c) b' with readyQ := s.readyQ ++ [.thread x] } := by
    cases rest with
    | none => exact ⟨.free, ⟨rfl, rfl⟩, by simp only [next, hat.2]; rfl⟩
    | some r => exact ⟨.notifying r.1 r.2, ⟨rfl, rfl⟩, by simp only [next, hat.2]; rfl⟩
  rw [hnext]
  have hbase : ({ s.setBase (s.current c) b' with readyQ := s.readyQ ++ [.thread x] } : Sched).base =
    Function.update s.base (s.current c) b' := rfl
  apply h.sound_move_at hat (by simp) hbase rfl ⟨rfl, rfl⟩ (x := x) (i := .handed (s.current c)) (j := .ready)
  case hq => simp [Place.isQueue]
  case hm =>
    constructor
    case ne => simp
    case got =>
      rw [handed_self hbase, hb'.1]
      change (s.base (s.current c)).handed?.toList.Perm _
      rw [hat.2]
      exact .refl _
    case put => exact List.perm_append_singleton ..
    case others =>
      intro j hj hj'
      cases j with
      | handed u => rw [handed_other hbase hj]
      | reaped u => rw [reaped_kept hbase (by rw [hat.2, hb'.2]; rfl)]
      | ready => exact absurd rfl hj'
      | _ => exact .refl _

theorem sound_upLocked (h : Inv s) (hat : s.At c (.upLocked i)) : Sound s (s.next (.upLocked c)) := by
  cases hw : (s.sem i).waiting with
  | nil =>
    simp only [next, hat.2, Semaphore.handOver_nil hw]
    generalize hx : ({ s.sem i with count := ((s.sem i).count + 1) % 2 ^ 64 } : Semaphore Tcb).unlock = x
    have hsem : QueuesKept s (s.setSem i x) := queuesKept_sem (by rw [← hx]; rfl)
    have hq : QueuesKept s ((s.setSem i x).setBase (s.current c) .free) :=
      ⟨rfl, rfl, hsem.sem, fun _ => rfl, rfl, rfl⟩
    apply h.sound_at hat hq rfl rfl rfl
    · exact h.not_idle hat (by simp) _
    · exact .inl rfl
  | cons t rest =>
    obtain ⟨y, rfl⟩ := h.head_thread (i := .sem i) rfl hw
    simp only [next, hat.2, Semaphore.handOver_cons hw]
    generalize hx : ({ s.sem i with waiting := rest } : Semaphore Tcb).unlock = x
    have hwaiting : x.waiting = rest := by rw [← hx]; rfl
    have hbase : ((s.setSem i x).setBase (s.current c) (.handing (.thread y) none)).base =
      Function.update s.base (s.current c) (.handing (.thread y) none) := rfl
    apply h.sound_move_at hat (by simp) hbase rfl ⟨rfl, rfl⟩ (x := y) (i := .sem i) (j := .handed (s.current c))
    case hq => simp [Place.isQueue]
    case hm =>
      constructor
      case ne => simp
      case got =>
        change (s.sem i).waiting.Perm (_ :: (Function.update s.sem i x i).waiting)
        rw [hw, Function.update_self, hwaiting]
      case put =>
        rw [handed_self hbase]
        change [_].Perm (_ :: (s.base (s.current c)).handed?.toList)
        rw [hat.2]
        exact .refl _
      case others =>
        intro j hj hj'
        cases j with
        | handed u => rw [handed_other hbase hj']
        | reaped u => rw [reaped_kept hbase (by rw [hat.2]; rfl)]
        | sem i' =>
          change (Function.update s.sem i x i').waiting.Perm _
          rw [Function.update_of_ne fun he => hj (by rw [he])]
          exact .refl _
        | _ => exact .refl _

theorem sound_notifyLoop (h : Inv s) (hat : s.At c (.notifying k left)) : Sound s (s.next (.notifyLoop c)) := by
  have hfree : Sound s (s.setBase (s.current c) .free) := by
    have hq : QueuesKept s (s.setBase (s.current c) .free) := ⟨rfl, rfl, fun _ => rfl, fun _ => rfl, rfl, rfl⟩
    apply h.sound_at hat hq rfl rfl rfl
    · exact h.not_idle hat (by simp) _
    · exact .inl rfl
  cases left with
  | zero =>
    simp only [next, hat.2]
    exact hfree
  | succ left =>
    cases hw : (s.cond k).queue with
    | nil =>
      simp only [next, hat.2, Condition.dequeue_nil hw]
      exact hfree
    | cons t rest =>
      obtain ⟨y, rfl⟩ := h.head_thread (i := .cond k) rfl hw
      simp only [next, hat.2, Condition.dequeue_cons hw]
      generalize hx : ({ s.cond k with queue := rest } : Condition Tcb) = x
      have hqueue : x.queue = rest := by rw [← hx]
      have hbase : ((s.setCond k x).setBase (s.current c) (.handing (.thread y) (some (k, left)))).base =
        Function.update s.base (s.current c) (.handing (.thread y) (some (k, left))) := rfl
      apply h.sound_move_at hat (by simp) hbase rfl ⟨rfl, rfl⟩ (x := y) (i := .cond k) (j := .handed (s.current c))
      case hq => simp [Place.isQueue]
      case hm =>
        constructor
        case ne => simp
        case got =>
          change (s.cond k).queue.Perm (_ :: (Function.update s.cond k x k).queue)
          rw [hw, Function.update_self, hqueue]
        case put =>
          rw [handed_self hbase]
          change [_].Perm (_ :: (s.base (s.current c)).handed?.toList)
          rw [hat.2]
          exact .refl _
        case others =>
          intro j hj hj'
          cases j with
          | handed u => rw [handed_other hbase hj']
          | reaped u => rw [reaped_kept hbase (by rw [hat.2]; rfl)]
          | cond k' =>
            change (Function.update s.cond k x k').queue.Perm _
            rw [Function.update_of_ne fun he => hj (by rw [he])]
            exact .refl _
          | _ => exact .refl _

theorem sound_reap (h : Inv s) (hat : s.At c .free) : Sound s (s.next (.reap c)) := by
  simp only [next]
  cases hz : s.zombies with
  | nil => exact h.sound_refl
  | cons t rest =>
    obtain ⟨x, rfl⟩ := h.head_thread (i := .zombies) rfl hz
    have hbase : ({ s.setBase (s.current c) (.reaping (.thread x)) with zombies := rest } : Sched).base =
      Function.update s.base (s.current c) (.reaping (.thread x)) := rfl
    apply h.sound_move_at hat (by simp) hbase rfl ⟨rfl, rfl⟩ (x := x) (i := .zombies) (j := .reaped (s.current c))
    case hq => simp [Place.isQueue]
    case hm =>
      constructor
      case ne => simp
      case got =>
        change s.zombies.Perm (_ :: rest)
        rw [hz]
      case put =>
        rw [reaped_self hbase]
        change [_].Perm (_ :: (s.base (s.current c)).reaped?.toList)
        rw [hat.2]
        exact .refl _
      case others =>
        intro j hj hj'
        cases j with
        | handed u => rw [handed_kept hbase (by rw [hat.2]; rfl)]
        | reaped u => rw [reaped_other hbase hj']
        | zombies => exact absurd rfl hj
        | _ => exact .refl _

theorem sound_next_delete (h : Inv s) (hat : s.At c (.reaping t)) : Sound s (s.next (.delete c)) := by
  have hplace : s.tcbs (.reaped (s.current c)) = [t] := by
    change (s.base (s.current c)).reaped?.toList = [t]
    rw [hat.2]
    rfl
  obtain ⟨x, rfl⟩ := h.head_thread rfl hplace
  simp only [next, hat.2]
  have hbase : ({ s.setBase (s.current c) .free with deleted := insert x s.deleted } : Sched).base =
    Function.update s.base (s.current c) .free := rfl
  apply h.sound_delete (x := x) (u := s.current c)
  case hcontrol => exact h.control
  case hbase => exact h.idle_base_update _ (h.not_idle hat (by simp) _)
  case hcreated => rfl
  case hdeleted => rfl
  case he =>
    constructor
    case put =>
      rw [reaped_self hbase]
      change (s.base (s.current c)).reaped?.toList.Perm _
      rw [hat.2]
      exact .refl _
    case others =>
      intro j hj
      cases j with
      | handed u => rw [handed_kept hbase (by rw [hat.2]; rfl)]
      | reaped u => rw [reaped_other hbase hj]
      | _ => exact .refl _

end moving

end Inv
end Sched
end AudioKernel
