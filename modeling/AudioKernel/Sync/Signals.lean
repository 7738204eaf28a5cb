import AudioKernel.Sync.Waiters

/-! A condition misses no signal, as long as its epoch does not wrap around. -/
namespace AudioKernel
open Lib

variable {T : Type}

namespace CondPc

def loop? : CondPc T → Option (ℕ × ℕ)
  | notifying limit i | handing _ limit i => some (limit, i)
  | _ => none

theorem holds_of_loop {pc : CondPc T} {x : ℕ × ℕ} (h : pc.loop? = some x) : pc.holdsLock = true := by
  cases pc <;> first | rfl | cases h

theorem wait_of_pending {pc : CondPc T} {e : ℕ} (h : pc.pending? = some e) : pc.wait? = some e := by
  cases pc <;> first | exact h | cases h

end CondPc

namespace CondState

/-- The thread has been added to the queue by its `wait` with this epoch, and has not been scheduled. -/
def Enqueued (s : CondState T) (t : T) (e : ℕ) : Prop := (s.pc t).enqueued = true ∧ (s.pc t).wait? = some e

/-- While the loop of `notify` runs, a thread is enqueued only when it is in the queue. -/
theorem Inv.not_enqueued {s : CondState T} {t : T} {limit i : ℕ} (h : Inv s) (ht : s.pc t = .notifying limit i)
    (hw : s.cond.queue = []) (u : T) (e : ℕ) : ¬ s.Enqueued u e := by
  rintro ⟨hu, _⟩
  rcases h.queue.mem_or_hands hu with hmem | ⟨v, hv⟩
  · rw [hw] at hmem
    cases hmem
  · have hholds : (s.pc v).holdsLock = true := by
      cases hpc : s.pc v <;> rw [hpc] at hv <;> first | rfl | cases hv
    have hvt := h.lock.unique v t hholds (by rw [ht]; rfl)
    rw [hvt, ht] at hv
    cases hv

/-- No `wait` of the thread with this epoch is in the queue, and none can get there any more. -/
def Dead (s : CondState T) (t : T) (e : ℕ) : Prop := e < s.notifies ∧ ¬ s.Enqueued t e

/-- What a call of `notify` that has ended has done to the calls of `wait` that had released the lock before it. -/
structure Done (r : Notify T) (s : CondState T) : Prop where
  all : r.limit = allLimit → ∀ t e, (r.before t).wait? = some e → s.Dead t e
  one : 0 < r.limit → (∃ t e, (r.before t).pending? = some e) → ∃ t e, (r.before t).pending? = some e ∧ s.Dead t e

/-- How far the call of `notify` that holds the lock has come. -/
structure Progress (s : CondState T) (limit i : ℕ) : Prop where
  limit_eq : s.current.limit = limit
  before : ∀ t e, (s.current.before t).wait? = some e → e < s.notifies
  queued : ∀ t e, s.Enqueued t e → (s.current.before t).pending? = some e
  handed : i = 0 ∨ ∃ t e, (s.current.before t).pending? = some e ∧ s.Dead t e

/-- The calls of `wait` in `D` are dead, and stay so. -/
structure Signals (D : T → ℕ → Prop) (s : CondState T) : Prop where
  base : Inv s
  epoch : s.cond.epoch = s.notifies
  few : s.notifies < 2 ^ 64
  recorded : ∀ t e, (s.pc t).wait? = some e → e ≤ s.notifies
  unfailed : ∀ t, s.pc t ≠ .failed
  counts : ∀ t, s.waits t = s.schedules t + if (s.pc t).wait?.isSome = true then 1 else 0
  current : ∀ t limit i, (s.pc t).loop? = some (limit, i) → s.Progress limit i
  completed : ∀ r ∈ s.completed, Done r s
  dead : ∀ t e, D t e → s.Dead t e

/-- What a step does to one thread. -/
inductive Goes (s s' : CondState T) (t : T) : Prop
  | same : s'.pc t = s.pc t → s'.waits t = s.waits t → s'.schedules t = s.schedules t → Goes s s' t
  | outside : (s.pc t).wait? = none → (s'.pc t).wait? = none → s'.pc t ≠ .failed → s'.waits t = s.waits t →
      s'.schedules t = s.schedules t → Goes s s' t
  | begin : (s.pc t).wait? = none → s'.pc t = .waitBlock s.cond.epoch → s'.waits t = s.waits t + 1 →
      s'.schedules t = s.schedules t → Goes s s' t
  | onward (e : ℕ) : (s.pc t).wait? = some e → (s'.pc t).wait? = some e → (s'.pc t).enqueued = (s.pc t).enqueued →
      s'.waits t = s.waits t → s'.schedules t = s.schedules t → Goes s s' t
  | enqueue (e : ℕ) : (s.pc t).wait? = some e → s.cond.epoch = e → s'.pc t = .waitQueued e →
      s'.waits t = s.waits t → s'.schedules t = s.schedules t → Goes s s' t
  | scheduled (e : ℕ) : (s.pc t).wait? = some e → s'.pc t = .relock → s'.waits t = s.waits t →
      s'.schedules t = s.schedules t + 1 → Goes s s' t

namespace Goes

variable {s s' : CondState T} {t : T} {e : ℕ}

theorem recorded (h : Goes s s' t) (hepoch : s.cond.epoch = s.notifies) (hmono : s.notifies ≤ s'.notifies)
    (hrec : ∀ e, (s.pc t).wait? = some e → e ≤ s.notifies) (he : (s'.pc t).wait? = some e) : e ≤ s'.notifies := by
  cases h with
  | same hpc => exact (hrec e (by rw [← hpc]; exact he)).trans hmono
  | outside _ hnone =>
    rw [hnone] at he
    cases he
  | begin _ hpc =>
    rw [hpc] at he
    cases he
    omega
  | onward e' hs hs' =>
    rw [hs'] at he
    cases he
    exact (hrec e hs).trans hmono
  | enqueue e' hs _ hpc =>
    rw [hpc] at he
    cases he
    exact (hrec e hs).trans hmono
  | scheduled e' _ hpc =>
    rw [hpc] at he
    cases he

theorem unfailed (h : Goes s s' t) (hs : s.pc t ≠ .failed) : s'.pc t ≠ .failed := by
  cases h with
  | same hpc => rw [hpc]; exact hs
  | outside _ _ hne => exact hne
  | begin _ hpc => rw [hpc]; simp
  | onward e' _ hs' =>
    intro hf
    rw [hf] at hs'
    cases hs'
  | enqueue e' _ _ hpc => rw [hpc]; simp
  | scheduled e' _ hpc => rw [hpc]; simp

theorem counts (h : Goes s s' t) (hs : s.waits t = s.schedules t + if (s.pc t).wait?.isSome = true then 1 else 0) :
    s'.waits t = s'.schedules t + if (s'.pc t).wait?.isSome = true then 1 else 0 := by
  cases h with
  | same hpc hw hsch => rw [hpc, hw, hsch, hs]
  | outside hnone hnone' _ hw hsch => rw [hnone', hw, hsch, hs, hnone]
  | begin hnone hpc hw hsch => rw [hpc, hw, hsch, hs, hnone]; rfl
  | onward e' hsome hsome' _ hw hsch => rw [hsome', hw, hsch, hs, hsome]
  | enqueue e' hsome _ hpc hw hsch => rw [hpc, hw, hsch, hs, hsome]; rfl
  | scheduled e' hsome hpc hw hsch => rw [hpc, hw, hsch, hs, hsome]; rfl

/-- A thread gets into the queue only while the epoch is the one that its `wait` has recorded. -/
theorem enqueued (h : Goes s s' t) (he : s'.Enqueued t e) : s.Enqueued t e ∨ s.cond.epoch = e := by
  obtain ⟨henq, hwait⟩ := he
  cases h with
  | same hpc =>
    rw [hpc] at henq hwait
    exact .inl ⟨henq, hwait⟩
  | outside _ hnone =>
    rw [hnone] at hwait
    cases hwait
  | begin _ hpc =>
    rw [hpc] at henq
    cases henq
  | onward e' hs hs' hsame =>
    rw [hs'] at hwait
    rw [hsame] at henq
    cases hwait
    exact .inl ⟨henq, hs⟩
  | enqueue e' _ hepoch hpc =>
    rw [hpc] at hwait
    cases hwait
    exact .inr hepoch
  | scheduled e' _ hpc =>
    rw [hpc] at henq
    cases henq

theorem dead (h : Goes s s' t) (hepoch : s.cond.epoch = s.notifies) (hmono : s.notifies ≤ s'.notifies)
    (hdead : s.Dead t e) : s'.Dead t e := by
  obtain ⟨hlt, hnot⟩ := hdead
  refine ⟨by omega, fun he => ?_⟩
  rcases h.enqueued he with he | he
  · exact hnot he
  · omega

end Goes

theorem Done.mono {r : Notify T} {s s' : CondState T} (h : Done r s) (hdead : ∀ t e, s.Dead t e → s'.Dead t e) :
    Done r s' := by
  constructor
  · intro hlimit t e he
    exact hdead t e (h.all hlimit t e he)
  · intro hpos hsome
    obtain ⟨t, e, hp, hd⟩ := h.one hpos hsome
    exact ⟨t, e, hp, hdead t e hd⟩

/-- A step that puts no thread into the queue does not set a call of `notify` back. -/
theorem Progress.mono {s s' : CondState T} {limit i : ℕ} (h : s.Progress limit i) (hcurrent : s'.current = s.current)
    (hnotifies : s'.notifies = s.notifies) (henq : ∀ t e, s'.Enqueued t e → s.Enqueued t e) : s'.Progress limit i := by
  constructor
  case limit_eq => rw [hcurrent, h.limit_eq]
  case before =>
    rw [hcurrent, hnotifies]
    exact h.before
  case queued =>
    intro t e he
    rw [hcurrent]
    exact h.queued t e (henq t e he)
  case handed =>
    rcases h.handed with hi | ⟨t, e, hp, hlt, hnot⟩
    · exact .inl hi
    · refine .inr ⟨t, e, by rw [hcurrent]; exact hp, by rw [hnotifies]; exact hlt, fun he => hnot (henq t e he)⟩

namespace Signals

variable {D : T → ℕ → Prop} {s s' : CondState T} {t : T} {q : CondPc T} {e limit i : ℕ}

theorem of_goes (h : Signals D s) (hbase : Inv s') (hgoes : ∀ u, Goes s s' u) (hepoch : s'.cond.epoch = s'.notifies)
    (hmono : s.notifies ≤ s'.notifies) (hfew : s'.notifies < 2 ^ 64)
    (hcurrent : ∀ t limit i, (s'.pc t).loop? = some (limit, i) → s'.Progress limit i)
    (hcompleted : ∀ r ∈ s'.completed, r ∈ s.completed ∨ Done r s') : Signals D s' := by
  constructor
  case base => exact hbase
  case epoch => exact hepoch
  case few => exact hfew
  case recorded =>
    intro u e he
    exact (hgoes u).recorded h.epoch hmono (h.recorded u) he
  case unfailed => exact fun u => (hgoes u).unfailed (h.unfailed u)
  case counts => exact fun u => (hgoes u).counts (h.counts u)
  case current => exact hcurrent
  case completed =>
    intro r hr
    rcases hcompleted r hr with hr | hr
    · exact (h.completed r hr).mono fun u e => (hgoes u).dead h.epoch hmono
    · exact hr
  case dead => exact fun u e he => (hgoes u).dead h.epoch hmono (h.dead u e he)

section step
variable [DecidableEq T]

/-- A step of `t` outside the loop of `notify`. -/
theorem quiet (h : Signals D s) (hbase : Inv s') (hpc : s'.pc = Function.update s.pc t q) (hloop : q.loop? = none)
    (hgoes : Goes s s' t) (hcounts : ∀ u, u ≠ t → s'.waits u = s.waits u ∧ s'.schedules u = s.schedules u)
    (hepoch : s'.cond.epoch = s.cond.epoch)
    (hghost : s'.notifies = s.notifies ∧ s'.current = s.current ∧ s'.completed = s.completed)
    (henq : q.enqueued = (s.pc t).enqueued ∧ q.wait? = (s.pc t).wait? ∨ q.enqueued = false ∨
      (s.pc t).holdsLock = true) : Signals D s' := by
  obtain ⟨hnotifies, hcurrent, hcompleted⟩ := hghost
  have hpcs : ∀ u, u ≠ t → s'.pc u = s.pc u := by
    intro u hu
    rw [hpc, Function.update_of_ne hu]
  have hself : s'.pc t = q := by rw [hpc, Function.update_self]
  apply h.of_goes hbase
  case hgoes =>
    intro u
    by_cases hu : u = t
    · rw [hu]
      exact hgoes
    · exact .same (hpcs u hu) (hcounts u hu).1 (hcounts u hu).2
  case hepoch => rw [hepoch, hnotifies, h.epoch]
  case hmono => rw [hnotifies]
  case hfew =>
    rw [hnotifies]
    exact h.few
  case hcurrent =>
    intro u limit i hu
    have hut : u ≠ t := by
      intro he
      rw [he, hself, hloop] at hu
      cases hu
    rw [hpcs u hut] at hu
    apply (h.current u limit i hu).mono hcurrent hnotifies
    intro v e hv
    by_cases hvt : v = t
    · subst hvt
      obtain ⟨hv, hv'⟩ := hv
      rw [hself] at hv hv'
      rcases henq with ⟨hsame, hsame'⟩ | hnone | hholds
      · exact ⟨by rw [← hsame]; exact hv, by rw [← hsame']; exact hv'⟩
      · rw [hnone] at hv
        cases hv
      · exact absurd (h.base.lock.unique u v (CondPc.holds_of_loop hu) hholds) hut
    · unfold Enqueued at hv
      rw [hpcs v hvt] at hv
      exact hv
  case hcompleted =>
    intro r hr
    rw [hcompleted] at hr
    exact .inl hr

/-- The loop of `notify` ends when the queue is empty or the limit is reached. -/
theorem endNotify (h : Signals D s) (ht : s.pc t = .notifying limit i) (hend : s.cond.queue = [] ∨ ¬ i < limit) :
    Signals D (s.endNotify t) := by
  have hprogress := h.current t limit i (by rw [ht]; rfl)
  have hself : (s.endNotify t).pc t = .inside := Function.update_self ..
  have hpcs : ∀ u, u ≠ t → (s.endNotify t).pc u = s.pc u := fun u hu => Function.update_of_ne hu ..
  have henq : ∀ u e, (s.endNotify t).Enqueued u e → s.Enqueued u e := by
    intro u e hu
    by_cases hut : u = t
    · rw [hut] at hu
      unfold Enqueued at hu
      rw [hself] at hu
      cases hu.1
    · unfold Enqueued at hu ⊢
      rw [hpcs u hut] at hu
      exact hu
  apply h.of_goes
  case hbase => exact h.base.keep (q := .inside) ht rfl rfl rfl rfl (by simp) rfl rfl rfl
  case hgoes =>
    intro u
    by_cases hut : u = t
    · subst hut
      exact .outside (by rw [ht]; rfl) (by rw [hself]; rfl) (by rw [hself]; simp) rfl rfl
    · exact .same (hpcs u hut) rfl rfl
  case hepoch => exact h.epoch
  case hmono => exact le_refl _
  case hfew => exact h.few
  case hcurrent =>
    intro u limit' i' hu
    by_cases hut : u = t
    · rw [hut, hself] at hu
      cases hu
    · rw [hpcs u hut] at hu
      exact absurd (h.base.lock.unique u t (CondPc.holds_of_loop hu) (by rw [ht]; rfl)) hut
  case hcompleted =>
    intro r hr
    rcases List.mem_cons.mp hr with hr | hr
    · refine .inr ?_
      subst hr
      have hdead : ∀ u e, (s.current.before u).wait? = some e → ¬ s.Enqueued u e → (s.endNotify t).Dead u e :=
        fun u e hu hnot => ⟨hprogress.before u e hu, fun he => hnot (henq u e he)⟩
      constructor
      · intro hall u e hu
        have hempty : s.cond.queue = [] := by
          rcases hend with hend | hend
          · exact hend
          · have hlimit : limit = allLimit := hprogress.limit_eq.symm.trans hall
            rw [hlimit] at ht hend
            have hdrain := h.base.drain t i ht
            exact List.eq_nil_of_length_eq_zero (by omega)
        exact hdead u e hu (h.base.not_enqueued ht hempty u e)
      · intro hpos ⟨u, e, hu⟩
        rcases hend with hend | hend
        · exact ⟨u, e, hu, hdead u e (CondPc.wait_of_pending hu) (h.base.not_enqueued ht hend u e)⟩
        · rcases hprogress.handed with hi | ⟨v, f, hv, hd⟩
          · rw [hprogress.limit_eq] at hpos
            omega
          · exact ⟨v, f, hv, hdead v f (CondPc.wait_of_pending hv) hd.2⟩
    · exact .inl hr

/-- The loop of `notify` takes a thread from the queue. -/
theorem take {x : T} {rest : List T} (h : Signals D s) (ht : s.pc t = .notifying limit i)
    (hw : s.cond.queue = x :: rest) :
    Signals D { s.setPc t (.handing x limit i) with cond := { s.cond with queue := rest } } := by
  have hself : Function.update s.pc t (.handing x limit i) t = .handing x limit i := Function.update_self ..
  have hpcs : ∀ u, u ≠ t → Function.update s.pc t (.handing x limit i) u = s.pc u :=
    fun u hu => Function.update_of_ne hu ..
  apply h.of_goes
  case hbase => exact h.base.take ht hw
  case hgoes =>
    intro u
    by_cases hut : u = t
    · subst hut
      apply Goes.outside
      · rw [ht]
        rfl
      · exact congrArg CondPc.wait? hself
      · intro hf
        cases hself.symm.trans hf
      · rfl
      · rfl
    · exact .same (hpcs u hut) rfl rfl
  case hepoch => exact h.epoch
  case hmono => exact le_refl _
  case hfew => exact h.few
  case hcurrent =>
    intro u limit' i' hu
    change (Function.update s.pc t (.handing x limit i) u).loop? = _ at hu
    by_cases hut : u = t
    · rw [hut, hself] at hu
      cases hu
      apply (h.current t limit i (by rw [ht]; rfl)).mono
      case hcurrent | hnotifies => rfl
      intro v e hv
      change (Function.update s.pc t (.handing x limit i) v).enqueued = true ∧
        (Function.update s.pc t (.handing x limit i) v).wait? = some e at hv
      by_cases hvt : v = t
      · rw [hvt, hself] at hv
        cases hv.1
      · rw [hpcs v hvt] at hv
        exact hv
    · rw [hpcs u hut] at hu
      exact absurd (h.base.lock.unique u t (CondPc.holds_of_loop hu) (by rw [ht]; rfl)) hut
  case hcompleted => exact fun r hr => .inl hr

/-- The loop of `notify` schedules the thread that it has taken. -/
theorem wake {x : T} (h : Signals D s) (ht : s.pc t = .handing x limit i) :
    Signals D ((s.setPc t (.notifying limit (i + 1))).schedule x) := by
  generalize hs' : (s.setPc t (.notifying limit (i + 1))).schedule x = s'
  obtain ⟨e, hasleep⟩ := h.base.asleep t x (by rw [ht]; rfl)
  have hprogress := h.current t limit i (by rw [ht]; rfl)
  have hxt := h.base.handing_ne ht
  have hpc : s'.pc = Function.update (Function.update s.pc t (.notifying limit (i + 1))) x .relock := by
    rw [← hs']
    rfl
  have hsch : s'.schedules = Function.update s.schedules x (s.schedules x + 1) := by
    rw [← hs']
    rfl
  have hrest : s'.cond = s.cond ∧ s'.waits = s.waits ∧ s'.notifies = s.notifies ∧ s'.current = s.current ∧
      s'.completed = s.completed := by
    rw [← hs']
    exact ⟨rfl, rfl, rfl, rfl, rfl⟩
  obtain ⟨hcond, hwaits, hnotifies, hcurrent, hcompleted⟩ := hrest
  have hx : s'.pc x = .relock := by rw [hpc, Function.update_self]
  have hself : s'.pc t = .notifying limit (i + 1) := by rw [hpc, Function.update_of_ne hxt.symm, Function.update_self]
  have hpcs : ∀ u, u ≠ t → u ≠ x → s'.pc u = s.pc u := by
    intro u hut hux
    rw [hpc, Function.update_of_ne hux, Function.update_of_ne hut]
  have henq : ∀ u e, s'.Enqueued u e → s.Enqueued u e := by
    intro u e' hu
    unfold Enqueued at hu ⊢
    by_cases hut : u = t
    · rw [hut, hself] at hu
      cases hu.1
    · by_cases hux : u = x
      · rw [hux, hx] at hu
        cases hu.1
      · rw [hpcs u hut hux] at hu
        exact hu
  apply h.of_goes
  case hbase => exact h.base.wake ht hpc hcond
  case hgoes =>
    intro u
    by_cases hut : u = t
    · subst hut
      apply Goes.outside
      · rw [ht]
        rfl
      · rw [hself]
        rfl
      · rw [hself]
        simp
      · rw [hwaits]
      · rw [hsch, Function.update_of_ne hxt.symm]
    · by_cases hux : u = x
      · subst hux
        apply Goes.scheduled e
        · rw [hasleep]
          rfl
        · exact hx
        · rw [hwaits]
        · rw [hsch, Function.update_self]
      · exact .same (hpcs u hut hux) (by rw [hwaits]) (by rw [hsch, Function.update_of_ne hux])
  case hepoch => rw [hcond, hnotifies, h.epoch]
  case hmono => rw [hnotifies]
  case hfew =>
    rw [hnotifies]
    exact h.few
  case hcurrent =>
    intro u limit' i' hu
    by_cases hut : u = t
    · rw [hut, hself] at hu
      cases hu
      have hkept := hprogress.mono hcurrent hnotifies henq
      -- the thread that has just been scheduled was waiting when this call of `notify` began
      have hpending : (s.current.before x).pending? = some e :=
        hprogress.queued x e ⟨by rw [hasleep]; rfl, by rw [hasleep]; rfl⟩
      have hdead : s'.Dead x e := by
        refine ⟨?_, fun hx' => ?_⟩
        · rw [hnotifies]
          exact hprogress.before x e (CondPc.wait_of_pending hpending)
        · rw [Enqueued, hx] at hx'
          cases hx'.1
      exact ⟨hkept.limit_eq, hkept.before, hkept.queued, .inr ⟨x, e, by rw [hcurrent]; exact hpending, hdead⟩⟩
    · have hholds := CondPc.holds_of_loop hu
      by_cases hux : u = x
      · rw [hux, hx] at hholds
        cases hholds
      · rw [hpcs u hut hux] at hholds
        exact absurd (h.base.lock.unique u t hholds (by rw [ht]; rfl)) hut
  case hcompleted =>
    intro r hr
    rw [hcompleted] at hr
    exact .inl hr

/-- `notify` begins. The threads that wait are remembered. -/
theorem beginNotify [Fintype T] (hT : Fintype.card T ≤ allLimit) (h : Signals D s) (ht : s.pc t = .inside)
    (hfew : s.notifies + 1 < 2 ^ 64) : Signals D (s.beginNotify t limit) := by
  have htaken : s.cond.taken = true := h.base.lock.taken_of_holds (t := t) (by rw [ht]; rfl)
  have hbase : Inv (s.beginNotify t limit) := h.base.beginNotify hT ht
  have hnext : s.beginNotify t limit =
      { s.setPc t (.notifying limit 0) with
        cond := s.cond.nextEpoch
        notifies := s.notifies + 1
        current := ⟨limit, s.pc⟩ } := if_pos htaken
  rw [hnext] at hbase ⊢
  have hself : Function.update s.pc t (.notifying limit 0) t = .notifying limit 0 := Function.update_self ..
  have hpcs : ∀ u, u ≠ t → Function.update s.pc t (.notifying limit 0) u = s.pc u := fun u hu => Function.update_of_ne hu ..
  apply h.of_goes hbase
  case hgoes =>
    intro u
    by_cases hut : u = t
    · subst hut
      apply Goes.outside
      · rw [ht]
        rfl
      · exact congrArg CondPc.wait? hself
      · intro hf
        cases hself.symm.trans hf
      · rfl
      · rfl
    · exact .same (hpcs u hut) rfl rfl
  case hepoch =>
    change (s.cond.epoch + 1) % 2 ^ 64 = s.notifies + 1
    rw [h.epoch, Nat.mod_eq_of_lt hfew]
  case hmono => exact Nat.le_succ _
  case hfew => exact hfew
  case hcurrent =>
    intro u limit' i' hu
    change (Function.update s.pc t (.notifying limit 0) u).loop? = _ at hu
    by_cases hut : u = t
    · rw [hut, hself] at hu
      cases hu
      constructor
      case limit_eq => rfl
      case before =>
        intro v e hv
        exact Nat.lt_succ_of_le (h.recorded v e hv)
      case queued =>
        intro v e hv
        change (Function.update s.pc t (.notifying limit 0) v).enqueued = true ∧
          (Function.update s.pc t (.notifying limit 0) v).wait? = some e at hv
        change (s.pc v).pending? = some e
        by_cases hvt : v = t
        · rw [hvt, hself] at hv
          cases hv.1
        · rw [hpcs v hvt] at hv
          obtain ⟨henq, hwait⟩ := hv
          cases hpc : s.pc v <;> rw [hpc] at henq hwait <;> first | exact hwait | cases henq
      case handed => exact .inl rfl
    · rw [hpcs u hut] at hu
      exact absurd (h.base.lock.unique u t (CondPc.holds_of_loop hu) (by rw [ht]; rfl)) hut
  case hcompleted => exact fun r hr => .inl hr

theorem beginWait (h : Signals D s) (ht : s.pc t = .inside) : Signals D (s.beginWait t) := by
  have htaken : s.cond.taken = true := h.base.lock.taken_of_holds (t := t) (by rw [ht]; rfl)
  have hbase := h.base.beginWait ht
  have hnext : s.beginWait t =
      { s.setPc t (.waitBlock s.cond.epoch) with
        cond := s.cond.unlock
        waits := Function.update s.waits t (s.waits t + 1) } := if_pos htaken
  rw [hnext] at hbase ⊢
  apply h.quiet hbase (t := t) (q := .waitBlock s.cond.epoch)
  case hpc | hloop | hepoch => rfl
  case hgoes =>
    apply Goes.begin
    · rw [ht]
      rfl
    · exact Function.update_self ..
    · exact Function.update_self ..
    · rfl
  case hcounts => exact fun u hu => ⟨Function.update_of_ne hu .., rfl⟩
  case hghost => exact ⟨rfl, rfl, rfl⟩
  case henq => exact .inr (.inl rfl)

/-- A step of `t` between two places where it does not wait. -/
theorem outside {p : CondPc T} {x : Condition T} (h : Signals D s) (ht : s.pc t = p)
    (hbase : Inv { s.setPc t q with cond := x }) (hp : p.wait? = none) (hq : q.wait? = none) (hq' : q ≠ .failed)
    (henq : q.enqueued = false) (hloop : q.loop? = none) (hepoch : x.epoch = s.cond.epoch) :
    Signals D { s.setPc t q with cond := x } := by
  have hself : Function.update s.pc t q t = q := Function.update_self ..
  apply h.quiet hbase (t := t) (q := q)
  case hpc => rfl
  case hloop => exact hloop
  case hgoes =>
    apply Goes.outside
    · rw [ht, hp]
    · exact (congrArg CondPc.wait? hself).trans hq
    · exact fun hf => hq' (hself.symm.trans hf)
    · rfl
    · rfl
  case hcounts => exact fun u hu => ⟨rfl, rfl⟩
  case hepoch => exact hepoch
  case hghost => exact ⟨rfl, rfl, rfl⟩
  case henq => exact .inr (.inl henq)

/-- A step of `t` inside a `wait`. -/
theorem onward {p : CondPc T} {x : Condition T} (h : Signals D s) (ht : s.pc t = p)
    (hbase : Inv { s.setPc t q with cond := x }) (hp : p.wait? = some e) (hq : q.wait? = some e)
    (henq : q.enqueued = p.enqueued) (hloop : q.loop? = none) (hepoch : x.epoch = s.cond.epoch) :
    Signals D { s.setPc t q with cond := x } := by
  have hself : Function.update s.pc t q t = q := Function.update_self ..
  apply h.quiet hbase (t := t) (q := q)
  case hpc => rfl
  case hloop => exact hloop
  case hgoes =>
    apply Goes.onward e
    · rw [ht, hp]
    · exact (congrArg CondPc.wait? hself).trans hq
    · exact (congrArg CondPc.enqueued hself).trans (by rw [ht, henq])
    · rfl
    · rfl
  case hcounts => exact fun u hu => ⟨rfl, rfl⟩
  case hepoch => exact hepoch
  case hghost => exact ⟨rfl, rfl, rfl⟩
  case henq => exact .inl ⟨by rw [ht, henq], by rw [ht, hp, hq]⟩

theorem stepThread (h : Signals D s) (hcan : s.canStep t = true) : Signals D (s.stepThread t) := by
  have hbase := h.base.stepThread hcan
  cases ht : s.pc t with
  | out | inside | asleep | failed => simp [canStep, ht] at hcan
  | lockWait | relock =>
    simp only [CondState.stepThread, ht] at hbase ⊢
    exact h.outside ht hbase rfl rfl (by simp) rfl rfl rfl
  | waitBlock e =>
    simp only [CondState.stepThread, ht] at hbase ⊢
    exact h.onward ht hbase rfl rfl rfl rfl rfl
  | waitLocked e =>
    have hrec : e ≤ s.notifies := h.recorded t e (by rw [ht]; rfl)
    have hepoch := h.epoch
    simp only [CondState.stepThread, ht] at hbase ⊢
    split_ifs at hbase ⊢ with heq hlater
    · apply h.quiet hbase (t := t) (q := .waitQueued e)
      case hpc | hloop | hepoch => rfl
      case hgoes => exact .enqueue e (by rw [ht]; rfl) heq (Function.update_self ..) rfl rfl
      case hcounts => exact fun u hu => ⟨rfl, rfl⟩
      case hghost => exact ⟨rfl, rfl, rfl⟩
      case henq => exact .inr (.inr (by rw [ht]; rfl))
    · exact h.onward (x := s.cond) ht hbase rfl rfl rfl rfl rfl
    · -- the epoch has never gone back
      omega
  | waitQueued e =>
    simp only [CondState.stepThread, ht] at hbase ⊢
    exact h.onward ht hbase rfl rfl rfl rfl rfl
  | waitMissed e =>
    simp only [CondState.stepThread, ht] at hbase ⊢
    exact h.onward ht hbase rfl rfl rfl rfl rfl
  | waitSchedule e =>
    simp only [CondState.stepThread, ht] at hbase ⊢
    apply h.quiet hbase (t := t) (q := .relock)
    case hpc | hloop | hepoch => rfl
    case hgoes => exact .scheduled e (by rw [ht]; rfl) (Function.update_self ..) rfl (Function.update_self ..)
    case hcounts => exact fun u hu => ⟨rfl, Function.update_of_ne hu ..⟩
    case hghost => exact ⟨rfl, rfl, rfl⟩
    case henq => exact .inr (.inl rfl)
  | notifying limit i =>
    simp only [CondState.stepThread, ht]
    split_ifs with hlt
    · cases hw : s.cond.queue with
      | nil =>
        rw [Condition.dequeue_nil hw]
        exact h.endNotify ht (.inl hw)
      | cons x rest =>
        rw [Condition.dequeue_cons hw]
        exact h.take ht hw
    · exact h.endNotify ht (.inr hlt)
  | handing x limit i =>
    simp only [CondState.stepThread, ht]
    exact h.wake ht

end step
end Signals

section runs
variable [DecidableEq T]

def FewNotifies (s : CondState T) : CondAct T → Prop
  | .notify _ _ => s.notifies + 1 < 2 ^ 64
  | _ => True

instance (s : CondState T) (a : CondAct T) : Decidable (s.FewNotifies a) :=
  match a with
  | .notify _ _ => inferInstanceAs (Decidable (s.notifies + 1 < 2 ^ 64))
  | .lock _ | .unlock _ | .wait _ | .step _ => .isTrue trivial

omit [DecidableEq T] in
theorem Signals.new : Signals (fun _ _ => False) (CondState.new : CondState T) := by
  constructor
  case base => exact .new
  case epoch => rfl
  case few => exact Nat.two_pow_pos 64
  case recorded =>
    intro t e he
    cases he
  case unfailed =>
    intro t ht
    cases ht
  case counts => exact fun _ => rfl
  case current =>
    intro t limit i hi
    cases hi
  case completed =>
    intro r hr
    cases hr
  case dead => exact fun _ _ => False.elim

theorem Signals.next [Fintype T] (hT : Fintype.card T ≤ allLimit) {D : T → ℕ → Prop} {s : CondState T} (h : Signals D s)
    {a : CondAct T}
    (he : s.enabled a = true) (hfew : s.FewNotifies a) : Signals D (s.next a) := by
  have hbase := h.base.next hT he
  cases a with
  | lock t =>
    have ht : s.pc t = .out := by cases hpc : s.pc t <;> simp [enabled, hpc] at he ⊢
    exact h.outside (x := s.cond) ht hbase rfl rfl (by simp) rfl rfl rfl
  | unlock t =>
    have ht : s.pc t = .inside := by cases hpc : s.pc t <;> simp [enabled, hpc] at he ⊢
    exact h.outside ht hbase rfl rfl (by simp) rfl rfl rfl
  | wait t =>
    have ht : s.pc t = .inside := by cases hpc : s.pc t <;> simp [enabled, hpc] at he ⊢
    exact h.beginWait ht
  | notify t limit =>
    have ht : s.pc t = .inside := by cases hpc : s.pc t <;> simp [enabled, hpc] at he ⊢
    exact h.beginNotify hT ht hfew
  | step t => exact h.stepThread he

theorem Signals.run [Fintype T] (hT : Fintype.card T ≤ allLimit) {D : T → ℕ → Prop} {s s' : CondState T}
    {as : List (CondAct T)} (h : Signals D s) (hrun : ((condMachine T).restrict FewNotifies).Run s as s') :
    Signals D s' := by
  induction hrun with
  | nil => exact h
  | cons he _ ih => exact ih (h.next hT he.1 he.2)

theorem Signals.reachable [Fintype T] (hT : Fintype.card T ≤ allLimit) {s : CondState T}
    (h : ((condMachine T).restrict FewNotifies).Reachable s) : Signals (fun _ _ => False) s := by
  apply h.invariant
  · intro s hs
    change s = .new at hs
    rw [hs]
    exact .new
  · intro s a hi he
    exact hi.next hT he.1 he.2

/-- The calls of `wait` that are dead in one state are dead in every later one. -/
theorem Signals.dead_run [Fintype T] (hT : Fintype.card T ≤ allLimit) {D : T → ℕ → Prop} {s s' : CondState T}
    {as : List (CondAct T)} (h : Signals D s) (hrun : ((condMachine T).restrict FewNotifies).Run s as s') {t : T}
    {e : ℕ} (hdead : s.Dead t e) : s'.Dead t e := by
  have hself : Signals s.Dead s := { h with dead := fun _ _ => id }
  exact (hself.run hT hrun).dead t e hdead

/-- The `wait` of the thread with this epoch has put it into the queue. -/
def InQueue (s : CondState T) (t : T) (e : ℕ) : Prop := t ∈ s.cond.queue ∧ (s.pc t).wait? = some e

omit [DecidableEq T] in
theorem Signals.not_inQueue {D : T → ℕ → Prop} {s : CondState T} (h : Signals D s) {t : T} {e : ℕ}
    (hdead : s.Dead t e) : ¬ s.InQueue t e :=
  fun ⟨hmem, hwait⟩ => hdead.2 ⟨h.base.queue.waits_of_mem hmem, hwait⟩

end runs

/-- The runs of a condition with fewer than 2^64 calls of `notify`. -/
def signalMachine : Machine (CondState TcbPtr) (CondAct TcbPtr) := (condMachine TcbPtr).restrict FewNotifies

instance (s : CondState TcbPtr) (a : CondAct TcbPtr) : Decidable (signalMachine.enabled s a) :=
  inferInstanceAs (Decidable (_ = true ∧ _))

theorem threads_le : Fintype.card TcbPtr ≤ allLimit := by
  rw [Fintype.card_fin, allLimit]
  omega

/-- Once a `notifyAll` has ended, no `wait` that had released the lock before it is in the queue, or ever will be; once a
`notifyOne` has ended, this holds of one of those that had not been released, if there were any. No `wait` is
scheduled twice, and no assertion fails. -/
theorem no_missed_signal (s : CondState TcbPtr) (h : signalMachine.Reachable s) :
    (∀ r ∈ s.completed, r.limit = allLimit → ∀ t e, (r.before t).wait? = some e →
      ∀ as s', signalMachine.Run s as s' → ¬ s'.InQueue t e) ∧
    (∀ r ∈ s.completed, r.limit = 1 → (∃ t e, (r.before t).pending? = some e) →
      ∃ t e, (r.before t).pending? = some e ∧ ∀ as s', signalMachine.Run s as s' → ¬ s'.InQueue t e) ∧
    (∀ t, s.waits t = s.schedules t + if (s.pc t).wait?.isSome = true then 1 else 0) ∧
    ∀ t, s.pc t ≠ .failed := by
  have hsignals : Signals (fun _ _ => False) s := Signals.reachable threads_le h
  have hlater : ∀ t e, s.Dead t e → ∀ as s', signalMachine.Run s as s' → ¬ s'.InQueue t e := by
    intro t e hdead as s' hrun
    exact (hsignals.run threads_le hrun).not_inQueue (hsignals.dead_run threads_le hrun hdead)
  refine ⟨?_, ?_, hsignals.counts, hsignals.unfailed⟩
  · intro r hr hall t e he
    exact hlater t e ((hsignals.completed r hr).all hall t e he)
  · intro r hr hone hsome
    obtain ⟨t, e, hp, hdead⟩ := (hsignals.completed r hr).one (by omega) hsome
    exact ⟨t, e, hp, hlater t e hdead⟩

/-- Thread `t` has released the lock in `wait` and is not in the queue yet when thread `u` calls `notifyAll`. -/
def window (t u : T) : List (CondAct T) :=
  [.lock t, .step t, .wait t, .lock u, .step u, .notify u allLimit, .step u]

theorem window_not_missed : ∃ s, signalMachine.Reachable s ∧ s.pc 0 = .waitBlock 0 ∧
    ∀ as s', signalMachine.Run s as s' → ¬ s'.InQueue 0 0 := by
  have hrun : ∃ s, signalMachine.Run .new (window 0 1) s ∧
      (match s.pc 0 with
        | .waitBlock 0 => s.completed.any fun r => decide (r.limit = allLimit ∧ (r.before 0).wait? = some 0)
        | _ => false) = true :=
    Machine.exists_run_of_replay (by decide +kernel)
  obtain ⟨s, hs, hcheck⟩ := hrun
  have hreach := hs.reachable (.init rfl)
  split at hcheck
  case h_2 => cases hcheck
  case h_1 hpc =>
    obtain ⟨r, hr, hdone⟩ := List.any_eq_true.mp hcheck
    obtain ⟨hall, hwait⟩ := of_decide_eq_true hdone
    exact ⟨s, hreach, hpc, (no_missed_signal s hreach).1 r hr hall 0 0 hwait⟩

end CondState
end AudioKernel
