import AudioKernel.Sync.InterruptSafeLock

/-! Code that runs under an `InterruptSafeLock`, by any number of threads, and the rule for its invariants. -/
namespace AudioKernel
open Lib

variable {T : Type}

namespace SafeLockPc

/-- The thread has still to come into its critical section. -/
def waiting : SafeLockPc → Bool
  | lockRead | lockDisable | lockExchange _ | lockStore _ | lockRestore _ => true
  | _ => false

/-- The thread has called `lock`, and not `unlock`. -/
def pending (pc : SafeLockPc) : Bool := pc.waiting || pc = critical

theorem not_pending {pc : SafeLockPc} (h : pc.pending = false) : pc.waiting = false ∧ pc ≠ .critical := by
  rw [SafeLockPc.pending, Bool.or_eq_false_iff] at h
  exact ⟨h.1, of_decide_eq_false h.2⟩

theorem waiting_ne {pc : SafeLockPc} (h : pc.waiting = true) : pc ≠ .critical ∧ pc.pending = true := by
  cases pc <;> simp [SafeLockPc.waiting, SafeLockPc.pending] at h ⊢

end SafeLockPc

open SafeLockPc

/-- The thread in the critical section is the only one. -/
theorem SafeLockState.Inv.critical_unique {l : SafeLockState T} {t u : T} (hl : SafeLockState.Inv l)
    (ht : l.pc t = .critical) (hu : l.pc u = .critical) : u = t :=
  hl.lock.unique u t (by rw [hu]; rfl) (by rw [ht]; rfl)

section
variable [DecidableEq T] {t : T}

/-- What a step in `lock` or `unlock` does to the program points. -/
theorem SafeLockState.step_pc {l : SafeLockState T} (he : l.enabled (.step t) = true) :
    (∀ u, u ≠ t → (l.stepThread t).pc u = l.pc u) ∧
    (((l.pc t).waiting = true ∧ ((l.stepThread t).pc t).waiting = true) ∨
      ((∃ was, l.pc t = .lockStore was) ∧ (l.stepThread t).pc t = .critical) ∨
      ((l.pc t).pending = false ∧ ((l.stepThread t).pc t).pending = false)) := by
  have hset (l : SafeLockState T) (q : SafeLockPc) :
      (∀ u, u ≠ t → (l.setPc t q).pc u = l.pc u) ∧ (l.setPc t q).pc t = q :=
    ⟨fun u hu => Function.update_of_ne hu .., Function.update_self ..⟩
  have hrestore (was : Bool) (q : SafeLockPc) :
      (∀ u, u ≠ t → ((l.restore t was).setPc t q).pc u = l.pc u) ∧ ((l.restore t was).setPc t q).pc t = q := by
    refine ⟨fun u hu => ?_, (hset _ q).2⟩
    rw [(hset _ q).1 u hu, (Inv.restore_frame was).1]
  cases ht : l.pc t with
  | out | critical => simp [SafeLockState.enabled, ht] at he
  | lockRead =>
    simp only [SafeLockState.stepThread, ht]
    split_ifs
    · exact ⟨(hset l _).1, .inl ⟨rfl, by rw [(hset l _).2]; rfl⟩⟩
    · exact ⟨(hset l _).1, .inl ⟨rfl, by rw [(hset l _).2]; rfl⟩⟩
  | lockDisable =>
    simp only [SafeLockState.stepThread, ht]
    exact ⟨fun u hu => Function.update_of_ne hu .., .inl ⟨rfl, by rw [(hset _ _).2]; rfl⟩⟩
  | lockExchange was =>
    simp only [SafeLockState.stepThread, ht]
    split_ifs
    · exact ⟨(hset l _).1, .inl ⟨rfl, by rw [(hset l _).2]; rfl⟩⟩
    · exact ⟨(hset l _).1, .inl ⟨rfl, by change ((l.setPc t _).pc t).waiting = true; rw [(hset l _).2]; rfl⟩⟩
  | lockStore was =>
    simp only [SafeLockState.stepThread, ht]
    exact ⟨(hset l _).1, .inr (.inl ⟨⟨was, rfl⟩, (hset l _).2⟩)⟩
  | lockRestore was =>
    simp only [SafeLockState.stepThread, ht]
    exact ⟨(hrestore was _).1, .inl ⟨rfl, by rw [(hrestore was _).2]; rfl⟩⟩
  | unlockRead =>
    simp only [SafeLockState.stepThread, ht]
    exact ⟨(hset l _).1, .inr (.inr ⟨rfl, by rw [(hset l _).2]; rfl⟩)⟩
  | unlockClear was =>
    simp only [SafeLockState.stepThread, ht]
    exact ⟨(hset l _).1, .inr (.inr ⟨rfl, by rw [(hset l _).2]; rfl⟩)⟩
  | unlockRestore was =>
    simp only [SafeLockState.stepThread, ht]
    exact ⟨(hrestore was _).1, .inr (.inr ⟨rfl, by rw [(hrestore was _).2]; rfl⟩)⟩

end

/-- What threads do under one lock. A call with a request starts in `start` and takes steps, on what the lock guards, until
it is `done`. What is guarded may take steps of its own. -/
structure Guarded (R L S : Type) where
  start : R → L
  done : L → Bool
  step : R → L → S → L × S
  own : S → S → Prop

/-- The lock, the request of each thread and where its call stands, and what is guarded. Recorded are the calls that are
over. -/
structure GuardedState (T R L S : Type) where
  lock : SafeLockState T
  request : T → R
  frame : T → L
  shared : S
  finished : List (T × R × L)

/-- A thread sets its interrupt flag, calls, goes on in `lock` or `unlock`, takes a step of the call, or calls `unlock`. -/
inductive GuardedAct (T R S : Type)
  | setFlag (t : T) (on : Bool)
  | call (t : T) (r : R)
  | lockStep (t : T)
  | work (t : T)
  | unlock (t : T)
  | own (s : S)

variable {R L S : Type}

namespace GuardedState

variable [DecidableEq T]

def enabled (G : Guarded R L S) (s : GuardedState T R L S) : GuardedAct T R S → Prop
  | .setFlag t on => s.lock.enabled (.setFlag t on) = true
  | .call t _ => s.lock.enabled (.lock t) = true
  | .lockStep t => s.lock.enabled (.step t) = true
  | .work t => s.lock.pc t = .critical ∧ G.done (s.frame t) = false
  | .unlock t => s.lock.pc t = .critical ∧ G.done (s.frame t) = true
  | .own shared => G.own s.shared shared

def next (G : Guarded R L S) (s : GuardedState T R L S) : GuardedAct T R S → GuardedState T R L S
  | .setFlag t on => { s with lock := s.lock.next (.setFlag t on) }
  | .call t r => { s with
      lock := s.lock.next (.lock t)
      request := Function.update s.request t r
      frame := Function.update s.frame t (G.start r) }
  | .lockStep t => { s with lock := s.lock.next (.step t) }
  | .work t => { s with
      frame := Function.update s.frame t (G.step (s.request t) (s.frame t) s.shared).1
      shared := (G.step (s.request t) (s.frame t) s.shared).2 }
  | .unlock t => { s with
      lock := s.lock.next (.unlock t)
      finished := s.finished ++ [(t, s.request t, s.frame t)] }
  | .own shared => { s with shared }

end GuardedState

namespace Guarded

/-- Nobody has called, and what is guarded is in one of its first states. -/
def machine [DecidableEq T] (G : Guarded R L S) (first : S → Prop) :
    Machine (GuardedState T R L S) (GuardedAct T R S) where
  init s := s.lock.Fresh ∧ first s.shared ∧ s.finished = []
  enabled := GuardedState.enabled G
  next := GuardedState.next G

/-- What one call has to keep, beside the calls that are over: nobody else takes a step while it is inside, but what is
guarded itself. -/
structure Keeps (G : Guarded R L S) (quiet : List (T × R × L) → S → Prop)
    (inside : List (T × R × L) → R → L → S → Prop) : Prop where
  start : ∀ cs r s, quiet cs s → inside cs r (G.start r) s
  step : ∀ cs r l s, inside cs r l s → G.done l = false → inside cs r (G.step r l s).1 (G.step r l s).2
  own_quiet : ∀ cs s s', quiet cs s → G.own s s' → quiet cs s'
  own_inside : ∀ cs r l s s', inside cs r l s → G.own s s' → inside cs r l s'
  done : ∀ cs t r l s, inside cs r l s → G.done l = true → quiet (cs ++ [(t, r, l)]) s

/-- What holds in every state. -/
structure Inv (G : Guarded R L S) (quiet : List (T × R × L) → S → Prop) (inside : List (T × R × L) → R → L → S → Prop)
    (s : GuardedState T R L S) : Prop where
  waiting : ∀ t, (s.lock.pc t).waiting = true → s.frame t = G.start (s.request t)
  critical : ∀ t, s.lock.pc t = .critical → inside s.finished (s.request t) (s.frame t) s.shared
  quiet : (∀ t, s.lock.pc t ≠ .critical) → quiet s.finished s.shared

variable [DecidableEq T] {G : Guarded R L S} {quiet : List (T × R × L) → S → Prop}
  {inside : List (T × R × L) → R → L → S → Prop} {first : S → Prop} {s : GuardedState T R L S} {t u : T}

/-- The lock goes through its own steps. -/
theorem lock_reachable (h : (G.machine first).Reachable s) : (safeLockMachine T).Reachable s.lock := by
  apply h.refines (N := safeLockMachine T) (I := fun _ => True) GuardedState.lock
  · exact fun _ _ => trivial
  · exact fun s hs => hs.1
  · intro s a _ he
    cases a with
    | setFlag t on => exact .inr ⟨.setFlag t on, he, rfl⟩
    | call t r => exact .inr ⟨.lock t, he, rfl⟩
    | lockStep t => exact .inr ⟨.step t, he, rfl⟩
    | work t => exact .inl rfl
    | unlock t => exact .inr ⟨.unlock t, by simpa [safeLockMachine, SafeLockState.enabled] using he.1, rfl⟩
    | own shared => exact .inl rfl

namespace Inv

theorem initial (hfirst : ∀ s, first s → quiet [] s) (h : (G.machine (T := T) first).init s) :
    Inv G quiet inside s := by
  obtain ⟨⟨-, -, hout⟩, hshared, hfinished⟩ := h
  constructor
  case waiting =>
    intro t ht
    rw [hout t] at ht
    cases ht
  case critical =>
    intro t ht
    rw [hout t] at ht
    cases ht
  case quiet =>
    intro _
    rw [hfinished]
    exact hfirst _ hshared

/-- A step in `lock` or `unlock` changes the program point of its thread only. -/
theorem lockStep (hG : G.Keeps quiet inside) (h : Inv G quiet inside s) (hlock : SafeLockState.Inv s.lock)
    (he : s.lock.enabled (.step t) = true) : Inv G quiet inside (s.next G (.lockStep t)) := by
  obtain ⟨hothers, hpc⟩ := SafeLockState.step_pc he
  change ∀ u, u ≠ t → (s.next G (.lockStep t)).lock.pc u = s.lock.pc u at hothers
  change ((s.lock.pc t).waiting = true ∧ ((s.next G (.lockStep t)).lock.pc t).waiting = true) ∨
    ((∃ was, s.lock.pc t = .lockStore was) ∧ (s.next G (.lockStep t)).lock.pc t = .critical) ∨
    ((s.lock.pc t).pending = false ∧ ((s.next G (.lockStep t)).lock.pc t).pending = false) at hpc
  constructor
  case waiting =>
    intro u hu
    by_cases hut : u = t
    · subst hut
      rcases hpc with ⟨hw, -⟩ | ⟨-, hc⟩ | ⟨-, hp⟩
      · exact h.waiting u hw
      · rw [hc] at hu
        cases hu
      · rw [(not_pending hp).1] at hu
        cases hu
    · rw [hothers u hut] at hu
      exact h.waiting u hu
  case critical =>
    intro u hu
    by_cases hut : u = t
    · subst hut
      rcases hpc with ⟨-, hw⟩ | ⟨⟨was, hstore⟩, -⟩ | ⟨-, hp⟩
      · exact absurd hu (waiting_ne hw).1
      · -- the lock has just been taken, so that nobody else is in the critical section
        have hquiet : ∀ v, s.lock.pc v ≠ .critical := by
          intro v hv
          have huv := hlock.lock.unique v u (by rw [hv]; rfl) (by rw [hstore]; rfl)
          rw [huv, hstore] at hv
          cases hv
        change inside s.finished (s.request u) (s.frame u) s.shared
        rw [h.waiting u (by rw [hstore]; rfl)]
        exact hG.start _ _ _ (h.quiet hquiet)
      · exact absurd hu (not_pending hp).2
    · rw [hothers u hut] at hu
      exact h.critical u hu
  case quiet =>
    intro hq
    apply h.quiet
    intro u hu
    by_cases hut : u = t
    · subst hut
      rcases hpc with ⟨hw, -⟩ | ⟨⟨was, hstore⟩, -⟩ | ⟨hp, -⟩
      · exact (waiting_ne hw).1 hu
      · rw [hstore] at hu
        cases hu
      · exact (not_pending hp).2 hu
    · exact hq u (by rw [hothers u hut]; exact hu)

theorem call (h : Inv G quiet inside s) {r : R} (hout : s.lock.pc t = .out) :
    Inv G quiet inside (s.next G (.call t r)) := by
  have hself : (s.next G (.call t r)).lock.pc t = .lockRead := Function.update_self ..
  have hothers : ∀ u, u ≠ t → (s.next G (.call t r)).lock.pc u = s.lock.pc u := fun u hu => Function.update_of_ne hu ..
  constructor
  case waiting =>
    intro u hu
    change Function.update s.frame t _ u = G.start (Function.update s.request t r u)
    by_cases hut : u = t
    · rw [hut, Function.update_self, Function.update_self]
    · rw [Function.update_of_ne hut, Function.update_of_ne hut]
      rw [hothers u hut] at hu
      exact h.waiting u hu
  case critical =>
    intro u hu
    by_cases hut : u = t
    · rw [hut, hself] at hu
      cases hu
    · rw [hothers u hut] at hu
      change inside s.finished (Function.update s.request t r u) (Function.update s.frame t _ u) _
      rw [Function.update_of_ne hut, Function.update_of_ne hut]
      exact h.critical u hu
  case quiet =>
    intro hq
    apply h.quiet
    intro u hu
    by_cases hut : u = t
    · rw [hut, hout] at hu
      cases hu
    · exact hq u (by rw [hothers u hut]; exact hu)

theorem work (hG : G.Keeps quiet inside) (h : Inv G quiet inside s) (hlock : SafeLockState.Inv s.lock)
    (hcritical : s.lock.pc t = .critical) (hdone : G.done (s.frame t) = false) :
    Inv G quiet inside (s.next G (.work t)) := by
  constructor
  case waiting =>
    intro u hu
    have hut : u ≠ t := by
      rintro rfl
      exact (waiting_ne hu).1 hcritical
    change Function.update s.frame t _ u = _
    rw [Function.update_of_ne hut]
    exact h.waiting u hu
  case critical =>
    intro u hu
    obtain rfl := hlock.critical_unique hcritical hu
    change inside s.finished (s.request u) (Function.update s.frame u _ u) _
    rw [Function.update_self]
    exact hG.step _ _ _ _ (h.critical u hu) hdone
  case quiet => exact fun hq => absurd hcritical (hq t)

theorem unlock (hG : G.Keeps quiet inside) (h : Inv G quiet inside s) (hlock : SafeLockState.Inv s.lock)
    (hcritical : s.lock.pc t = .critical) (hdone : G.done (s.frame t) = true) :
    Inv G quiet inside (s.next G (.unlock t)) := by
  have hquiet := hG.done _ t _ _ _ (h.critical t hcritical) hdone
  have hself : (s.next G (.unlock t)).lock.pc t = .unlockRead := Function.update_self ..
  have hothers : ∀ u, u ≠ t → (s.next G (.unlock t)).lock.pc u = s.lock.pc u := fun u hu => Function.update_of_ne hu ..
  constructor
  case waiting =>
    intro u hu
    by_cases hut : u = t
    · rw [hut, hself] at hu
      cases hu
    · rw [hothers u hut] at hu
      exact h.waiting u hu
  case critical =>
    intro u hu
    by_cases hut : u = t
    · rw [hut, hself] at hu
      cases hu
    · rw [hothers u hut] at hu
      exact absurd (hlock.critical_unique hcritical hu) hut
  case quiet => exact fun _ => hquiet

theorem own (hG : G.Keeps quiet inside) (h : Inv G quiet inside s) {shared : S}
    (he : G.own s.shared shared) : Inv G quiet inside (s.next G (.own shared)) where
  waiting := h.waiting
  critical t ht := hG.own_inside _ _ _ _ _ (h.critical t ht) he
  quiet hq := hG.own_quiet _ _ _ (h.quiet hq) he

theorem next (hG : G.Keeps quiet inside) (h : Inv G quiet inside s) (hlock : SafeLockState.Inv s.lock)
    {a : GuardedAct T R S} (he : s.enabled G a) : Inv G quiet inside (s.next G a) := by
  cases a with
  | setFlag t on => exact ⟨h.waiting, h.critical, h.quiet⟩
  | call t r => exact h.call (by simpa [GuardedState.enabled, SafeLockState.enabled] using he)
  | lockStep t => exact h.lockStep hG hlock he
  | work t => exact h.work hG hlock he.1 he.2
  | unlock t => exact h.unlock hG hlock he.1 he.2
  | own shared => exact h.own hG he

end Inv

/-- The rule for code under a lock: what one call keeps holds however the threads are interleaved. -/
theorem inv_reachable (hG : G.Keeps quiet inside) (hfirst : ∀ s, first s → quiet [] s)
    (h : (G.machine first).Reachable s) : Inv G quiet inside s := by
  apply h.invariant_of (I := Inv G quiet inside) (J := fun s => SafeLockState.Inv s.lock)
  · exact fun s hs => SafeLockState.Inv.reachable (lock_reachable hs)
  · exact fun s hs => Inv.initial hfirst hs
  · exact fun s a hlock hi he => hi.next hG hlock he

/-- A call that is not over comes nearer to its end by its own next step, or by one of what is guarded. -/
def Advances (G : Guarded R L S) (inside : List (T × R × L) → R → L → S → Prop) (left : L → S → ℕ) : Prop :=
  ∀ cs r l s, inside cs r l s → G.done l = false →
    left (G.step r l s).1 (G.step r l s).2 < left l s ∨ ∃ s', G.own s s' ∧ left l s' < left l s

/-- What the call of `t` does by itself, together with what is guarded. -/
def ByItself (t : T) : GuardedAct T R S → Prop
  | .work u | .unlock u => u = t
  | .own _ => True
  | _ => False

/-- The rule for the ends of calls: whatever the other threads do, a call in its critical section can go on to its `unlock`
without them. -/
theorem completes {left : L → S → ℕ} (hG : G.Keeps quiet inside) (hfirst : ∀ s, first s → quiet [] s)
    (hleft : G.Advances inside left) (h : (G.machine first).Reachable s) (hcritical : s.lock.pc t = .critical) :
    ∃ as s' l, (G.machine first).Run s as s' ∧ (∀ a ∈ as, ByItself t a) ∧
      s'.finished = s.finished ++ [(t, s.request t, l)] := by
  have hmore : ∃ as s', (G.machine first).Run s as s' ∧ (∀ a ∈ as, ByItself t a) ∧
      (s'.lock.pc t = .critical ∧ s'.finished = s.finished ∧ s'.request t = s.request t) ∧ G.done (s'.frame t) = true := by
    apply h.leads fun s => left (s.frame t) s.shared
    · intro s' hs' hin hdone
      rw [Bool.not_eq_true] at hdone
      rcases hleft _ _ _ _ ((inv_reachable hG hfirst hs').critical t hin.1) hdone with hless | ⟨shared, hown, hless⟩
      · have he : s'.enabled G (.work t) := ⟨hin.1, hdone⟩
        refine ⟨.work t, rfl, he, hin, ?_⟩
        have hframe : (s'.next G (.work t)).frame t = (G.step (s'.request t) (s'.frame t) s'.shared).1 :=
          Function.update_self ..
        rw [← hframe] at hless
        exact hless
      · exact ⟨.own shared, trivial, hown, hin, hless⟩
    · exact ⟨hcritical, rfl, rfl⟩
  obtain ⟨as, s', hrun, hitself, ⟨hin, hfinished, hrequest⟩, hdone⟩ := hmore
  have he : (G.machine first).enabled s' (.unlock t) := ⟨hin, hdone⟩
  refine ⟨as ++ [.unlock t], _, s'.frame t, hrun.concat he, fun a ha => ?_, ?_⟩
  · rcases List.mem_append.mp ha with ha | ha
    · exact hitself a ha
    · rw [List.mem_singleton.mp ha]
      rfl
  · change s'.finished ++ [(t, s'.request t, s'.frame t)] = _
    rw [hfinished, hrequest]

end Guarded
end AudioKernel
