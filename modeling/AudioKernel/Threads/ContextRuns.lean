import AudioKernel.Threads.Contexts

/-! A call of `gheith_contextSwitch` returns with the context that it was made in, after any run of the cores. -/
namespace AudioKernel.Switch
open Lib

variable {C T : Type*} {P : Places T} {K : Cores C T} {t target : T} {κ : Context} {mem : BitVec 32 → BitVec 8} {x : BitVec 32}
  {u : Processor} {c : C} {next' : BitVec 32}

/-! What the switch keeps. -/

private theorem own_of_source (hc : Calls P K c t target κ) (hx : Within ((K.at' c).reg .esp - 4) 4 x) : P.Own t x :=
  Or.inr (hc.inside_source x (Nat.lt_of_lt_of_le hx (by decide)))

private theorem own_of_field {s : Processor} {f : ℕ × BitVec 32} (hf : f ∈ sourceFields s)
    (hx : Within (P.saveArea t + BitVec.ofNat 32 f.1) 4 x) : P.Own t x :=
  Or.inl (inside_of_offset (sourceFields_in f hf) (by decide) x hx)

private theorem own_of_clear (hx : Within (P.saveArea t + 20) 4 x) : P.Own t x :=
  Or.inl (inside_of_offset (k := 20) (by decide) (by decide) x hx)

private theorem own_of_handler (h : Held P mem t κ) (hx : Within (κ.reg .esp - 8 - 12) 12 x) : P.Own t x :=
  Or.inr (h.inside x (Nat.lt_of_lt_of_le hx (by decide)))

section
variable (h : Sound P K) (hc : Calls P K c t target κ)
include h hc

/-- What belongs to neither thread. -/
private theorem kept_other {t' : T} (ht' : K.Live t') (hne : t' ≠ t) (hne' : t' ≠ target) (hx : P.Own t' x) :
    ((K.at' c).run (enter next')).mem x = K.mem x := by
  obtain ⟨ht, htarget⟩ := hc.live h
  have hnot : ¬ P.Own t x := h.others t' t ht' ht hne x hx
  have hnot' : ¬ P.Own target x := h.others t' target ht' htarget hne' x hx
  exact hc.frame h (fun hx => hnot (own_of_source hc hx)) (fun f hf hx => hnot (own_of_field hf hx))
    (fun hx => hnot' (own_of_clear hx)) fun hx => hnot' (own_of_handler (h.stored target κ hc.status).toHeld hx)

private theorem kept_source (hx : P.Own t x) (hflags : ¬ Within ((K.at' c).reg .esp - 4) 4 x)
    (hfields : ∀ f ∈ sourceFields (K.at' c), ¬ Within (P.saveArea t + BitVec.ofNat 32 f.1) 4 x) :
    ((K.at' c).run (enter next')).mem x = K.mem x := by
  obtain ⟨ht, htarget⟩ := hc.live h
  have hnot : ¬ P.Own target x := h.others t target ht htarget (hc.ne h) x hx
  exact hc.frame h hflags hfields (fun hx => hnot (own_of_clear hx)) fun hx => hnot (own_of_handler (h.stored target κ hc.status).toHeld hx)

private theorem kept_target (hx : P.Own target x) (hclear : ¬ Within (P.saveArea target + 20) 4 x)
    (hhandler : ¬ Within (κ.reg .esp - 8 - 12) 12 x) : ((K.at' c).run (enter next')).mem x = K.mem x := by
  obtain ⟨ht, htarget⟩ := hc.live h
  have hnot : ¬ P.Own t x := fun hx' => h.others t target ht htarget (hc.ne h) x hx' hx
  exact hc.frame h (fun hx => hnot (own_of_source hc hx)) (fun f hf hx => hnot (own_of_field hf hx)) hclear hhandler

/-- The `cr3` of every TCB. -/
private theorem kept_cr3 {t' : T} (ht' : K.Live t') (hx : Within (P.saveArea t' + 32) 4 x) :
    ((K.at' c).run (enter next')).mem x = K.mem x := by
  have hin : Within (P.saveArea t') 36 x := inside_of_offset (k := 32) (by decide) (by decide) x hx
  by_cases heq : t' = t
  · subst heq
    have hnot : ¬ Within (P.stack t') (P.bytes t') x := h.own t' ht' x hin
    refine kept_source h hc (Or.inl hin) (fun hx' => hnot ?_) fun f hf hx' => ?_
    · exact hc.inside_source x (Nat.lt_of_lt_of_le hx' (by decide))
    · have hle : f.1 + 4 ≤ 32 := sourceFields_low f hf
      unfold Within at hx hx'
      bv_omega
  · by_cases heq' : t' = target
    · subst heq'
      have hnot : ¬ Within (P.stack t') (P.bytes t') x := h.own t' ht' x hin
      refine kept_target h hc (Or.inl hin) (fun hx' => ?_) fun hx' => hnot ?_
      · unfold Within at hx hx'
        bv_omega
      · exact (h.stored t' κ hc.status).inside x (Nat.lt_of_lt_of_le hx' (by decide))
    · exact kept_other h hc ht' heq heq' (Or.inl hin)

/-- The stack of the source from the return address on. -/
private theorem kept_source_stack (hx : P.From t ((K.at' c).reg .esp) x) :
    ((K.at' c).run (enter next')).mem x = K.mem x := by
  refine kept_source h hc (Or.inr hx.1) (fun hx' => ?_) fun f hf hx' => ?_
  · have hroom := hc.room
    have hfrom := hx.2
    unfold Places.offset at hroom hfrom
    unfold Within at hx'
    bv_omega
  · exact h.own t (hc.live h).1 x (inside_of_offset (sourceFields_in f hf) (by decide) x hx') hx.1

/-- The stack of the target from its flags on. -/
private theorem kept_target_stack (hx : P.From target (κ.reg .esp - 8) x) :
    ((K.at' c).run (enter next')).mem x = K.mem x := by
  refine kept_target h hc (Or.inr hx.1) (fun hx' => ?_) fun hx' => ?_
  · exact h.own target (hc.live h).2 x (inside_of_offset (k := 20) (by decide) (by decide) x hx') hx.1
  · have hroom := (h.stored target κ hc.status).room
    have hfrom := hx.2
    unfold Places.offset at hroom hfrom
    unfold Within at hx'
    bv_omega

private theorem held_returning : Held P ((K.at' c).run (enter next')).mem t (returning (K.at' c)) := by
  have hroom := hc.room
  have hfits := hc.fits
  have hlt := P.bytes_lt t
  have hoffset : P.offset t ((K.at' c).reg .esp + 4) = P.offset t ((K.at' c).reg .esp) + 4 := by
    unfold Places.offset at *
    bv_omega
  have height : (K.at' c).reg .esp + 4 - 8 = (K.at' c).reg .esp - 4 := by bv_omega
  have hfour : (K.at' c).reg .esp + 4 - 4 = (K.at' c).reg .esp := by bv_omega
  constructor
  case room =>
    rw [returning_esp, hoffset]
    omega
  case fits =>
    rw [returning_esp, hoffset]
    omega
  case flags =>
    rw [returning_esp, height]
    exact (hc.entered h next').flags
  case eip =>
    change _ = (K.at' c).top 0
    rw [returning_esp, hfour, Processor.top_zero]
    exact loadWord_congr fun x hx => kept_source_stack h hc (from_word (Nat.le_refl _) (by omega) hx)
  case stack =>
    intro x hx
    rw [returning_esp] at hx
    exact kept_source_stack h hc ⟨hx.1, Nat.le_trans (by omega) hx.2⟩

/-- The source is stored with the context of its call. -/
private theorem stored_returning (next' : BitVec 32) : Stored P ((K.at' c).run (enter next')).mem t (returning (K.at' c)) := by
  have hstored (k : ℕ) {v : BitVec 32} (hf : (k, v) ∈ sourceFields (K.at' c)) :
      loadWord ((K.at' c).run (enter next')).mem (P.saveArea t + BitVec.ofNat 32 k) = v :=
    (hc.entered h next').stored (k, v) hf
  have height : (K.at' c).reg .esp + 4 - 8 = (K.at' c).reg .esp - 4 := by bv_omega
  constructor
  case toHeld => exact held_returning h hc
  case ebx =>
    rw [returning_reg (by decide)]
    exact hstored 0 (by simp [sourceFields])
  case esp =>
    rw [returning_esp, height]
    exact hstored 4 (by simp [sourceFields])
  case ebp =>
    rw [returning_reg (by decide)]
    exact hstored 8 (by simp [sourceFields])
  case esi =>
    rw [returning_reg (by decide)]
    exact hstored 12 (by simp [sourceFields])
  case edi =>
    rw [returning_reg (by decide)]
    exact hstored 16 (by simp [sourceFields])
  case cr2 => exact hstored 28 (by simp [sourceFields, returning])

/-- The handler is entered with the context of the target. -/
private theorem entering_target (next' : BitVec 32) : Entering P ((K.at' c).run (enter next')).mem target ((K.at' c).run (enter next')) κ := by
  have hentered := hc.entered h next'
  have hstored := h.stored target κ hc.status
  constructor
  case toHeld => exact hstored.toHeld.congr fun x hx => kept_target_stack h hc hx
  case esp =>
    rw [hentered.esp, hc.esp h]
    bv_omega
  case saved =>
    intro r hr
    cases r with
    | ebx => exact hentered.ebx.trans hstored.ebx
    | ebp => exact hentered.ebp.trans hstored.ebp
    | esi => exact hentered.esi.trans hstored.esi
    | edi => exact hentered.edi.trans hstored.edi
    | eax | ecx | edx | esp => cases hr
  case cr2 => exact hentered.cr2.trans hstored.cr2
  case cr3 => exact hentered.cr3.trans (h.cr3 target (hc.live h).2)

end

theorem Cores.at_put [DecidableEq C] {p : Processor} {φ : Phase T} : (K.put c p φ).at' c = p := by
  change (Function.update K.core c p c).setMem p.mem = p
  rw [Function.update_self]
  rfl

/-- The thread is away: it is stored with the context, or the handler of the switch to it runs. -/
def Away (K : Cores C T) (t : T) (κ : Context) : Prop :=
  K.status t = .suspended κ ∨ ∃ c source u, K.phase c = .handler source t u κ

private theorem Away.put [DecidableEq C] (h : Away K t κ) (hphase : (K.phase c).on ≠ t) (p : Processor) (phase : Phase T) :
    Away (K.put c p phase) t κ := by
  rcases h with hstatus | ⟨c', source, u, hc'⟩
  · exact Or.inl hstatus
  · have hne : c' ≠ c := by
      rintro rfl
      rw [hc'] at hphase
      exact hphase rfl
    exact Or.inr ⟨c', source, u, (Function.update_of_ne hne _ _).trans hc'⟩

/-- When the handler of the switch to it returns, the thread resumes with its context. -/
theorem Away.resumes {source : T} {κ' : Context} (h : Sound P K) (haway : Away K t κ)
    (hphase : K.phase c = .handler source t u κ') (he : enabled P K (.leave c)) :
    Resumes P t κ ((K.at' c).run leave) := by
  obtain ⟨source', target', u', κ'', hphase', hreturn, hcr2⟩ := he
  obtain ⟨rfl, rfl, rfl, rfl⟩ := Phase.handler.inj (hphase.symm.trans hphase')
  have hrunning := h.running c
  rw [hphase] at hrunning
  rcases haway with hstatus | ⟨c', source', u', hc'⟩
  · exact absurd (hrunning.symm.trans hstatus) Status.noConfusion
  · have hon : (K.phase c').on = (K.phase c).on := by
      rw [hc', hphase]
      rfl
    rw [h.one c' c hon, hphase] at hc'
    obtain ⟨-, -, -, rfl⟩ := Phase.handler.inj hc'
    exact (h.entering c _ _ _ _ hphase).resumes hreturn hcr2

/-! The steps. -/

theorem Sound.initial {idle : C → T} (h : Initial P idle K) : Sound P K := by
  have hlive {t : T} (ht : K.Live t) : ∃ c, t = idle c := by
    by_contra hnot
    exact ht (h.absent t (not_exists.mp hnot))
  have hon (c : C) : (K.phase c).on = idle c := by
    rw [h.phase]
    rfl
  constructor
  case own =>
    intro t ht
    obtain ⟨c, rfl⟩ := hlive ht
    exact h.own c
  case others =>
    intro t t' ht ht' hne
    obtain ⟨c, rfl⟩ := hlive ht
    obtain ⟨c', rfl⟩ := hlive ht'
    exact h.others c c' fun heq => hne (congrArg idle heq)
  case cr3 =>
    intro t ht
    obtain ⟨c, rfl⟩ := hlive ht
    exact h.cr3 c
  case stored =>
    intro t κ hstatus
    have ht : K.Live t := by
      unfold Cores.Live
      rw [hstatus]
      exact Status.noConfusion
    obtain ⟨c, rfl⟩ := hlive ht
    rw [h.running] at hstatus
    cases hstatus
  case running =>
    intro c
    rw [hon]
    exact h.running c
  case one =>
    intro c c' heq
    rw [hon, hon] at heq
    exact h.injective heq
  case entering =>
    intro c source target u κ hphase
    rw [h.phase] at hphase
    cases hphase

/-- A TCB is there after a change of the status of `t` only if it was, or it is `t`. -/
private theorem live_update [DecidableEq T] {s : Status} {t' : T} (mem : BitVec 32 → BitVec 8) (h : t' ≠ t) :
    Cores.Live { K with mem := mem, status := Function.update K.status t s } t' ↔ K.Live t' := by
  change Function.update K.status t s t' ≠ _ ↔ _
  rw [Function.update_of_ne h]
  exact Iff.rfl

section
variable [DecidableEq C] [DecidableEq T]

theorem Sound.create (h : Sound P K) (he : enabled P K (.create t)) : Sound P (next P K (.create t)) := by
  obtain ⟨habsent, hbytes, hown, hothers⟩ := he
  have hne {t' : T} (ht : K.Live t') : t' ≠ t := by
    rintro rfl
    exact ht habsent
  have hkeep {t' : T} (ht : K.Live t') {x : BitVec 32} (hx : P.Own t' x) : P.constructed t K.mem x = K.mem x :=
    constructed_outside hbytes fun hx' => hothers t' ht x hx' hx
  have hsound : Sound P { K with mem := P.constructed t K.mem, core := K.core } :=
    h.keep fun x hx => by
      obtain ⟨t', ht, hx⟩ := h.protected_own hx
      exact hkeep ht hx
  constructor
  case own =>
    intro t' ht
    by_cases heq : t' = t
    · rw [heq]
      exact hown
    · exact h.own t' ((live_update _ heq).mp ht)
  case others =>
    intro t₁ t₂ h₁ h₂ hne₁₂ x hx₁ hx₂
    by_cases heq₁ : t₁ = t
    · have hne₂ : t₂ ≠ t := fun heq₂ => hne₁₂ (heq₁.trans heq₂.symm)
      rw [heq₁] at hx₁
      exact hothers t₂ ((live_update _ hne₂).mp h₂) x hx₁ hx₂
    · by_cases heq₂ : t₂ = t
      · rw [heq₂] at hx₂
        exact hothers t₁ ((live_update _ heq₁).mp h₁) x hx₂ hx₁
      · exact h.others t₁ t₂ ((live_update _ heq₁).mp h₁) ((live_update _ heq₂).mp h₂) hne₁₂ x hx₁ hx₂
  case cr3 =>
    intro t' ht
    by_cases heq : t' = t
    · rw [heq]
      exact loadWord_constructed_cr3 hbytes hown
    · exact hsound.cr3 t' ((live_update _ heq).mp ht)
  case stored =>
    intro t' κ ht
    change Function.update K.status t _ t' = _ at ht
    by_cases heq : t' = t
    · rw [heq, Function.update_self] at ht
      rw [heq, ← Status.suspended.inj ht]
      exact stored_initial hbytes hown
    · rw [Function.update_of_ne heq] at ht
      exact hsound.stored t' κ ht
  case running =>
    intro c
    change Function.update K.status t _ (K.phase c).on = _
    rw [Function.update_of_ne (hne (h.live c))]
    exact h.running c
  case one => exact h.one
  case entering => exact hsound.entering

theorem Sound.delete (h : Sound P K) (he : enabled P K (.delete t)) : Sound P (next P K (.delete t)) := by
  obtain ⟨κ, hκ⟩ := he
  have hlive {t' : T} (ht : (next P K (.delete t)).Live t') : t' ≠ t ∧ K.Live t' := by
    have hne : t' ≠ t := by
      rintro rfl
      exact ht (Function.update_self _ _ _)
    exact ⟨hne, (live_update K.mem hne).mp ht⟩
  constructor
  case own => exact fun t' ht => h.own t' (hlive ht).2
  case others => exact fun t₁ t₂ h₁ h₂ => h.others t₁ t₂ (hlive h₁).2 (hlive h₂).2
  case cr3 => exact fun t' ht => h.cr3 t' (hlive ht).2
  case stored =>
    intro t' κ' ht
    change Function.update K.status t _ t' = _ at ht
    by_cases heq : t' = t
    · rw [heq, Function.update_self] at ht
      cases ht
    · rw [Function.update_of_ne heq] at ht
      exact h.stored t' κ' ht
  case running =>
    intro c
    have hne : (K.phase c).on ≠ t := by
      rintro rfl
      rw [h.running] at hκ
      cases hκ
    change Function.update K.status t _ (K.phase c).on = _
    rw [Function.update_of_ne hne]
    exact h.running c
  case one => exact h.one
  case entering => exact h.entering

theorem Sound.compute {p : Processor} (h : Sound P K) (he : enabled P K (.compute c p)) :
    Sound P (next P K (.compute c p)) := by
  change Sound P (K.put c p (K.phase c))
  unfold Cores.put
  rw [Function.update_eq_self]
  exact h.keep he

theorem Sound.leave (h : Sound P K) : Sound P (next P K (.leave c)) := by
  have hmem : ((K.at' c).run Switch.leave).mem = K.mem := (leave_spec (t := K.at' c)).2.2.2.2.2.2.2.2
  have hon (c' : C) : (Function.update K.phase c (.thread (K.phase c).on) c').on = (K.phase c').on := by
    by_cases heq : c' = c
    · rw [heq, Function.update_self]
      rfl
    · rw [Function.update_of_ne heq]
  change Sound P (K.put c _ _)
  unfold Cores.put
  rw [hmem]
  constructor
  case own => exact h.own
  case others => exact h.others
  case cr3 => exact h.cr3
  case stored => exact h.stored
  case running =>
    intro c'
    change K.status (Function.update K.phase c _ c').on = _
    rw [hon]
    exact h.running c'
  case one =>
    intro c₁ c₂ heq
    change (Function.update K.phase c _ c₁).on = (Function.update K.phase c _ c₂).on at heq
    rw [hon, hon] at heq
    exact h.one c₁ c₂ heq
  case entering =>
    intro c' source target u κ hphase
    change Function.update K.phase c _ c' = _ at hphase
    by_cases heq : c' = c
    · rw [heq, Function.update_self] at hphase
      cases hphase
    · rw [Function.update_of_ne heq] at hphase
      exact h.entering c' source target u κ hphase

/-- The state when the handler has been entered. -/
theorem next_call (hc : Calls P K c t target κ) : next P K (.call c target next') =
    { K.put c ((K.at' c).run (enter next')) (.handler t target ((K.at' c).run (enter next')) κ) with
      status := Function.update (Function.update K.status t (.suspended (returning (K.at' c)))) target .running } := by
  simp only [next, hc.status, hc.on]

theorem next_call_at (hc : Calls P K c t target κ) :
    (next P K (.call c target next')).at' c = (K.at' c).run (enter next') := by
  rw [next_call hc]
  exact Cores.at_put (K := K) (φ := .handler t target ((K.at' c).run (enter next')) κ)

theorem next_call_phase (hc : Calls P K c t target κ) :
    (next P K (.call c target next')).phase c = .handler t target ((K.at' c).run (enter next')) κ := by
  rw [next_call hc]
  change Function.update K.phase c _ c = _
  rw [Function.update_self]

theorem next_compute_at {p : Processor} : (next P K (.compute c p)).at' c = p := Cores.at_put

theorem next_compute_phase {p : Processor} : (next P K (.compute c p)).phase = K.phase := Function.update_eq_self _ _

theorem Sound.call (h : Sound P K) (hc : Calls P K c t target κ) : Sound P (next P K (.call c target next')) := by
  have hrunning := hc.running h
  have hne := hc.ne h
  obtain ⟨ht, htarget⟩ := hc.live h
  have hentering := entering_target h hc next'
  have hreturning := stored_returning h hc next'
  rw [next_call hc]
  generalize hu : (K.at' c).run (enter next') = u at hentering hreturning ⊢
  have hother {t' : T} (ht' : K.Live t') (h₁ : t' ≠ t) (h₂ : t' ≠ target) {x : BitVec 32} (hx : P.Own t' x) :
      u.mem x = K.mem x := by
    rw [← hu]
    exact kept_other h hc ht' h₁ h₂ hx
  have hlive {t' : T}
      (ht' : Function.update (Function.update K.status t (.suspended (returning (K.at' c)))) target .running t' ≠ .absent) :
      K.Live t' := by
    by_cases h₂ : t' = target
    · rw [h₂]
      exact htarget
    · by_cases h₁ : t' = t
      · rw [h₁]
        exact ht
      · rwa [Function.update_of_ne h₂, Function.update_of_ne h₁] at ht'
  have honc : Phase.on (.handler t target u κ) = target := rfl
  have hphase {c' : C} (hne : c' ≠ c) : (K.phase c').on ≠ t ∧ (K.phase c').on ≠ target := by
    constructor
    · intro heq
      exact hne (h.one c' c (heq.trans hc.on.symm))
    · intro heq
      have hrun := h.running c'
      rw [heq, hc.status] at hrun
      cases hrun
  constructor
  case own => exact fun t' ht' => h.own t' (hlive ht')
  case others => exact fun t₁ t₂ h₁ h₂ => h.others t₁ t₂ (hlive h₁) (hlive h₂)
  case cr3 =>
    intro t' ht'
    rw [← h.cr3 t' (hlive ht')]
    change loadWord u.mem _ = _
    rw [← hu]
    exact loadWord_congr fun x hx => kept_cr3 h hc (hlive ht') hx
  case stored =>
    intro t' κ' hstatus
    change Function.update _ target _ t' = _ at hstatus
    change Stored P u.mem t' κ'
    by_cases h₂ : t' = target
    · rw [h₂, Function.update_self] at hstatus
      cases hstatus
    · rw [Function.update_of_ne h₂] at hstatus
      by_cases h₁ : t' = t
      · rw [h₁, Function.update_self] at hstatus
        rw [h₁, ← Status.suspended.inj hstatus]
        exact hreturning
      · rw [Function.update_of_ne h₁] at hstatus
        have hlive' : K.Live t' := by
          unfold Cores.Live
          rw [hstatus]
          exact Status.noConfusion
        have hkeep {x : BitVec 32} (hx : P.Own t' x) : u.mem x = K.mem x := hother hlive' h₁ h₂ hx
        exact (h.stored t' κ' hstatus).congr (fun x hx => hkeep (Or.inl (Nat.lt_of_lt_of_le hx (by decide))))
          (fun x hx => hkeep (Or.inl (inside_of_offset (k := 28) (by decide) (by decide) x hx)))
          fun x hx => hkeep (Or.inr hx.1)
  case running =>
    intro c'
    change Function.update _ target _ (Function.update K.phase c _ c').on = _
    by_cases heq : c' = c
    · rw [heq, Function.update_self, honc, Function.update_self]
    · obtain ⟨h₁, h₂⟩ := hphase heq
      rw [Function.update_of_ne heq, Function.update_of_ne h₂, Function.update_of_ne h₁]
      exact h.running c'
  case one =>
    intro c₁ c₂ hon
    change (Function.update K.phase c _ c₁).on = (Function.update K.phase c _ c₂).on at hon
    by_cases h₁ : c₁ = c
    · by_cases h₂ : c₂ = c
      · exact h₁.trans h₂.symm
      · rw [h₁, Function.update_self, Function.update_of_ne h₂, honc] at hon
        exact absurd hon.symm (hphase h₂).2
    · by_cases h₂ : c₂ = c
      · rw [h₂, Function.update_self, Function.update_of_ne h₁, honc] at hon
        exact absurd hon (hphase h₁).2
      · rw [Function.update_of_ne h₁, Function.update_of_ne h₂] at hon
        exact h.one c₁ c₂ hon
  case entering =>
    intro c' source target' u' κ' hc'
    change Function.update K.phase c _ c' = _ at hc'
    change Entering P u.mem target' u' κ'
    by_cases heq : c' = c
    · rw [heq, Function.update_self] at hc'
      obtain ⟨rfl, rfl, rfl, rfl⟩ := Phase.handler.inj hc'
      exact hentering
    · rw [Function.update_of_ne heq] at hc'
      obtain ⟨h₁, h₂⟩ := hphase heq
      have hlive' := h.live c'
      rw [hc'] at h₁ h₂ hlive'
      exact (h.entering c' source target' u' κ' hc').congr fun x hx => hother hlive' h₁ h₂ (Or.inr hx.1)

theorem Sound.next (h : Sound P K) {a : Act C T} (he : enabled P K a) : Sound P (next P K a) := by
  cases a with
  | compute c p => exact h.compute he
  | call c target next' =>
    obtain ⟨t, κ, hc⟩ := he
    exact h.call hc
  | leave c => exact h.leave
  | create t => exact h.create he
  | delete t => exact h.delete he

theorem reachable_sound {idle : C → T} (h : (machine P idle).Reachable K) : Sound P K :=
  h.invariant (fun _ => Sound.initial) fun _ _ hs he => hs.next he

/-! Runs. -/

/-- A step that does not delete the thread, and does not return to it, leaves it away. -/
theorem Away.next {a : Act C T} (h : Sound P K) (haway : Away K t κ) (he : enabled P K a) (hdelete : a ≠ .delete t)
    (hreturn : ∀ c, (next P K a).phase c ≠ .thread t) : Away (next P K a) t κ := by
  cases a with
  | compute c p =>
    change Away (K.put c p (K.phase c)) t κ
    unfold Cores.put
    rw [Function.update_eq_self]
    exact haway
  | call c target next' =>
    obtain ⟨source, κ', hc⟩ := he
    rw [next_call hc]
    have hsource : source ≠ t := by
      rintro rfl
      rcases haway with hstatus | ⟨c', source', u, hc'⟩
      · rw [hc.running h] at hstatus
        cases hstatus
      · have hon : (K.phase c').on = source := by
          rw [hc']
          rfl
        have heq : c' = c := h.one c' c (hon.trans hc.on.symm)
        rw [heq, hc.phase] at hc'
        cases hc'
    by_cases htarget : target = t
    · right
      subst htarget
      rcases haway with hstatus | ⟨c', source', u, hc'⟩
      · obtain rfl := Status.suspended.inj (hc.status.symm.trans hstatus)
        exact ⟨c, source, _, Function.update_self _ _ _⟩
      · have hrunning := h.running c'
        rw [hc'] at hrunning
        exact absurd (hrunning.symm.trans hc.status) Status.noConfusion
    · have hon : (K.phase c).on ≠ t := by
        rw [hc.on]
        exact hsource
      rcases haway.put hon ((K.at' c).run (enter next')) (.handler source target ((K.at' c).run (enter next')) κ') with
        hstatus | hhandler
      · left
        exact (Function.update_of_ne (Ne.symm htarget) _ _).trans ((Function.update_of_ne (Ne.symm hsource) _ _).trans hstatus)
      · exact Or.inr hhandler
  | leave c =>
    refine haway.put (fun hon => hreturn c ?_) _ _
    rw [← hon]
    exact Function.update_self _ _ _
  | create t' =>
    rcases haway with hstatus | hhandler
    · have hne : t ≠ t' := by
        rintro rfl
        rw [he.1] at hstatus
        cases hstatus
      exact Or.inl ((Function.update_of_ne hne _ _).trans hstatus)
    · exact Or.inr hhandler
  | delete t' =>
    rcases haway with hstatus | hhandler
    · have hne : t ≠ t' := by
        rintro rfl
        exact hdelete rfl
      exact Or.inl ((Function.update_of_ne hne _ _).trans hstatus)
    · exact Or.inr hhandler

/-- In a run in which the thread is not deleted and has not been returned to, it stays away. -/
theorem Away.run {idle : C → T} {as : List (Act C T)} {K' : Cores C T} (h : Sound P K) (haway : Away K t κ)
    (hrun : (machine P idle).Run K as K') (hdelete : Act.delete t ∉ as)
    (hreturn : (machine P idle).Along (fun K => ∀ c, K.phase c ≠ .thread t) K as) : Sound P K' ∧ Away K' t κ := by
  induction hrun with
  | nil => exact ⟨h, haway⟩
  | @cons K K' a as he _ ih =>
    rw [List.mem_cons, not_or] at hdelete
    obtain ⟨-, hrest⟩ := hreturn
    have hnext : ∀ c, (Switch.next P K a).phase c ≠ .thread t := by
      cases as with
      | nil => exact hrest
      | cons b bs => exact hrest.1
    exact ih (h.next he) (haway.next h he (Ne.symm hdelete.1) hnext) hdelete.2 hrest

section
variable {idle : C → T} {as : List (Act C T)} {K' : Cores C T} {source : T} {κ' : Context}

/-- A thread that has called `gheith_contextSwitch` resumes with the context of the call, on any core and after any run, when
the handler of the first switch to it has returned. -/
theorem contextSwitch_returns (hK : (machine P idle).Reachable K) (hc : Calls P K c t target κ)
    (hrun : (machine P idle).Run (next P K (.call c target next')) as K') (hdelete : Act.delete t ∉ as)
    (hreturn : (machine P idle).Along (fun K => ∀ c, K.phase c ≠ .thread t) (next P K (.call c target next')) as) {c' : C}
    (hphase : K'.phase c' = .handler source t u κ') (hleave : enabled P K' (.leave c')) :
    Resumes P t (returning (K.at' c)) ((K'.at' c').run leave) := by
  have hsound := reachable_sound hK
  have haway : Away (next P K (.call c target next')) t (returning (K.at' c)) := by
    rw [next_call hc]
    left
    exact (Function.update_of_ne (hc.ne hsound) _ _).trans (Function.update_self _ _ _)
  obtain ⟨hsound', haway'⟩ := haway.run (hsound.call hc) hrun hdelete hreturn
  exact haway'.resumes hsound' hphase hleave

/-- A new thread starts at `entry`, at the end of its stack, with interrupts enabled and in its own page directory, on any
core and after any run, when the handler of the first switch to it has returned. -/
theorem created_starts (hK : (machine P idle).Reachable K) (hcreate : enabled P K (.create t))
    (hrun : (machine P idle).Run (next P K (.create t)) as K') (hdelete : Act.delete t ∉ as)
    (hreturn : (machine P idle).Along (fun K => ∀ c, K.phase c ≠ .thread t) (next P K (.create t)) as) {c' : C}
    (hphase : K'.phase c' = .handler source t u κ') (hleave : enabled P K' (.leave c')) :
    ((K'.at' c').run leave).eip = P.entry ∧ ((K'.at' c').run leave).eflags = IF ∧
      ((K'.at' c').run leave).reg .esp = P.stack t + 8192 ∧ ((K'.at' c').run leave).cr3 = P.pd t := by
  have hsound := reachable_sound hK
  have haway : Away (next P K (.create t)) t (P.initial t K.mem) := Or.inl (Function.update_self _ _ _)
  obtain ⟨hsound', haway'⟩ := haway.run (hsound.create hcreate) hrun hdelete hreturn
  have hresumes := haway'.resumes hsound' hphase hleave
  exact ⟨hresumes.eip, hresumes.eflags, hresumes.esp, hresumes.cr3⟩

end

end

/-! Two cores, with a new thread on the first one. -/

/-- The thread `none` is new, the others are idle. -/
private def somePlaces : Places (Option Bool) where
  tcb t := match t with | none => 0x3000 | some false => 0x1000 | some true => 0x2000
  saveArea t := match t with | none => 0x3010 | some false => 0x1010 | some true => 0x2010
  stack t := match t with | none => 0x30000 | some false => 0x10000 | some true => 0x20000
  bytes _ := 8192
  pd _ := 0
  entry := 0x9000
  bytes_lt _ := by decide

/-- The idle threads have the arguments of `gheith_contextSwitch` on their stacks. -/
private def someCores : Cores Bool (Option Bool) where
  mem := storeFields (storeFields (fun _ => 0) 0x11000 [(4, 0x1010), (8, 0x3010)]) 0x21000 [(4, 0x2010), (8, 0x1010)]
  core c := ⟨fun _ => bif c then 0x21000 else 0x11000, 0x200, 0, 8, 16, 0, 0, fun _ => 0⟩
  phase c := .thread (some c)
  status
    | none => .absent
    | some _ => .running

private def withNew : Cores Bool (Option Bool) := next somePlaces someCores (.create none)

private def switched : Cores Bool (Option Bool) := next somePlaces withNew (.call false none 0)

/-- The second core switches to the thread that the first one has left. -/
private def switchedBack : Cores Bool (Option Bool) := next somePlaces switched (.call true (some false) 0)

private def handled : Cores Bool (Option Bool) :=
  next somePlaces switchedBack (.compute true ((switchedBack.at' true).run [.ret]))

private theorem some_initial : Initial somePlaces some someCores where
  injective := Option.some_injective Bool
  phase _ := rfl
  running _ := rfl
  absent t ht := by
    cases t with
    | none => rfl
    | some c => exact absurd rfl (ht c)
  own c := by
    intro x
    cases c <;> simp only [somePlaces, Within] <;> bv_omega
  others c c' hne := by
    intro x
    cases c <;> cases c' <;> simp only [somePlaces, Places.Own, Within] <;> first | contradiction | bv_omega
  cr3 c := by
    cases c <;> decide +kernel

private theorem create_none : enabled somePlaces someCores (.create none) := by
  refine ⟨rfl, rfl, ?_, ?_⟩
  · intro x
    simp only [somePlaces, Within]
    bv_omega
  · intro t' ht' x
    cases t' with
    | none => exact absurd rfl ht'
    | some c => cases c <;> simp only [somePlaces, Places.Own, Within] <;> bv_omega

private theorem call_none : Calls somePlaces withNew false (some false) none (somePlaces.initial none someCores.mem) where
  phase := rfl
  status := rfl
  saveArea := by decide +kernel
  restoreArea := by decide +kernel
  room := by decide +kernel
  fits := by decide +kernel

private theorem call_false :
    Calls somePlaces switched true (some true) (some false) (returning (withNew.at' false)) where
  phase := rfl
  status := rfl
  saveArea := by decide +kernel
  restoreArea := by decide +kernel
  room := by decide +kernel
  fits := by decide +kernel

private theorem switchedBack_phase :
    switchedBack.phase true = .handler (some true) (some false) (switchedBack.at' true) (returning (withNew.at' false)) := by
  rw [switchedBack, next_call_at call_false]
  exact next_call_phase call_false

private theorem handled_phase :
    handled.phase true = .handler (some true) (some false) (switchedBack.at' true) (returning (withNew.at' false)) := by
  rw [handled, next_compute_phase]
  exact switchedBack_phase

private theorem leave_handled : enabled somePlaces handled (.leave true) := by
  have hat : handled.at' true = (switchedBack.at' true).run [.ret] := next_compute_at
  have hreturned := Processor.cdecl_ret (s := switchedBack.at' true)
  have hcr2 := Processor.ret_cr2 (s := switchedBack.at' true)
  rw [← hat] at hreturned hcr2
  exact ⟨some true, some false, switchedBack.at' true, returning (withNew.at' false), handled_phase, hreturned, hcr2⟩

private theorem reachable_withNew : (machine somePlaces some).Reachable withNew := by
  have hinit : (machine somePlaces some).Reachable someCores := .init some_initial
  have hcreate : (machine somePlaces some).enabled someCores (.create none) := create_none
  exact hinit.step hcreate

private theorem run_handled : (machine somePlaces some).Run switched
    [.call true (some false) 0, .compute true ((switchedBack.at' true).run [.ret])] handled :=
  .cons ⟨some true, _, call_false⟩ (.cons (fun _ _ => rfl) (.nil handled))

private theorem handler_ne {t source target : Option Bool} {u : Processor} {κ : Context} :
    Phase.handler source target u κ ≠ .thread t := by
  intro h
  cases h

private theorem thread_ne {t t' : Option Bool} (hne : t ≠ t') : Phase.thread t ≠ .thread t' :=
  fun h => hne (Phase.thread.inj h)

private theorem phase_ne {K : Cores Bool (Option Bool)} {t : Option Bool} (hfalse : K.phase false ≠ .thread t)
    (htrue : K.phase true ≠ .thread t) (c : Bool) : K.phase c ≠ .thread t := by
  cases c
  · exact hfalse
  · exact htrue

private theorem away_handled : (machine somePlaces some).Along (fun K => ∀ c, K.phase c ≠ .thread (some false)) switched
    [.call true (some false) 0, .compute true ((switchedBack.at' true).run [.ret])] := by
  have hback : switchedBack.phase true ≠ .thread (some false) := by
    rw [switchedBack_phase]
    exact handler_ne
  refine ⟨phase_ne handler_ne (thread_ne (by decide)), phase_ne handler_ne hback, phase_ne handler_ne ?_⟩
  change handled.phase true ≠ _
  rw [handled, next_compute_phase]
  exact hback

/-- The first core's idle thread resumes on the second core. -/
theorem contextSwitch_returns_elsewhere :
    Resumes somePlaces (some false) (returning (withNew.at' false)) ((handled.at' true).run leave) :=
  contextSwitch_returns reachable_withNew call_none run_handled (by simp) away_handled
    handled_phase leave_handled

private def begun : Cores Bool (Option Bool) :=
  next somePlaces switched (.compute false ((switched.at' false).run [.ret]))

private theorem switched_phase :
    switched.phase false = .handler (some false) none (switched.at' false) (somePlaces.initial none someCores.mem) := by
  rw [switched, next_call_at call_none]
  exact next_call_phase call_none

private theorem begun_phase :
    begun.phase false = .handler (some false) none (switched.at' false) (somePlaces.initial none someCores.mem) := by
  rw [begun, next_compute_phase]
  exact switched_phase

private theorem leave_begun : enabled somePlaces begun (.leave false) := by
  have hat : begun.at' false = (switched.at' false).run [.ret] := next_compute_at
  have hreturned := Processor.cdecl_ret (s := switched.at' false)
  have hcr2 := Processor.ret_cr2 (s := switched.at' false)
  rw [← hat] at hreturned hcr2
  exact ⟨some false, none, switched.at' false, somePlaces.initial none someCores.mem, begun_phase, hreturned, hcr2⟩

private theorem away_begun : (machine somePlaces some).Along (fun K => ∀ c, K.phase c ≠ .thread none) withNew
    [.call false none 0, .compute false ((switched.at' false).run [.ret])] := by
  have hswitched : switched.phase false ≠ .thread none := by
    rw [switched_phase]
    exact handler_ne
  have hbegun : begun.phase false ≠ .thread none := by
    rw [begun_phase]
    exact handler_ne
  exact ⟨phase_ne (thread_ne (by decide)) (thread_ne (by decide)), phase_ne hswitched (thread_ne (by decide)),
    phase_ne hbegun (thread_ne (by decide))⟩

theorem created_starts_first : ((begun.at' false).run leave).eip = 0x9000 ∧ ((begun.at' false).run leave).eflags = IF ∧
    ((begun.at' false).run leave).reg .esp = 0x32000 ∧ ((begun.at' false).run leave).cr3 = 0 := by
  have hrun : (machine somePlaces some).Run withNew [.call false none 0, .compute false ((switched.at' false).run [.ret])]
      begun := .cons ⟨some false, _, call_none⟩ (.cons (fun _ _ => rfl) (.nil begun))
  exact created_starts (.init some_initial) create_none hrun (by simp) away_begun begun_phase leave_begun

end AudioKernel.Switch
