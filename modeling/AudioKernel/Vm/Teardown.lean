import AudioKernel.Vm.Runs
import Mathlib.Data.Set.Card

/-! What `delete_pd` gives back, and what it leaves behind. -/
namespace AudioKernel
open Lib PhysMem

/-- The frames that a process gives back when it is reaped. -/
theorem Owner.reaped_idle_iff {p : ℕ} {o : Owner} :
    ¬ o.Idle ∧ (o.reaped p).Idle ↔ o.process? = some p ∧ ∀ i j, o ≠ .data p i j := by
  cases o with
  | dir q => by_cases hq : q = p <;> simp [Idle, reaped, process?, hq]
  | table q i => by_cases hq : q = p <;> simp [Idle, reaped, process?, hq]
  | data q i j => by_cases hq : q = p <;> simp [Idle, reaped, process?, hq]
  | _ => simp [Idle, reaped, process?]

namespace Vm

variable {cfg : VmConfig} {kernel : ℕ → Prop} {s t s₀ : Vm} {a : VmAct} {as : List VmAct} {own own' : ℕ → Owner}
  {free free' : List ℕ} {p q d f g i j va : ℕ}

/-- The frames of the address space of a process: its directory, its private page tables, and its private pages, without
those of the interrupt controllers. -/
def Owned (cfg : VmConfig) (s : Vm) (p f : ℕ) : Prop :=
  s.pd p = some f ∨
  (∃ d i, s.pd p = some d ∧ 512 ≤ i ∧ i < 1024 ∧ present (s.phys.mem d i) = true ∧ frameOf (s.phys.mem d i) = f) ∨
  ∃ va, cfg.Private va ∧ s.lookup p va = some f

/-- The action loses no frame: it does not map a page that is mapped, and no process with a private page is reaped. -/
def Clean (cfg : VmConfig) (s : Vm) : VmAct → Prop
  | .mapFrame p va => s.lookup p va = none
  | .reap p => ∀ va, cfg.Private va → s.lookup p va = none
  | _ => True

/-- No private page is mapped, as the directory and the tables say it. -/
theorem lookup_none_iff : (∀ va, cfg.Private va → s.lookup p va = none) ↔
    ∀ d ∈ s.pd p, ∀ i, i < 1024 → 512 ≤ i → present (s.phys.mem d i) = true →
      ∀ j, j < 1024 → present (s.phys.mem (frameOf (s.phys.mem d i)) j) = true → cfg.Apic (pageAt i j) := by
  constructor
  · intro hnone d hd i hi hlo hpde j hj hpte
    by_contra ha
    have hl := hnone (pageAt i j) ⟨pageAt_private hlo hj, pageAt_lt hi hj, pageAt_mod hj, ha⟩
    rw [Vm.lookup, Option.mem_def.mp hd] at hl
    simp [PhysMem.lookup, pdiOf_pageAt hj, ptiOf_pageAt hj, hpde, hpte] at hl
  · rintro hall va ⟨hlo, hhi, hmod, ha⟩
    obtain ⟨hpdi, hpdi'⟩ := pdiOf_private hlo hhi
    unfold Vm.lookup
    cases hd : s.pd p with
    | none => rfl
    | some d =>
      rw [Option.bind_some, PhysMem.lookup]
      dsimp only
      split_ifs with hpde hpte
      · have hapic := hall d hd (pdiOf va) hpdi' hpdi hpde (ptiOf va) (ptiOf_lt va) hpte
        rw [pageAt_of hmod] at hapic
        exact absurd hapic ha
      · rfl
      · rfl

instance (cfg : VmConfig) (s : Vm) (a : VmAct) : Decidable (s.Clean cfg a) :=
  match a with
  | .mapFrame p va => inferInstanceAs (Decidable (s.lookup p va = none))
  | .reap _ => decidable_of_iff _ lookup_none_iff.symm
  | .create | .pageFault _ _ | .unmap _ _ | .fork _ | .store _ _ _ _ => isTrue trivial

/-- What a step from `s` to `t` may do to the frames, for a run that began in `s₀`. -/
structure Returns (cfg : VmConfig) (s₀ s : Vm) (a : VmAct) (t : Vm) : Prop where
  /-- Reaping gives back just the frames of the address space. -/
  returned : ∀ p, a = .reap p → ∀ f, s.InUse f ∧ ¬ t.InUse f ↔ s.Owned cfg p f
  /-- The frames of the other address spaces stay theirs. -/
  others : ∀ p, a = .reap p → ∀ q f, q ≠ p → s.Owned cfg q f → t.Owned cfg q f ∧ t.InUse f
  accounted : ∀ f, t.InUse f ↔ s₀.InUse f ∨ ∃ q, t.Owned cfg q f
  /-- When all processes are gone, the frames in use are as many as in the beginning. -/
  count : (∀ q, t.pd q = none) → {f | t.InUse f}.ncard = {f | s₀.InUse f}.ncard

namespace Inv

theorem owned_iff (h : Inv cfg kernel s own free) : s.Owned cfg p f ↔ (own f).process? = some p := by
  have htrees := h.layout.trees
  constructor
  · rintro (hd | ⟨d, i, hd, hlo, hhi, hp, rfl⟩ | ⟨va, hva, hl⟩)
    · rw [(htrees.dir f p).mpr hd]
      rfl
    · rcases htrees.table p d i hd hlo hhi with hzero | ⟨t, ht, he⟩
      · rw [hzero] at hp
        cases hp
      · rw [he, h.layout.pool.frameOf_or (by simp [ht]), ht]
        rfl
    · obtain ⟨d, hd, -⟩ := Option.bind_eq_some_iff.mp hl
      rw [(h.lookup_iff hd hva).mp hl]
      rfl
  · intro hf
    obtain ⟨d, hd⟩ := htrees.live hf
    cases hown : own f with
    | dir q =>
      rw [hown] at hf
      obtain rfl : q = p := Option.some.inj hf
      exact .inl ((htrees.dir f q).mp hown)
    | table q i =>
      rw [hown] at hf
      obtain rfl : q = p := Option.some.inj hf
      obtain ⟨hlo, hhi, d', hd', he⟩ := htrees.table_of f q i hown
      refine .inr (.inl ⟨d', i, hd', hlo, hhi, ?_, ?_⟩)
      · rw [he, h.layout.pool.present_or (by simp [hown])]
      · rw [he, h.layout.pool.frameOf_or (by simp [hown])]
    | data q i j =>
      rw [hown] at hf
      obtain rfl : q = p := Option.some.inj hf
      exact .inr (.inr ⟨pageAt i j, (h.private_of_data hown).1, h.lookup_of_data hown⟩)
    | _ =>
      rw [hown] at hf
      cases hf

/-- A frame in use that is not the kernel's and belongs to no process has been lost. -/
theorem accounted_iff (h : Inv cfg kernel s own free) :
    (∀ f, s.InUse f ↔ kernel f ∨ ∃ q, s.Owned cfg q f) ↔ ∀ f, own f ≠ .held := by
  apply forall_congr'
  intro f
  rw [h.inUse_iff, ← h.kernel]
  simp only [h.owned_iff]
  cases own f <;> simp [Owner.Idle, Owner.process?]

/-- An action loses a frame unless it is clean. -/
theorem clean_iff (h : Inv cfg kernel s own free) (hr : s.step cfg a = some t) :
    s.Clean cfg a ↔ ∀ g, ¬ Lost own a g := by
  cases a with
  | mapFrame p va =>
    obtain ⟨d, hd, hr⟩ := Option.bind_eq_some_iff.mp hr
    split_ifs at hr with hva
    unfold Clean Lost
    simp only [← h.lookup_iff hd hva, Option.eq_none_iff_forall_ne_some]
  | reap p =>
    obtain ⟨d, hd, -⟩ := Option.bind_eq_some_iff.mp hr
    unfold Clean Lost
    constructor
    · rintro hnone g ⟨i, j, hg⟩
      have hl := h.lookup_of_data hg
      rw [hnone _ (h.private_of_data hg).1] at hl
      cases hl
    · intro hlost va hva
      rw [Option.eq_none_iff_forall_ne_some]
      intro g hl
      exact hlost g ⟨_, _, (h.lookup_iff hd hva).mp hl⟩
  | _ => simp [Clean, Lost]

/-- A process that is reaped gives back all its frames but those of its private pages. -/
theorem reap_returns (h : Inv cfg kernel s own free) (hr : s.step cfg (.reap p) = some t) (f : ℕ) :
    (s.InUse f ∧ ¬ t.InUse f ↔ (own f).process? = some p ∧ ∀ i j, own f ≠ .data p i j) ∧
      ∀ q, q ≠ p → s.Owned cfg q f → t.Owned cfg q f ∧ t.InUse f := by
  obtain ⟨d, hd, hr⟩ := Option.bind_eq_some_iff.mp hr
  obtain ⟨m, free', hm, hinv, -⟩ := h.reap hd
  rw [hm] at hr
  obtain rfl := Option.some.inj hr
  constructor
  · rw [h.inUse_iff, hinv.inUse_iff, not_not, Owner.reaped_idle_iff]
  · intro q hq howned
    rw [h.owned_iff] at howned
    rw [hinv.owned_iff, hinv.inUse_iff]
    have hsame : (own f).reaped p = own f := by
      cases hown : own f <;> rw [hown] at howned <;> cases howned <;> simp [Owner.reaped, hq]
    rw [hsame]
    refine ⟨howned, ?_⟩
    rintro (hidle | hidle) <;> rw [hidle] at howned <;> cases howned

end Inv

def Kept (cfg : VmConfig) (kernel : ℕ → Prop) (s : Vm) : Prop :=
  ∃ own free, Inv cfg kernel s own free ∧ ∀ f, own f ≠ .held

theorem Kept.step (h : Kept cfg kernel s) (hr : s.step cfg a = some t) (hclean : s.Clean cfg a) :
    Kept cfg kernel t := by
  obtain ⟨own, free, hinv, hkept⟩ := h
  obtain ⟨own', free', hinv', hheld⟩ := hinv.step hr
  refine ⟨own', free', hinv', fun f hf => ?_⟩
  rcases (hheld f).mp hf with hf | hlost
  · exact hkept f hf
  · exact (hinv.clean_iff hr).mp hclean f hlost

/-- A step keeps the account of the frames just when it is clean. -/
theorem Kept.returns_iff (h : Kept cfg s₀.InUse s) (hr : s.step cfg a = some t) :
    Returns cfg s₀ s a t ↔ s.Clean cfg a := by
  constructor
  · intro hreturns
    obtain ⟨own, free, hinv, hkept⟩ := h
    obtain ⟨own', free', hinv', hheld⟩ := hinv.step hr
    have hkept' := hinv'.accounted_iff.mp hreturns.accounted
    rw [hinv.clean_iff hr]
    intro g hlost
    exact hkept' g ((hheld g).mpr (.inr hlost))
  · intro hclean
    obtain ⟨own', free', hinv', hkept'⟩ := h.step hr hclean
    obtain ⟨own, free, hinv, hkept⟩ := h
    have haccounted := hinv'.accounted_iff.mpr hkept'
    refine ⟨?_, ?_, haccounted, ?_⟩
    · rintro p rfl f
      rw [(hinv.reap_returns hr f).1, hinv.owned_iff, and_iff_left_iff_imp]
      intro _ i j hf
      exact (hinv.clean_iff hr).mp hclean f ⟨i, j, hf⟩
    · rintro p rfl q f hq
      exact (hinv.reap_returns hr f).2 q hq
    · intro hgone
      congr 1
      ext f
      show t.InUse f ↔ s₀.InUse f
      rw [haccounted, or_iff_left_iff_imp]
      rintro ⟨q, howned⟩
      obtain ⟨d, hd⟩ := hinv'.layout.trees.live (hinv'.owned_iff.mp howned)
      rw [hgone q] at hd
      cases hd

theorem Booted.kept (h : Booted cfg s) : Kept cfg s.InUse s := by
  have hinv := h.inv
  have hkept : ∀ f, s.bootOwner f ≠ .held := by
    intro f
    unfold bootOwner
    split_ifs <;> simp
  have hkernel : s.InUse = fun f => f % 4096 = 0 ∧ VMM_FRAMES ≤ f ∧ f < s.phys.avail := by
    funext f
    apply propext
    rw [hinv.inUse_iff, ← hinv.kernel]
    unfold bootOwner
    split_ifs <;> simp [Owner.Idle]
  rw [hkernel]
  exact ⟨s.bootOwner, [], hinv, hkept⟩

/-- Teardown returns what each process took, all along a run, just when no step of it loses a frame. -/
theorem teardown_returns_iff (hs : Booted cfg s) (h : (vmMachine cfg).Run s as t) :
    (vmMachine cfg).EachStep (Returns cfg s) s as ↔ ((vmMachine cfg).restrict (Clean cfg)).Run s as t := by
  apply h.eachStep_iff (I := Kept cfg s.InUse)
  · intro u a hu he hclean
    exact hu.step (step_next he) hclean
  · intro u a hu he
    exact hu.returns_iff (step_next he)
  · exact hs.kept

open VmConfig

theorem teardown_returns_pc128M : ∃ t, (vmMachine pc128M).Run (booted pc128M)
      [.create, .pageFault 0 0x80000000, .unmap 0 0x80000000, .reap 0] t ∧
    (vmMachine pc128M).EachStep (Returns pc128M (booted pc128M)) (booted pc128M)
      [.create, .pageFault 0 0x80000000, .unmap 0 0x80000000, .reap 0] := by
  have hrun : ∃ t, ((vmMachine pc128M).restrict (Clean pc128M)).Run (booted pc128M)
      [.create, .pageFault 0 0x80000000, .unmap 0 0x80000000, .reap 0] t ∧ (t.pd 0 == none) = true :=
    Machine.exists_run_of_replay (by decide +kernel)
  obtain ⟨t, ht, -⟩ := hrun
  exact ⟨t, ht.of_restrict,
    (teardown_returns_iff (booted_booted (by decide) (by decide)) ht.of_restrict).mpr ht⟩

/-- The page of a process that is reaped stays in use, when no process is left. -/
theorem reap_loses_page : Booted pc128M (booted pc128M) ∧
    ∃ t u f, (vmMachine pc128M).Run (booted pc128M) [.create, .pageFault 0 0x80000000] t ∧
      t.step pc128M (.reap 0) = some u ∧ t.lookup 0 0x80000000 = some f ∧ u.InUse f ∧ ¬ (booted pc128M).InUse f ∧
      (∀ q, u.pd q = none) ∧ ¬ Returns pc128M (booted pc128M) t (.reap 0) u := by
  have hbooted : Booted pc128M (booted pc128M) := booted_booted (by decide) (by decide)
  have hrun : ∃ t, (vmMachine pc128M).Run (booted pc128M) [.create, .pageFault 0 0x80000000] t ∧
      (t.lookup 0 0x80000000 == some 0x623000 &&
        (t.step pc128M (.reap 0)).any fun u => u.spaces == 1 && u.pd 0 == none) = true :=
    Machine.exists_run_of_replay (by decide +kernel)
  obtain ⟨t, ht, hcheck⟩ := hrun
  obtain ⟨hl, hu⟩ := Bool.and_eq_true_iff.mp hcheck
  obtain ⟨u, hu, hgone⟩ := (Option.any_eq_true ..).mp hu
  obtain ⟨hspaces, hnone⟩ := Bool.and_eq_true_iff.mp hgone
  have hl' : t.lookup 0 0x80000000 = some 0x623000 := beq_iff_eq.mp hl
  have hva : pc128M.Private 0x80000000 := by decide
  obtain ⟨kernel, own, free, hinv⟩ := wellFormed_of_reachable (ht.reachable (.init hbooted))
  obtain ⟨own', free', hinv', -⟩ := hinv.step hu
  obtain ⟨d, hd, -⟩ := Option.bind_eq_some_iff.mp hl'
  have hdata := (hinv.lookup_iff hd hva).mp hl'
  have hin : u.InUse 0x623000 := by
    by_contra hnot
    have hreturned := (hinv.reap_returns hu 0x623000).1.mp ⟨hinv.inUse_iff.mpr (by simp [hdata]), hnot⟩
    exact hreturned.2 _ _ hdata
  refine ⟨hbooted, t, u, 0x623000, ht, hu, hl', hin, ?_, ?_, ?_⟩
  · rintro ⟨-, -, hlt, -⟩
    exact absurd hlt (by decide)
  · intro q
    cases hq : u.pd q with
    | none => rfl
    | some e =>
      have hlt := hinv'.spaces q e hq
      rw [beq_iff_eq.mp hspaces] at hlt
      obtain rfl : q = 0 := by omega
      exact absurd ((beq_iff_eq.mp hnone).symm.trans hq) (by simp)
  · intro hreturns
    have howned : t.Owned pc128M 0 0x623000 := .inr (.inr ⟨0x80000000, hva, hl'⟩)
    exact ((hreturns.returned 0 rfl 0x623000).mpr howned).2 hin

end Vm
end AudioKernel
