import AudioKernel.Vm.Boot
import AudioKernel.Vm.Fork

/-! The frames have owners in every state that a booted kernel reaches. -/
namespace AudioKernel
open Lib PhysMem

namespace Vm

variable {cfg : VmConfig} {kernel : ℕ → Prop} {s t : Vm} {a : VmAct} {as : List VmAct} {own own' : ℕ → Owner}
  {free free' : List ℕ} {p q c d f g i j v va va' : ℕ}

def bootOwner (s : Vm) (f : ℕ) : Owner :=
  if f % 4096 = 0 ∧ VMM_FRAMES ≤ f ∧ f < s.phys.avail then .kernel else .unused

theorem Booted.inv (h : Booted cfg s) :
    Inv cfg (fun f => f % 4096 = 0 ∧ VMM_FRAMES ≤ f ∧ f < s.phys.avail) s s.bootOwner [] := by
  have hcases : ∀ f, s.bootOwner f = .kernel ∧ (f % 4096 = 0 ∧ VMM_FRAMES ≤ f ∧ f < s.phys.avail) ∨
      s.bootOwner f = .unused ∧ ¬ (f % 4096 = 0 ∧ VMM_FRAMES ≤ f ∧ f < s.phys.avail) := by
    intro f
    unfold bootOwner
    split_ifs with hf
    · exact .inl ⟨rfl, hf⟩
    · exact .inr ⟨rfl, hf⟩
  have hnone := h.none
  refine ⟨⟨⟨h.firstFree, List.nodup_nil, ?_, ?_, h.avail, ?_⟩, ?_⟩, ?_, ?_, ?_, ?_, h.entries⟩
  · intro f
    have := hcases f
    grind
  · intro f
    have := hcases f
    grind
  · exact ⟨h.limit.1.trans cfg.memSize_le, h.limit.2⟩
  · constructor <;> grind [Owner.Loose]
  · grind
  · intro f
    have := hcases f
    grind
  · grind
  · have := h.shared
    unfold bootOwner
    rw [if_pos ⟨this.2.2, this.1, this.2.1⟩]

/-- The frames that an action takes out of their address space without giving them back. -/
def Lost (own : ℕ → Owner) : VmAct → ℕ → Prop
  | .mapFrame p va, g => own g = .data p (pdiOf va) (ptiOf va)
  | .reap p, g => ∃ i j, own g = .data p i j
  | _, _ => False

theorem Inv.mapFrame_lost (h : Inv cfg kernel s own free) (hd : s.pd p = some d) (hva : cfg.Private va)
    (hr : s.mapFrame d va = some t) : ∃ own' free', Inv cfg kernel t own' free' ∧
      ∀ g, own' g = .held ↔ own g = .held ∨ own g = .data p (pdiOf va) (ptiOf va) := by
  obtain ⟨f, own', free', -, -, hinv, hidle, hdata, howner⟩ := h.mapFrame hd hva hr
  refine ⟨own', free', hinv, ?_⟩
  intro g
  by_cases hg : g = f
  · subst hg
    simp [hdata, hidle.ne]
  · have hcases := howner g hg
    have hunique : own' g ≠ .data p (pdiOf va) (ptiOf va) := fun hg' => hg (hinv.layout.trees.unique_page hdata hg')
    grind [Owner.Idle]

/-- Every action keeps the owners of the frames right, and the kernel keeps its own. -/
theorem Inv.step (h : Inv cfg kernel s own free) (hr : s.step cfg a = some t) :
    ∃ own' free', Inv cfg kernel t own' free' ∧ ∀ g, own' g = .held ↔ own g = .held ∨ Lost own a g := by
  cases a with
  | create =>
    obtain ⟨-, own', free', -, -, hinv, -, hheld, -⟩ := h.create hr
    exact ⟨own', free', hinv, fun g => (hheld g).trans (iff_of_eq (or_false _)).symm⟩
  | pageFault p va =>
    obtain ⟨d, hd, hr⟩ := Option.bind_eq_some_iff.mp hr
    split_ifs at hr with hguard
    obtain ⟨hhi, hnone⟩ := hguard
    unfold Vm.pageFault at hr
    dsimp only at hr
    split_ifs at hr with hlo
    have hdown := framedown_eq va
    have hva : cfg.Private (framedown va) := h.private_of_unmapped hd hlo (by omega) (by omega) hnone
    obtain ⟨own', free', hinv, hheld⟩ := h.mapFrame_lost hd hva hr
    refine ⟨own', free', hinv, fun g => (hheld g).trans (or_congr_right (iff_of_false ?_ id))⟩
    intro hg
    rw [(h.lookup_iff hd hva).mpr hg] at hnone
    cases hnone
  | mapFrame p va =>
    obtain ⟨d, hd, hr⟩ := Option.bind_eq_some_iff.mp hr
    split_ifs at hr with hva
    exact h.mapFrame_lost hd hva hr
  | unmap p va =>
    obtain ⟨d, hd, hr⟩ := Option.bind_eq_some_iff.mp hr
    split_ifs at hr with hva
    obtain ⟨m, own', free', hm, hinv, hown, -⟩ := h.unmap hd hva
    rw [hm] at hr
    obtain rfl := Option.some.inj hr
    refine ⟨own', free', hinv, fun g => ?_⟩
    have := hown g
    grind [Lost]
  | fork p =>
    obtain ⟨d, hd, hr⟩ := Option.bind_eq_some_iff.mp hr
    obtain ⟨-, own', free', -, hinv, hforked⟩ := h.fork hd hr
    refine ⟨own', free', hinv, fun g => ?_⟩
    have := hforked.owner g
    grind [Lost, Owner.Idle, Owner.process?]
  | store p va i v =>
    simp only [Vm.step] at hr
    split_ifs at hr with hguard
    obtain ⟨f, hf, rfl⟩ := Option.map_eq_some_iff.mp hr
    obtain ⟨d, hd, -⟩ := Option.bind_eq_some_iff.mp hf
    have hinv := h.store ((h.lookup_iff hd hguard.1).mp hf) i v
    exact ⟨own, free, hinv, fun g => (iff_of_eq (or_false _)).symm⟩
  | reap p =>
    obtain ⟨d, hd, hr⟩ := Option.bind_eq_some_iff.mp hr
    obtain ⟨m, free', hm, hinv, -⟩ := h.reap hd
    rw [hm] at hr
    obtain rfl := Option.some.inj hr
    refine ⟨_, free', hinv, fun g => ?_⟩
    unfold Lost Owner.reaped
    grind

/-- What a reader of a state can rely on: every frame has one owner. -/
def WellFormed (cfg : VmConfig) (s : Vm) : Prop := ∃ kernel own free, Inv cfg kernel s own free

theorem WellFormed.step (h : s.WellFormed cfg) (hr : s.step cfg a = some t) : t.WellFormed cfg := by
  obtain ⟨kernel, own, free, hinv⟩ := h
  obtain ⟨own', free', hinv', -⟩ := hinv.step hr
  exact ⟨kernel, own', free', hinv'⟩

/-- An action that is enabled does what `step` says. -/
theorem step_next (he : (vmMachine cfg).enabled s a) : s.step cfg a = some ((vmMachine cfg).next s a) := by
  obtain ⟨t, ht⟩ := Option.isSome_iff_exists.mp he
  show s.step cfg a = some ((s.step cfg a).getD s)
  rw [ht, Option.getD_some]

theorem WellFormed.run (h : s.WellFormed cfg) (hr : (vmMachine cfg).Run s as t) : t.WellFormed cfg := by
  induction hr with
  | nil => exact h
  | cons he _ ih => exact ih (h.step (step_next he))

theorem wellFormed_of_reachable (hs : (vmMachine cfg).Reachable s) : s.WellFormed cfg := by
  apply hs.invariant
  · intro s h
    exact ⟨_, _, _, h.inv⟩
  · intro s a h he
    exact h.step (step_next he)

end Vm
end AudioKernel
