import AudioKernel.Vm.Runs

/-! The child of `fork` has copies of its parent's private pages. -/
namespace AudioKernel
open Lib PhysMem

def InPrivate (va : ℕ) : Prop := 0x80000000 ≤ va ∧ va < 2 ^ 32 ∧ va % 4096 = 0

namespace Vm

variable {cfg : VmConfig} {kernel : ℕ → Prop} {s t : Vm} {as : List VmAct} {own own' : ℕ → Owner} {free free' : List ℕ}
  {p q c d e f g i j v va va' : ℕ}

/-- A page directory: the kernel's, or that of a process. -/
def Directory (s : Vm) (d : ℕ) : Prop := d = s.shared ∨ ∃ q, s.pd q = some d

/-- `fork` of process `p` in `s` leads to `t`, where the child is process `s.spaces` and has copies of the private pages
of `p`. -/
structure ForkCopies (cfg : VmConfig) (p : ℕ) (s t : Vm) : Prop where
  present : ∀ va, cfg.Private va → ((t.lookup s.spaces va).isSome ↔ (s.lookup p va).isSome)
  words : ∀ va f g, cfg.Private va → t.lookup s.spaces va = some f → s.lookup p va = some g →
    ∀ i, i < 1024 → t.phys.mem f i = s.phys.mem g i
  fresh : ∀ va f, cfg.Private va → t.lookup s.spaces va = some f → ¬ s.InUse f ∧
    ∀ d va', t.Directory d → InPrivate va' → t.phys.lookup d va' = some f → t.pd s.spaces = some d ∧ va' = va
  apic : ∀ va, cfg.Apic va → t.lookup p va = some va ∧ t.lookup s.spaces va = some va
  parent : t.pd p = s.pd p ∧ ∀ va, InPrivate va → t.lookup p va = s.lookup p va
  memory : ∀ f, s.InUse f → t.phys.mem f = s.phys.mem f
  /-- Whatever happens afterwards, neither of the two sees what the other stores. -/
  separate : ∀ as u, (vmMachine cfg).Run t as u → ∀ q r, (q = p ∧ r = s.spaces ∨ q = s.spaces ∧ r = p) →
    ∀ va i v u', u.step cfg (.store q va i v) = some u' → ∀ va' j, InPrivate va' → u'.view r va' j = u.view r va' j

theorem private_or_apic (cfg : VmConfig) (h : InPrivate va) : cfg.Private va ∨ cfg.Apic va := by
  by_cases ha : cfg.Apic va
  · exact .inr ha
  · exact .inl ⟨h.1, h.2.1, h.2.2, ha⟩

namespace Inv

/-- No frame lies in private space. -/
theorem frame_lt (h : Inv cfg kernel s own free) (hf : own f ≠ .unused) : f < 0x80000000 := by
  have hlt := ((h.layout.pool.used f).mp hf).2.2
  have havail := h.layout.pool.avail
  have hlimit := h.layout.pool.limit
  omega

/-- A page that two directories map to one frame is one page of one process. -/
theorem owner_of_lookup (h : Inv cfg kernel s own free) (hf : own f = .data p i j) (hd : s.Directory d)
    (hva : InPrivate va) (hl : s.phys.lookup d va = some f) : s.pd p = some d ∧ va = pageAt i j := by
  rcases hd with rfl | ⟨q, hq⟩
  · -- the kernel's directory has no entry there
    rw [PhysMem.lookup] at hl
    simp [h.entries _ (pdiOf_private hva.1 hva.2.1).1] at hl
  · have hl' : s.lookup q va = some f := by
      unfold Vm.lookup
      rw [hq, Option.bind_some, hl]
    rcases private_or_apic cfg hva with hp | ha
    · have hown := (h.lookup_iff hq hp).mp hl'
      rw [hf] at hown
      cases hown
      exact ⟨hq, (pageAt_of hva.2.2).symm⟩
    · rw [h.lookup_apic hq ha] at hl'
      obtain rfl := Option.some.inj hl'
      have hlt := h.frame_lt (f := va) (by simp [hf])
      exact absurd hva.1 (Nat.not_le_of_lt hlt)

/-- A store of one process is in no page of another. -/
theorem store_private (h : Inv cfg kernel s own free) (hr : s.step cfg (.store p va i v) = some t) (hpq : q ≠ p)
    (hva' : InPrivate va') : t.view q va' j = s.view q va' j := by
  simp only [Vm.step] at hr
  split_ifs at hr with hguard
  obtain ⟨f, hf, rfl⟩ := Option.map_eq_some_iff.mp hr
  obtain ⟨d, hd, -⟩ := Option.bind_eq_some_iff.mp hf
  have hdata := (h.lookup_iff hd hguard.1).mp hf
  have hinv := h.store hdata i v
  unfold Vm.view
  cases hq : s.pd q with
  | none =>
    have hq' : (s.setPhys (s.phys.store f i v)).pd q = none := hq
    simp [Vm.lookup, hq, hq']
  | some e =>
    rcases private_or_apic cfg hva' with hp | ha
    · have hsame : (s.setPhys (s.phys.store f i v)).lookup q va' = s.lookup q va' := by
        ext g
        rw [h.lookup_iff hq hp, hinv.lookup_iff (s := s.setPhys _) hq hp]
      rw [hsame]
      cases hl : s.lookup q va' with
      | none => rfl
      | some g =>
        have hg := (h.lookup_iff hq hp).mp hl
        have hne : g ≠ f := by
          rintro rfl
          exact hpq (Owner.data.inj (hg.symm.trans hdata)).1
        show some (Function.update s.phys.mem f _ g j) = some (s.phys.mem g j)
        rw [Function.update_of_ne hne]
    · have hne : va' ≠ f := by
        rintro rfl
        have hlt := h.frame_lt (f := va') (by simp [hdata])
        exact absurd hva'.1 (Nat.not_le_of_lt hlt)
      rw [h.lookup_apic hq ha, hinv.lookup_apic (s := s.setPhys _) hq ha]
      show some (Function.update s.phys.mem f _ va' j) = some (s.phys.mem va' j)
      rw [Function.update_of_ne hne]

end Inv

/-- The child gets just the pages from the first directory entry on that the loop looks at. -/
theorem Forked.copies (h : Inv cfg kernel s own free) (hd : s.pd p = some d) (h' : Inv cfg kernel t own' free')
    (hpd : t.pd = Function.update s.pd s.spaces (some e)) (hf : Forked cfg p s.spaces s t own own')
    (hall : ∀ g i j, own g = .data p i j → cfg.treeStart ≤ i) : ForkCopies cfg p s t := by
  have hpc : p ≠ s.spaces := Nat.ne_of_lt (h.spaces p d hd)
  have hp : t.pd p = some d := by
    rw [hpd, Function.update_of_ne hpc, hd]
  have hc : t.pd s.spaces = some e := by
    rw [hpd, Function.update_self]
  have hparent : ∀ g i j, own' g = .data p i j ↔ own g = .data p i j := by
    intro g i j
    have := hf.owner g
    grind [Owner.Idle, Owner.process?]
  have hsource : ∀ va f, cfg.Private va → t.lookup s.spaces va = some f →
      ∃ g, s.lookup p va = some g ∧ t.phys.mem f = s.phys.mem g := by
    intro va f hva hl
    obtain ⟨-, g, hg, he⟩ := hf.copied f _ _ ((h'.lookup_iff hc hva).mp hl)
    exact ⟨g, (h.lookup_iff hd hva).mpr hg, he⟩
  constructor
  · intro va hva
    constructor
    · intro hl
      obtain ⟨f, hl⟩ := Option.isSome_iff_exists.mp hl
      obtain ⟨g, hg, -⟩ := hsource va f hva hl
      rw [hg, Option.isSome_some]
    · intro hl
      obtain ⟨g, hl⟩ := Option.isSome_iff_exists.mp hl
      have hg := (h.lookup_iff hd hva).mp hl
      obtain ⟨f, hf⟩ := hf.all g _ _ hg (hall g _ _ hg)
      rw [(h'.lookup_iff hc hva).mpr hf, Option.isSome_some]
  · intro va f g hva hl hg i _
    obtain ⟨g', hg', he⟩ := hsource va f hva hl
    obtain rfl := Option.some.inj (hg'.symm.trans hg)
    rw [he]
  · intro va f hva hl
    have hdata := (h'.lookup_iff hc hva).mp hl
    constructor
    · rw [h.inUse_iff, not_not]
      rcases hf.owner f with hsame | ⟨hidle, -⟩
      · -- the child had no frames before
        exact absurd (by rw [← hsame, hdata]; rfl) (h.layout.trees.not_live (f := f) h.fresh)
      · exact hidle
    · intro d' va' hd' hva' hl'
      have howner := h'.owner_of_lookup hdata hd' hva' hl'
      rwa [pageAt_of hva.2.2.1] at howner
  · intro va hva
    exact ⟨h'.lookup_apic hp hva, h'.lookup_apic hc hva⟩
  · refine ⟨hp.trans hd.symm, fun va hva => ?_⟩
    rcases private_or_apic cfg hva with hpr | ha
    · ext g
      rw [h'.lookup_iff hp hpr, h.lookup_iff hd hpr, hparent]
    · rw [h'.lookup_apic hp ha, h.lookup_apic hd ha]
  · intro f hin
    exact hf.mem f (h.inUse_iff.mp hin)
  · intro as u hrun q r hqr va i v u' hstore va' j hva'
    obtain ⟨_, _, _, hu⟩ := WellFormed.run ⟨kernel, own', free', h'⟩ hrun
    apply hu.store_private hstore ?_ hva'
    rcases hqr with ⟨rfl, rfl⟩ | ⟨rfl, rfl⟩
    · exact hpc.symm
    · exact hpc

/-- The child has all of its parent's pages just when the memory ends below private space, or the parent has no page in
the first four megabytes of it. -/
theorem fork_copies_iff (hs : s.WellFormed cfg) (hr : s.step cfg (.fork p) = some t) :
    ForkCopies cfg p s t ↔
      cfg.memSize < 0x80000000 ∨ ∀ va, cfg.Private va → pdiOf va = 512 → s.lookup p va = none := by
  obtain ⟨kernel, own, free, h⟩ := hs
  obtain ⟨d, hd, hr⟩ := Option.bind_eq_some_iff.mp hr
  obtain ⟨e, own', free', hpd, h', hf⟩ := h.fork hd hr
  rw [← cfg.treeStart_le_iff]
  constructor
  · intro hcopies
    by_contra hnot
    obtain ⟨hstart, hnot⟩ := not_or.mp hnot
    apply hnot
    intro va hva hpdi
    have hc : t.pd s.spaces = some e := by
      rw [hpd, Function.update_self]
    have hnone : t.lookup s.spaces va = none := by
      by_contra hne
      obtain ⟨f, hl⟩ := Option.ne_none_iff_exists'.mp hne
      obtain ⟨hle, -⟩ := hf.copied f _ _ ((h'.lookup_iff hc hva).mp hl)
      omega
    have hpresent := hcopies.present va hva
    rw [hnone] at hpresent
    simpa using hpresent
  · intro hwhen
    apply hf.copies h hd h' hpd
    intro g i j hg
    obtain ⟨hva, hpdi, -⟩ := h.private_of_data hg
    have hlo := (pdiOf_private hva.1 hva.2.1).1
    rw [hpdi] at hlo
    rcases hwhen with hle | hnone
    · exact hle.trans hlo
    · have hle := cfg.treeStart_le
      have hne : i ≠ 512 := by
        rintro rfl
        have hl := h.lookup_of_data hg
        rw [hnone _ hva hpdi] at hl
        cases hl
      omega

open VmConfig

theorem fork_copies_pc128M : ∃ t u, (vmMachine pc128M).Run (booted pc128M) [.create, .pageFault 0 0x80000000] t ∧
    t.step pc128M (.fork 0) = some u ∧ t.lookup 0 0x80000000 ≠ none ∧ ForkCopies pc128M 0 t u := by
  have hbooted : Booted pc128M (booted pc128M) := booted_booted (by decide) (by decide)
  have hrun : ∃ t, (vmMachine pc128M).Run (booted pc128M) [.create, .pageFault 0 0x80000000] t ∧
      (t.lookup 0 0x80000000 != none && (t.step pc128M (.fork 0)).isSome) = true :=
    Machine.exists_run_of_replay (by decide +kernel)
  obtain ⟨t, ht, hcheck⟩ := hrun
  obtain ⟨hl, hu⟩ := Bool.and_eq_true_iff.mp hcheck
  obtain ⟨u, hu⟩ := Option.isSome_iff_exists.mp hu
  have hwf := wellFormed_of_reachable (ht.reachable (.init hbooted))
  exact ⟨t, u, ht, hu, bne_iff_ne.mp hl, (fork_copies_iff hwf hu).mpr (.inl (by decide))⟩

/-- With two gigabytes of memory the loop begins one directory entry too late. -/
theorem fork_drops_page : Booted pc2G (booted pc2G) ∧
    ∃ t u, (vmMachine pc2G).Run (booted pc2G) [.create, .pageFault 0 0x80000000] t ∧
      t.step pc2G (.fork 0) = some u ∧ t.spaces = 1 ∧ t.lookup 0 0x80000000 ≠ none ∧ u.lookup 1 0x80000000 = none ∧
      ¬ ForkCopies pc2G 0 t u := by
  refine ⟨booted_booted (by decide) (by decide), ?_⟩
  have hrun : ∃ t, (vmMachine pc2G).Run (booted pc2G) [.create, .pageFault 0 0x80000000] t ∧
      ((t.spaces == 1 && t.lookup 0 0x80000000 != none) &&
        (t.step pc2G (.fork 0)).any fun u => u.lookup 1 0x80000000 == none) = true :=
    Machine.exists_run_of_replay (by decide +kernel)
  obtain ⟨t, ht, hcheck⟩ := hrun
  obtain ⟨hparent, hu⟩ := Bool.and_eq_true_iff.mp hcheck
  obtain ⟨hspaces, hl⟩ := Bool.and_eq_true_iff.mp hparent
  obtain ⟨u, hu, hnone⟩ := (Option.any_eq_true ..).mp hu
  have hspaces' : t.spaces = 1 := beq_iff_eq.mp hspaces
  refine ⟨t, u, ht, hu, hspaces', bne_iff_ne.mp hl, beq_iff_eq.mp hnone, fun hcopies => ?_⟩
  have hpresent := (hcopies.present 0x80000000 (by decide)).mpr (Option.isSome_iff_ne_none.mpr (bne_iff_ne.mp hl))
  rw [hspaces', beq_iff_eq.mp hnone] at hpresent
  cases hpresent

end Vm
end AudioKernel
