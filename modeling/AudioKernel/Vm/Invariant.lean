import AudioKernel.Vm.Spaces

/-! The address spaces of all processes, with the owners of the frames. -/
namespace AudioKernel
open Lib PhysMem

namespace Vm

/-- The owners of the frames in a state; the kernel has just the frames of `kernel`, and its directory maps nothing in
private space. -/
structure Inv (cfg : VmConfig) (kernel : ℕ → Prop) (s : Vm) (own : ℕ → Owner) (free : List ℕ) : Prop where
  layout : Layout cfg s.phys s.pd own free
  wired : ∀ p d, s.pd p = some d → Wired cfg s.phys.mem own p
  kernel : ∀ f, own f = .kernel ↔ kernel f
  spaces : ∀ p d, s.pd p = some d → p < s.spaces
  shared : own s.shared = .kernel
  entries : ∀ i, 512 ≤ i → s.phys.mem s.shared i = 0

variable {cfg : VmConfig} {kernel : ℕ → Prop} {s t : Vm} {own own' : ℕ → Owner} {free free' : List ℕ}
  {p q d f i j va : ℕ} {m : PhysMem}

def Free (s : Vm) (f : ℕ) : Prop := ∃ l, Chained (fun g => s.phys.mem g 0) s.phys.firstFree l ∧ f ∈ l

/-- The frame has been handed out and has not been given back. -/
def InUse (s : Vm) (f : ℕ) : Prop := f % 4096 = 0 ∧ VMM_FRAMES ≤ f ∧ f < s.phys.avail ∧ ¬ s.Free f

/-- The processes that are left had the same directories before. -/
theorem pd_of_reaped {pd : ℕ → Option ℕ} {e : ℕ} (hq : Function.update pd p none q = some e) :
    q ≠ p ∧ pd q = some e := by
  have hne : q ≠ p := by
    rintro rfl
    rw [Function.update_self] at hq
    cases hq
  exact ⟨hne, by rwa [Function.update_of_ne hne] at hq⟩

namespace Inv

theorem free_iff (h : Inv cfg kernel s own free) : s.Free f ↔ own f = .free := by
  rw [← h.layout.pool.mem_free]
  constructor
  · rintro ⟨l, hl, hf⟩
    rwa [h.layout.pool.chained.unique hl]
  · intro hf
    exact ⟨free, h.layout.pool.chained, hf⟩

theorem inUse_iff (h : Inv cfg kernel s own free) : s.InUse f ↔ ¬ (own f).Idle := by
  unfold InUse Owner.Idle
  rw [h.free_iff, not_or, ← and_assoc, ← and_assoc, and_assoc (a := f % 4096 = 0), ← h.layout.pool.used f]
  tauto

/-- The number of the next process is not in use. -/
theorem fresh (h : Inv cfg kernel s own free) : s.pd s.spaces = none := by
  by_contra hne
  obtain ⟨d, hd⟩ := Option.ne_none_iff_exists'.mp hne
  exact absurd (h.spaces _ d hd) (lt_irrefl _)

/-- Private pages are mapped to the frames that the process owns for them. -/
theorem lookup_iff (h : Inv cfg kernel s own free) (hd : s.pd p = some d) (hva : cfg.Private va) :
    s.lookup p va = some f ↔ own f = .data p (pdiOf va) (ptiOf va) := by
  obtain ⟨hlo, hhi, hmod, ha⟩ := hva
  obtain ⟨hpdi, hpdi'⟩ := pdiOf_private hlo hhi
  have hpage := pageAt_of hmod
  unfold Vm.lookup
  rw [hd, Option.bind_some]
  have hlookup := h.layout.lookup_page (f := f) hd hpdi hpdi' (ptiOf_lt va) (by rwa [hpage])
  rwa [hpage] at hlookup

/-- The page that a process has a frame for. -/
theorem private_of_data (h : Inv cfg kernel s own free) (hf : own f = .data p i j) :
    cfg.Private (pageAt i j) ∧ pdiOf (pageAt i j) = i ∧ ptiOf (pageAt i j) = j := by
  obtain ⟨hj, ha, t, ht, -⟩ := h.layout.trees.page_of f p i j hf
  obtain ⟨hlo, hhi, -⟩ := h.layout.trees.table_of t p i ht
  exact ⟨⟨pageAt_private hlo hj, pageAt_lt hhi hj, pageAt_mod hj, ha⟩, pdiOf_pageAt hj, ptiOf_pageAt hj⟩

theorem lookup_of_data (h : Inv cfg kernel s own free) (hf : own f = .data p i j) :
    s.lookup p (pageAt i j) = some f := by
  obtain ⟨d, hd⟩ := h.layout.trees.live (p := p) (f := f) (by rw [hf]; rfl)
  obtain ⟨hva, hpdi, hpti⟩ := h.private_of_data hf
  rw [h.lookup_iff hd hva, hpdi, hpti, hf]

theorem lookup_apic (h : Inv cfg kernel s own free) (hd : s.pd p = some d) (hva : cfg.Apic va) :
    s.lookup p va = some va := by
  unfold Vm.lookup
  rw [hd, Option.bind_some]
  exact h.layout.lookup_apic hd (h.wired p d hd) hva

/-- A page that is not mapped is not one of the controllers'. -/
theorem private_of_unmapped (h : Inv cfg kernel s own free) (hd : s.pd p = some d) (hlo : 0x80000000 ≤ va)
    (hhi : va < 2 ^ 32) (hmod : va % 4096 = 0) (hnone : s.lookup p va = none) : cfg.Private va := by
  refine ⟨hlo, hhi, hmod, fun ha => ?_⟩
  rw [h.lookup_apic hd ha] at hnone
  cases hnone

/-- A change that leaves the kernel's frames and its directory alone. -/
theorem setPhys (h : Inv cfg kernel s own free) (hlayout : Layout cfg m s.pd own' free')
    (hwired : ∀ q d, s.pd q = some d → Wired cfg m.mem own' q) (hkernel : ∀ g, own' g = .kernel ↔ own g = .kernel)
    (hmem : ∀ g, own g = .kernel → m.mem g = s.phys.mem g) : Inv cfg kernel (s.setPhys m) own' free' where
  layout := hlayout
  wired := hwired
  kernel g := (hkernel g).trans (h.kernel g)
  spaces := h.spaces
  shared := (hkernel s.shared).mpr h.shared
  entries i hi := by
    show m.mem s.shared i = 0
    rw [hmem s.shared h.shared, h.entries i hi]

/-- After a change of one page. -/
theorem remaps (h : Inv cfg kernel s own free) (hlayout : Layout cfg m s.pd own' free')
    (hr : Remaps p i j s.phys m own own') (hwired : ∀ q d, s.pd q = some d → Wired cfg m.mem own' q) :
    Inv cfg kernel (s.setPhys m) own' free' := by
  apply h.setPhys hlayout hwired
  · intro g
    have := hr.owner g
    grind [Owner.Idle]
  · intro g hg
    exact hr.mem g (by simp [hg]) (by simp [hg]) (by simp [hg])

/-- After a change of one page that is no controller's. -/
theorem remapsPage (h : Inv cfg kernel s own free) (hlayout : Layout cfg m s.pd own' free')
    (hr : Remaps p i j s.phys m own own') (ha : ¬ cfg.Apic (pageAt i j)) : Inv cfg kernel (s.setPhys m) own' free' :=
  h.remaps hlayout hr fun q d hd => (h.wired q d hd).remaps hr fun ha' => absurd ha' ha

/-- The owners after a directory has been made. -/
theorem create (h : Inv cfg kernel s own free) (hr : s.create cfg = some t) :
    ∃ d own' free', t.pd = Function.update s.pd s.spaces (some d) ∧ t.spaces = s.spaces + 1 ∧
      Inv cfg kernel t own' free' ∧ Grows s.spaces d s.phys t.phys own own' ∧
      (∀ g, own' g = .held ↔ own g = .held) ∧
      ∀ i, i < cfg.sharedEntries → t.phys.mem d i = s.phys.mem s.shared i := by
  have hp := h.fresh
  obtain ⟨r, hmake, rfl⟩ := Option.map_eq_some_iff.mp hr
  obtain ⟨own', free', hlayout, hgrows, hwired, hheld, hlow⟩ := h.layout.makePd hp hmake
  have hkernel : ∀ g, own' g = .kernel ↔ own g = .kernel := by
    intro g
    have := hgrows.owner g
    grind [Owner.Idle]
  refine ⟨r.1, own', free', rfl, rfl, ⟨hlayout, ?_, fun g => (hkernel g).trans (h.kernel g), ?_, ?_, ?_⟩, hgrows, hheld,
    hlow h.shared⟩
  · intro q d hd
    change Function.update s.pd s.spaces (some r.1) q = some d at hd
    by_cases hq : q = s.spaces
    · rw [hq]
      exact hwired
    · rw [Function.update_of_ne hq] at hd
      intro va hva
      obtain ⟨t, ht, he⟩ := h.wired q d hd va hva
      have hidle : ¬ (own t).Idle := by
        rw [ht]
        simp [Owner.Idle]
      refine ⟨t, ?_, ?_⟩
      · rcases hgrows.owner t with hsame | ⟨hidle', -⟩
        · rw [hsame, ht]
        · exact absurd hidle' hidle
      · show r.2.mem t (ptiOf va) = va ||| 7
        rw [hgrows.mem t hidle, he]
  · intro q d hd
    change Function.update s.pd s.spaces (some r.1) q = some d at hd
    show q < s.spaces + 1
    by_cases hq : q = s.spaces
    · omega
    · rw [Function.update_of_ne hq] at hd
      exact Nat.lt_succ_of_lt (h.spaces q d hd)
  · exact (hkernel s.shared).mpr h.shared
  · intro i hi
    show r.2.mem s.shared i = 0
    rw [hgrows.mem s.shared (by simp [h.shared]), h.entries i hi]

/-- A frame has been taken out of the pool and is in no address space. -/
theorem alloc (h : Inv cfg kernel s own free) {r : ℕ × PhysMem} (hr : s.phys.allocFrame = some r) :
    (own r.1).Idle ∧ r.2.mem = Function.update s.phys.mem r.1 (fun _ => 0) ∧
      ∃ free', Inv cfg kernel (s.setPhys r.2) (Function.update own r.1 .held) free' := by
  obtain ⟨hidle, -, hmem, free', hlayout⟩ := h.layout.alloc hr
  have hne : ∀ g, ¬ (own g).Idle → g ≠ r.1 := by
    rintro g hg rfl
    exact hg hidle
  refine ⟨hidle, hmem, free', h.setPhys hlayout ?_ ?_ ?_⟩
  · intro q d hd va hva
    obtain ⟨t, ht, he⟩ := h.wired q d hd va hva
    have ht' := hne t (by simp [ht])
    exact ⟨t, by rw [Function.update_of_ne ht', ht], by rw [hmem, Function.update_of_ne ht', he]⟩
  · exact fun g => hidle.update_iff (by simp) (by simp)
  · intro g hg
    rw [hmem, Function.update_of_ne (hne g (by simp [hg]))]

/-- A private page gets a new frame; the frame that it had, if any, is in no address space then. -/
theorem mapFrame (h : Inv cfg kernel s own free) (hd : s.pd p = some d) (hva : cfg.Private va)
    (hr : s.mapFrame d va = some t) :
    ∃ f own' free', t.pd = s.pd ∧ t.spaces = s.spaces ∧ Inv cfg kernel t own' free' ∧ (own f).Idle ∧
      own' f = .data p (pdiOf va) (ptiOf va) ∧
      ∀ g, g ≠ f → own' g = own g ∨ ((own g).Idle ∧ own' g = .table p (pdiOf va)) ∨
        own g = .data p (pdiOf va) (ptiOf va) ∧ own' g = .held := by
  obtain ⟨hlo, hhi, hmod, ha⟩ := hva
  obtain ⟨hpdi, hpdi'⟩ := pdiOf_private hlo hhi
  rw [← pageAt_of hmod] at ha
  obtain ⟨a, hal, hr⟩ := Option.bind_eq_some_iff.mp hr
  obtain ⟨m', hm', hr⟩ := Option.bind_eq_some_iff.mp hr
  obtain rfl : s.setPhys m' = t := Option.some.inj hr
  obtain ⟨hidle, hmem, free₁, halloc⟩ := h.alloc hal
  obtain ⟨own', free', hlayout, hremaps, hdata, hheld⟩ :=
    halloc.layout.mapPage hd hpdi hpdi' ha (Function.update_self ..) rfl hm'
  refine ⟨a.1, own', free', rfl, rfl, halloc.remapsPage hlayout hremaps ha, hidle, hdata, ?_⟩
  intro g hg
  have hsame : Function.update own a.1 .held g = own g := Function.update_of_ne hg ..
  have howner := hremaps.owner g
  rw [hsame] at howner
  rcases howner with howner | howner | howner | ⟨hheld', hdata'⟩
  · exact .inl howner
  · exact .inr (.inl howner)
  · exact .inr (.inr howner)
  · obtain rfl := hlayout.trees.unique_page hdata hdata'
    exact absurd rfl hg

/-- A private page is given back. -/
theorem unmap (h : Inv cfg kernel s own free) (hd : s.pd p = some d) (hva : cfg.Private va) :
    ∃ m own' free', s.phys.unmap d va = some m ∧ Inv cfg kernel (s.setPhys m) own' free' ∧
      (∀ g, own' g = if own g = .data p (pdiOf va) (ptiOf va) then .free else own g) ∧
      ∀ g, own g = .kernel ∨ (∃ q, own g = .dir q) → m.mem g = s.phys.mem g := by
  obtain ⟨hlo, hhi, hmod, ha⟩ := hva
  obtain ⟨hpdi, hpdi'⟩ := pdiOf_private hlo hhi
  rw [← pageAt_of hmod] at ha
  obtain ⟨m, own', free', hm, hlayout, hown, hmem, hkept⟩ := h.layout.unmapPage hd hpdi hpdi' ha
  refine ⟨m, own', free', hm, h.setPhys hlayout ?_ ?_ fun g hg => hkept g (.inl hg), hown, hkept⟩
  · intro q d hd va' hva'
    obtain ⟨t, ht, he⟩ := h.wired q d hd va' hva'
    refine ⟨t, by rw [hown]; simp [ht], ?_⟩
    show m.mem t (ptiOf va') = va' ||| 7
    rw [hmem t q _ _ ht, he]
    rintro ⟨-, hi, hj⟩
    rw [← hi, ← hj, hva'.pageAt] at ha
    exact ha hva'
  · intro g
    rw [hown]
    grind

/-- A process stores to a page of its own. -/
theorem store (h : Inv cfg kernel s own free) (hf : own f = .data p i j) (k v : ℕ) :
    Inv cfg kernel (s.setPhys (s.phys.store f k v)) own free := by
  refine h.setPhys ⟨h.layout.pool.store (by simp [hf]), h.layout.trees.congr (fun g => .inl rfl) ?_⟩ ?_
    (fun _ => Iff.rfl) ?_
  · intro g _ hg
    apply Function.update_of_ne
    rintro rfl
    exact hg p i j hf
  · intro q d hd va hva
    obtain ⟨t, ht, he⟩ := h.wired q d hd va hva
    refine ⟨t, ht, ?_⟩
    rw [store_stored, if_neg, he]
    rintro ⟨rfl, -⟩
    rw [hf] at ht
    cases ht
  · intro g hg
    apply Function.update_of_ne
    rintro rfl
    rw [hf] at hg
    cases hg

/-- A process is gone: its directory and its tables have been given back. -/
theorem reap (h : Inv cfg kernel s own free) (hd : s.pd p = some d) :
    ∃ m free', s.phys.deletePd d = some m ∧
      Inv cfg kernel { s with phys := m, pd := Function.update s.pd p none } (fun g => (own g).reaped p) free' ∧
      ∀ g, own g ≠ .dir p → (∀ i, own g ≠ .table p i) → m.mem g = s.phys.mem g := by
  obtain ⟨m, free', hm, hlayout, hmem⟩ := h.layout.deletePd hd
  have hkernel : ∀ g, (own g).reaped p = .kernel ↔ own g = .kernel := by
    intro g
    cases own g <;> simp only [Owner.reaped] <;> split_ifs <;> simp
  refine ⟨m, free', hm, ⟨hlayout, ?_, fun g => (hkernel g).trans (h.kernel g), ?_, (hkernel s.shared).mpr h.shared, ?_⟩,
    hmem⟩
  · intro q e he va hva
    obtain ⟨hq, he⟩ := pd_of_reaped he
    obtain ⟨t, ht, hw⟩ := h.wired q e he va hva
    refine ⟨t, by simp [ht, Owner.reaped, hq], ?_⟩
    show m.mem t (ptiOf va) = va ||| 7
    rw [hmem t (by simp [ht]) (by simp [ht, hq]), hw]
  · intro q e he
    exact h.spaces q e (pd_of_reaped he).2
  · intro i hi
    show m.mem s.shared i = 0
    rw [hmem s.shared (by simp [h.shared]) (by simp [h.shared]), h.entries i hi]

end Inv
end Vm
end AudioKernel
