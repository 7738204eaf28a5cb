import AudioKernel.Vm.ForkCopies

/-! Address spaces are isolated from the pool of frames and from each other. -/
namespace AudioKernel
open Lib PhysMem VmConfig

/-- The calls that make, change and give up address spaces. -/
inductive SpaceAct
  | create
  | pageFault (p va : ℕ)
  | mapFrame (p va : ℕ)
  /-- `map` of a controller's page to itself -/
  | mapApic (p va : ℕ)
  | unmap (p va : ℕ)
  | store (p va i v : ℕ)
  | reap (p : ℕ)

/-- What a process uses a frame for. -/
inductive Use
  | dir (p : ℕ)
  | table (p i : ℕ)
  | page (p va : ℕ)

def Use.owner : Use → Owner
  | dir p => .dir p
  | table p i => .table p i
  | page p va => .data p (pdiOf va) (ptiOf va)

namespace Vm

def spaceStep (cfg : VmConfig) (s : Vm) : SpaceAct → Option Vm
  | .create => s.step cfg .create
  | .pageFault p va => s.step cfg (.pageFault p va)
  | .mapFrame p va => s.step cfg (.mapFrame p va)
  | .mapApic p va => do
    let d ← s.pd p
    if cfg.Apic va then (s.phys.map d va va).map s.setPhys else none
  | .unmap p va => s.step cfg (.unmap p va)
  | .store p va i v => s.step cfg (.store p va i v)
  | .reap p => s.step cfg (.reap p)

/-- The kernel has booted, and its directory leads to tables of its own. -/
structure Started (cfg : VmConfig) (s : Vm) : Prop extends Booted cfg s where
  low : ∀ i, i < 512 → s.phys.mem s.shared i = 0 ∨
    ∃ t, s.phys.mem s.shared i = t ||| 7 ∧ t % 4096 = 0 ∧ VMM_FRAMES ≤ t ∧ t < s.phys.avail

end Vm

def spaceMachine (cfg : VmConfig) : Machine Vm SpaceAct where
  init := Vm.Started cfg
  enabled s a := (s.spaceStep cfg a).isSome = true
  next s a := (s.spaceStep cfg a).getD s

instance (cfg : VmConfig) (s : Vm) (a : SpaceAct) : Decidable ((spaceMachine cfg).enabled s a) :=
  inferInstanceAs (Decidable (_ = true))

namespace Vm

/-- The frame `f` is in use for `u` in the directory of a process that lives. -/
def Uses (cfg : VmConfig) (s : Vm) (f : ℕ) : Use → Prop
  | .dir p => s.pd p = some f
  | .table p i => ∃ d, s.pd p = some d ∧ 512 ≤ i ∧ i < 1024 ∧ present (s.phys.mem d i) = true ∧
      frameOf (s.phys.mem d i) = f
  | .page p va => cfg.Private va ∧ s.lookup p va = some f

/-- `m'` translates page `va` of directory `d` to `r`, and every other page of every directory as `m` does. -/
def Retranslates (s : Vm) (m m' : PhysMem) (d va : ℕ) (r : Option ℕ) : Prop :=
  m'.lookup d va = r ∧ ∀ e va', s.Directory e → va' < 2 ^ 32 → va' % 4096 = 0 → ¬ (e = d ∧ va' = va) →
    m'.lookup e va' = m.lookup e va'

structure Isolated (cfg : VmConfig) (s : Vm) : Prop where
  free : ∀ f, s.Free f → (∀ u, ¬ s.Uses cfg f u) ∧ ∀ p va, InPrivate va → s.lookup p va ≠ some f
  once : ∀ f u u', s.Uses cfg f u → s.Uses cfg f u' → u = u'
  map : ∀ p d va f m m', s.pd p = some d → cfg.Private va → s.phys.allocFrame = some (f, m) → m.map d va f = some m' →
    s.Retranslates s.phys m' d va (some f) ∧ s.Retranslates m m' d va (some f)
  mapApic : ∀ p d va m, s.pd p = some d → cfg.Apic va → s.phys.map d va va = some m →
    s.Retranslates s.phys m d va (some va)
  unmap : ∀ p d va m, s.pd p = some d → cfg.Private va → s.phys.unmap d va = some m → s.Retranslates s.phys m d va none

/-- Below private space, the directories lead to tables of the kernel. -/
def Low (s : Vm) (own : ℕ → Owner) : Prop :=
  ∀ e i, s.Directory e → i < 512 → s.phys.mem e i = 0 ∨ ∃ t, own t = .kernel ∧ s.phys.mem e i = t ||| 7

/-- `t` has the kernel's tables of `s`, and the directories of both have the lower halves that they have in `s`. -/
structure KeepsLow (own : ℕ → Owner) (s t : Vm) : Prop where
  kernel : ∀ g, own g = .kernel → t.phys.mem g = s.phys.mem g
  dirs : ∀ e i, s.Directory e → t.Directory e → i < 512 → t.phys.mem e i = s.phys.mem e i

variable {cfg : VmConfig} {kernel : ℕ → Prop} {s t : Vm} {a : SpaceAct} {own own' : ℕ → Owner} {free free' : List ℕ}
  {p q d e f g i j v va va' pa : ℕ} {m m' : PhysMem}

theorem lookup_of_pd (hd : s.pd p = some d) (va : ℕ) : s.lookup p va = s.phys.lookup d va := by
  unfold Vm.lookup
  rw [hd, Option.bind_some]

theorem pdiOf_low (hva : va < 0x80000000) : pdiOf va < 512 := by
  rw [pdiOf_eq]
  omega

namespace Inv

theorem owner_of_uses (h : Inv cfg kernel s own free) {u : Use} (hu : s.Uses cfg f u) : own f = u.owner := by
  cases u with
  | dir p => exact (h.layout.trees.dir f p).mpr hu
  | table p i =>
    obtain ⟨d, hd, hlo, hhi, hpresent, hframe⟩ := hu
    rcases h.layout.trees.table p d i hd hlo hhi with hzero | ⟨t, ht, he⟩
    · rw [hzero, present_zero] at hpresent
      cases hpresent
    · rw [he, h.layout.pool.frameOf_or (by simp [ht])] at hframe
      obtain rfl := hframe
      exact ht
  | page p va =>
    obtain ⟨hva, hl⟩ := hu
    obtain ⟨d, hd, -⟩ := Option.bind_eq_some_iff.mp hl
    exact (h.lookup_iff hd hva).mp hl

/-- What a directory translates a page to depends on the owners of the frames and on the lower half of the address
space only. -/
theorem lookup_eq (h : Inv cfg kernel s own free) (h' : Inv cfg kernel t own' free') (hlow : s.Low own)
    (hkeep : KeepsLow own s t) (hva : va < 2 ^ 32) (hmod : va % 4096 = 0)
    (he : e = s.shared ∧ e = t.shared ∨ ∃ q, s.pd q = some e ∧ t.pd q = some e ∧
      ∀ g, own' g = .data q (pdiOf va) (ptiOf va) ↔ own g = .data q (pdiOf va) (ptiOf va)) :
    t.phys.lookup e va = s.phys.lookup e va := by
  by_cases hlo : 0x80000000 ≤ va
  · have hpdi := (pdiOf_private hlo hva).1
    rcases he with ⟨he, he'⟩ | ⟨q, hq, hq', hdata⟩
    · have hzero : s.phys.mem e (pdiOf va) = 0 := by rw [he, h.entries _ hpdi]
      have hzero' : t.phys.mem e (pdiOf va) = 0 := by rw [he', h'.entries _ hpdi]
      simp [PhysMem.lookup, hzero, hzero']
    · rw [← lookup_of_pd hq, ← lookup_of_pd hq']
      rcases private_or_apic cfg ⟨hlo, hva, hmod⟩ with hp | ha
      · ext g
        rw [h.lookup_iff hq hp, h'.lookup_iff hq' hp, hdata]
      · rw [h.lookup_apic hq ha, h'.lookup_apic hq' ha]
  · have hpdi : pdiOf va < 512 := pdiOf_low (by omega)
    have hdir : s.Directory e ∧ t.Directory e := by
      rcases he with ⟨he, he'⟩ | ⟨q, hq, hq', -⟩
      · exact ⟨.inl he, .inl he'⟩
      · exact ⟨.inr ⟨q, hq⟩, .inr ⟨q, hq'⟩⟩
    have hword := hkeep.dirs e _ hdir.1 hdir.2 hpdi
    unfold PhysMem.lookup
    rcases hlow e _ hdir.1 hpdi with hzero | ⟨tb, htb, hentry⟩
    · simp [hword, hzero]
    · simp only [hword, hentry, h.layout.pool.frameOf_or (f := tb) (by simp [htb]), hkeep.kernel tb htb]

theorem isolated_free (h : Inv cfg kernel s own free) (hf : s.Free f) :
    (∀ u, ¬ s.Uses cfg f u) ∧ ∀ p va, InPrivate va → s.lookup p va ≠ some f := by
  have hfree := h.free_iff.mp hf
  constructor
  · intro u hu
    have hown := h.owner_of_uses hu
    rw [hfree] at hown
    cases u <;> cases hown
  · intro p va hva hl
    obtain ⟨d, hd, -⟩ := Option.bind_eq_some_iff.mp hl
    rcases private_or_apic cfg hva with hp | ha
    · rw [h.lookup_iff hd hp, hfree] at hl
      cases hl
    · rw [h.lookup_apic hd ha] at hl
      obtain rfl := Option.some.inj hl
      have hlt := h.frame_lt (f := va) (by simp [hfree])
      exact absurd hva.1 (Nat.not_le_of_lt hlt)

theorem isolated_once (h : Inv cfg kernel s own free) {u u' : Use} (hu : s.Uses cfg f u) (hu' : s.Uses cfg f u') :
    u = u' := by
  have hown := (h.owner_of_uses hu).symm.trans (h.owner_of_uses hu')
  cases u with
  | dir p =>
    cases u' <;> simp only [Use.owner, reduceCtorEq, Owner.dir.injEq] at hown
    rw [hown]
  | table p i =>
    cases u' <;> simp only [Use.owner, reduceCtorEq, Owner.table.injEq] at hown
    rw [hown.1, hown.2]
  | page p va =>
    cases u' <;> simp only [Use.owner, reduceCtorEq, Owner.data.injEq] at hown
    rw [hown.1, ← pageAt_of hu.1.2.2.1, ← pageAt_of hu'.1.2.2.1, hown.2.1, hown.2.2]

/-- A frame that is taken is in no address space. -/
theorem alloc_low (h : Inv cfg kernel s own free) {r : ℕ × PhysMem} (hr : s.phys.allocFrame = some r) :
    KeepsLow own s (s.setPhys r.2) := by
  obtain ⟨hidle, hmem, -⟩ := h.alloc hr
  have hkept : ∀ g, ¬ (own g).Idle → r.2.mem g = s.phys.mem g := by
    intro g hg
    rw [hmem, Function.update_of_ne]
    rintro rfl
    exact hg hidle
  refine ⟨fun g hg => hkept g (by simp [hg]), ?_⟩
  rintro e i (rfl | ⟨q, hq⟩) - -
  · exact congrFun (hkept _ (by simp [h.shared])) i
  · exact congrFun (hkept e (by simp [(h.layout.trees.dir e q).mpr hq])) i

theorem map_low (h : Inv cfg kernel s own free) (hd : s.pd p = some d) (hva : InPrivate va)
    (hr : s.phys.map d va pa = some m) (hremaps : Remaps p (pdiOf va) (ptiOf va) s.phys m own own') :
    KeepsLow own s (s.setPhys m) := by
  obtain ⟨hlo, hhi⟩ := pdiOf_private hva.1 hva.2.1
  have hkernel : ∀ g, own g = .kernel → m.mem g = s.phys.mem g :=
    fun g hg => hremaps.mem g (by simp [hg]) (by simp [hg]) (by simp [hg])
  refine ⟨hkernel, ?_⟩
  rintro e i (rfl | ⟨q, hq⟩) - hi
  · exact congrFun (hkernel _ h.shared) i
  · exact h.layout.map_low hd hlo hhi hr hq hi

/-- `map` changes the translation of one page. -/
theorem map_retranslates (h : Inv cfg kernel s own free) (h' : Inv cfg kernel (s.setPhys m) own' free') (hlow : s.Low own)
    (hd : s.pd p = some d) (hva : InPrivate va) (hr : s.phys.map d va pa = some m)
    (hremaps : Remaps p (pdiOf va) (ptiOf va) s.phys m own own') (hl : m.lookup d va = some f) :
    s.Retranslates s.phys m d va (some f) := by
  refine ⟨hl, ?_⟩
  intro e va' he hhi hmod hne
  refine h.lookup_eq h' hlow (h.map_low hd hva hr hremaps) hhi hmod ?_
  rcases he with he | ⟨q, hq⟩
  · exact .inl ⟨he, he⟩
  · refine .inr ⟨q, hq, hq, ?_⟩
    intro g
    have hother : ¬ (q = p ∧ pdiOf va' = pdiOf va ∧ ptiOf va' = ptiOf va) := by
      rintro ⟨rfl, hi, hj⟩
      apply hne
      rw [hq] at hd
      exact ⟨Option.some.inj hd, by rw [← pageAt_of hmod, hi, hj, pageAt_of hva.2.2]⟩
    have := hremaps.owner g
    grind [Owner.Idle]

/-- The lower halves of the directories after a change that leaves them alone. -/
theorem keep_low (h : Inv cfg kernel s own free) (h' : Inv cfg kernel t own' free') (hlow : s.Low own)
    (hkeep : KeepsLow own s t) (hdir : ∀ e, t.Directory e → s.Directory e) : t.Low own' := by
  intro e i he hi
  rw [hkeep.dirs e i (hdir e he) he hi]
  rcases hlow e i (hdir e he) hi with hzero | ⟨tb, htb, hentry⟩
  · exact .inl hzero
  · exact .inr ⟨tb, (h'.kernel tb).mpr ((h.kernel tb).mp htb), hentry⟩

/-- The two steps in which a page gets a new frame. -/
theorem mapFrame_steps (h : Inv cfg kernel s own free) (hlow : s.Low own) (hd : s.pd p = some d) (hva : cfg.Private va)
    (halloc : s.phys.allocFrame = some (f, m)) (hmap : m.map d va f = some m') :
    ∃ own₁ free₁ own' free', Inv cfg kernel (s.setPhys m) own₁ free₁ ∧ (s.setPhys m).Low own₁ ∧
      Inv cfg kernel (s.setPhys m') own' free' ∧ (s.setPhys m').Low own' ∧
      (∀ g q i j, own₁ g = .data q i j ↔ own g = .data q i j) ∧
      Remaps p (pdiOf va) (ptiOf va) m m' own₁ own' ∧ m'.lookup d va = some f := by
  obtain ⟨hpdi, hpdi'⟩ := pdiOf_private hva.1 hva.2.1
  have ha := hva.2.2.2
  rw [← pageAt_of hva.2.2.1] at ha
  obtain ⟨hidle, -, free₁, h₁⟩ := h.alloc halloc
  have hlow₁ := h.keep_low h₁ hlow (h.alloc_low halloc) fun _ he => he
  obtain ⟨own', free', hlayout, hremaps, hdata, -⟩ :=
    h₁.layout.mapPage hd hpdi hpdi' ha (Function.update_self ..) rfl hmap
  have h' := h₁.remapsPage hlayout hremaps ha
  have hkeep := h₁.map_low (s := s.setPhys m) hd ⟨hva.1, hva.2.1, hva.2.2.1⟩ hmap hremaps
  have hl := (h'.lookup_iff (s := s.setPhys m') hd hva).mpr hdata
  rw [lookup_of_pd (s := s.setPhys m') hd] at hl
  exact ⟨_, free₁, own', free', h₁, hlow₁, h', h₁.keep_low h' hlow₁ hkeep fun _ he => he,
    fun g q i j => hidle.update_iff (by simp) (by simp), hremaps, hl⟩

theorem isolated_map (h : Inv cfg kernel s own free) (hlow : s.Low own) (hd : s.pd p = some d) (hva : cfg.Private va)
    (halloc : s.phys.allocFrame = some (f, m)) (hmap : m.map d va f = some m') :
    s.Retranslates s.phys m' d va (some f) ∧ s.Retranslates m m' d va (some f) := by
  obtain ⟨own₁, free₁, own', free', h₁, hlow₁, h', -, hdata, hremaps, hl⟩ := h.mapFrame_steps hlow hd hva halloc hmap
  have hva' : InPrivate va := ⟨hva.1, hva.2.1, hva.2.2.1⟩
  have hmapped : s.Retranslates m m' d va (some f) :=
    h₁.map_retranslates (s := s.setPhys m) h' hlow₁ hd hva' hmap hremaps hl
  refine ⟨⟨hl, ?_⟩, hmapped⟩
  intro e va' he hhi hmod hne
  rw [hmapped.2 e va' he hhi hmod hne]
  refine h.lookup_eq (t := s.setPhys m) h₁ hlow (h.alloc_low halloc) hhi hmod ?_
  rcases he with he | ⟨q, hq⟩
  · exact .inl ⟨he, he⟩
  · exact .inr ⟨q, hq, hq, fun g => hdata g q _ _⟩

/-- A controller's page is mapped once more. -/
theorem mapApic_step (h : Inv cfg kernel s own free) (hlow : s.Low own) (hd : s.pd p = some d) (hva : cfg.Apic va)
    (hr : s.phys.map d va va = some m) :
    ∃ own' free', Inv cfg kernel (s.setPhys m) own' free' ∧ (s.setPhys m).Low own' ∧
      s.Retranslates s.phys m d va (some va) := by
  have hva' : InPrivate va := hva.bounds
  obtain ⟨own', free', h', hremaps, -⟩ := h.wire hd hva rfl hr
  have hl := h'.lookup_apic (s := s.setPhys m) hd hva
  rw [lookup_of_pd (s := s.setPhys m) hd] at hl
  exact ⟨own', free', h', h.keep_low h' hlow (h.map_low hd hva' hr hremaps) fun _ he => he,
    h.map_retranslates h' hlow hd hva' hr hremaps hl⟩

/-- A page is unmapped. -/
theorem unmap_step (h : Inv cfg kernel s own free) (hlow : s.Low own) (hd : s.pd p = some d) (hva : cfg.Private va)
    (hr : s.phys.unmap d va = some m) :
    ∃ own' free', Inv cfg kernel (s.setPhys m) own' free' ∧ (s.setPhys m).Low own' ∧
      s.Retranslates s.phys m d va none := by
  obtain ⟨m', own', free', hm, h', hown, hkept⟩ := h.unmap hd hva
  obtain rfl : m' = m := Option.some.inj (hm.symm.trans hr)
  have hkeep : KeepsLow own s (s.setPhys m') := by
    refine ⟨fun g hg => hkept g (.inl hg), ?_⟩
    rintro e i (rfl | ⟨q, hq⟩) - -
    · exact congrFun (hkept _ (.inl h.shared)) i
    · exact congrFun (hkept e (.inr ⟨q, (h.layout.trees.dir e q).mpr hq⟩)) i
  refine ⟨own', free', h', h.keep_low h' hlow hkeep fun _ he => he, ?_, ?_⟩
  · have hl := lookup_of_pd (s := s.setPhys m') hd va
    refine hl.symm.trans (Option.eq_none_iff_forall_ne_some.mpr ?_)
    intro g hg
    rw [h'.lookup_iff (s := s.setPhys m') hd hva, hown] at hg
    split_ifs at hg with hdata
    exact hdata hg
  · intro e va' he hhi hmod hne
    refine h.lookup_eq h' hlow hkeep hhi hmod ?_
    rcases he with he | ⟨q, hq⟩
    · exact .inl ⟨he, he⟩
    · refine .inr ⟨q, hq, hq, ?_⟩
      intro g
      have hother : ¬ (q = p ∧ pdiOf va' = pdiOf va ∧ ptiOf va' = ptiOf va) := by
        rintro ⟨rfl, hi, hj⟩
        apply hne
        rw [hq] at hd
        exact ⟨Option.some.inj hd, by rw [← pageAt_of hmod, hi, hj, pageAt_of hva.2.2.1]⟩
      rw [hown]
      split_ifs with hg
      · rw [hg]
        simp only [Owner.data.injEq, false_iff]
        tauto
      · rfl

theorem isolated (h : Inv cfg kernel s own free) (hlow : s.Low own) : s.Isolated cfg where
  free _ hf := h.isolated_free hf
  once _ _ _ hu hu' := h.isolated_once hu hu'
  map _ _ _ _ _ _ hd hva halloc hmap := h.isolated_map hlow hd hva halloc hmap
  mapApic _ _ _ _ hd hva hr := by
    obtain ⟨-, -, -, -, hmapped⟩ := h.mapApic_step hlow hd hva hr
    exact hmapped
  unmap _ _ _ _ hd hva hr := by
    obtain ⟨-, -, -, -, hunmapped⟩ := h.unmap_step hlow hd hva hr
    exact hunmapped

/-- A new directory begins with the entries of the kernel's. -/
theorem create_step (h : Inv cfg kernel s own free) (hlow : s.Low own) (hr : s.create cfg = some t) :
    ∃ own' free', Inv cfg kernel t own' free' ∧ t.Low own' := by
  obtain ⟨d, own', free', hpd, -, h', hgrows, -, hentries⟩ := h.create hr
  obtain ⟨r, -, rfl⟩ := Option.map_eq_some_iff.mp hr
  have hkernel : ∀ tb, own tb = .kernel → own' tb = .kernel := fun tb htb => (h'.kernel tb).mpr ((h.kernel tb).mp htb)
  have hold : ∀ e i, s.Directory e → i < 512 → r.2.mem e i = 0 ∨ ∃ tb, own' tb = .kernel ∧ r.2.mem e i = tb ||| 7 := by
    intro e i he hi
    have hidle : ¬ (own e).Idle := by
      rcases he with rfl | ⟨q, hq⟩
      · simp [h.shared]
      · simp [(h.layout.trees.dir e q).mpr hq]
    have hmem := hgrows.mem e hidle
    dsimp only at hmem
    rw [hmem]
    rcases hlow e i he hi with hzero | ⟨tb, htb, hentry⟩
    · exact .inl hzero
    · exact .inr ⟨tb, hkernel tb htb, hentry⟩
  refine ⟨own', free', h', ?_⟩
  rintro e i (rfl | ⟨q, hq⟩) hi
  · exact hold _ i (.inl rfl) hi
  · by_cases hnew : q = s.spaces
    · have hqd := hq
      rw [hnew, hpd, Function.update_self] at hq
      obtain rfl := Option.some.inj hq
      by_cases hi' : i < cfg.sharedEntries
      · rw [hentries i hi']
        rcases hlow s.shared i (.inl rfl) hi with hzero | ⟨tb, htb, hentry⟩
        · exact .inl hzero
        · exact .inr ⟨tb, hkernel tb htb, hentry⟩
      · exact .inl (h'.layout.trees.gap q d i hqd (Nat.le_of_not_lt hi') hi)
    · rw [hpd, Function.update_of_ne hnew] at hq
      exact hold e i (.inr ⟨q, hq⟩) hi

theorem mapFrame_step (h : Inv cfg kernel s own free) (hlow : s.Low own) (hd : s.pd p = some d) (hva : cfg.Private va)
    (hr : s.mapFrame d va = some t) : ∃ own' free', Inv cfg kernel t own' free' ∧ t.Low own' := by
  obtain ⟨⟨f, m⟩, halloc, hr⟩ := Option.bind_eq_some_iff.mp hr
  obtain ⟨m', hmap, hr⟩ := Option.bind_eq_some_iff.mp hr
  obtain rfl : s.setPhys m' = t := Option.some.inj hr
  obtain ⟨-, -, own', free', -, -, h', hlow', -⟩ := h.mapFrame_steps hlow hd hva halloc hmap
  exact ⟨own', free', h', hlow'⟩

/-- Every call keeps the lower halves of the directories. -/
theorem spaceStep (h : Inv cfg kernel s own free) (hlow : s.Low own) (hr : s.spaceStep cfg a = some t) :
    ∃ own' free', Inv cfg kernel t own' free' ∧ t.Low own' := by
  cases a with
  | create => exact h.create_step hlow hr
  | pageFault p va =>
    obtain ⟨d, hd, hr⟩ := Option.bind_eq_some_iff.mp hr
    split_ifs at hr with hguard
    obtain ⟨hhi, hnone⟩ := hguard
    unfold Vm.pageFault at hr
    dsimp only at hr
    split_ifs at hr with hlo
    have hdown := framedown_eq va
    exact h.mapFrame_step hlow hd (h.private_of_unmapped hd hlo (by omega) (by omega) hnone) hr
  | mapFrame p va =>
    obtain ⟨d, hd, hr⟩ := Option.bind_eq_some_iff.mp hr
    split_ifs at hr with hva
    exact h.mapFrame_step hlow hd hva hr
  | mapApic p va =>
    obtain ⟨d, hd, hr⟩ := Option.bind_eq_some_iff.mp hr
    split_ifs at hr with hva
    obtain ⟨m, hm, rfl⟩ := Option.map_eq_some_iff.mp hr
    obtain ⟨own', free', h', hlow', -⟩ := h.mapApic_step hlow hd hva hm
    exact ⟨own', free', h', hlow'⟩
  | unmap p va =>
    obtain ⟨d, hd, hr⟩ := Option.bind_eq_some_iff.mp hr
    split_ifs at hr with hva
    obtain ⟨m, hm, rfl⟩ := Option.map_eq_some_iff.mp hr
    obtain ⟨own', free', h', hlow', -⟩ := h.unmap_step hlow hd hva hm
    exact ⟨own', free', h', hlow'⟩
  | store p va i v =>
    simp only [Vm.spaceStep, Vm.step] at hr
    split_ifs at hr with hguard
    obtain ⟨f, hf, rfl⟩ := Option.map_eq_some_iff.mp hr
    obtain ⟨d, hd, -⟩ := Option.bind_eq_some_iff.mp hf
    have hdata := (h.lookup_iff hd hguard.1).mp hf
    have hkept : ∀ g, own g ≠ own f → (s.phys.store f i v).mem g = s.phys.mem g := by
      intro g hg
      apply Function.update_of_ne
      rintro rfl
      exact hg rfl
    refine ⟨own, free, h.store hdata i v, h.keep_low (h.store hdata i v) hlow ⟨?_, ?_⟩ fun _ he => he⟩
    · exact fun g hg => hkept g (by simp [hg, hdata])
    · rintro e k (rfl | ⟨q, hq⟩) - -
      · exact congrFun (hkept _ (by simp [h.shared, hdata])) k
      · exact congrFun (hkept e (by simp [(h.layout.trees.dir e q).mpr hq, hdata])) k
  | reap p =>
    obtain ⟨d, hd, hr⟩ := Option.bind_eq_some_iff.mp hr
    obtain ⟨m, free', hm, h', hmem⟩ := h.reap hd
    rw [hm] at hr
    obtain rfl := Option.some.inj hr
    refine ⟨_, free', h', h.keep_low h' hlow ⟨?_, ?_⟩ ?_⟩
    · exact fun g hg => hmem g (by simp [hg]) (by simp [hg])
    · rintro e i - (rfl | ⟨q, hq⟩) -
      · exact congrFun (hmem _ (by simp [h.shared]) (by simp [h.shared])) i
      · obtain ⟨hne, hq⟩ := pd_of_reaped hq
        have hown := (h.layout.trees.dir e q).mpr hq
        exact congrFun (hmem e (by simp [hown, hne]) (by simp [hown])) i
    · rintro e (rfl | ⟨q, hq⟩)
      · exact .inl rfl
      · exact .inr ⟨q, (pd_of_reaped hq).2⟩

end Inv

theorem Started.low_bootOwner (h : Started cfg s) : s.Low s.bootOwner := by
  rintro e i (rfl | ⟨q, hq⟩) hi
  · rcases h.low i hi with hzero | ⟨tb, hentry, hmod, hlo, hlt⟩
    · exact .inl hzero
    · exact .inr ⟨tb, if_pos ⟨hmod, hlo, hlt⟩, hentry⟩
  · rw [h.none q] at hq
    cases hq

/-- What `boot` leads to is an initial state. -/
theorem boot_started {mem : ℕ → ℕ → ℕ} (hmem : VMM_FRAMES ≤ cfg.memSize) (h : boot cfg mem = some s) :
    Started cfg s := by
  refine ⟨boot_booted hmem h, ?_⟩
  obtain ⟨hbooting, hshared, -⟩ := boot_booting hmem h
  intro i hi
  rw [hshared]
  rcases hbooting.low i hi with hzero | ⟨tb, hentry, hmod, hlo, hlt⟩
  · exact .inl hzero
  · exact .inr ⟨tb, hentry, hmod, hlo.le, hlt⟩

/-- In every state that the calls lead to, address spaces are isolated; and what `boot` leads to is such a state. -/
theorem isolated_of_reachable (cfg : VmConfig) :
    (∀ s, (spaceMachine cfg).Reachable s → s.Isolated cfg) ∧
      ∀ mem s, VMM_FRAMES ≤ cfg.memSize → boot cfg mem = some s → (spaceMachine cfg).Reachable s := by
  refine ⟨fun s hs => ?_, fun mem s hmem hboot => .init (boot_started hmem hboot)⟩
  have hinv : ∃ kernel own free, Inv cfg kernel s own free ∧ s.Low own := by
    apply hs.invariant
    · intro s h
      exact ⟨_, _, _, h.toBooted.inv, h.low_bootOwner⟩
    · rintro s a ⟨kernel, own, free, h, hlow⟩ he
      obtain ⟨t, ht⟩ := Option.isSome_iff_exists.mp he
      obtain ⟨own', free', h', hlow'⟩ := h.spaceStep hlow ht
      have hnext : (spaceMachine cfg).next s a = t := by
        show (s.spaceStep cfg a).getD s = t
        rw [ht, Option.getD_some]
      rw [hnext]
      exact ⟨kernel, own', free', h', hlow'⟩
  obtain ⟨kernel, own, free, h, hlow⟩ := hinv
  exact h.isolated hlow

theorem booted_started (hmem : VMM_FRAMES + (cfg.sharedEntries + 1) * FRAME_SIZE ≤ cfg.memSize)
    (halign : cfg.memSize % 4096 = 0) : Started cfg (booted cfg) := by
  refine ⟨booted_booted hmem halign, ?_⟩
  intro i hi
  show kernelMem cfg VMM_FRAMES i = 0 ∨ ∃ t, kernelMem cfg VMM_FRAMES i = t ||| 7 ∧ t % 4096 = 0 ∧ VMM_FRAMES ≤ t ∧
    t < VMM_FRAMES + (cfg.sharedEntries + 1) * FRAME_SIZE
  rw [kernelMem, if_neg (lt_irrefl _), if_pos rfl]
  split_ifs with hshared
  · refine .inr ⟨_, rfl, ?_⟩
    unfold VMM_FRAMES FRAME_SIZE
    omega
  · exact .inl rfl

/-- Two processes; the page that the first gives back becomes a page of the second, at another address. -/
theorem isolated_pc128M : ∃ s, (spaceMachine pc128M).Reachable s ∧ s.lookup 0 0x80000000 = none ∧
    s.lookup 1 0x90000000 = some 0x625000 ∧ s.Isolated pc128M := by
  have hrun : ∃ s, (spaceMachine pc128M).Run (booted pc128M)
      [.create, .create, .pageFault 0 0x80000123, .unmap 0 0x80000000, .mapApic 1 0xFEC00000, .mapFrame 1 0x90000000] s ∧
      (s.lookup 0 0x80000000 == none && s.lookup 1 0x90000000 == some 0x625000) = true :=
    Machine.exists_run_of_replay (by decide +kernel)
  obtain ⟨s, hrun, hcheck⟩ := hrun
  obtain ⟨hnone, hsome⟩ := Bool.and_eq_true_iff.mp hcheck
  have hs := hrun.reachable (.init (booted_started (by decide) (by decide)))
  exact ⟨s, hs, beq_iff_eq.mp hnone, beq_iff_eq.mp hsome, (isolated_of_reachable pc128M).1 s hs⟩

end Vm
end AudioKernel
