import AudioKernel.Vm.Layout

/-! How address spaces are made and given up. -/
namespace AudioKernel
open Lib PhysMem

/-- The pages of the interrupt controllers are mapped to themselves. -/
def Wired (cfg : VmConfig) (mem : ℕ → ℕ → ℕ) (own : ℕ → Owner) (p : ℕ) : Prop :=
  ∀ va, cfg.Apic va → ∃ t, own t = .table p (pdiOf va) ∧ mem t (ptiOf va) = va ||| 7

variable {cfg : VmConfig} {m m' : PhysMem} {pd : ℕ → Option ℕ} {own own' : ℕ → Owner} {free : List ℕ}
  {p q d t f i j va pa : ℕ}

namespace VmConfig

theorem Apic.pdi (h : cfg.Apic va) : 512 ≤ pdiOf va ∧ pdiOf va < 1024 :=
  pdiOf_private h.bounds.1 h.bounds.2.1

theorem Apic.pageAt (h : cfg.Apic va) : pageAt (pdiOf va) (ptiOf va) = va := pageAt_of h.bounds.2.2

end VmConfig

theorem Remaps.table (h : Remaps p i j m m' own own') {k : ℕ} (ht : own t = .table q k) : own' t = .table q k := by
  have := h.owner t
  grind [Owner.Idle]

theorem Wired.remaps (h : Wired cfg m.mem own q) (hr : Remaps p i j m m' own own')
    (hsame : cfg.Apic (pageAt i j) → q = p → ∀ t, own t = .table p i → m'.mem t j = pageAt i j ||| 7) :
    Wired cfg m'.mem own' q := by
  intro va hva
  obtain ⟨t, ht, he⟩ := h va hva
  refine ⟨t, hr.table ht, ?_⟩
  by_cases hpage : q = p ∧ pdiOf va = i ∧ ptiOf va = j
  · obtain ⟨rfl, rfl, rfl⟩ := hpage
    rw [hva.pageAt] at hsame
    exact hsame hva rfl t ht
  · rw [hr.entries t q _ _ ht hpage, he]

/-- The frame that a controller's page is mapped to. -/
theorem Layout.lookup_apic (h : Layout cfg m pd own free) (hd : pd p = some d) (hw : Wired cfg m.mem own p)
    (hva : cfg.Apic va) : m.lookup d va = some va := by
  obtain ⟨t, ht, he⟩ := hw va hva
  have hde := h.trees.entry hd ht
  obtain ⟨-, hlt, hmod⟩ := hva.bounds
  unfold PhysMem.lookup
  simp only [hde, h.pool.present_or (f := t) (by simp [ht]), h.pool.frameOf_or (f := t) (by simp [ht]), if_true, he,
    PhysMem.present_or hmod, PhysMem.frameOf_or hmod hlt]

/-- The owners when a process gets a directory, with tables for the controllers' pages. -/
structure Grows (p d : ℕ) (m m' : PhysMem) (own own' : ℕ → Owner) : Prop where
  idle : (own d).Idle
  owner : ∀ g, own' g = own g ∨ ((own g).Idle ∧ (own' g = .dir p ∨ ∃ i, own' g = .table p i))
  mem : ∀ g, ¬ (own g).Idle → m'.mem g = m.mem g

theorem Grows.remaps {own₁ : ℕ → Owner} {m₁ : PhysMem} (h : Grows p d m m₁ own own₁)
    (hr : Remaps p i j m₁ m' own₁ own') (hno : ∀ g k, own g ≠ .dir p ∧ own g ≠ .table p k)
    (hheld : ∀ g, own' g = .held ↔ own₁ g = .held) : Grows p d m m' own own' where
  idle := h.idle
  owner g := by
    have := h.owner g
    have := hr.owner g
    have := hheld g
    grind
  mem g hg := by
    have hsame : own₁ g = own g := by
      rcases h.owner g with hsame | ⟨hidle, -⟩
      · exact hsame
      · exact absurd hidle hg
    rw [hr.mem g (by rwa [hsame]) (by rw [hsame]; exact (hno g 0).1) (by rw [hsame]; exact (hno g i).2), h.mem g hg]

/-- The pages of the controllers are mapped one after the other. -/
theorem Layout.wire (h : Layout cfg m pd own free) (hd : pd p = some d) (hva : cfg.Apic va)
    (hr : m.map d va va = some m') :
    ∃ own' free', Layout cfg m' pd own' free' ∧ Remaps p (pdiOf va) (ptiOf va) m m' own own' ∧
      (∃ t, own' t = .table p (pdiOf va) ∧ m'.mem t (ptiOf va) = va ||| 7) ∧ ∀ g, own' g = .held ↔ own g = .held := by
  have hpage := hva.pageAt
  have hmap := h.mapApic hd hva.pdi.1 hva.pdi.2 (by rwa [hpage]) (by rw [hpage]) hr
  rwa [hpage] at hmap

/-- A cleared frame that begins with the kernel's entries becomes a directory. -/
theorem Layout.newDir (h : Layout cfg m pd own free) (hp : pd p = none) {a : ℕ × PhysMem} (ha : m.allocFrame = some a)
    (words : ℕ → ℕ) (hwords : ∀ i, cfg.sharedEntries ≤ i → words i = a.2.mem a.1 i) :
    ∃ own' free', Layout cfg (a.2.fill a.1 words) (Function.update pd p (some a.1)) own' free' ∧
      Grows p a.1 m (a.2.fill a.1 words) own own' ∧ ∀ g, own' g = .held ↔ own g = .held := by
  obtain ⟨hidle, halign, hmem, free₁, halloc⟩ := h.alloc ha
  have hown : ∀ g, Function.update own a.1 (.dir p) g =
      if g = a.1 then .dir p else Function.update own a.1 .held g := by
    intro g
    simp only [Function.update_apply]
    split_ifs <;> rfl
  have hfilled : Trees cfg (a.2.fill a.1 words).mem pd (Function.update own a.1 .held) := by
    apply halloc.trees.congr fun g => .inl rfl
    intro g hg _
    apply Function.update_of_ne
    rintro rfl
    exact hg (by simp)
  refine ⟨Function.update own a.1 (.dir p), free₁, ⟨?_, ?_⟩, ⟨hidle, ?_, ?_⟩, ?_⟩
  · refine (halloc.pool.fill (by simp)).retag ?_ ?_ <;> intro g <;> simp only [Function.update_apply] <;>
      split_ifs <;> simp
  · refine hfilled.newDir hp (by simp) halign ?_ (fun q => Function.update_apply ..) hown
    intro i hi
    show Function.update a.2.mem a.1 words a.1 i = 0
    rw [Function.update_self, hwords i hi, hmem, Function.update_self]
  · intro g
    rw [Function.update_apply]
    split_ifs with hg
    · exact .inr ⟨hg ▸ hidle, .inl rfl⟩
    · exact .inl rfl
  · intro g hg
    have hne : g ≠ a.1 := by
      rintro rfl
      exact hg hidle
    show Function.update a.2.mem a.1 words g = m.mem g
    rw [Function.update_of_ne hne, hmem, Function.update_of_ne hne]
  · exact fun g => hidle.update_iff (by simp) (by simp)

/-- `make_pd` gives a process an address space that has the controllers' pages only. -/
theorem Layout.makePd (h : Layout cfg m pd own free) (hp : pd p = none) {shared : ℕ} {r : ℕ × PhysMem}
    (hr : m.makePd cfg shared = some r) :
    ∃ own' free', Layout cfg r.2 (Function.update pd p (some r.1)) own' free' ∧ Grows p r.1 m r.2 own own' ∧
      Wired cfg r.2.mem own' p ∧ (∀ g, own' g = .held ↔ own g = .held) ∧
      (own shared = .kernel → ∀ i, i < cfg.sharedEntries → r.2.mem r.1 i = m.mem shared i) := by
  have hno : ∀ g k, own g ≠ .dir p ∧ own g ≠ .table p k := by
    intro g k
    have hnot := h.trees.not_live (f := g) hp
    constructor <;> intro hg <;> rw [hg] at hnot <;> exact hnot rfl
  unfold PhysMem.makePd at hr
  obtain ⟨a, ha, hr⟩ := Option.bind_eq_some_iff.mp hr
  obtain ⟨m₁, hm₁, hr⟩ := Option.bind_eq_some_iff.mp hr
  obtain ⟨m₂, hm₂, hr⟩ := Option.bind_eq_some_iff.mp hr
  obtain rfl : (a.1, m₂) = r := Option.some.inj hr
  obtain ⟨own₀, free₀, hdir, hgrows, hheld₀⟩ := h.newDir hp ha
    (fun i => if i < cfg.sharedEntries then a.2.mem shared i else a.2.mem a.1 i)
    fun i hi => if_neg (Nat.not_lt_of_le hi)
  have hpd : Function.update pd p (some a.1) p = some a.1 := Function.update_self ..
  obtain ⟨own₁, free₁, hio, hremaps₁, ⟨t₁, ht₁, he₁⟩, hheld₁⟩ := hdir.wire hpd (.inl rfl) hm₁
  obtain ⟨own₂, free₂, hlocal, hremaps₂, ⟨t₂, ht₂, he₂⟩, hheld₂⟩ := hio.wire hpd (.inr rfl) hm₂
  refine ⟨own₂, free₂, hlocal, (hgrows.remaps hremaps₁ hno hheld₁).remaps hremaps₂ hno hheld₂, ?_, ?_, ?_⟩
  · rintro va (rfl | rfl)
    · refine ⟨t₁, hremaps₂.table ht₁, ?_⟩
      by_cases hsame : pdiOf cfg.ioAPIC = pdiOf cfg.localAPIC ∧ ptiOf cfg.ioAPIC = ptiOf cfg.localAPIC
      · have hva : cfg.ioAPIC = cfg.localAPIC := by
          have hio' : cfg.Apic cfg.ioAPIC := .inl rfl
          have hlocal' : cfg.Apic cfg.localAPIC := .inr rfl
          rw [← hio'.pageAt, hsame.1, hsame.2, hlocal'.pageAt]
        have ht : t₁ = t₂ := hlocal.trees.unique_table ht₂ (by rw [← hsame.1]; exact hremaps₂.table ht₁)
        rw [ht, hsame.2, he₂, hva]
      · rw [hremaps₂.entries t₁ p _ _ ht₁ (fun hk => hsame hk.2), he₁]
    · exact ⟨t₂, ht₂, he₂⟩
  · intro g
    rw [hheld₂, hheld₁, hheld₀]
  · intro hshared i hi
    have hle := cfg.sharedEntries_le
    have hio' : cfg.Apic cfg.ioAPIC := .inl rfl
    have hlocal' : cfg.Apic cfg.localAPIC := .inr rfl
    obtain ⟨hidle, -, hmem, -⟩ := h.alloc ha
    have hne : shared ≠ a.1 := by
      rintro rfl
      exact hidle.ne (by simp) hshared
    rw [hio.map_low hpd hlocal'.pdi.1 hlocal'.pdi.2 hm₂ hpd (by omega),
      hdir.map_low hpd hio'.pdi.1 hio'.pdi.2 hm₁ hpd (by omega)]
    show Function.update a.2.mem a.1 _ a.1 i = m.mem shared i
    rw [Function.update_self, if_pos hi, hmem, Function.update_of_ne hne]

namespace Owner

/-- Who has the frames of process `p` while `delete_pd` runs: entries below `n` have been given back. -/
def released (p n : ℕ) : Owner → Owner
  | .dir q => if q = p then .held else .dir q
  | .table q i => if q = p then (if i < n then .free else .held) else .table q i
  | .data q i j => if q = p then .held else .data q i j
  | o => o

def reaped (p : ℕ) : Owner → Owner
  | .dir q => if q = p then .free else .dir q
  | .table q i => if q = p then .free else .table q i
  | .data q i j => if q = p then .held else .data q i j
  | o => o

end Owner

/-- One entry of a directory that is given up. -/
theorem Layout.deleteEntry {own₀ : ℕ → Owner} {m₀ : PhysMem} {n : ℕ} (h₀ : Layout cfg m₀ pd own₀ free)
    (hd : pd p = some d) (hlo : 512 ≤ n) (hhi : n < 1024) {pd' : ℕ → Option ℕ} {free' : List ℕ}
    (h : Layout cfg m pd' (fun g => (own₀ g).released p n) free') (hdir : m.mem d = m₀.mem d) :
    ∃ m' free'', PhysMem.deleteEntry d n m = some m' ∧ Layout cfg m' pd' (fun g => (own₀ g).released p (n + 1)) free'' ∧
      ∀ g, (∀ i, own₀ g ≠ .table p i) → m'.mem g = m.mem g := by
  have hdd : own₀ d = .dir p := (h₀.trees.dir d p).mpr hd
  have hother : ∀ g, own₀ g ≠ .table p n → (own₀ g).released p (n + 1) = (own₀ g).released p n := by
    intro g hg
    unfold Owner.released
    cases hown : own₀ g with
    | table q i =>
      have hne : q = p → i ≠ n := by
        rintro rfl rfl
        exact hg hown
      dsimp only
      by_cases hq : q = p
      · have hlt : i < n + 1 ↔ i < n := by
          have := hne hq
          omega
        simp [hlt]
      · simp [hq]
    | _ => rfl
  unfold PhysMem.deleteEntry
  rw [hdir]
  rcases h₀.trees.table p d n hd hlo hhi with hzero | ⟨t, ht, he⟩
  · refine ⟨m, free', by simp [hzero], ?_, fun _ _ => rfl⟩
    have hsame : (fun g => (own₀ g).released p (n + 1)) = fun g => (own₀ g).released p n := by
      funext g
      exact hother g (h₀.trees.no_table hd hzero)
    rw [hsame]
    exact h
  · have hheld : (own₀ t).released p n = .held := by
      simp [ht, Owner.released]
    obtain ⟨m', hm', hlayout, hmem⟩ := h.dealloc hheld
    refine ⟨m', t :: free', ?_, ?_, ?_⟩
    · simp [he, h₀.pool.present_or (f := t) (by simp [ht]), h₀.pool.frameOf_or (f := t) (by simp [ht]), hm']
    · have hsame : (fun g => (own₀ g).released p (n + 1)) =
          Function.update (fun g => (own₀ g).released p n) t .free := by
        funext g
        by_cases hg : g = t
        · subst hg
          simp [ht, Owner.released]
        · rw [Function.update_of_ne hg]
          apply hother
          intro hgt
          exact hg (h₀.trees.unique_table ht hgt)
      rw [hsame]
      exact hlayout
    · intro g hg
      apply hmem
      rintro rfl
      exact hg n ht

/-- `delete_pd` gives back the directory and the tables of a process, and no other frame. -/
theorem Layout.deletePd (h : Layout cfg m pd own free) (hd : pd p = some d) :
    ∃ m' free', m.deletePd d = some m' ∧
      Layout cfg m' (Function.update pd p none) (fun g => (own g).reaped p) free' ∧
      ∀ g, own g ≠ .dir p → (∀ i, own g ≠ .table p i) → m'.mem g = m.mem g := by
  have hdd : own d = .dir p := (h.trees.dir d p).mpr hd
  have hreleased : Layout cfg m (Function.update pd p none) (fun g => (own g).released p 512) free := by
    refine ⟨h.pool.retag ?_ ?_, h.trees.release (fun q => Function.update_apply ..) ?_⟩
    · intro g
      cases hown : own g with
      | table q i =>
        obtain ⟨hlo, -⟩ := h.trees.table_of g q i hown
        have hge : ¬ i < 512 := Nat.not_lt_of_le hlo
        simp only [Owner.released, hge, if_false]
        split_ifs <;> simp
      | _ => simp only [Owner.released] <;> split_ifs <;> simp
    · intro g
      cases own g <;> simp only [Owner.released] <;> split_ifs <;> simp
    · intro g
      cases hown : own g with
      | table q i =>
        obtain ⟨hlo, -⟩ := h.trees.table_of g q i hown
        have hge : ¬ i < 512 := Nat.not_lt_of_le hlo
        simp [Owner.released, Owner.process?, hge]
      | _ => simp [Owner.released, Owner.process?]
  have hloop : ∃ m', forLoop (PhysMem.deleteEntry d) 512 512 m = some m' ∧
      ∃ free', Layout cfg m' (Function.update pd p none) (fun g => (own g).released p (512 + 512)) free' ∧
        ∀ g, (∀ i, own g ≠ .table p i) → m'.mem g = m.mem g := by
    apply forLoop_total (P := fun k m' => ∃ free', Layout cfg m' (Function.update pd p none)
      (fun g => (own g).released p (512 + k)) free' ∧ ∀ g, (∀ i, own g ≠ .table p i) → m'.mem g = m.mem g)
    · exact ⟨free, hreleased, fun _ _ => rfl⟩
    · rintro k m₁ hk ⟨free₁, hlayout, hmem⟩
      have hdir : m₁.mem d = m.mem d := hmem d (by simp [hdd])
      obtain ⟨m₂, free₂, hm₂, hlayout₂, hmem₂⟩ := h.deleteEntry hd (by omega) (by omega) hlayout hdir
      exact ⟨m₂, hm₂, free₂, hlayout₂, fun g hg => (hmem₂ g hg).trans (hmem g hg)⟩
  obtain ⟨m₁, hm₁, free₁, hlayout, hmem⟩ := hloop
  have hheld : (own d).released p (512 + 512) = .held := by
    simp [hdd, Owner.released]
  obtain ⟨m₂, hm₂, hlayout₂, hmem₂⟩ := hlayout.dealloc hheld
  refine ⟨m₂, d :: free₁, ?_, ?_, ?_⟩
  · rw [PhysMem.deletePd, hm₁]
    exact hm₂
  · have hsame : (fun g => (own g).reaped p) = Function.update (fun g => (own g).released p (512 + 512)) d .free := by
      funext g
      by_cases hg : g = d
      · subst hg
        simp [hdd, Owner.reaped]
      · rw [Function.update_of_ne hg]
        cases hown : own g with
        | dir q =>
          have hq : q ≠ p := by
            rintro rfl
            exact hg (Option.some.inj (((h.trees.dir g q).mp hown).symm.trans hd))
          simp [Owner.reaped, Owner.released, hq]
        | table q i =>
          obtain ⟨-, hlt, -⟩ := h.trees.table_of g q i hown
          simp [Owner.reaped, Owner.released, hlt]
        | _ => rfl
    rw [hsame]
    exact hlayout₂
  · intro g hgd hgt
    have hne : g ≠ d := by
      rintro rfl
      exact hgd hdd
    rw [hmem₂ g hne, hmem g hgt]

end AudioKernel
