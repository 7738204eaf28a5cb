import AudioKernel.Vm.Trees

/-! What the routines of `vmm.cc` do to the owners of the frames. -/
namespace AudioKernel
open Lib PhysMem

/-- The pool and the page tables agree on who holds what. -/
structure Layout (cfg : VmConfig) (m : PhysMem) (pd : ℕ → Option ℕ) (own : ℕ → Owner) (free : List ℕ) : Prop where
  pool : Pool m own free
  trees : Trees cfg m.mem pd own

namespace Owner

def Idle (o : Owner) : Prop := o = .free ∨ o = .unused

theorem Idle.loose {o : Owner} (h : o.Idle) : o.Loose := by
  rcases h with rfl | rfl
  · exact loose_free
  · exact loose_unused

@[simp] theorem idle_free : Idle .free := .inl rfl

@[simp] theorem idle_unused : Idle .unused := .inr rfl

@[simp] theorem not_idle_kernel : ¬ Idle .kernel := by simp [Idle]

@[simp] theorem not_idle_dir (p : ℕ) : ¬ Idle (.dir p) := by simp [Idle]

@[simp] theorem not_idle_table (p i : ℕ) : ¬ Idle (.table p i) := by simp [Idle]

@[simp] theorem not_idle_data (p i j : ℕ) : ¬ Idle (.data p i j) := by simp [Idle]

@[simp] theorem not_idle_held : ¬ Idle .held := by simp [Idle]

theorem Idle.ne {o x : Owner} (h : o.Idle) (hx : ¬ x.Idle) : o ≠ x := by
  rintro rfl
  exact hx h

/-- Whoever gets an idle frame takes it from nobody. -/
theorem Idle.update_iff {own : ℕ → Owner} {f g : ℕ} {o x : Owner} (h : (own f).Idle) (hx : ¬ x.Idle) (ho : o ≠ x) :
    Function.update own f o g = x ↔ own g = x := by
  rw [Function.update_apply]
  split_ifs with hg
  · rw [hg]
    exact iff_of_false ho (h.ne hx)
  · rfl

end Owner

namespace PhysMem

variable {m : PhysMem} {f i v : ℕ}

theorem store_stored (m : PhysMem) (f i v : ℕ) : Trees.Stored m.mem (m.store f i v).mem f i v := by
  intro g k
  show Function.update m.mem f (Function.update (m.mem f) i v) g k = _
  by_cases hg : g = f
  · subst hg
    rw [Function.update_self, Function.update_apply]
    simp
  · rw [Function.update_of_ne hg]
    simp [hg]

end PhysMem

/-- What changes when page `(i, j)` of a process is mapped or unmapped. -/
structure Remaps (p i j : ℕ) (m m' : PhysMem) (own own' : ℕ → Owner) : Prop where
  owner : ∀ g, own' g = own g ∨ ((own g).Idle ∧ own' g = .table p i) ∨ (own g = .data p i j ∧ own' g = .held) ∨
    own g = .held ∧ own' g = .data p i j
  mem : ∀ g, ¬ (own g).Idle → own g ≠ .dir p → own g ≠ .table p i → m'.mem g = m.mem g
  entries : ∀ t q i' j', own t = .table q i' → ¬ (q = p ∧ i' = i ∧ j' = j) → m'.mem t j' = m.mem t j'

namespace Layout

variable {cfg : VmConfig} {m m' : PhysMem} {pd : ℕ → Option ℕ} {own own' : ℕ → Owner} {free : List ℕ}
  {p d t f i j va pa : ℕ}

/-- A frame is taken out of the pool; nothing else changes. -/
theorem alloc (h : Layout cfg m pd own free) {r : ℕ × PhysMem} (hr : m.allocFrame = some r) :
    (own r.1).Idle ∧ r.1 % 4096 = 0 ∧ r.2.mem = Function.update m.mem r.1 (fun _ => 0) ∧
      ∃ free', Layout cfg r.2 pd (Function.update own r.1 .held) free' := by
  obtain ⟨hidle, hmem, free', hpool⟩ := h.pool.alloc hr
  refine ⟨hidle, hpool.aligned (by simp), hmem, free', hpool, ?_⟩
  apply h.trees.congr
  · intro g
    rw [Function.update_apply]
    split_ifs with hg
    · subst hg
      exact .inr ⟨Owner.loose_held, Owner.Idle.loose hidle⟩
    · exact .inl rfl
  · intro g hg _
    rw [hmem, Function.update_of_ne]
    rintro rfl
    exact hg (Owner.Idle.loose hidle)

/-- The entry of a directory leads to the table that the process owns, which is new if there was none. -/
theorem tableFor (h : Layout cfg m pd own free) (hd : pd p = some d) (hlo : 512 ≤ i) (hhi : i < 1024)
    {r : ℕ × PhysMem} (hr : m.tableFor d i = some r) (j : ℕ) :
    ∃ t own' free', r.1 = t ||| 7 ∧ own' t = .table p i ∧ Layout cfg r.2 pd own' free' ∧ Remaps p i j m r.2 own own' ∧
      ∀ g, own' g = .held ↔ own g = .held := by
  have hdir : own d = .dir p := (h.trees.dir d p).mpr hd
  unfold PhysMem.tableFor at hr
  rcases h.trees.table p d i hd hlo hhi with hzero | ⟨t, ht, he⟩
  · dsimp only at hr
    rw [hzero, present_zero, if_neg Bool.false_ne_true, Option.map_eq_some_iff] at hr
    obtain ⟨a, ha, rfl⟩ := hr
    obtain ⟨hidle, halign, hmem, free', hlayout⟩ := h.alloc ha
    have hne : d ≠ a.1 := by
      intro hda
      rw [← hda] at hidle
      exact hidle.ne (by simp) hdir
    have hown : ∀ g, Function.update own a.1 (.table p i) g =
        if g = a.1 then .table p i else Function.update own a.1 .held g := by
      intro g
      simp only [Function.update_apply]
      split_ifs <;> rfl
    refine ⟨a.1, Function.update own a.1 (.table p i), free', rfl, Function.update_self .., ⟨?_, ?_⟩, ?_, ?_⟩
    · refine (hlayout.pool.store (f := d) (by simp [hne, hdir])).retag ?_ ?_ <;> intro g <;>
        simp only [Function.update_apply] <;> split_ifs <;> simp
    · refine hlayout.trees.linkTable hd hlo hhi ?_ (by simp) halign ?_ (store_stored _ _ _ _) hown
      · rw [hmem, Function.update_of_ne hne, hzero]
      · intro j
        rw [hmem, Function.update_self]
    · have hstored := store_stored a.2 d i (a.1 ||| 7)
      constructor
      · intro g
        rw [Function.update_apply]
        split_ifs with hg
        · exact .inr (.inl ⟨hg ▸ hidle, rfl⟩)
        · exact .inl rfl
      · intro g hg hgd _
        funext k
        have hgd' : g ≠ d := by
          rintro rfl
          exact hgd hdir
        have hga : g ≠ a.1 := by
          rintro rfl
          exact hg hidle
        rw [hstored, if_neg (fun hk => hgd' hk.1), hmem, Function.update_of_ne hga]
      · intro t q i' j' ht _
        have htd : t ≠ d := by
          rintro rfl
          rw [hdir] at ht
          cases ht
        have hta : t ≠ a.1 := by
          rintro rfl
          exact hidle.ne (by simp) ht
        rw [hstored, if_neg (fun hk => htd hk.1), hmem, Function.update_of_ne hta]
    · exact fun g => hidle.update_iff (by simp) (by simp)
  · dsimp only at hr
    rw [he, h.pool.present_or (by simp [ht]), if_pos rfl] at hr
    obtain rfl := Option.some.inj hr
    exact ⟨t, own, free, rfl, ht, h, ⟨fun g => .inl rfl, fun _ _ _ _ => rfl, fun _ _ _ _ _ _ => rfl⟩, fun _ => Iff.rfl⟩

/-- The entries of the directories for the lower half of the address space stay. -/
theorem tableFor_low (h : Layout cfg m pd own free) (hd : pd p = some d) (hlo : 512 ≤ i) (hhi : i < 1024)
    {r : ℕ × PhysMem} (hr : m.tableFor d i = some r) {q e k : ℕ} (he : pd q = some e) (hk : k < 512) :
    r.2.mem e k = m.mem e k := by
  have hdir : own e = .dir q := (h.trees.dir e q).mpr he
  unfold PhysMem.tableFor at hr
  rcases h.trees.table p d i hd hlo hhi with hzero | ⟨t, ht, hentry⟩
  · dsimp only at hr
    rw [hzero, present_zero, if_neg Bool.false_ne_true, Option.map_eq_some_iff] at hr
    obtain ⟨a, ha, rfl⟩ := hr
    obtain ⟨hidle, -, hmem, -⟩ := h.alloc ha
    have hne : e ≠ a.1 := by
      rintro rfl
      exact hidle.ne (by simp) hdir
    rw [store_stored, if_neg (by omega), hmem, Function.update_of_ne hne]
  · dsimp only at hr
    rw [hentry, h.pool.present_or (by simp [ht]), if_pos rfl] at hr
    obtain rfl := Option.some.inj hr
    rfl

theorem map_low (h : Layout cfg m pd own free) (hd : pd p = some d) (hlo : 512 ≤ pdiOf va) (hhi : pdiOf va < 1024)
    (hr : m.map d va pa = some m') {q e k : ℕ} (he : pd q = some e) (hk : k < 512) : m'.mem e k = m.mem e k := by
  obtain ⟨r, htable, rfl⟩ := Option.map_eq_some_iff.mp hr
  obtain ⟨t, own₁, free₁, hentry, ht, hlayout, -⟩ := h.tableFor hd hlo hhi htable 0
  have hdir : own₁ e = .dir q := (hlayout.trees.dir e q).mpr he
  have hne : e ≠ t := by
    rintro rfl
    rw [hdir] at ht
    cases ht
  rw [hentry, hlayout.pool.frameOf_or (by simp [ht]), store_stored, if_neg fun hk => hne hk.1,
    h.tableFor_low hd hlo hhi htable he hk]

/-- The store of an entry into the table of a page, after the table has been found. -/
theorem remaps_store {m₁ : PhysMem} {own₁ : ℕ → Owner} {v : ℕ} (h : Remaps p i j m m₁ own own₁)
    (ht : own₁ t = .table p i)
    (howner : ∀ g, own' g = own₁ g ∨ (own₁ g = .data p i j ∧ own' g = .held) ∨ own₁ g = .held ∧ own' g = .data p i j) :
    Remaps p i j m (m₁.store t j v) own own' := by
  have hstored := store_stored m₁ t j v
  have hkept : own t ≠ .table p i → (own t).Idle := by
    intro hne
    rcases h.owner t with hsame | ⟨hidle, -⟩ | ⟨-, hheld⟩ | ⟨-, hdata⟩
    · exact absurd (hsame.symm.trans ht) hne
    · exact hidle
    · rw [ht] at hheld
      cases hheld
    · rw [ht] at hdata
      cases hdata
  constructor
  · intro g
    have := h.owner g
    have := howner g
    grind
  · intro g hg hdir htable
    have hne : g ≠ t := by
      rintro rfl
      exact hg (hkept htable)
    funext k
    rw [hstored, if_neg (fun hk => hne hk.1), h.mem g hg hdir htable]
  · intro t' q i' j' ht' hne
    rw [hstored, ← h.entries t' q i' j' ht' hne, if_neg]
    rintro ⟨rfl, rfl⟩
    by_cases hown : own t' = .table p i
    · rw [hown] at ht'
      cases ht'
      exact hne ⟨rfl, rfl, rfl⟩
    · exact (hkept hown).ne (by simp) ht'

/-- `map` makes a frame that is held the page of a process. -/
theorem mapPage (h : Layout cfg m pd own free) (hd : pd p = some d) (hlo : 512 ≤ pdiOf va) (hhi : pdiOf va < 1024)
    (ha : ¬ cfg.Apic (pageAt (pdiOf va) (ptiOf va))) (hf : own f = .held) (hpa : pa ||| 7 = f ||| 7)
    (hr : m.map d va pa = some m') :
    ∃ own' free', Layout cfg m' pd own' free' ∧ Remaps p (pdiOf va) (ptiOf va) m m' own own' ∧
      own' f = .data p (pdiOf va) (ptiOf va) ∧
      ∀ g, own' g = .held → (own g = .held ∧ g ≠ f) ∨ own g = .data p (pdiOf va) (ptiOf va) := by
  obtain ⟨r, htable, rfl⟩ := Option.map_eq_some_iff.mp hr
  obtain ⟨t, own₁, free₁, he, ht, hlayout, hremaps, hheld⟩ := h.tableFor hd hlo hhi htable (ptiOf va)
  have hframe : frameOf r.1 = t := by
    rw [he, hlayout.pool.frameOf_or (by simp [ht])]
  rw [hframe, hpa]
  have hf₁ : own₁ f = .held := (hheld f).mpr hf
  have hown : ∃ own' : ℕ → Owner, ∀ g, own' g = if g = f then .data p (pdiOf va) (ptiOf va)
      else if own₁ g = .data p (pdiOf va) (ptiOf va) then .held else own₁ g := ⟨_, fun _ => rfl⟩
  obtain ⟨own', hown⟩ := hown
  refine ⟨own', free₁, ⟨?_, ?_⟩, remaps_store hremaps ht ?_, by rw [hown, if_pos rfl], ?_⟩
  · refine (hlayout.pool.store (by simp [ht])).retag ?_ ?_ <;> intro g <;> rw [hown] <;> grind
  · exact hlayout.trees.linkPage ht (ptiOf_lt va) ha (by simp [hf₁]) (hlayout.pool.aligned (by simp [hf₁]))
      (store_stored _ _ _ _) hown
  · intro g
    have := hown g
    grind
  · intro g hg
    have := hown g
    have := hremaps.owner g
    grind

/-- `map` makes the page of an interrupt controller visible to a process. -/
theorem mapApic (h : Layout cfg m pd own free) (hd : pd p = some d) (hlo : 512 ≤ pdiOf va) (hhi : pdiOf va < 1024)
    (ha : cfg.Apic (pageAt (pdiOf va) (ptiOf va))) (hpa : pa ||| 7 = pageAt (pdiOf va) (ptiOf va) ||| 7)
    (hr : m.map d va pa = some m') :
    ∃ own' free', Layout cfg m' pd own' free' ∧ Remaps p (pdiOf va) (ptiOf va) m m' own own' ∧
      (∃ t, own' t = .table p (pdiOf va) ∧ m'.mem t (ptiOf va) = pageAt (pdiOf va) (ptiOf va) ||| 7) ∧
      ∀ g, own' g = .held ↔ own g = .held := by
  obtain ⟨r, htable, rfl⟩ := Option.map_eq_some_iff.mp hr
  obtain ⟨t, own₁, free₁, he, ht, hlayout, hremaps, hheld⟩ := h.tableFor hd hlo hhi htable (ptiOf va)
  have hframe : frameOf r.1 = t := by
    rw [he, hlayout.pool.frameOf_or (by simp [ht])]
  rw [hframe, hpa]
  refine ⟨own₁, free₁, ⟨?_, ?_⟩, remaps_store hremaps ht fun g => .inl rfl, ⟨t, ht, ?_⟩, hheld⟩
  · exact hlayout.pool.store (by simp [ht])
  · exact hlayout.trees.linkApic ht ha (store_stored _ _ _ _)
  · rw [store_stored, if_pos ⟨rfl, rfl⟩]

/-- A frame in no address space goes back into the pool. -/
theorem dealloc (h : Layout cfg m pd own free) (hf : own f = .held) :
    ∃ m', m.deallocFrame f = some m' ∧ Layout cfg m' pd (Function.update own f .free) (f :: free) ∧
      ∀ g, g ≠ f → m'.mem g = m.mem g := by
  obtain ⟨m', hm', hpool, hmem⟩ := h.pool.dealloc hf
  refine ⟨m', hm', ⟨hpool, h.trees.congr ?_ ?_⟩, hmem⟩
  · intro g
    rw [Function.update_apply]
    split_ifs with hg
    · subst hg
      exact .inr ⟨Owner.loose_free, by simp [hf]⟩
    · exact .inl rfl
  · intro g hg _
    apply hmem
    rintro rfl
    exact hg (by simp [hf])

/-- A private page is mapped to the frame that the process has for it, and to none otherwise. -/
theorem lookup_page (h : Layout cfg m pd own free) (hd : pd p = some d) (hlo : 512 ≤ i) (hhi : i < 1024) (hj : j < 1024)
    (ha : ¬ cfg.Apic (pageAt i j)) : m.lookup d (pageAt i j) = some f ↔ own f = .data p i j := by
  unfold PhysMem.lookup
  rw [pdiOf_pageAt hj, ptiOf_pageAt hj]
  rcases h.trees.table p d i hd hlo hhi with hzero | ⟨t, ht, he⟩
  · refine iff_of_false (by simp [hzero]) ?_
    exact h.trees.no_page_of fun t => h.trees.no_table hd hzero
  · simp only [he, h.pool.present_or (f := t) (by simp [ht]), h.pool.frameOf_or (f := t) (by simp [ht]), if_true]
    rcases h.trees.page t p i j ht hj ha with hzero | ⟨g, hg, hg'⟩
    · exact iff_of_false (by simp [hzero]) (h.trees.no_page ht hzero)
    · simp only [hg', h.pool.present_or (f := g) (by simp [hg]), h.pool.frameOf_or (f := g) (by simp [hg]), if_true,
        Option.some.injEq]
      constructor
      · rintro rfl
        exact hg
      · intro hf
        exact h.trees.unique_page hf hg

/-- `unmap` gives the frame of a page back, if there is one. -/
theorem unmapPage (h : Layout cfg m pd own free) (hd : pd p = some d) (hlo : 512 ≤ pdiOf va) (hhi : pdiOf va < 1024)
    (ha : ¬ cfg.Apic (pageAt (pdiOf va) (ptiOf va))) :
    ∃ m' own' free', m.unmap d va = some m' ∧ Layout cfg m' pd own' free' ∧
      (∀ g, own' g = if own g = .data p (pdiOf va) (ptiOf va) then .free else own g) ∧
      (∀ t q i j, own t = .table q i → ¬ (q = p ∧ i = pdiOf va ∧ j = ptiOf va) → m'.mem t j = m.mem t j) ∧
      ∀ g, own g = .kernel ∨ (∃ q, own g = .dir q) → m'.mem g = m.mem g := by
  have hj := ptiOf_lt va
  have hnone : (∀ g, own g ≠ .data p (pdiOf va) (ptiOf va)) → m.unmap d va = some m → ∃ m' own' free',
      m.unmap d va = some m' ∧ Layout cfg m' pd own' free' ∧
      (∀ g, own' g = if own g = .data p (pdiOf va) (ptiOf va) then .free else own g) ∧
      (∀ t q i j, own t = .table q i → ¬ (q = p ∧ i = pdiOf va ∧ j = ptiOf va) → m'.mem t j = m.mem t j) ∧
      ∀ g, own g = .kernel ∨ (∃ q, own g = .dir q) → m'.mem g = m.mem g :=
    fun hno hm => ⟨m, own, free, hm, h, fun g => (if_neg (hno g)).symm, fun _ _ _ _ _ _ => rfl, fun _ _ => rfl⟩
  rcases h.trees.table p d (pdiOf va) hd hlo hhi with hzero | ⟨t, ht, he⟩
  · apply hnone
    · exact fun g => h.trees.no_page_of fun t => h.trees.no_table hd hzero
    · simp [PhysMem.unmap, hzero]
  · have hpt := h.pool.present_or (f := t) (by simp [ht])
    have hft := h.pool.frameOf_or (f := t) (by simp [ht])
    rcases h.trees.page t p _ _ ht hj ha with hzero | ⟨f, hf, hf'⟩
    · apply hnone
      · exact fun g => h.trees.no_page ht hzero
      · simp [PhysMem.unmap, he, hpt, hft, hzero]
    · have hpf := h.pool.present_or (f := f) (by simp [hf])
      have hff := h.pool.frameOf_or (f := f) (by simp [hf])
      have hunlinked : Layout cfg (m.store t (ptiOf va) 0) pd (Function.update own f .held) free := by
        refine ⟨(h.pool.store (by simp [ht])).retag ?_ ?_, ?_⟩
        · intro g
          rw [Function.update_apply]
          grind
        · intro g
          rw [Function.update_apply]
          grind
        · exact h.trees.unlinkPage ht hj hf (store_stored _ _ _ _) fun g => Function.update_apply ..
      obtain ⟨m', hm', hlayout, hmem⟩ := hunlinked.dealloc (Function.update_self ..)
      refine ⟨m', _, _, ?_, hlayout, ?_, ?_, ?_⟩
      · simp [PhysMem.unmap, he, hpt, hft, hf', hpf, hff, hm']
      · intro g
        by_cases hg : g = f
        · subst hg
          simp [hf]
        · have hno : own g ≠ .data p (pdiOf va) (ptiOf va) := fun hgd => hg (h.trees.unique_page hf hgd)
          simp [hg, hno]
      · intro t' q i j ht' hne
        have ht'f : t' ≠ f := by
          rintro rfl
          rw [hf] at ht'
          cases ht'
        rw [hmem t' ht'f, store_stored, if_neg]
        rintro ⟨rfl, rfl⟩
        rw [ht] at ht'
        cases ht'
        exact hne ⟨rfl, rfl, rfl⟩
      · intro g hg
        have hgf : g ≠ f := by
          rintro rfl
          simp [hf] at hg
        have hgt : g ≠ t := by
          rintro rfl
          simp [ht] at hg
        rw [hmem g hgf]
        exact Function.update_of_ne hgt ..

end Layout
end AudioKernel
