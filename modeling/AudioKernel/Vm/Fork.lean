import AudioKernel.Vm.Invariant

/-! The memory loop of `fork`: what the child has after each round. -/
namespace AudioKernel
open Lib PhysMem

namespace Vm

variable {cfg : VmConfig} {kernel : ℕ → Prop} {s t : Vm} {own own' own₀ : ℕ → Owner} {free free' free₀ : List ℕ}
  {p c d e f g i j k tb va pa n : ℕ} {m m' : PhysMem} {done done' : ℕ → ℕ → Prop}

namespace Inv

/-- What a frame holds does not matter while it is in no address space. -/
theorem fill (h : Inv cfg kernel s own free) (hf : own f = .held) (words : ℕ → ℕ) :
    Inv cfg kernel (s.setPhys (s.phys.fill f words)) own free := by
  have hmem : ∀ g, own g ≠ .held → (s.phys.fill f words).mem g = s.phys.mem g := by
    intro g hg
    apply Function.update_of_ne
    rintro rfl
    exact hg hf
  refine h.setPhys ⟨h.layout.pool.fill (by simp [hf]), h.layout.trees.congr (fun g => .inl rfl) ?_⟩ ?_
    (fun _ => Iff.rfl) ?_
  · intro g hg _
    apply hmem
    rintro hg'
    exact hg (by simp [hg'])
  · intro q d hd va hva
    obtain ⟨t, ht, he⟩ := h.wired q d hd va hva
    exact ⟨t, ht, by rw [hmem t (by simp [ht]), he]⟩
  · intro g hg
    exact hmem g (by simp [hg])

/-- After a controller's page has been mapped once more. -/
theorem wire (h : Inv cfg kernel s own free) (hd : s.pd p = some d) (hva : cfg.Apic va) (hpa : pa ||| 7 = va ||| 7)
    (hr : s.phys.map d va pa = some m) :
    ∃ own' free', Inv cfg kernel (s.setPhys m) own' free' ∧ Remaps p (pdiOf va) (ptiOf va) s.phys m own own' ∧
      ∀ g, own' g = .held ↔ own g = .held := by
  have hpage := hva.pageAt
  obtain ⟨own', free', hlayout, hremaps, ⟨t, ht, he⟩, hheld⟩ :=
    h.layout.mapApic hd hva.pdi.1 hva.pdi.2 (by rwa [hpage]) (by rw [hpage, hpa]) hr
  refine ⟨own', free', h.remaps hlayout hremaps ?_, hremaps, hheld⟩
  intro q e hq
  apply (h.wired q e hq).remaps hremaps
  intro _ _ t' ht'
  rw [hlayout.trees.unique_table ht (hremaps.table ht'), he]

end Inv

/-- The child `c` has copies of the pages of `p` that are `done`, in frames that were idle, and nothing else has changed
since `t`. -/
structure Copied (cfg : VmConfig) (kernel : ℕ → Prop) (t : Vm) (own₀ : ℕ → Owner) (p c : ℕ) (done : ℕ → ℕ → Prop)
    (m : PhysMem) (own : ℕ → Owner) (free : List ℕ) : Prop where
  inv : Inv cfg kernel (t.setPhys m) own free
  owner : ∀ g, own g = own₀ g ∨ ((own₀ g).Idle ∧ ((∃ i, own g = .table c i) ∨ ∃ i j, own g = .data c i j))
  mem : ∀ g, ¬ (own₀ g).Idle → own₀ g ≠ .dir c → (∀ i, own₀ g ≠ .table c i) → m.mem g = t.phys.mem g
  copied : ∀ f i j, own f = .data c i j → done i j ∧ ∃ g, own₀ g = .data p i j ∧ m.mem f = t.phys.mem g
  all : ∀ g i j, own₀ g = .data p i j → done i j → ∃ f, own f = .data c i j

namespace Copied

/-- A frame that is idle has been idle before. -/
theorem idle (h : Copied cfg kernel t own₀ p c done m own free) (hg : (own g).Idle) : (own₀ g).Idle := by
  have := h.owner g
  grind [Owner.Idle]

theorem kept (h : Copied cfg kernel t own₀ p c done m own free) (hg : ¬ (own₀ g).Idle) : own g = own₀ g := by
  have := h.owner g
  grind

/-- One more page. -/
theorem extend (h : Copied cfg kernel t own₀ p c done m own free)
    (hinv : Inv cfg kernel (t.setPhys m') own' free')
    (howner : ∀ g, own' g = own g ∨ ((own g).Idle ∧ (own' g = .table c i ∨ own' g = .data c i j)))
    (hmem : ∀ g, ¬ (own g).Idle → own g ≠ .dir c → (∀ i, own g ≠ .table c i) → m'.mem g = m.mem g)
    (hnew : ∀ f, own' f = .data c i j → (own f).Idle → ∃ g, own₀ g = .data p i j ∧ m'.mem f = t.phys.mem g)
    (hall : ∀ g, own₀ g = .data p i j → ∃ f, own' f = .data c i j)
    (hdone : ∀ i' j', done' i' j' ↔ done i' j' ∨ (i' = i ∧ j' = j)) :
    Copied cfg kernel t own₀ p c done' m' own' free' where
  inv := hinv
  owner g := by
    have := h.owner g
    have := howner g
    have := h.idle (g := g)
    grind
  mem g hg hdir htable := by
    have hsame := h.kept hg
    rw [hmem g (by rwa [hsame]) (by rwa [hsame]) (by rwa [hsame]), h.mem g hg hdir htable]
  copied f i' j' hf := by
    rw [hdone]
    rcases howner f with hsame | ⟨hidle, htable | hdata⟩
    · rw [hsame] at hf
      obtain ⟨hd, g, hg, he⟩ := h.copied f i' j' hf
      refine ⟨.inl hd, g, hg, ?_⟩
      rw [hmem f (by simp [hf]) (by simp [hf]) (by simp [hf]), he]
    · rw [htable] at hf
      cases hf
    · have hij : i = i' ∧ j = j' := by
        rw [hdata] at hf
        cases hf
        exact ⟨rfl, rfl⟩
      obtain ⟨rfl, rfl⟩ := hij
      exact ⟨.inr ⟨rfl, rfl⟩, hnew f hf hidle⟩
  all g i' j' hg hd := by
    rcases (hdone i' j').mp hd with hd | ⟨rfl, rfl⟩
    · obtain ⟨f, hf⟩ := h.all g i' j' hg hd
      refine ⟨f, ?_⟩
      rcases howner f with hsame | ⟨hidle, -⟩
      · rw [hsame, hf]
      · exact absurd hf (hidle.ne (by simp))
    · exact hall g hg

/-- Pages that the parent does not have. -/
theorem skip (h : Copied cfg kernel t own₀ p c done m own free) (hmono : ∀ i j, done i j → done' i j)
    (hnone : ∀ g i j, own₀ g = .data p i j → done' i j → done i j) : Copied cfg kernel t own₀ p c done' m own free :=
  { h with
    copied := fun f i' j' hf => by
      obtain ⟨hd, hcopy⟩ := h.copied f i' j' hf
      exact ⟨hmono i' j' hd, hcopy⟩
    all := fun g i' j' hg hd => h.all g i' j' hg (hnone g i' j' hg hd) }

/-- A controller's page. -/
theorem apic (h : Copied cfg kernel t own₀ p c done m own free) (h₀ : Inv cfg kernel t own₀ free₀)
    (hc : t.pd c = some e) (hj : j < 1024) (ha : cfg.Apic (pageAt i j)) (hr : m.map e (pageAt i j) pa = some m')
    (hpa : pa ||| 7 = pageAt i j ||| 7) (hdone : ∀ i' j', done' i' j' ↔ done i' j' ∨ (i' = i ∧ j' = j)) :
    ∃ own' free', Copied cfg kernel t own₀ p c done' m' own' free' := by
  obtain ⟨own', free', hinv, hremaps, hheld⟩ := h.inv.wire (s := t.setPhys m) hc ha hpa hr
  rw [pdiOf_pageAt hj, ptiOf_pageAt hj] at hremaps
  have howner : ∀ g, own' g = own g ∨ ((own g).Idle ∧ own' g = .table c i) := by
    intro g
    have := hremaps.owner g
    have := hheld g
    grind
  have hnone : ∀ g, own₀ g ≠ .data p i j := by
    intro g hg
    obtain ⟨-, hna, -⟩ := h₀.layout.trees.page_of g p i j hg
    exact hna ha
  refine ⟨own', free', h.extend (i := i) (j := j) hinv ?_ ?_ ?_ ?_ hdone⟩
  · intro g
    rcases howner g with hsame | ⟨hidle, htable⟩
    · exact .inl hsame
    · exact .inr ⟨hidle, .inl htable⟩
  · intro g hg hdir htable
    exact hremaps.mem g hg hdir (htable i)
  · intro f hf hidle
    rcases howner f with hsame | ⟨-, htable⟩
    · rw [← hsame] at hidle
      exact absurd hf (hidle.ne (by simp))
    · rw [htable] at hf
      cases hf
  · intro g hg
    exact absurd hg (hnone g)

/-- A page of the parent gets a copy in a new frame. -/
theorem copy (h : Copied cfg kernel t own₀ p c done m own free) (hc : t.pd c = some e) (hlo : 512 ≤ i) (hhi : i < 1024)
    (hj : j < 1024) (ha : ¬ cfg.Apic (pageAt i j)) (hg : own₀ g = .data p i j) (hnew : ¬ done i j)
    {r : ℕ × PhysMem} (hal : m.allocFrame = some r)
    (hr : (r.2.fill (frameOf (r.1 ||| 7)) (r.2.mem g)).map e (pageAt i j) (r.1 ||| 7) = some m')
    (hdone : ∀ i' j', done' i' j' ↔ done i' j' ∨ (i' = i ∧ j' = j)) :
    ∃ own' free', Copied cfg kernel t own₀ p c done' m' own' free' := by
  obtain ⟨hidle, hmem, free₁, halloc⟩ := h.inv.alloc (s := t.setPhys m) hal
  have hheld : Function.update own r.1 Owner.held r.1 = .held := Function.update_self ..
  have hframe : frameOf (r.1 ||| 7) = r.1 := halloc.layout.pool.frameOf_or (by simp)
  have hidle₀ := h.idle hidle
  have hgr : g ≠ r.1 := by
    rintro rfl
    exact hidle₀.ne (by simp) hg
  rw [hframe] at hr
  have hfilled := halloc.fill hheld (r.2.mem g)
  obtain ⟨own', free', hlayout, hremaps, hdata, -⟩ := hfilled.layout.mapPage (f := r.1) hc
    (by rwa [pdiOf_pageAt hj]) (by rwa [pdiOf_pageAt hj]) (by rwa [pdiOf_pageAt hj, ptiOf_pageAt hj]) hheld or_or_self
    hr
  rw [pdiOf_pageAt hj, ptiOf_pageAt hj] at hremaps hdata
  have hinv : Inv cfg kernel (t.setPhys m') own' free' := hfilled.remapsPage hlayout hremaps ha
  have howner : ∀ g, g ≠ r.1 → own' g = own g ∨ ((own g).Idle ∧ own' g = .table c i) := by
    intro g' hg'
    have hsame : Function.update own r.1 .held g' = own g' := Function.update_of_ne hg' ..
    have hcases := hremaps.owner g'
    rw [hsame] at hcases
    rcases hcases with hcases | hcases | ⟨hold, -⟩ | ⟨-, hnew'⟩
    · exact .inl hcases
    · exact .inr hcases
    · exact absurd (h.copied g' i j hold).1 hnew
    · exact absurd (hlayout.trees.unique_page hdata hnew') hg'
  have hsamemem : ∀ g', g' ≠ r.1 → (r.2.fill r.1 (r.2.mem g)).mem g' = m.mem g' := by
    intro g' hg'
    show Function.update r.2.mem r.1 (r.2.mem g) g' = m.mem g'
    rw [Function.update_of_ne hg', hmem, Function.update_of_ne hg']
    rfl
  refine ⟨own', free', h.extend (i := i) (j := j) hinv ?_ ?_ ?_ ?_ hdone⟩
  · intro g'
    by_cases hg' : g' = r.1
    · rw [hg']
      exact .inr ⟨hidle, .inr hdata⟩
    · rcases howner g' hg' with hsame | ⟨hidle', htable⟩
      · exact .inl hsame
      · exact .inr ⟨hidle', .inl htable⟩
  · intro g' hg' hdir htable
    have hne : g' ≠ r.1 := by
      rintro rfl
      exact hg' hidle
    have hsame : Function.update own r.1 .held g' = own g' := Function.update_of_ne hne ..
    rw [← hsamemem g' hne]
    exact hremaps.mem g' (by rwa [hsame]) (by rwa [hsame]) (by rw [hsame]; exact htable i)
  · intro f hf hidle'
    refine ⟨g, hg, ?_⟩
    have hfr : f = r.1 := hlayout.trees.unique_page hdata hf
    rw [hfr, hremaps.mem r.1 (by rw [hheld]; simp [Owner.Idle]) (by simp) (by simp)]
    show Function.update r.2.mem r.1 (r.2.mem g) r.1 = t.phys.mem g
    rw [Function.update_self, hmem, Function.update_of_ne hgr]
    exact h.mem g (by simp [hg]) (by simp [hg]) (by simp [hg])
  · intro _ _
    exact ⟨r.1, hdata⟩

/-- One entry of a page table of the parent. -/
theorem page (h : Copied cfg kernel t own₀ p c done m own free) (h₀ : Inv cfg kernel t own₀ free₀)
    (hc : t.pd c = some e) (hpc : p ≠ c) (ht : own₀ tb = .table p i) (hj : j < 1024) (hnew : ¬ done i j)
    (hr : m.copyPage cfg e i tb j = some m') (hdone : ∀ i' j', done' i' j' ↔ done i' j' ∨ (i' = i ∧ j' = j)) :
    ∃ own' free', Copied cfg kernel t own₀ p c done' m' own' free' := by
  obtain ⟨hlo, hhi, -⟩ := h₀.layout.trees.table_of tb p i ht
  have hentry : m.mem tb j = t.phys.mem tb j := by
    rw [h.mem tb (by simp [ht]) (by simp [ht]) (by simp [ht, hpc])]
  unfold copyPage at hr
  simp only [hentry] at hr
  split_ifs at hr with hio hlocal hpresent
  · rw [← hio] at hr
    exact h.apic h₀ hc hj (.inl hio) hr or_or_self hdone
  · rw [← hlocal] at hr
    exact h.apic h₀ hc hj (.inr hlocal) hr or_or_self hdone
  · have ha : ¬ cfg.Apic (pageAt i j) := not_or.mpr ⟨hio, hlocal⟩
    rcases h₀.layout.trees.page tb p i j ht hj ha with hzero | ⟨g, hg, he⟩
    · rw [hzero] at hpresent
      cases hpresent
    · rw [he, h₀.layout.pool.frameOf_or (by simp [hg])] at hr
      obtain ⟨r, hal, hr⟩ := Option.bind_eq_some_iff.mp hr
      exact h.copy hc hlo hhi hj ha hg hnew hal hr hdone
  · obtain rfl := Option.some.inj hr
    refine ⟨own, free, h.skip (fun i' j' hd => (hdone i' j').mpr (.inl hd)) ?_⟩
    intro g i' j' hg hd
    rcases (hdone i' j').mp hd with hd | ⟨rfl, rfl⟩
    · exact hd
    · -- an entry with a page in it would have been present
      rw [h₀.layout.trees.slot ht hg, h₀.layout.pool.present_or (by simp [hg])] at hpresent
      exact absurd rfl hpresent

/-- The pages that the loop of `fork` has looked at, when it is at entry `k` of the table for entry `n`. -/
def upTo (lo n k : ℕ) (i j : ℕ) : Prop := lo ≤ i ∧ (i < n ∨ (i = n ∧ j < k))

/-- One entry of the directory of the parent. -/
theorem table (h : Copied cfg kernel t own₀ p c (upTo k n 0) m own free) (h₀ : Inv cfg kernel t own₀ free₀)
    (hd : t.pd p = some d) (hc : t.pd c = some e) (hpc : p ≠ c) (hk : cfg.sharedEntries ≤ k) (hkn : k ≤ n)
    (hn : n < 1024) (hr : m.copyTable cfg d e n = some m') :
    ∃ own' free', Copied cfg kernel t own₀ p c (upTo k (n + 1) 0) m' own' free' := by
  have hdir : own₀ d = .dir p := (h₀.layout.trees.dir d p).mpr hd
  have hentry : m.mem d n = t.phys.mem d n := by
    rw [h.mem d (by simp [hdir]) (by simp [hdir, hpc]) (by simp [hdir])]
  have hskip : (∀ tb, own₀ tb ≠ .table p n) →
      ∃ own' free', Copied cfg kernel t own₀ p c (upTo k (n + 1) 0) m own' free' := by
    intro hno
    refine ⟨own, free, h.skip ?_ ?_⟩
    · unfold upTo
      omega
    · intro g i j hg hdone
      have hne : i ≠ n := by
        rintro rfl
        exact h₀.layout.trees.no_page_of hno hg
      unfold upTo at hdone ⊢
      omega
  unfold copyTable at hr
  simp only [hentry] at hr
  split_ifs at hr with hpresent
  · have hlo : 512 ≤ n := by
      by_contra hlt
      rw [h₀.layout.trees.gap p d n hd (hk.trans hkn) (Nat.lt_of_not_le hlt)] at hpresent
      cases hpresent
    rcases h₀.layout.trees.table p d n hd hlo hn with hzero | ⟨tb, ht, he⟩
    · rw [hzero] at hpresent
      cases hpresent
    · rw [he, h₀.layout.pool.frameOf_or (by simp [ht])] at hr
      obtain ⟨own', free', hcopied⟩ := forLoop_invariant
        (P := fun l m' => ∃ own' free', Copied cfg kernel t own₀ p c (upTo k n l) m' own' free') ⟨own, free, h⟩
        (by
          rintro l m₁ m₂ hl ⟨own₁, free₁, h₁⟩ hround
          rw [Nat.zero_add] at hround
          refine h₁.page h₀ hc hpc ht hl ?_ hround ?_ <;> unfold upTo
          · omega
          · omega) hr
      refine ⟨own', free', hcopied.skip ?_ ?_⟩
      · unfold upTo
        omega
      · intro g i j hg hdone
        obtain ⟨hj, -⟩ := h₀.layout.trees.page_of g p i j hg
        unfold upTo at hdone ⊢
        omega
  · obtain rfl := Option.some.inj hr
    apply hskip
    intro tb ht
    rw [h₀.layout.trees.entry hd ht, h₀.layout.pool.present_or (by simp [ht])] at hpresent
    exact hpresent rfl

/-- The whole loop of `fork`. -/
theorem pages (h : Copied cfg kernel t own₀ p c (upTo cfg.treeStart cfg.treeStart 0) m own free)
    (h₀ : Inv cfg kernel t own₀ free₀) (hd : t.pd p = some d) (hc : t.pd c = some e) (hpc : p ≠ c)
    (hr : m.copyPages cfg d e = some m') :
    ∃ own' free', Copied cfg kernel t own₀ p c (upTo cfg.treeStart 1024 0) m' own' free' := by
  have hle := cfg.treeStart_le
  obtain ⟨own', free', hcopied⟩ := forLoop_invariant
    (P := fun l m' => ∃ own' free',
      Copied cfg kernel t own₀ p c (upTo cfg.treeStart (cfg.treeStart + l) 0) m' own' free')
    ⟨own, free, h⟩
    (by
      rintro l m₁ m₂ hl ⟨own₁, free₁, h₁⟩ hround
      exact h₁.table h₀ hd hc hpc cfg.sharedEntries_le_treeStart (by omega) (by omega) hround) hr
  rw [show cfg.treeStart + (1024 - cfg.treeStart) = 1024 by omega] at hcopied
  exact ⟨own', free', hcopied⟩

end Copied

/-- What `fork` of process `p` does to the frames and to their owners; the child is process `c`. -/
structure Forked (cfg : VmConfig) (p c : ℕ) (s t : Vm) (own own' : ℕ → Owner) : Prop where
  owner : ∀ g, own' g = own g ∨ ((own g).Idle ∧ (own' g).process? = some c)
  mem : ∀ g, ¬ (own g).Idle → t.phys.mem g = s.phys.mem g
  copied : ∀ f i j, own' f = .data c i j → cfg.treeStart ≤ i ∧ ∃ g, own g = .data p i j ∧ t.phys.mem f = s.phys.mem g
  all : ∀ g i j, own g = .data p i j → cfg.treeStart ≤ i → ∃ f, own' f = .data c i j

/-- The parent's pages are copied from the first directory entry on that the loop looks at. -/
theorem Inv.fork (h : Inv cfg kernel s own free) (hd : s.pd p = some d) (hr : s.fork cfg d = some t) :
    ∃ e own' free', t.pd = Function.update s.pd s.spaces (some e) ∧ Inv cfg kernel t own' free' ∧
      Forked cfg p s.spaces s t own own' := by
  have hpc : p ≠ s.spaces := Nat.ne_of_lt (h.spaces p d hd)
  have hno : ∀ g, (own g).process? ≠ some s.spaces := fun g => h.layout.trees.not_live h.fresh
  obtain ⟨u, hu, hr⟩ := Option.bind_eq_some_iff.mp hr
  obtain ⟨e, he, hr⟩ := Option.bind_eq_some_iff.mp hr
  obtain ⟨m, hm, hr⟩ := Option.bind_eq_some_iff.mp hr
  obtain rfl : u.setPhys m = t := Option.some.inj hr
  obtain ⟨e', own₁, free₁, hpd, -, hinv, hgrows, -⟩ := h.create hu
  have hkept : ∀ g, ¬ (own g).Idle → own₁ g = own g := by
    intro g hg
    rcases hgrows.owner g with hsame | ⟨hidle, -⟩
    · exact hsame
    · exact absurd hidle hg
  have hdata : ∀ g i j, own₁ g = .data p i j ↔ own g = .data p i j := by
    intro g i j
    have := hgrows.owner g
    grind [Owner.Idle]
  have hstart : Copied cfg kernel u own₁ p s.spaces (Copied.upTo cfg.treeStart cfg.treeStart 0) u.phys own₁ free₁ := by
    refine ⟨hinv, fun g => .inl rfl, fun _ _ _ _ => rfl, ?_, ?_⟩
    · intro f i j hf
      have := hgrows.owner f
      have := hno f
      grind [Owner.process?]
    · unfold Copied.upTo
      omega
  have hd' : u.pd p = some d := by
    rw [hpd, Function.update_of_ne hpc, hd]
  obtain ⟨own', free', hcopied⟩ := hstart.pages hinv hd' he hpc hm
  refine ⟨e', own', free', hpd, hcopied.inv, ?_, ?_, ?_, ?_⟩
  · intro g
    have := hgrows.owner g
    have := hcopied.owner g
    grind [Owner.Idle, Owner.process?]
  · intro g hg
    have hsame := hkept g hg
    have hc := hno g
    show m.mem g = s.phys.mem g
    rw [hcopied.mem g (by rwa [hsame]) ?_ ?_, hgrows.mem g hg]
    · rw [hsame]
      rintro hown
      rw [hown] at hc
      exact hc rfl
    · rw [hsame]
      rintro i hown
      rw [hown] at hc
      exact hc rfl
  · intro f i j hf
    obtain ⟨hdone, g, hg, he⟩ := hcopied.copied f i j hf
    rw [hdata] at hg
    refine ⟨hdone.1, g, hg, ?_⟩
    show m.mem f = s.phys.mem g
    rw [he, hgrows.mem g (by simp [hg])]
  · intro g i j hg hi
    obtain ⟨-, -, t, ht, -⟩ := h.layout.trees.page_of g p i j hg
    obtain ⟨-, hlt, -⟩ := h.layout.trees.table_of t p i ht
    exact hcopied.all g i j ((hdata g i j).mpr hg) ⟨hi, .inl hlt⟩

end Vm
end AudioKernel
