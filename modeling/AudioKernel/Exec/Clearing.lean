import AudioKernel.Vm.Isolation

/-! The loop with which `exec` gives up the private pages of the old program. -/
namespace AudioKernel
open Lib PhysMem VmConfig

namespace Config

variable (cfg : Config)

/-- A page in private space that `exec` does not skip. -/
def PrivatePage (va : ℕ) : Prop := InPrivate va ∧ va ≠ cfg.localAPIC ∧ va ≠ cfg.ioAPIC

end Config

namespace PhysMem

/-- The loop of `exec`. The counter is a `uint32_t`. -/
def clearPrivate (cfg : Config) (memSize d : ℕ) : ℕ → ℕ → PhysMem → Except Stop PhysMem
  | 0, _, _ => .error .diverge
  | fuel + 1, address, m =>
    if address < memSize then
      if address ≠ cfg.localAPIC ∧ address ≠ cfg.ioAPIC then
        match m.unmap d address with
        | none => .error (.panic "offset(p) == 0")
        | some m => clearPrivate cfg memSize d fuel ((address + 4096) % 2 ^ 32) m
      else clearPrivate cfg memSize d fuel ((address + 4096) % 2 ^ 32) m
    else .ok m

/-- When the loop is over, the old program has no private page. -/
def Clears (cfg : Config) (memSize : ℕ) (m : PhysMem) (d : ℕ) : Prop :=
  ∀ fuel m', m.clearPrivate cfg memSize d fuel 0x80000000 = .ok m' → ∀ va, cfg.PrivatePage va → m'.lookup d va = none

/-- In the private half of a directory, every table and every page is a frame of its own. -/
structure Separate (cfg : Config) (m : PhysMem) (d : ℕ) : Prop where
  dir : ∀ i, 512 ≤ i → i < 1024 → present (m.mem d i) = true → frameOf (m.mem d i) ≠ d
  table : ∀ i j, 512 ≤ i → i < 1024 → 512 ≤ j → j < 1024 → present (m.mem d i) = true → present (m.mem d j) = true →
    frameOf (m.mem d i) = frameOf (m.mem d j) → i = j
  page_dir : ∀ va, cfg.PrivatePage va → m.lookup d va ≠ some d
  page_table : ∀ va i, cfg.PrivatePage va → 512 ≤ i → i < 1024 → present (m.mem d i) = true →
    m.lookup d va ≠ some (frameOf (m.mem d i))
  page : ∀ va va' f, cfg.PrivatePage va → cfg.PrivatePage va' → m.lookup d va = some f → m.lookup d va' = some f →
    va = va'

variable {cfg : Config} {memSize : ℕ} {m m' : PhysMem} {d f va va' address fuel : ℕ}

theorem offset_frameOf (x : ℕ) : offset (frameOf x) = 0 := by
  unfold offset frameOf
  rw [Nat.and_assoc]
  exact Nat.and_zero x

theorem deallocFrame_frameOf (m : PhysMem) (x : ℕ) :
    m.deallocFrame (frameOf x) = some { m.store (frameOf x) 0 m.firstFree with firstFree := frameOf x } := by
  unfold deallocFrame
  rw [if_pos (offset_frameOf x)]

/-- What `unmap` does. -/
theorem unmap_cases (m : PhysMem) (d va : ℕ) :
    m.lookup d va = none ∧ m.unmap d va = some m ∨
      ∃ f m', m.lookup d va = some f ∧ present (m.mem d (pdiOf va)) = true ∧ m.unmap d va = some m' ∧
        ∀ g k, m'.mem g k = if g = f ∧ k = 0 then m.firstFree
          else if g = frameOf (m.mem d (pdiOf va)) ∧ k = ptiOf va then 0 else m.mem g k := by
  unfold PhysMem.lookup PhysMem.unmap
  dsimp only
  split_ifs with hpde hpte
  · refine .inr ⟨_, _, rfl, hpde, deallocFrame_frameOf _ _, ?_⟩
    intro g k
    show (PhysMem.store _ _ 0 _).mem g k = _
    rw [store_stored, store_stored]
    rfl
  · exact .inl ⟨rfl, rfl⟩
  · exact .inl ⟨rfl, rfl⟩

namespace Separate

/-- A page is found through the entry of its directory and the slot of its table. -/
theorem lookup_congr (hdir : m'.mem d = m.mem d)
    (hslot : present (m.mem d (pdiOf va)) = true →
      m'.mem (frameOf (m.mem d (pdiOf va))) (ptiOf va) = m.mem (frameOf (m.mem d (pdiOf va))) (ptiOf va)) :
    m'.lookup d va = m.lookup d va := by
  unfold PhysMem.lookup
  dsimp only
  rw [hdir]
  by_cases hpde : present (m.mem d (pdiOf va)) = true
  · rw [hslot hpde]
  · rw [if_neg hpde, if_neg hpde]

/-- One page is taken out. -/
theorem unmap (h : Separate cfg m d) (hva : cfg.PrivatePage va) :
    ∃ m', m.unmap d va = some m' ∧ Separate cfg m' d ∧ m'.lookup d va = none ∧
      (∀ va', InPrivate va' → va' ≠ va → m'.lookup d va' = m.lookup d va') ∧
      ∀ va' f, cfg.PrivatePage va' → va' ≠ va → m.lookup d va' = some f → m'.mem f = m.mem f := by
  rcases unmap_cases m d va with ⟨hnone, hm⟩ | ⟨f, m', hf, hpde, hm, hmem⟩
  · exact ⟨m, hm, h, hnone, fun _ _ _ => rfl, fun _ _ _ _ _ => rfl⟩
  obtain ⟨hlo, hhi⟩ := pdiOf_private hva.1.1 hva.1.2.1
  have hdir : m'.mem d = m.mem d := by
    funext k
    have hdf : d ≠ f := by
      rintro rfl
      exact h.page_dir va hva hf
    have hdt := h.dir _ hlo hhi hpde
    rw [hmem, if_neg fun hk => hdf hk.1, if_neg fun hk => hdt hk.1.symm]
  have htf : ∀ i, 512 ≤ i → i < 1024 → present (m.mem d i) = true → frameOf (m.mem d i) ≠ f := by
    rintro i hi hi' hp rfl
    exact h.page_table va i hva hi hi' hp hf
  have hself : m'.lookup d va = none := by
    have hslot : m'.mem (frameOf (m.mem d (pdiOf va))) (ptiOf va) = 0 := by
      rw [hmem, if_neg fun hk => htf _ hlo hhi hpde hk.1, if_pos ⟨rfl, rfl⟩]
    simp [PhysMem.lookup, hdir, hslot]
  have hother : ∀ va', InPrivate va' → va' ≠ va → m'.lookup d va' = m.lookup d va' := by
    intro va' hva' hne
    obtain ⟨hlo', hhi'⟩ := pdiOf_private hva'.1 hva'.2.1
    apply lookup_congr hdir
    intro hpde'
    rw [hmem, if_neg fun hk => htf _ hlo' hhi' hpde' hk.1, if_neg]
    rintro ⟨htable, hpti⟩
    have hpdi := h.table _ _ hlo' hhi' hlo hhi hpde' hpde htable
    exact hne (by rw [← pageAt_of hva'.2.2, hpdi, hpti, pageAt_of hva.1.2.2])
  have hback : ∀ va' g, cfg.PrivatePage va' → m'.lookup d va' = some g → m.lookup d va' = some g := by
    intro va' g hva' hg
    by_cases hne : va' = va
    · rw [hne, hself] at hg
      cases hg
    · rwa [hother va' hva'.1 hne] at hg
  refine ⟨m', hm, ⟨?_, ?_, ?_, ?_, ?_⟩, hself, hother, ?_⟩
  · rw [hdir]
    exact h.dir
  · rw [hdir]
    exact h.table
  · exact fun va' hva' hg => h.page_dir va' hva' (hback va' d hva' hg)
  · intro va' i hva' hi hi' hp hg
    rw [hdir] at hp hg
    exact h.page_table va' i hva' hi hi' hp (hback va' _ hva' hg)
  · intro va' va'' g hva' hva'' hg hg'
    exact h.page va' va'' g hva' hva'' (hback va' g hva' hg) (hback va'' g hva'' hg')
  · intro va' g hva' hne hg
    obtain ⟨hlo', hhi'⟩ := pdiOf_private hva'.1.1 hva'.1.2.1
    funext k
    have hgf : g ≠ f := by
      rintro rfl
      exact hne (h.page va' va g hva' hva hg hf)
    have hgt : g ≠ frameOf (m.mem d (pdiOf va)) := by
      rintro rfl
      exact h.page_table va' _ hva' hlo hhi hpde hg
    rw [hmem, if_neg fun hk => hgf hk.1, if_neg fun hk => hgt hk.1]

end Separate

/-- What has been done when the loop has come from `lo` to `hi`. -/
structure Cleared (cfg : Config) (m : PhysMem) (d lo hi : ℕ) (m' : PhysMem) : Prop where
  separate : Separate cfg m' d
  none : ∀ va, cfg.PrivatePage va → lo ≤ va → va < hi → m'.lookup d va = none
  kept : ∀ va, cfg.PrivatePage va → ¬ (lo ≤ va ∧ va < hi) → m'.lookup d va = m.lookup d va
  words : ∀ va f, cfg.PrivatePage va → ¬ (lo ≤ va ∧ va < hi) → m.lookup d va = some f → m'.mem f = m.mem f

namespace Cleared

variable {lo hi : ℕ}

theorem refl (h : Separate cfg m d) (hle : hi ≤ lo) : Cleared cfg m d lo hi m where
  separate := h
  none _ _ hlo hhi := absurd (hlo.trans_lt hhi) (Nat.not_lt_of_le hle)
  kept _ _ _ := rfl
  words _ _ _ _ _ := rfl

/-- One turn of the loop, at a page that it does not skip. -/
theorem unmap (h : Separate cfg m d) (hva : cfg.PrivatePage address) :
    ∃ m', m.unmap d address = some m' ∧ Cleared cfg m d address (address + 4096) m' := by
  have hmod := hva.1.2.2
  obtain ⟨m', hm, hsep, hself, hother, hwords⟩ := h.unmap hva
  refine ⟨m', hm, hsep, ?_, ?_, ?_⟩
  · intro va hva' hlo hhi
    have hmod' := hva'.1.2.2
    obtain rfl : va = address := by omega
    exact hself
  · intro va hva' hout
    exact hother va hva'.1 (by omega)
  · intro va f hva' hout hf
    exact hwords va f hva' (by omega) hf

/-- One turn of the loop, at a page that it skips. -/
theorem skip (h : Separate cfg m d) (hskip : ¬ cfg.PrivatePage address) (hmod : address % 4096 = 0) :
    Cleared cfg m d address (address + 4096) m where
  separate := h
  none va hva hlo hhi := by
    have hmod' := hva.1.2.2
    obtain rfl : va = address := by omega
    exact absurd hva hskip
  kept _ _ _ := rfl
  words _ _ _ _ _ := rfl

/-- A turn and the rest of the loop. -/
theorem cons {m'' : PhysMem} (h : Cleared cfg m d address (address + 4096) m')
    (h' : Cleared cfg m' d (address + 4096) hi m'') (hmod : address % 4096 = 0) (hlt : address < hi) :
    Cleared cfg m d address hi m'' where
  separate := h'.separate
  none va hva hge hhi := by
    by_cases hmid : va < address + 4096
    · rw [h'.kept va hva (by omega), h.none va hva hge hmid]
    · exact h'.none va hva (by omega) hhi
  kept va hva hout := by
    have hmod' := hva.1.2.2
    rw [h'.kept va hva (by omega), h.kept va hva (by omega)]
  words va f hva hout hf := by
    have hmod' := hva.1.2.2
    have hf' : m'.lookup d va = some f := by rwa [h.kept va hva (by omega)]
    rw [h'.words va f hva (by omega) hf', h.words va f hva (by omega) hf]

end Cleared

/-- A turn of the loop does not fail. -/
theorem clearPrivate_turn (hsep : Separate cfg m d) (hprivate : 0x80000000 ≤ address) (hhi : address < 2 ^ 32)
    (hmod : address % 4096 = 0) (hlt : address < memSize) (fuel : ℕ) :
    ∃ m', Cleared cfg m d address (address + 4096) m' ∧ m.clearPrivate cfg memSize d (fuel + 1) address =
      m'.clearPrivate cfg memSize d fuel ((address + 4096) % 2 ^ 32) := by
  by_cases hpage : address ≠ cfg.localAPIC ∧ address ≠ cfg.ioAPIC
  · obtain ⟨m', hm, hcleared⟩ := Cleared.unmap hsep ⟨⟨hprivate, hhi, hmod⟩, hpage⟩
    refine ⟨m', hcleared, ?_⟩
    rw [clearPrivate, if_pos hlt, if_pos hpage, hm]
  · refine ⟨m, Cleared.skip hsep (fun hva => hpage hva.2) hmod, ?_⟩
    rw [clearPrivate, if_pos hlt, if_neg hpage]

/-- The pages up to the end of the memory have been given up when the loop ends. -/
theorem clearPrivate_spec (hmem : memSize ≤ 0xFFFFF000) (hsep : Separate cfg m d) (hlo : 0x80000000 ≤ address)
    (hhi : address ≤ 0xFFFFF000) (hmod : address % 4096 = 0)
    (h : m.clearPrivate cfg memSize d fuel address = .ok m') : Cleared cfg m d address memSize m' := by
  induction fuel generalizing address m with
  | zero => cases h
  | succ fuel ih =>
    by_cases hlt : address < memSize
    · obtain ⟨m₁, hcleared, hturn⟩ := clearPrivate_turn hsep hlo (by omega) hmod hlt fuel
      rw [hturn, Nat.mod_eq_of_lt (by omega)] at h
      exact hcleared.cons (ih hcleared.separate (by omega) (by omega) (by omega) h) hmod hlt
    · rw [clearPrivate, if_neg hlt] at h
      obtain rfl := Except.ok.inj h
      exact .refl hsep (Nat.le_of_not_lt hlt)

/-- The loop ends unless its counter wraps. -/
theorem clearPrivate_ends (hmem : memSize ≤ 0xFFFFF000) (hsep : Separate cfg m d) (hlo : 0x80000000 ≤ address)
    (hhi : address ≤ 0xFFFFF000) (hmod : address % 4096 = 0) (hfuel : memSize ≤ address + 4096 * fuel) :
    ∃ m', m.clearPrivate cfg memSize d (fuel + 1) address = .ok m' := by
  induction fuel generalizing address m with
  | zero => exact ⟨m, by rw [clearPrivate, if_neg (by omega)]⟩
  | succ fuel ih =>
    by_cases hlt : address < memSize
    · obtain ⟨m₁, hcleared, hturn⟩ := clearPrivate_turn hsep hlo (by omega) hmod hlt (fuel + 1)
      rw [hturn, Nat.mod_eq_of_lt (by omega)]
      exact ih hcleared.separate (by omega) (by omega) (by omega) (by omega)
    · exact ⟨m, by rw [clearPrivate, if_neg hlt]⟩

/-- No address is as large as the memory, so that the counter goes round for ever. -/
theorem clearPrivate_diverges (hmem : 0xFFFFF000 < memSize) (m : PhysMem) (hhi : address < 2 ^ 32)
    (hmod : address % 4096 = 0) (fuel : ℕ) : m.clearPrivate cfg memSize d fuel address = .error .diverge := by
  induction fuel generalizing address m with
  | zero => rfl
  | succ fuel ih =>
    have hnext : (address + 4096) % 2 ^ 32 % 4096 = 0 := by omega
    have hrest := fun m => ih m (Nat.mod_lt (address + 4096) (by decide)) hnext
    rw [clearPrivate, if_pos (by omega)]
    split_ifs with hpage
    · rcases unmap_cases m d address with ⟨-, hm⟩ | ⟨f, m', -, -, hm, -⟩
      · rw [hm]
        exact hrest m
      · rw [hm]
        exact hrest m'
    · exact hrest m

/-- The loop leaves nothing of the old program just when it has no page at or above the end of the memory. -/
theorem clears_iff (cfg : Config) (memSize : ℕ) (m : PhysMem) (d : ℕ) (hsep : Separate cfg m d) :
    Clears cfg memSize m d ↔
      (memSize ≤ 0xFFFFF000 → ∀ va, cfg.PrivatePage va → memSize ≤ va → m.lookup d va = none) := by
  constructor
  · intro hclears hmem va hva hge
    obtain ⟨m', hm'⟩ : ∃ m', m.clearPrivate cfg memSize d (memSize + 1) 0x80000000 = .ok m' :=
      clearPrivate_ends hmem hsep le_rfl (by decide) rfl (by omega)
    have hcleared := clearPrivate_spec hmem hsep le_rfl (by decide) rfl hm'
    rw [← hcleared.kept va hva (by omega)]
    exact hclears _ m' hm' va hva
  · intro hnone fuel m' hm' va hva
    by_cases hmem : memSize ≤ 0xFFFFF000
    · have hcleared := clearPrivate_spec hmem hsep le_rfl (by decide) rfl hm'
      by_cases hlt : va < memSize
      · exact hcleared.none va hva hva.1.1 hlt
      · rw [hcleared.kept va hva (by omega)]
        exact hnone hmem va hva (Nat.le_of_not_lt hlt)
    · rw [clearPrivate_diverges (Nat.lt_of_not_le hmem) m (by decide) rfl fuel] at hm'
      cases hm'

/-- A directory with one table, and in it one page at the beginning of private space. -/
def onePage : PhysMem where
  mem f i := if f = 0x1000 ∧ i = 512 then 0x2007 else if f = 0x2000 ∧ i = 0 then 0x3007 else 0
  firstFree := 0
  avail := 0x4000
  limit := 0x8000

theorem onePage_entry {i : ℕ} (h : present (onePage.mem 0x1000 i) = true) : i = 512 := by
  by_contra hne
  have hzero : onePage.mem 0x1000 i = 0 := by simp [onePage, hne]
  rw [hzero, present_zero] at h
  cases h

theorem onePage_lookup (h : onePage.lookup 0x1000 va = some f) : pdiOf va = 512 ∧ ptiOf va = 0 ∧ f = 0x3000 := by
  unfold PhysMem.lookup at h
  dsimp only at h
  split_ifs at h with hpde hpte
  have hpdi := onePage_entry hpde
  have htable : frameOf (onePage.mem 0x1000 (pdiOf va)) = 0x2000 := by
    rw [hpdi]
    decide
  rw [htable] at h hpte
  have hpti : ptiOf va = 0 := by
    by_contra hne
    have hzero : onePage.mem 0x2000 (ptiOf va) = 0 := by simp [onePage, hne]
    rw [hzero, present_zero] at hpte
    cases hpte
  rw [hpti] at h
  exact ⟨hpdi, hpti, (Option.some.inj h).symm⟩

theorem onePage_separate (cfg : Config) : Separate cfg onePage 0x1000 := by
  constructor
  · intro i _ _ hp
    rw [onePage_entry hp]
    decide
  · intro i j _ _ _ _ hp hp' _
    rw [onePage_entry hp, onePage_entry hp']
  · intro va _ hf
    obtain ⟨-, -, hf⟩ := onePage_lookup hf
    exact absurd hf (by decide)
  · intro va i _ _ _ hp hf
    obtain ⟨-, -, hf⟩ := onePage_lookup hf
    rw [onePage_entry hp] at hf
    exact absurd hf (by decide)
  · intro va va' f hva hva' hf hf'
    obtain ⟨hi, hj, -⟩ := onePage_lookup hf
    obtain ⟨hi', hj', -⟩ := onePage_lookup hf'
    rw [← pageAt_of hva.1.2.2, ← pageAt_of hva'.1.2.2, hi, hj, hi', hj']

/-- The page lies below the end of a memory that reaches into private space. -/
theorem onePage_clears : onePage.lookup 0x1000 0x80000000 = some 0x3000 ∧
    Clears World.pcConfig 0x80001000 onePage 0x1000 := by
  refine ⟨by decide, (clears_iff World.pcConfig 0x80001000 onePage 0x1000 (onePage_separate _)).mpr ?_⟩
  intro _ va hva hge
  by_contra hne
  obtain ⟨f, hf⟩ := Option.ne_none_iff_exists'.mp hne
  obtain ⟨hi, hj, -⟩ := onePage_lookup hf
  have hpage := pageAt_of hva.1.2.2
  rw [hi, hj] at hpage
  have hlt : pageAt 512 0 < 0x80001000 := by decide
  omega

end PhysMem

theorem VmConfig.privatePage_iff (cfg : VmConfig) (va : ℕ) : cfg.toConfig.PrivatePage va ↔ cfg.Private va := by
  unfold Config.PrivatePage InPrivate VmConfig.Private VmConfig.Apic
  tauto

namespace Vm

/-- The directory of a process is in order in every state that the kernel reaches. -/
theorem Inv.separate {cfg : VmConfig} {kernel : ℕ → Prop} {s : Vm} {own : ℕ → Owner} {free : List ℕ} {p d : ℕ}
    (h : Inv cfg kernel s own free) (hd : s.pd p = some d) : Separate cfg.toConfig s.phys d := by
  have hdir : own d = .dir p := (h.layout.trees.dir d p).mpr hd
  have htable : ∀ i, 512 ≤ i → i < 1024 → present (s.phys.mem d i) = true →
      own (frameOf (s.phys.mem d i)) = .table p i := by
    intro i hlo hhi hp
    rcases h.layout.trees.table p d i hd hlo hhi with hzero | ⟨t, ht, he⟩
    · rw [hzero, present_zero] at hp
      cases hp
    · rw [he, h.layout.pool.frameOf_or (by simp [ht]), ht]
  have hpage : ∀ va f, cfg.toConfig.PrivatePage va → s.phys.lookup d va = some f →
      own f = .data p (pdiOf va) (ptiOf va) := by
    intro va f hva hf
    rw [← lookup_of_pd hd] at hf
    exact (h.lookup_iff hd ((cfg.privatePage_iff va).mp hva)).mp hf
  constructor
  · intro i hlo hhi hp heq
    have hown := htable i hlo hhi hp
    rw [heq, hdir] at hown
    cases hown
  · intro i j hlo hhi hlo' hhi' hp hp' heq
    have hown := htable i hlo hhi hp
    rw [heq, htable j hlo' hhi' hp'] at hown
    exact (Owner.table.inj hown).2.symm
  · intro va hva hf
    have hown := hpage va d hva hf
    rw [hdir] at hown
    cases hown
  · intro va i hva hlo hhi hp hf
    have hown := hpage va _ hva hf
    rw [htable i hlo hhi hp] at hown
    cases hown
  · intro va va' f hva hva' hf hf'
    have hown := hpage va f hva hf
    rw [hpage va' f hva' hf'] at hown
    obtain ⟨-, hi, hj⟩ := Owner.data.inj hown
    rw [← pageAt_of hva.1.2.2, ← pageAt_of hva'.1.2.2, hi, hj]

theorem separate_of_reachable {cfg : VmConfig} {s : Vm} {p d : ℕ} (hs : (vmMachine cfg).Reachable s)
    (hd : s.pd p = some d) : Separate cfg.toConfig s.phys d := by
  obtain ⟨kernel, own, free, h⟩ := wellFormed_of_reachable hs
  exact h.separate hd

/-- A process that has a page; the loop ends at once. -/
theorem exec_keeps_page : ∃ s d, (vmMachine pc128M).Reachable s ∧ s.pd 0 = some d ∧
    ¬ Clears pc128M.toConfig pc128M.memSize s.phys d := by
  obtain ⟨t, hrun, hcheck⟩ : ∃ t, (vmMachine pc128M).Run (booted pc128M) [.create, .pageFault 0 0x80000000] t ∧
      (t.lookup 0 0x80000000 == some 0x623000) = true := Machine.exists_run_of_replay (by decide +kernel)
  have hl := beq_iff_eq.mp hcheck
  obtain ⟨d, hd, -⟩ := Option.bind_eq_some_iff.mp hl
  refine ⟨t, d, hrun.reachable (.init (booted_booted (by decide) (by decide))), hd, ?_⟩
  intro hclears
  have hva : pc128M.toConfig.PrivatePage 0x80000000 := (pc128M.privatePage_iff _).mpr (by decide)
  have hnone := hclears 1 t.phys rfl 0x80000000 hva
  rw [← lookup_of_pd hd, hl] at hnone
  cases hnone

end Vm
end AudioKernel
