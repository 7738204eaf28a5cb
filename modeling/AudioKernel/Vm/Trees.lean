import AudioKernel.Vm.Pool

/-! The page tables of the processes, as the owners of the frames describe them. -/
namespace AudioKernel
open Lib PhysMem

/-- The directories and the tables of the processes have just the frames that they own, at the places that they own them
for. -/
structure Trees (cfg : VmConfig) (mem : ℕ → ℕ → ℕ) (pd : ℕ → Option ℕ) (own : ℕ → Owner) : Prop where
  dir : ∀ f p, own f = .dir p ↔ pd p = some f
  gap : ∀ p d i, pd p = some d → cfg.sharedEntries ≤ i → i < 512 → mem d i = 0
  table : ∀ p d i, pd p = some d → 512 ≤ i → i < 1024 → mem d i = 0 ∨ ∃ t, own t = .table p i ∧ mem d i = t ||| 7
  table_of : ∀ t p i, own t = .table p i → 512 ≤ i ∧ i < 1024 ∧ ∃ d, pd p = some d ∧ mem d i = t ||| 7
  apic : ∀ t p i j, own t = .table p i → j < 1024 → cfg.Apic (pageAt i j) → mem t j = 0 ∨ mem t j = pageAt i j ||| 7
  page : ∀ t p i j, own t = .table p i → j < 1024 → ¬ cfg.Apic (pageAt i j) →
    mem t j = 0 ∨ ∃ f, own f = .data p i j ∧ mem t j = f ||| 7
  page_of : ∀ f p i j, own f = .data p i j → j < 1024 ∧ ¬ cfg.Apic (pageAt i j) ∧
    ∃ t, own t = .table p i ∧ mem t j = f ||| 7
  aligned : ∀ f, ¬ (own f).Loose → f % 4096 = 0

namespace Trees

variable {cfg : VmConfig} {mem mem' : ℕ → ℕ → ℕ} {pd : ℕ → Option ℕ} {own own' : ℕ → Owner} {p d t f i j : ℕ}

theorem or_ne_zero (x : ℕ) : x ||| 7 ≠ 0 := by
  simp [Nat.or_eq_zero_iff]

/-- `mem'` is `mem` with one word changed. -/
def Stored (mem mem' : ℕ → ℕ → ℕ) (f i v : ℕ) : Prop := ∀ g k, mem' g k = if g = f ∧ k = i then v else mem g k

/-- What frames outside the trees hold, and who holds them, does not matter. -/
theorem congr (h : Trees cfg mem pd own) (hown : ∀ f, own' f = own f ∨ (own' f).Loose ∧ (own f).Loose)
    (hmem : ∀ f, ¬ (own f).Loose → (∀ p i j, own f ≠ .data p i j) → mem' f = mem f) : Trees cfg mem' pd own' := by
  have hdir : ∀ f q, own' f = .dir q ↔ own f = .dir q := by
    intro f q
    grind [Owner.Loose]
  have htable : ∀ f q i, own' f = .table q i ↔ own f = .table q i := by
    intro f q i
    grind [Owner.Loose]
  have hdata : ∀ f q i j, own' f = .data q i j ↔ own f = .data q i j := by
    intro f q i j
    grind [Owner.Loose]
  have hd : ∀ d q, pd q = some d → mem' d = mem d := by
    intro d q hq
    have := h.dir d q
    grind [Owner.Loose]
  have ht : ∀ t q i, own t = .table q i → mem' t = mem t := by
    intro t q i hq
    grind [Owner.Loose]
  constructor
  · intro f q
    rw [hdir, h.dir]
  · intro q d i hq
    rw [hd d q hq]
    exact h.gap q d i hq
  · intro q d i hq
    simp only [hd d q hq, htable]
    exact h.table q d i hq
  · intro t q i hq
    rw [htable] at hq
    obtain ⟨hlo, hhi, d, hpd, he⟩ := h.table_of t q i hq
    exact ⟨hlo, hhi, d, hpd, by rw [hd d q hpd, he]⟩
  · intro t q i j hq
    rw [htable] at hq
    rw [ht t q i hq]
    exact h.apic t q i j hq
  · intro t q i j hq
    rw [htable] at hq
    simp only [ht t q i hq, hdata]
    exact h.page t q i j hq
  · intro f q i j hq
    rw [hdata] at hq
    obtain ⟨hj, ha, t, hown, he⟩ := h.page_of f q i j hq
    exact ⟨hj, ha, t, (htable t q i).mpr hown, by rw [ht t q i hown, he]⟩
  · intro f hf
    apply h.aligned f
    grind [Owner.Loose]

theorem or_inj {x y : ℕ} (hx : x % 4096 = 0) (hy : y % 4096 = 0) (h : x ||| 7 = y ||| 7) : x = y := by
  rw [or_low (k := 12) hx (by decide), or_low (k := 12) hy (by decide)] at h
  exact Nat.add_right_cancel h

/-- Only processes with a directory have frames. -/
theorem live (h : Trees cfg mem pd own) (hf : (own f).process? = some p) : ∃ d, pd p = some d := by
  cases hown : own f with
  | dir q =>
    rw [hown] at hf
    obtain rfl : q = p := Option.some.inj hf
    exact ⟨f, (h.dir f q).mp hown⟩
  | table q i =>
    rw [hown] at hf
    obtain rfl : q = p := Option.some.inj hf
    obtain ⟨-, -, d, hd, -⟩ := h.table_of f q i hown
    exact ⟨d, hd⟩
  | data q i j =>
    rw [hown] at hf
    obtain rfl : q = p := Option.some.inj hf
    obtain ⟨-, -, t, ht, -⟩ := h.page_of f q i j hown
    obtain ⟨-, -, d, hd, -⟩ := h.table_of t q i ht
    exact ⟨d, hd⟩
  | _ =>
    rw [hown] at hf
    cases hf

theorem not_live (h : Trees cfg mem pd own) (hp : pd p = none) : (own f).process? ≠ some p := by
  intro hf
  obtain ⟨d, hd⟩ := h.live hf
  rw [hp] at hd
  cases hd

/-- A process has one page table for an entry. -/
theorem unique_table (h : Trees cfg mem pd own) (ht : own t = .table p i) (hf : own f = .table p i) : f = t := by
  obtain ⟨-, -, d, hd, he⟩ := h.table_of t p i ht
  obtain ⟨-, -, d', hd', he'⟩ := h.table_of f p i hf
  obtain rfl : d = d' := Option.some.inj (hd.symm.trans hd')
  exact or_inj (h.aligned f (by simp [hf, Owner.Loose])) (h.aligned t (by simp [ht, Owner.Loose])) (he'.symm.trans he)

/-- A process has one frame for a page. -/
theorem unique_page {g : ℕ} (h : Trees cfg mem pd own) (hf : own f = .data p i j) (hg : own g = .data p i j) :
    g = f := by
  obtain ⟨-, -, t, ht, he⟩ := h.page_of f p i j hf
  obtain ⟨-, -, t', ht', he'⟩ := h.page_of g p i j hg
  obtain rfl := h.unique_table ht ht'
  exact or_inj (h.aligned g (by simp [hg, Owner.Loose])) (h.aligned f (by simp [hf, Owner.Loose])) (he'.symm.trans he)

/-- The entry for a table. -/
theorem entry (h : Trees cfg mem pd own) (hd : pd p = some d) (ht : own t = .table p i) : mem d i = t ||| 7 := by
  obtain ⟨-, -, d', hd', he⟩ := h.table_of t p i ht
  obtain rfl : d = d' := Option.some.inj (hd.symm.trans hd')
  exact he

theorem no_table (h : Trees cfg mem pd own) (hd : pd p = some d) (hzero : mem d i = 0) : own t ≠ .table p i := by
  intro ht
  rw [h.entry hd ht] at hzero
  exact or_ne_zero t hzero

/-- The entry for a page. -/
theorem slot (h : Trees cfg mem pd own) (ht : own t = .table p i) (hf : own f = .data p i j) : mem t j = f ||| 7 := by
  obtain ⟨-, -, t', ht', he⟩ := h.page_of f p i j hf
  obtain rfl := h.unique_table ht ht'
  exact he

theorem no_page (h : Trees cfg mem pd own) (ht : own t = .table p i) (hzero : mem t j = 0) : own f ≠ .data p i j := by
  intro hf
  rw [h.slot ht hf] at hzero
  exact or_ne_zero f hzero

theorem no_page_of (h : Trees cfg mem pd own) (hno : ∀ t, own t ≠ .table p i) : own f ≠ .data p i j := by
  intro hf
  obtain ⟨-, -, t, ht, -⟩ := h.page_of f p i j hf
  exact hno t ht

/-- A cleared frame becomes a page table. -/
theorem linkTable (h : Trees cfg mem pd own) (hd : pd p = some d) (hlo : 512 ≤ i) (hhi : i < 1024) (hzero : mem d i = 0)
    (ht : (own t).Loose) (halign : t % 4096 = 0) (hclear : ∀ j, mem t j = 0) (hmem : Stored mem mem' d i (t ||| 7))
    (hown : ∀ f, own' f = if f = t then .table p i else own f) : Trees cfg mem' pd own' := by
  have hdir : own d = .dir p := (h.dir d p).mpr hd
  have hor := or_ne_zero
  have hne : t ≠ d := by
    rintro rfl
    exact ht.1 p hdir
  constructor
  · intro f q
    have := h.dir f q
    grind [Owner.Loose]
  · intro q d' i' hq hle hlt
    have := h.gap q d' i' hq hle hlt
    grind [Stored]
  · intro q d' i' hq hle hlt
    have := h.table q d' i' hq hle hlt
    have := h.dir d' q
    grind [Stored, Owner.Loose]
  · intro t' q i' ht'
    have := h.table_of t' q i'
    grind [Stored]
  · intro t' q i' j' ht' hj' ha
    have := h.apic t' q i' j'
    grind [Stored]
  · intro t' q i' j' ht' hj' ha
    have := h.page t' q i' j'
    grind [Stored, Owner.Loose]
  · intro f q i' j' hf
    have := h.page_of f q i' j'
    grind [Stored, Owner.Loose]
  · intro f hf
    have := h.aligned f
    grind

/-- A frame becomes a page; the one that was there before, if any, is in no address space then. -/
theorem linkPage (h : Trees cfg mem pd own) (ht : own t = .table p i) (hj : j < 1024) (ha : ¬ cfg.Apic (pageAt i j))
    (hf : (own f).Loose) (halign : f % 4096 = 0) (hmem : Stored mem mem' t j (f ||| 7))
    (hown : ∀ g, own' g = if g = f then .data p i j else if own g = .data p i j then .held else own g) :
    Trees cfg mem' pd own' := by
  have hor := or_ne_zero
  have hne : t ≠ f := by
    rintro rfl
    exact hf.2.1 p i ht
  constructor
  · intro g q
    have := h.dir g q
    grind [Owner.Loose]
  · intro q d' i' hq hle hlt
    have := h.gap q d' i' hq hle hlt
    have := h.dir d' q
    grind [Stored]
  · intro q d' i' hq hle hlt
    have := h.table q d' i' hq hle hlt
    have := h.dir d' q
    grind [Stored, Owner.Loose]
  · intro t' q i' ht'
    have hq : own t' = .table q i' := by grind
    obtain ⟨hlo, hhi, d', hd', he⟩ := h.table_of t' q i' hq
    have := h.dir d' q
    exact ⟨hlo, hhi, d', hd', by grind [Stored]⟩
  · intro t' q i' j' ht' hj' ha'
    have := h.apic t' q i' j'
    grind [Stored]
  · intro t' q i' j' ht' hj' ha'
    have hq : own t' = .table q i' := by grind
    have := h.page t' q i' j' hq hj' ha'
    by_cases hsame : q = p ∧ i' = i
    · obtain ⟨rfl, rfl⟩ := hsame
      obtain rfl := h.unique_table ht hq
      grind [Stored, Owner.Loose]
    · grind [Stored, Owner.Loose]
  · intro g q i' j' hg
    by_cases hgf : g = f
    · obtain ⟨rfl, rfl, rfl⟩ : q = p ∧ i' = i ∧ j' = j := by grind
      refine ⟨hj, ha, t, ?_, ?_⟩
      · grind
      · grind [Stored]
    · have hq : own g = .data q i' j' := by grind
      obtain ⟨hj', ha', t', ht', he⟩ := h.page_of g q i' j' hq
      refine ⟨hj', ha', t', ?_, ?_⟩
      · grind [Owner.Loose]
      · grind [Stored]
  · intro g hg
    have := h.aligned g
    grind [Owner.Loose]

/-- The page of an interrupt controller is mapped to itself. -/
theorem linkApic (h : Trees cfg mem pd own) (ht : own t = .table p i) (ha : cfg.Apic (pageAt i j))
    (hmem : Stored mem mem' t j (pageAt i j ||| 7)) : Trees cfg mem' pd own := by
  constructor
  · exact h.dir
  · intro q d' i' hq hle hlt
    have := h.gap q d' i' hq hle hlt
    have := h.dir d' q
    grind [Stored]
  · intro q d' i' hq hle hlt
    have := h.table q d' i' hq hle hlt
    have := h.dir d' q
    grind [Stored]
  · intro t' q i' ht'
    have hq : own t' = .table q i' := by grind
    obtain ⟨hlo, hhi, d', hd', he⟩ := h.table_of t' q i' hq
    have := h.dir d' q
    exact ⟨hlo, hhi, d', hd', by grind [Stored]⟩
  · intro t' q i' j' ht' hj' ha'
    have := h.apic t' q i' j'
    grind [Stored]
  · intro t' q i' j' ht' hj' ha'
    have := h.page t' q i' j'
    grind [Stored]
  · intro g q i' j' hg
    have := h.page_of g q i' j'
    grind [Stored]
  · exact h.aligned

/-- A page is taken out of its address space. -/
theorem unlinkPage (h : Trees cfg mem pd own) (ht : own t = .table p i) (hj : j < 1024) (hf : own f = .data p i j)
    (hmem : Stored mem mem' t j 0) (hown : ∀ g, own' g = if g = f then .held else own g) : Trees cfg mem' pd own' := by
  constructor
  · intro g q
    have := h.dir g q
    grind
  · intro q d' i' hq hle hlt
    have := h.gap q d' i' hq hle hlt
    grind [Stored]
  · intro q d' i' hq hle hlt
    have := h.table q d' i' hq hle hlt
    have := h.dir d' q
    grind [Stored]
  · intro t' q i' ht'
    have hq : own t' = .table q i' := by grind
    obtain ⟨hlo, hhi, d', hd', he⟩ := h.table_of t' q i' hq
    have := h.dir d' q
    exact ⟨hlo, hhi, d', hd', by grind [Stored]⟩
  · intro t' q i' j' ht' hj' ha'
    have := h.apic t' q i' j'
    grind [Stored]
  · intro t' q i' j' ht' hj' ha'
    have hq : own t' = .table q i' := by grind
    have := h.page t' q i' j' hq hj' ha'
    by_cases hsame : q = p ∧ i' = i
    · obtain ⟨rfl, rfl⟩ := hsame
      obtain rfl := h.unique_table ht hq
      grind [Stored]
    · grind [Stored]
  · intro g q i' j' hg
    have hq : own g = .data q i' j' := by grind
    obtain ⟨hj', ha, t', ht', he⟩ := h.page_of g q i' j' hq
    have hne : ¬ (q = p ∧ i' = i ∧ j' = j) := by
      rintro ⟨rfl, rfl, rfl⟩
      have := h.unique_page hf hq
      grind
    have hsame : q = p → i' = i → t' = t → j' ≠ j := by grind
    refine ⟨hj', ha, t', ?_, ?_⟩
    · grind
    · grind [Stored]
  · intro g hg
    have := h.aligned g
    grind [Owner.Loose]

/-- A frame without entries in private space becomes the directory of a process. -/
theorem newDir {pd' : ℕ → Option ℕ} (h : Trees cfg mem pd own) (hp : pd p = none) (hf : (own f).Loose)
    (halign : f % 4096 = 0) (hclear : ∀ i, cfg.sharedEntries ≤ i → mem f i = 0)
    (hpd : ∀ q, pd' q = if q = p then some f else pd q) (hown : ∀ g, own' g = if g = f then .dir p else own g) :
    Trees cfg mem pd' own' := by
  have hle := cfg.sharedEntries_le
  have hnot : ∀ g, own g ≠ .dir p := by
    intro g hg
    rw [(h.dir g p).mp hg] at hp
    cases hp
  constructor
  · intro g q
    have := h.dir g q
    grind [Owner.Loose]
  · intro q d i hq hi hlt
    have := h.gap q d i
    grind
  · intro q d i hq hi hlt
    have := h.table q d i
    grind [Owner.Loose]
  · intro t q i ht
    have := h.table_of t q i
    grind
  · intro t q i j ht hj ha
    have := h.apic t q i j
    grind
  · intro t q i j ht hj ha
    have := h.page t q i j
    grind [Owner.Loose]
  · intro g q i j hg
    have := h.page_of g q i j
    grind [Owner.Loose]
  · intro g hg
    have := h.aligned g
    grind

/-- A process gives up its address space; its frames belong to no other. -/
theorem release {pd' : ℕ → Option ℕ} (h : Trees cfg mem pd own) (hpd : ∀ q, pd' q = if q = p then none else pd q)
    (hown : ∀ g, own' g = if (own g).process? = some p then .held else own g) : Trees cfg mem pd' own' := by
  have hdir : ∀ g q, own' g = .dir q ↔ own g = .dir q ∧ q ≠ p := by
    intro g q
    grind [Owner.process?]
  have htable : ∀ g q i, own' g = .table q i ↔ own g = .table q i ∧ q ≠ p := by
    intro g q i
    grind [Owner.process?]
  have hdata : ∀ g q i j, own' g = .data q i j ↔ own g = .data q i j ∧ q ≠ p := by
    intro g q i j
    grind [Owner.process?]
  constructor
  · intro g q
    have := h.dir g q
    grind
  · intro q d i hq hi hlt
    have := h.gap q d i
    grind
  · intro q d i hq hi hlt
    have := h.table q d i
    grind
  · intro t q i ht
    have := h.table_of t q i
    grind
  · intro t q i j ht hj ha
    have := h.apic t q i j
    grind
  · intro t q i j ht hj ha
    have := h.page t q i j
    grind
  · intro g q i j hg
    have := h.page_of g q i j
    grind
  · intro g hg
    have := h.aligned g
    grind [Owner.Loose]

end Trees
end AudioKernel
