import AudioKernel.Shared.Counts

/-! What a change of one handle does to the counts. -/
namespace AudioKernel
open Lib

variable {H : Type}

namespace AfterDrop

@[simp] theorem pc_rhs? (k : AfterDrop H) : k.pc.rhs? = k.rhs? := by cases k <;> rfl

@[simp] theorem pc_brings? (k : AfterDrop H) : k.pc.brings? = k.brings? := by cases k <;> rfl

@[simp] theorem counted?_pc (k : AfterDrop H) (p : Option ℕ) : Handle.counted? ⟨p, k.pc⟩ = none := by
  cases k <;> rfl

@[simp] theorem deletes?_pc (k : AfterDrop H) (p : Option ℕ) : Handle.deletes? ⟨p, k.pc⟩ = none := by
  cases k <;> rfl

theorem pc_assign? (k : AfterDrop H) : k.pc.assign? = (HandlePc.dropDec k).assign? := by cases k <;> rfl

theorem pc_ne (k : AfterDrop H) : (∀ a, k.pc ≠ .add a) ∧ (∀ r, k.pc ≠ .moveNull r) := by
  cases k <;> simp [pc]

end AfterDrop

/-- The change of the handle is none of the objects' concern. -/
def Handle.Same (c c' : Handle H) : Prop :=
  c'.counted? = c.counted? ∧ c'.pc.brings? = c.pc.brings? ∧ c'.deletes? = c.deletes?

namespace SharedState

variable [DecidableEq H] [Fintype H] {s t : SharedState H} {h r : H} {c : Handle H} {x : ℕ}

theorem counters_update (hs' : t.handles = Function.update s.handles h c) (x : ℕ) :
    t.counters x + (s.handles h).counts x = s.counters x + c.counts x := by
  unfold counters
  rw [hs']
  exact sum_update (Handle.counts x) s.handles h c

theorem keepers_update (hs' : t.handles = Function.update s.handles h c) (x : ℕ) :
    t.keepers x + (s.handles h).keeps x = s.keepers x + c.keeps x := by
  unfold keepers
  rw [hs']
  exact sum_update (Handle.keeps x) s.handles h c

omit [DecidableEq H] in
theorem counts_le_counters : (s.handles h).counts x ≤ s.counters x := le_sum

omit [DecidableEq H] in
theorem keeps_le_keepers : (s.handles h).keeps x ≤ s.keepers x := le_sum

omit [DecidableEq H] in
theorem counters_le (s : SharedState H) (x : ℕ) : s.counters x ≤ Fintype.card H := by
  refine sum_le_card fun h => ?_
  unfold Handle.counts
  split_ifs <;> omega

namespace Balanced

omit [DecidableEq H] in
theorem congr (hb : Balanced s x) (hcounters : t.counters x = s.counters x) (hkeepers : t.keepers x = s.keepers x)
    (hobject : t.ref_count x = s.ref_count x ∧ t.live x = s.live x ∧ t.deletes x = s.deletes x)
    (hfresh : x < t.fresh ↔ x < s.fresh) : Balanced t x := by
  obtain ⟨hcount, hlive, hdeletes⟩ := hobject
  constructor
  case counted =>
    rw [hcounters, hkeepers, hcount, hlive]
    exact hb.counted
  case deleted =>
    rw [hcounters, hkeepers, hlive]
    exact hb.deleted
  case beyond =>
    intro hle
    rw [hlive, hdeletes]
    exact hb.beyond (by omega)
  case deletes =>
    rw [hlive, hdeletes, hfresh]
    exact hb.deletes

/-- The change of a handle leaves an object alone that it does not concern. -/
theorem elsewhere (hb : Balanced s x) (hs' : t.handles = Function.update s.handles h c)
    (hsame : c.counts x = (s.handles h).counts x ∧ c.keeps x = (s.handles h).keeps x)
    (hobject : t.ref_count x = s.ref_count x ∧ t.live x = s.live x ∧ t.deletes x = s.deletes x)
    (hfresh : x < t.fresh ↔ x < s.fresh) : Balanced t x := by
  have hcounters := counters_update hs' x
  have hkeepers := keepers_update hs' x
  exact hb.congr (by omega) (by omega) hobject hfresh

theorem set (hb : Balanced s x) (hsame : (s.handles h).Same c) : Balanced (s.set h c) x := by
  obtain ⟨hcounted, hbrings, hdeletes⟩ := hsame
  apply hb.elsewhere (t := s.set h c) rfl _ ⟨rfl, rfl, rfl⟩ Iff.rfl
  unfold Handle.counts Handle.keeps
  rw [hcounted, hbrings, hdeletes]
  exact ⟨rfl, rfl⟩

omit [DecidableEq H] in
theorem of_live (hlive : s.live x = true) (hcount : s.ref_count x = s.counters x)
    (hkeepers : s.keepers x = if s.counters x = 0 then 1 else 0) (hfresh : x < s.fresh) (hdeletes : s.deletes x = 0) :
    Balanced s x where
  counted := fun _ => ⟨hcount, hkeepers⟩
  deleted := fun hdead => absurd (hlive.symm.trans hdead) (by simp)
  beyond := fun hle => absurd hfresh (Nat.not_lt_of_le hle)
  deletes := fun _ => by rw [hlive, hdeletes]; rfl

omit [DecidableEq H] in
/-- An object that some handle counts for is live, and nobody has it in keeping. -/
theorem of_counted (hb : Balanced s x) (hx : (s.handles h).counted? = some x) :
    s.live x = true ∧ 0 < s.counters x ∧ s.ref_count x = s.counters x ∧ s.keepers x = 0 := by
  have hle : (s.handles h).counts x ≤ s.counters x := counts_le_counters
  rw [Handle.counts, if_pos hx] at hle
  cases hlive : s.live x with
  | false =>
    have hzero := (hb.deleted hlive).1
    omega
  | true =>
    obtain ⟨hcount, hkeepers⟩ := hb.counted hlive
    rw [if_neg (by omega)] at hkeepers
    exact ⟨rfl, hle, hcount, hkeepers⟩

omit [DecidableEq H] in
/-- An object that is in keeping is live, and no handle counts for it. -/
theorem of_kept (hb : Balanced s x) (hx : 0 < (s.handles h).keeps x) :
    s.live x = true ∧ s.counters x = 0 ∧ s.ref_count x = 0 ∧ s.keepers x = 1 := by
  have hle : (s.handles h).keeps x ≤ s.keepers x := keeps_le_keepers
  cases hlive : s.live x with
  | false =>
    have hzero := (hb.deleted hlive).2
    omega
  | true =>
    obtain ⟨hcount, hkeepers⟩ := hb.counted hlive
    split_ifs at hkeepers with hzero
    · exact ⟨rfl, hzero, hcount.trans hzero, hkeepers⟩
    · omega

omit [DecidableEq H] in
theorem undeleted (hb : Balanced s x) (hx : s.live x = true) : x < s.fresh ∧ s.deletes x = 0 := by
  have hlt : x < s.fresh := by
    by_contra hle
    have hdead := (hb.beyond (Nat.le_of_not_lt hle)).1
    rw [hx] at hdead
    cases hdead
  have hdeletes := hb.deletes hlt
  rw [hx] at hdeletes
  exact ⟨hlt, hdeletes⟩

/-- A drop takes the handle out of the count, and keeps the object for deletion when no other handle counts for it. -/
theorem dropDec {k : AfterDrop H} (hH : Fintype.card H < 2 ^ 32) (hb : ∀ z, Balanced s z) (hpc : (s.handles h).pc = .dropDec k)
    (hx : (s.handles h).ptr = some x) (y : ℕ) : Balanced (s.stepHandle h) y := by
  have hcounted : (s.handles h).counted? = some x := by rw [Handle.counted?, hpc]; exact hx
  have hdeletes : (s.handles h).deletes? = none := by rw [Handle.deletes?, hpc]
  have hbrings : (s.handles h).pc.brings? = k.brings? := by rw [hpc]; rfl
  obtain ⟨hlive, hpos, hcount, hkeepers⟩ := (hb x).of_counted hcounted
  have hle := s.counters_le x
  have hnew : (s.ref_count x + 2 ^ 32 - 1) % 2 ^ 32 = s.counters x - 1 := by omega
  obtain ⟨c, hc⟩ : ∃ c, Handle.mk (some x) (if s.counters x - 1 = 0 then .dropDelete k else k.pc) = c := ⟨_, rfl⟩
  have hstep : s.stepHandle h =
      { s.set h c with ref_count := Function.update s.ref_count x (s.counters x - 1) } := by
    simp only [stepHandle, hpc, hx, hnew, ← hc, setPc]
  have hafter : c.counted? = none ∧ c.pc.brings? = k.brings? ∧
      c.deletes? = if s.counters x - 1 = 0 then some x else none := by
    rw [← hc]
    split_ifs
    · exact ⟨rfl, rfl, rfl⟩
    · exact ⟨k.counted?_pc _, k.pc_brings?, k.deletes?_pc _⟩
  obtain ⟨hcounted', hbrings', hdeletes'⟩ := hafter
  by_cases hy : y = x
  · subst hy
    have hcounters := counters_update (s := s) (t := s.stepHandle h) (by rw [hstep]; rfl) y
    have hkeepers' := keepers_update (s := s) (t := s.stepHandle h) (by rw [hstep]; rfl) y
    simp only [Handle.counts, Handle.keeps, hcounted, hcounted', hdeletes, hdeletes', hbrings, hbrings', if_true,
      reduceCtorEq, if_false] at hcounters hkeepers'
    apply Balanced.of_live
    case hlive =>
      rw [hstep]
      exact hlive
    case hcount =>
      have href : (s.stepHandle h).ref_count y = s.counters y - 1 := by
        rw [hstep]
        exact Function.update_self ..
      omega
    case hkeepers =>
      have hnow : (s.stepHandle h).counters y = s.counters y - 1 := by omega
      rw [hnow]
      split_ifs at hkeepers' ⊢ <;> simp_all
    case hfresh =>
      rw [hstep]
      exact ((hb y).undeleted hlive).1
    case hdeletes =>
      rw [hstep]
      exact ((hb y).undeleted hlive).2
  · apply (hb y).elsewhere (t := s.stepHandle h) (h := h) (c := c)
    case hs' =>
      rw [hstep]
      rfl
    case hsame =>
      have hxy : some x ≠ some y := fun h => hy (Option.some.inj h).symm
      have hnone : (if s.counters x - 1 = 0 then some x else none) ≠ some y := by
        split_ifs
        · exact hxy
        · simp
      simp only [Handle.counts, Handle.keeps, hcounted, hcounted', hdeletes, hdeletes', hbrings, hbrings', hxy, hnone,
        reduceCtorEq, if_false, and_self]
    case hobject =>
      rw [hstep]
      exact ⟨Function.update_of_ne hy .., rfl, rfl⟩
    case hfresh => rw [hstep]; rfl

/-- The object that is deleted is in keeping for that, and no handle counts for it. -/
theorem dropDelete {k : AfterDrop H} (hb : ∀ z, Balanced s z) (hpc : (s.handles h).pc = .dropDelete k)
    (hx : (s.handles h).ptr = some x) (y : ℕ) : Balanced (s.stepHandle h) y := by
  have hcounted : (s.handles h).counted? = none := by rw [Handle.counted?, hpc]
  have hdeletes : (s.handles h).deletes? = some x := by rw [Handle.deletes?, hpc]; exact hx
  have hbrings : (s.handles h).pc.brings? = k.brings? := by rw [hpc]; rfl
  have hkeeps : 0 < (s.handles h).keeps x := by
    rw [Handle.keeps, if_pos hdeletes]
    exact Nat.succ_pos _
  obtain ⟨hlive, hzero, -, hone⟩ := (hb x).of_kept hkeeps
  have hundeleted := (hb x).undeleted hlive
  have hstep : s.stepHandle h = { s.set h ⟨some x, .dropNull k⟩ with
      live := Function.update s.live x false
      deletes := Function.update s.deletes x (s.deletes x + 1) } := by
    simp only [stepHandle, hpc, hx, setPc]
  have hafter : Handle.counted? ⟨some x, .dropNull k⟩ = none ∧ Handle.deletes? ⟨some x, .dropNull k⟩ = none ∧
      (HandlePc.dropNull k).brings? = k.brings? := ⟨rfl, rfl, rfl⟩
  obtain ⟨hcounted', hdeletes', hbrings'⟩ := hafter
  by_cases hy : y = x
  · subst hy
    have hcounters := counters_update (s := s) (t := s.stepHandle h) (by rw [hstep]; rfl) y
    have hkeepers := keepers_update (s := s) (t := s.stepHandle h) (by rw [hstep]; rfl) y
    simp only [Handle.counts, Handle.keeps, hcounted, hcounted', hdeletes, hdeletes', hbrings, hbrings', if_true,
      reduceCtorEq, if_false] at hcounters hkeepers
    have hdead : (s.stepHandle h).live y = false := by
      rw [hstep]
      exact Function.update_self ..
    have hdel : (s.stepHandle h).deletes y = 1 := by
      rw [hstep]
      exact (Function.update_self ..).trans (congrArg Nat.succ hundeleted.2)
    have hfresh : (s.stepHandle h).fresh = s.fresh := by rw [hstep]; rfl
    constructor
    case counted => exact fun hlive' => absurd (hdead.symm.trans hlive') (by simp)
    case deleted => exact fun _ => ⟨by omega, by omega⟩
    case beyond =>
      intro hle
      rw [hfresh] at hle
      exact absurd hundeleted.1 (Nat.not_lt_of_le hle)
    case deletes =>
      intro _
      rw [hdel, hdead]
      rfl
  · apply (hb y).elsewhere (t := s.stepHandle h) (h := h) (c := ⟨some x, .dropNull k⟩)
    case hs' =>
      rw [hstep]
      rfl
    case hsame =>
      have hxy : some x ≠ some y := fun h => hy (Option.some.inj h).symm
      simp only [Handle.counts, Handle.keeps, hcounted, hcounted', hdeletes, hdeletes', hbrings, hbrings', hxy,
        reduceCtorEq, if_false, and_self]
    case hobject =>
      rw [hstep]
      exact ⟨rfl, Function.update_of_ne hy .., Function.update_of_ne hy ..⟩
    case hfresh => rw [hstep]; rfl

/-- The handle is counted at last, for an object that is new or that the right-hand side counts for. -/
theorem count (hH : Fintype.card H < 2 ^ 32) (hb : ∀ z, Balanced s z)
    (hs' : t.handles = Function.update s.handles h c)
    (hold : (s.handles h).counted? = none ∧ (s.handles h).deletes? = none) (hnew : c.counted? = some x ∧ c.deletes? = none)
    (hbrings : c.pc.brings? = none) (hx : (s.handles h).pc.brings? = some x ∨
      (s.handles h).pc.brings? = none ∧ ∃ r, (s.handles r).counted? = some x)
    (href : t.ref_count = Function.update s.ref_count x ((s.ref_count x + 1) % 2 ^ 32))
    (hrest : t.live = s.live ∧ t.fresh = s.fresh ∧ t.deletes = s.deletes) (y : ℕ) : Balanced t y := by
  obtain ⟨hlive', hfresh', hdeletes'⟩ := hrest
  by_cases hy : y = x
  · subst hy
    have hcounters := counters_update hs' y
    have hkeepers := keepers_update hs' y
    have hle := t.counters_le y
    have hfacts : s.live y = true ∧ s.ref_count y = s.counters y ∧
        s.keepers y = if (s.handles h).pc.brings? = some y then 1 else 0 := by
      rcases hx with hx | ⟨hx, r, hr⟩
      · have hkeeps : 0 < (s.handles h).keeps y := by
          rw [Handle.keeps, if_pos hx]
          omega
        obtain ⟨hlive, hzero, hcount, hone⟩ := (hb y).of_kept hkeeps
        rw [if_pos hx]
        exact ⟨hlive, hcount.trans hzero.symm, hone⟩
      · obtain ⟨hlive, -, hcount, hnone⟩ := (hb y).of_counted hr
        rw [hx, if_neg (by simp)]
        exact ⟨hlive, hcount, hnone⟩
    obtain ⟨hlive, hcount, hkept⟩ := hfacts
    have hundeleted := (hb y).undeleted hlive
    simp only [Handle.counts, Handle.keeps, hold.1, hold.2, hnew.1, hnew.2, hbrings, if_true, reduceCtorEq,
      if_false] at hcounters hkeepers
    apply Balanced.of_live
    case hlive => rw [hlive', hlive]
    case hcount =>
      rw [href, Function.update_self, hcount]
      omega
    case hkeepers =>
      rw [if_neg (by omega)]
      omega
    case hfresh => rw [hfresh']; exact hundeleted.1
    case hdeletes => rw [hdeletes']; exact hundeleted.2
  · apply (hb y).elsewhere hs'
    case hsame =>
      have hxy : some x ≠ some y := fun h => hy (Option.some.inj h).symm
      have hbrings' : (s.handles h).pc.brings? ≠ some y := by
        rcases hx with hx | ⟨hx, -⟩ <;> rw [hx]
        · exact hxy
        · simp
      simp only [Handle.counts, Handle.keeps, hold.1, hold.2, hnew.1, hnew.2, hbrings, hbrings', hxy, reduceCtorEq,
        if_false, and_self]
    case hobject =>
      rw [href, hlive', hdeletes']
      exact ⟨Function.update_of_ne hy .., rfl, rfl⟩
    case hfresh => rw [hfresh']

/-- An operation begins with `new T`. -/
theorem create {pc : HandlePc H} (hb : ∀ z, Balanced s z)
    (hcounted : Handle.counted? ⟨(s.handles h).ptr, pc⟩ = (s.handles h).counted?)
    (hold : (s.handles h).pc.brings? = none ∧ (s.handles h).deletes? = none) (new : Bool)
    (hbrings : pc.brings? = s.created new) (hdeletes : Handle.deletes? ⟨(s.handles h).ptr, pc⟩ = none) (y : ℕ) :
    Balanced ((s.create new).setPc h pc) y := by
  cases new with
  | false =>
    exact (hb y).set ⟨hcounted, hbrings.trans hold.1.symm, hdeletes.trans hold.2.symm⟩
  | true =>
    have hs' : ((s.create true).setPc h pc).handles = Function.update s.handles h ⟨(s.handles h).ptr, pc⟩ := rfl
    have hsome : pc.brings? = some s.fresh := hbrings
    by_cases hy : y = s.fresh
    · subst hy
      obtain ⟨hdead, hdel⟩ := (hb s.fresh).beyond (Nat.le_refl _)
      obtain ⟨hzero, hnone⟩ := (hb s.fresh).deleted hdead
      have hcounters := counters_update hs' s.fresh
      have hkeepers := keepers_update hs' s.fresh
      simp only [Handle.counts, Handle.keeps, hcounted, hold.1, hold.2, hsome, hdeletes, if_true, reduceCtorEq,
        if_false] at hcounters hkeepers
      have hcount : ((s.create true).setPc h pc).ref_count s.fresh = 0 := Function.update_self ..
      apply Balanced.of_live
      case hlive => exact Function.update_self ..
      case hcount => omega
      case hkeepers =>
        rw [if_pos (by omega)]
        omega
      case hfresh => exact Nat.lt_succ_self _
      case hdeletes => exact hdel
    · apply (hb y).elsewhere hs'
      case hsame =>
        have hyf : some s.fresh ≠ some y := fun h => hy (Option.some.inj h).symm
        simp only [Handle.counts, Handle.keeps, hcounted, hold.1, hold.2, hsome, hdeletes, hyf, reduceCtorEq, if_false,
          and_self]
      case hobject => exact ⟨Function.update_of_ne hy .., Function.update_of_ne hy .., rfl⟩
      case hfresh =>
        show y < s.fresh + 1 ↔ y < s.fresh
        omega

end Balanced

end SharedState
end AudioKernel
