import AudioKernel.Shared.Steps

/-! The life of an object: its count is exact, it is deleted once, and no handle at rest dangles. -/
namespace AudioKernel
open Lib

variable {H : Type}

def Handle.Points (x : ℕ) (c : Handle H) : Prop := c.pc = .idle ∧ c.ptr = some x

instance [DecidableEq H] (x : ℕ) (c : Handle H) : Decidable (c.Points x) :=
  inferInstanceAs (Decidable (_ ∧ _))

namespace SharedState

def AtRest (s : SharedState H) : Prop := ∀ h, (s.handles h).pc = .idle ∨ (s.handles h).pc = .dead

def pointers [DecidableEq H] [Fintype H] (s : SharedState H) (x : ℕ) : Finset H :=
  Finset.univ.filter fun h => (s.handles h).Points x

variable [DecidableEq H] [Fintype H] {s s' : SharedState H} {h r : H} {c : Handle H} {x : ℕ}

omit [Fintype H] in
/-- A new object is brought by the operation that has created it, and by no other. -/
theorem brings_of_step {g : H} (hx : ((s.stepHandle h).handles g).pc.brings? = some x) :
    (s.handles g).pc.brings? = some x := by
  have hset : ∀ (t : SharedState H) (c : Handle H), (c.pc.brings? = some x → (t.handles h).pc.brings? = some x) →
      ((t.set h c).handles g).pc.brings? = some x → (t.handles g).pc.brings? = some x := by
    intro t c hc hg
    by_cases hgh : g = h
    · subst hgh
      have hself : (t.set g c).handles g = c := Function.update_self ..
      rw [hself] at hg
      exact hc hg
    · have hother : (t.set h c).handles g = t.handles g := Function.update_of_ne hgh ..
      rw [hother] at hg
      exact hg
  have hback : ∀ a, ((s.giveBack a).handles g).pc.brings? = some x → (s.handles g).pc.brings? = some x := by
    intro a hg
    by_cases hr : a.rhs? = some g
    · rw [giveBack_rhs hr] at hg
      cases hg
    · rw [giveBack_other hr] at hg
      exact hg
  cases hpc : (s.handles h).pc with
  | dead | idle | lent =>
    simp only [stepHandle, hpc] at hx
    exact hx
  | test a =>
    simp only [stepHandle, hpc] at hx
    split_ifs at hx with hptr
    · exact hset s _ (by rw [hpc]; exact id) hx
    · exact hback a (hset (s.giveBack a) _ (by simp [HandlePc.brings?]) hx)
  | dropDec k =>
    cases hp : (s.handles h).ptr with
    | none =>
      simp only [stepHandle, hpc, hp] at hx
      exact hset s _ (by rw [hpc]; exact fun hk => k.pc_brings?.symm.trans hk) hx
    | some y =>
      simp only [stepHandle, hpc, hp] at hx
      refine hset s _ ?_ hx
      rw [hpc]
      split_ifs
      · exact id
      · exact fun hk => k.pc_brings?.symm.trans hk
  | dropDelete k =>
    cases hp : (s.handles h).ptr <;> simp only [stepHandle, hpc, hp] at hx <;>
      exact hset s _ (by rw [hpc]; exact id) hx
  | dropNull k =>
    simp only [stepHandle, hpc] at hx
    exact hset s _ (by rw [hpc]; exact fun hk => k.pc_brings?.symm.trans hk) hx
  | store a =>
    simp only [stepHandle, hpc] at hx
    exact hset s _ (by rw [hpc]; exact id) hx
  | add a =>
    cases hp : (s.handles h).ptr <;> simp only [stepHandle, hpc, hp] at hx <;>
      exact hback a (hset (s.giveBack a) _ (by simp [HandlePc.brings?]) hx)
  | moveStore r =>
    simp only [stepHandle, hpc] at hx
    exact hset s _ (by simp [HandlePc.brings?]) hx
  | moveNull r =>
    simp only [stepHandle, hpc] at hx
    have hx' := hset (s.set r ⟨none, .idle⟩) _ (by simp [HandlePc.brings?]) hx
    by_cases hgr : g = r
    · subst hgr
      have hself : (s.set g ⟨none, .idle⟩).handles g = ⟨none, .idle⟩ := Function.update_self ..
      rw [hself] at hx'
      cases hx'
    · have hother : (s.set r ⟨none, .idle⟩).handles g = s.handles g := Function.update_of_ne hgr ..
      rw [hother] at hx'
      exact hx'

omit [Fintype H] in
theorem live_of_step (hx : s.live x = true) (hnot : ∀ h, (s.handles h).deletes? ≠ some x) (a : SharedAct H) :
    (s.next a).live x = true := by
  have hback : ∀ a, (s.giveBack a).live = s.live := by
    intro a
    cases a <;> rfl
  have hcreate : ∀ new, (s.create new).live x = true := by
    intro new
    cases new with
    | false => exact hx
    | true =>
      show Function.update s.live s.fresh true x = true
      by_cases hfresh : x = s.fresh
      · rw [hfresh, Function.update_self]
      · rw [Function.update_of_ne hfresh]
        exact hx
  cases a with
  | construct h | destroy h | constructCopy h rhs | constructMove h rhs | assignCopy h rhs | assignMove h rhs => exact hx
  | constructRaw h new | assignRaw h new => exact hcreate new
  | step h =>
    show (s.stepHandle h).live x = true
    cases hpc : (s.handles h).pc with
    | dead | idle | lent | dropNull k | store a | moveStore r | moveNull r =>
      simp only [stepHandle, hpc]
      exact hx
    | test a =>
      simp only [stepHandle, hpc]
      split_ifs
      · exact hx
      · rw [← hback a] at hx
        exact hx
    | dropDec k =>
      cases hp : (s.handles h).ptr <;> simp only [stepHandle, hpc, hp] <;> exact hx
    | add a =>
      rw [← hback a] at hx
      cases hp : (s.handles h).ptr <;> simp only [stepHandle, hpc, hp] <;> exact hx
    | dropDelete k =>
      cases hp : (s.handles h).ptr with
      | none =>
        simp only [stepHandle, hpc, hp]
        exact hx
      | some y =>
        have hxy : x ≠ y := by
          rintro rfl
          have hdeletes := hnot h
          rw [Handle.deletes?, hpc] at hdeletes
          exact hdeletes hp
        simp only [stepHandle, hpc, hp]
        exact (Function.update_of_ne hxy ..).trans hx

omit [Fintype H] in
theorem brings_of_next {g : H} {a : SharedAct H} (hx : ((s.next a).handles g).pc.brings? = some x) :
    (s.handles g).pc.brings? = some x ∨ s.fresh ≤ x := by
  have hset : ∀ (t : SharedState H) (h : H) (c : Handle H), ((t.set h c).handles g).pc.brings? = some x →
      c.pc.brings? = some x ∨ (t.handles g).pc.brings? = some x := by
    intro t h c hg
    by_cases hgh : g = h
    · subst hgh
      have hself : (t.set g c).handles g = c := Function.update_self ..
      rw [hself] at hg
      exact .inl hg
    · have hother : (t.set h c).handles g = t.handles g := Function.update_of_ne hgh ..
      rw [hother] at hg
      exact .inr hg
  have hlent : ∀ r, ((s.setPc r .lent).handles g).pc.brings? = some x → (s.handles g).pc.brings? = some x :=
    fun r hg => (hset s r _ hg).resolve_left (by simp [HandlePc.brings?])
  have hcreate : ∀ (new : Bool) (pc : HandlePc H) h, pc.brings? = s.created new →
      (((s.create new).setPc h pc).handles g).pc.brings? = some x → (s.handles g).pc.brings? = some x ∨ s.fresh ≤ x := by
    intro new pc h hpc hg
    rcases hset (s.create new) h _ hg with hnew | hold
    · right
      cases new with
      | false => cases hpc.symm.trans hnew
      | true =>
        obtain rfl : s.fresh = x := Option.some.inj (hpc.symm.trans hnew)
        exact Nat.le_refl _
    · left
      cases new <;> exact hold
  cases a with
  | construct h => exact .inl ((hset s h _ hx).resolve_left (by simp [HandlePc.brings?]))
  | destroy h => exact .inl ((hset s h _ hx).resolve_left (by simp [HandlePc.brings?, AfterDrop.brings?]))
  | constructRaw h new => exact hcreate new _ h rfl hx
  | assignRaw h new => exact hcreate new _ h rfl hx
  | constructCopy h rhs | constructMove h rhs | assignCopy h rhs | assignMove h rhs =>
    exact .inl (hlent rhs ((hset (s.setPc rhs .lent) h _ hx).resolve_left (by
      simp [HandlePc.brings?, Assign.brings?, AfterDrop.brings?])))
  | step h => exact .inl (brings_of_step hx)

omit [Fintype H] in
/-- Only a step of its own drop has a handle delete an object. -/
theorem deletes_of_next {g : H} {a : SharedAct H} (hx : ((s.next a).handles g).deletes? = some x)
    (hnot : (s.handles g).deletes? ≠ some x) :
    a = .step g ∧ ∃ k, (s.handles g).pc = .dropDec k ∧ (s.handles g).ptr = some x := by
  have hset : ∀ (t : SharedState H) (h : H) (c : Handle H), c.deletes? = none →
      ((t.set h c).handles g).deletes? = some x → (t.handles g).deletes? = some x := by
    intro t h c hc hg
    by_cases hgh : g = h
    · subst hgh
      have hself : (t.set g c).handles g = c := Function.update_self ..
      rw [hself, hc] at hg
      cases hg
    · have hother : (t.set h c).handles g = t.handles g := Function.update_of_ne hgh ..
      rwa [hother] at hg
  have hcreate : ∀ (new : Bool) (h : H) (pc : HandlePc H), Handle.deletes? ⟨(s.handles h).ptr, pc⟩ = none →
      (((s.create new).setPc h pc).handles g).deletes? = some x → (s.handles g).deletes? = some x := by
    intro new h pc hpc hg
    cases new <;> exact hset _ h _ hpc hg
  have hback : ∀ b, ((s.giveBack b).handles g).deletes? = some x → (s.handles g).deletes? = some x := by
    intro b hg
    cases b with
    | raw it => exact hg
    | copy r p => exact hset s r _ rfl hg
  cases a with
  | construct h | destroy h => exact absurd (hset s h _ rfl hx) hnot
  | constructRaw h new | assignRaw h new => exact absurd (hcreate new h _ rfl hx) hnot
  | constructCopy h rhs | constructMove h rhs | assignCopy h rhs | assignMove h rhs =>
    exact absurd (hset s rhs _ rfl (hset (s.setPc rhs .lent) h _ rfl hx)) hnot
  | step h =>
    change ((s.stepHandle h).handles g).deletes? = some x at hx
    cases hpc : (s.handles h).pc with
    | dead | idle | lent =>
      simp only [stepHandle, hpc] at hx
      exact absurd hx hnot
    | test b =>
      simp only [stepHandle, hpc] at hx
      split_ifs at hx
      · exact absurd (hset s h _ rfl hx) hnot
      · exact absurd (hback b (hset (s.giveBack b) h _ rfl hx)) hnot
    | dropDec k =>
      cases hp : (s.handles h).ptr with
      | none =>
        simp only [stepHandle, hpc, hp] at hx
        exact absurd (hset s h _ (k.deletes?_pc _) hx) hnot
      | some y =>
        simp only [stepHandle, hpc, hp] at hx
        by_cases hgh : g = h
        · subst hgh
          split_ifs at hx
          · have hself : (s.setPc g (.dropDelete k)).handles g = ⟨(s.handles g).ptr, .dropDelete k⟩ :=
              Function.update_self ..
            rw [hself] at hx
            exact ⟨rfl, k, hpc, hx⟩
          · exact absurd (hset s g _ (k.deletes?_pc _) hx) hnot
        · have hother (pc : HandlePc H) : (s.setPc h pc).handles g = s.handles g := Function.update_of_ne hgh ..
          rw [hother] at hx
          exact absurd hx hnot
    | dropDelete k =>
      cases hp : (s.handles h).ptr <;> simp only [stepHandle, hpc, hp] at hx <;> exact absurd (hset s h _ rfl hx) hnot
    | dropNull k =>
      simp only [stepHandle, hpc] at hx
      exact absurd (hset s h _ (k.deletes?_pc _) hx) hnot
    | store b | moveStore r =>
      simp only [stepHandle, hpc] at hx
      exact absurd (hset s h _ rfl hx) hnot
    | add b =>
      cases hp : (s.handles h).ptr <;> simp only [stepHandle, hpc, hp] at hx <;>
        exact absurd (hback b (hset (s.giveBack b) h _ rfl hx)) hnot
    | moveNull r =>
      simp only [stepHandle, hpc] at hx
      exact absurd (hset s r _ rfl (hset (s.set r ⟨none, .idle⟩) h _ rfl hx)) hnot

omit [Fintype H] in
/-- A step of the drop of one handle leaves what the others count for. -/
theorem counted_of_dropDec {g : H} {k : AfterDrop H} (hpc : (s.handles g).pc = .dropDec k) (hgh : h ≠ g) :
    (s.next (.step g)).handles h = s.handles h := by
  show (s.stepHandle g).handles h = _
  cases hp : (s.handles g).ptr <;> simp only [stepHandle, hpc, hp] <;> exact Function.update_of_ne hgh ..

namespace Inv

variable {a : Assign H}

omit [DecidableEq H] in
/-- A live object that no handle counts for is about to get its first handle or to be deleted. -/
theorem kept_of_uncounted (hi : Inv s) (hlive : s.live x = true) (hnone : ∀ h, (s.handles h).counted? ≠ some x) :
    (∃ h, (s.handles h).pc.brings? = some x) ∨ ∃ h, (s.handles h).deletes? = some x := by
  have hzero : s.counters x = 0 := Finset.sum_eq_zero fun h _ => by rw [Handle.counts, if_neg (hnone h)]
  have hkeepers := ((hi.balanced x).counted hlive).2
  rw [if_pos hzero] at hkeepers
  have hne : ∑ h, (s.handles h).keeps x ≠ 0 := by
    unfold keepers at hkeepers
    omega
  obtain ⟨h, hh⟩ := exists_of_sum_ne_zero (f := Handle.keeps x) hne
  by_cases hbrings : (s.handles h).pc.brings? = some x
  · exact .inl ⟨h, hbrings⟩
  · by_cases hdeletes : (s.handles h).deletes? = some x
    · exact .inr ⟨h, hdeletes⟩
    · rw [Handle.keeps, if_neg hbrings, if_neg hdeletes] at hh
      exact absurd rfl hh

/-- When the last handle that counts for an object stops doing so, that is its own drop, which goes on to delete the
object. -/
theorem last_handle (hH : Fintype.card H < 2 ^ 32) (hi : Inv s) {a : SharedAct H} (he : s.enabled a = true)
    (hx : (s.handles h).counted? = some x) (hnone : ∀ g, ((s.next a).handles g).counted? ≠ some x) :
    a = .step h ∧ (∃ k, (s.handles h).pc = .dropDec k) ∧ ((s.next a).handles h).deletes? = some x := by
  obtain ⟨hlive, -, -, hkeepers⟩ := (hi.balanced x).of_counted hx
  have hkeeps : ∀ g, (s.handles g).keeps x = 0 := by
    intro g
    have hle : (s.handles g).keeps x ≤ s.keepers x := keeps_le_keepers
    omega
  have hnot : ∀ g, (s.handles g).deletes? ≠ some x := by
    intro g hg
    have hzero := hkeeps g
    rw [Handle.keeps, if_pos hg] at hzero
    omega
  rcases (hi.next hH he).kept_of_uncounted (live_of_step hlive hnot a) hnone with ⟨g, hg⟩ | ⟨g, hg⟩
  · rcases brings_of_next hg with hbrings | hfresh
    · have hzero := hkeeps g
      rw [Handle.keeps, if_pos hbrings] at hzero
      omega
    · exact absurd ((hi.balanced x).undeleted hlive).1 (Nat.not_lt_of_le hfresh)
  · obtain ⟨rfl, k, hpc, -⟩ := deletes_of_next hg (hnot g)
    obtain rfl : h = g := by
      by_contra hgh
      refine hnone h ?_
      rw [counted_of_dropDec hpc hgh]
      exact hx
    exact ⟨rfl, ⟨k, hpc⟩, hg⟩

/-- Nothing is in keeping while no operation is in progress. -/
theorem at_rest (hi : Inv s) (hrest : s.AtRest) (hlive : s.live x = true) :
    s.ref_count x = (s.pointers x).card ∧ 0 < (s.pointers x).card := by
  have hcounts : ∀ h, (s.handles h).counts x = if (s.handles h).Points x then 1 else 0 := by
    intro h
    have hiff : (s.handles h).counted? = some x ↔ (s.handles h).Points x := by
      unfold Handle.counted? Handle.Points
      rcases hrest h with hpc | hpc <;> rw [hpc] <;> simp
    exact if_congr hiff rfl rfl
  have hcard : s.counters x = (s.pointers x).card := by
    unfold counters pointers
    rw [Finset.card_filter]
    exact Finset.sum_congr rfl fun h _ => hcounts h
  have hkeeps : ∀ h, (s.handles h).keeps x = 0 := by
    intro h
    unfold Handle.keeps Handle.deletes?
    rcases hrest h with hpc | hpc <;> rw [hpc] <;> simp [HandlePc.brings?]
  have hnone : s.keepers x = 0 := Finset.sum_eq_zero fun h _ => hkeeps h
  obtain ⟨hcount, hkeepers⟩ := (hi.balanced x).counted hlive
  rw [hnone] at hkeepers
  rw [← hcard]
  refine ⟨hcount, Nat.pos_of_ne_zero fun hzero => ?_⟩
  rw [if_pos hzero] at hkeepers
  cases hkeepers

omit [DecidableEq H] in
theorem live_of_counted (hi : Inv s) (hx : (s.handles h).counted? = some x) : s.live x = true :=
  ((hi.balanced x).of_counted hx).1

omit [DecidableEq H] in
theorem of_deletes (hi : Inv s) (hx : (s.handles h).deletes? = some x) :
    s.live x = true ∧ ∀ g, (s.handles g).counted? ≠ some x := by
  have hkeeps : 0 < (s.handles h).keeps x := by
    rw [Handle.keeps, if_pos hx]
    omega
  obtain ⟨hlive, hzero, -, -⟩ := (hi.balanced x).of_kept hkeeps
  refine ⟨hlive, fun g hg => ?_⟩
  have hpos := ((hi.balanced x).of_counted hg).2.1
  omega

omit [DecidableEq H] in
theorem live_of_add (hi : Inv s) (hpc : (s.handles h).pc = .add a) (hx : (s.handles h).ptr = some x) :
    s.live x = true := by
  have hvalue := (hi.borrowing.added h a hpc).symm.trans hx
  have ha : (s.handles h).pc.assign? = some a := by rw [hpc]; rfl
  cases a with
  | raw it =>
    have hbrings : (s.handles h).pc.brings? = some x := by
      rw [hpc]
      exact hvalue
    have hkeeps : 0 < (s.handles h).keeps x := by
      rw [Handle.keeps, if_pos hbrings]
      omega
    exact ((hi.balanced x).of_kept hkeeps).1
  | copy r p =>
    obtain ⟨hptr, hne⟩ := hi.borrowing.copied h r p ha
    have hrh := hne fun b hb => by rw [hpc] at hb; cases hb
    have hlent := (hi.borrowing.lent h r (HandlePc.rhs_of_copy ha)).resolve_left hrh
    apply hi.live_of_counted (h := r)
    rw [Handle.counted?, hlent]
    exact hptr.trans hvalue

omit [DecidableEq H] in
/-- A handle that has taken over the pointer of another one points to a live object until it has set that to null. -/
theorem live_of_moveNull (hi : Inv s) (hpc : (s.handles h).pc = .moveNull r) (hr : r ≠ h)
    (hx : (s.handles h).ptr = some x) : s.live x = true := by
  have hlent : (s.handles r).pc = .lent := (hi.borrowing.lent h r (by rw [hpc]; rfl)).resolve_left hr
  apply hi.live_of_counted (h := r)
  rw [Handle.counted?, hlent]
  exact (hi.borrowing.moved h r hpc).symm.trans hx

omit [DecidableEq H] in
theorem deletes_le (hi : Inv s) (x : ℕ) : s.deletes x ≤ 1 ∧ (x < s.fresh → (s.deletes x = 1 ↔ s.live x = false)) := by
  by_cases hfresh : x < s.fresh
  · have hdeletes := (hi.balanced x).deletes hfresh
    cases hlive : s.live x with
    | false =>
      rw [hlive] at hdeletes
      exact ⟨hdeletes.le, fun _ => iff_of_true hdeletes rfl⟩
    | true =>
      rw [hlive] at hdeletes
      have hzero : s.deletes x = 0 := hdeletes
      rw [hzero]
      exact ⟨Nat.zero_le 1, fun _ => iff_of_false Nat.zero_ne_one (by simp)⟩
  · have hzero := ((hi.balanced x).beyond (Nat.le_of_not_lt hfresh)).2
    rw [hzero]
    exact ⟨Nat.zero_le 1, fun hlt => absurd hlt hfresh⟩

end Inv

/-- While no operation is in progress, counts are exact and an object is live just when a handle points to it. An object
is deleted at most once, by the drop that takes the last handle out of its count; and a handle that is not past the
decrement of its own drop points to a live object, as does one whose operation is about to use the object, or to set
another handle, whose pointer it has taken over, to null. -/
theorem references_counted (s : SharedState HandlePtr) (hs : (sharedMachine HandlePtr).Reachable s) :
    (s.AtRest → ∀ x, (s.live x = true ↔ 0 < (s.pointers x).card) ∧
      (s.live x = true → s.ref_count x = (s.pointers x).card)) ∧
    (∀ x, s.deletes x ≤ 1 ∧ (x < s.fresh → (s.deletes x = 1 ↔ s.live x = false))) ∧
    (∀ h x, (s.handles h).deletes? = some x → s.live x = true ∧ ∀ g, (s.handles g).counted? ≠ some x) ∧
    (∀ a h x, s.enabled a = true → (s.handles h).counted? = some x →
      (∀ g, ((s.next a).handles g).counted? ≠ some x) →
      a = .step h ∧ (∃ k, (s.handles h).pc = .dropDec k) ∧ ((s.next a).handles h).deletes? = some x) ∧
    (∀ h x, (s.handles h).counted? = some x → s.live x = true) ∧
    (∀ h a x, (s.handles h).pc = .add a → (s.handles h).ptr = some x → s.live x = true) ∧
    (∀ h r x, (s.handles h).pc = .moveNull r → r ≠ h → (s.handles h).ptr = some x → s.live x = true) := by
  have hcard : Fintype.card HandlePtr < 2 ^ 32 := by
    rw [Fintype.card_fin]
    decide
  have hi : Inv s := .reachable hcard hs
  refine ⟨fun hrest x => ⟨⟨fun hlive => (hi.at_rest hrest hlive).2, fun hpos => ?_⟩,
    fun hlive => (hi.at_rest hrest hlive).1⟩, hi.deletes_le, fun h x => hi.of_deletes,
    fun a h x he hx => hi.last_handle hcard he hx, fun h x => hi.live_of_counted, fun h a x => hi.live_of_add,
    fun h r x => hi.live_of_moveNull⟩
  obtain ⟨h, hh⟩ := Finset.card_pos.mp hpos
  obtain ⟨hidle, hptr⟩ := (Finset.mem_filter.mp hh).2
  apply hi.live_of_counted (h := h)
  rw [Handle.counted?, hidle]
  exact hptr

/-- Two handles of one object: the first is assigned null, and the second destroyed before the first has stored it. -/
def lateStore : List (SharedAct HandlePtr) :=
  [.constructRaw 0 true, .step 0, .step 0, .constructCopy 1 0, .step 1, .step 1, .assignRaw 0 false, .step 0, .step 0,
    .destroy 1, .step 1, .step 1]

/-- The first handle then points to a deleted object until it stores its new value. -/
theorem dangling_in_assignment : ∃ s, (sharedMachine HandlePtr).Reachable s ∧
    (s.handles 0).pc = .store (.raw none) ∧ (s.handles 0).ptr = some 0 ∧ s.live 0 = false ∧ s.deletes 0 = 1 := by
  have hrun : ∃ s, (sharedMachine HandlePtr).Run .new lateStore s ∧
      decide ((s.handles 0).pc = .store (.raw none) ∧ (s.handles 0).ptr = some 0 ∧ s.live 0 = false ∧
        s.deletes 0 = 1) = true :=
    Machine.exists_run_of_replay (by decide +kernel)
  obtain ⟨s, hs, hcheck⟩ := hrun
  exact ⟨s, hs.reachable (.init rfl), of_decide_eq_true hcheck⟩

/-- Two handles of one object, the second taken over by a third. -/
def takenOver : List (SharedAct HandlePtr) :=
  [.constructRaw 0 true, .step 0, .step 0, .constructCopy 1 0, .step 1, .step 1, .constructMove 2 1, .step 2]

/-- In the middle of the move both the old and the new handle point to the object, which the first counts for as well. -/
theorem takenOver_counted : ∃ s, (sharedMachine HandlePtr).Reachable s ∧ (s.handles 0).counted? = some 0 ∧
    (s.handles 2).pc = .moveNull 1 ∧ (s.handles 2).ptr = some 0 ∧ s.live 0 = true ∧ s.deletes 0 ≤ 1 := by
  have hrun : ∃ s, (sharedMachine HandlePtr).Run .new takenOver s ∧
      decide ((s.handles 0).counted? = some 0 ∧ (s.handles 2).pc = .moveNull 1 ∧ (s.handles 2).ptr = some 0) = true :=
    Machine.exists_run_of_replay (by decide +kernel)
  obtain ⟨s, hs, hcheck⟩ := hrun
  obtain ⟨hcounted, hpc, hptr⟩ := of_decide_eq_true hcheck
  have hreach := hs.reachable (.init rfl)
  obtain ⟨-, hdeletes, -, -, -, -, hmoved⟩ := references_counted s hreach
  exact ⟨s, hreach, hcounted, hpc, hptr, hmoved 2 1 0 hpc (by decide) hptr, (hdeletes 0).1⟩

end SharedState
end AudioKernel
