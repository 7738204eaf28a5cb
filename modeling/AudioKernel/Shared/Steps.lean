import AudioKernel.Shared.Balance

/-! The steps of the operations on handles keep the counts, and what is lent to them. -/
namespace AudioKernel
open Lib

variable {H : Type}

namespace SharedState

variable [DecidableEq H] [Fintype H] {s t : SharedState H} {h r : H} {c : Handle H} {x : ℕ}

omit [DecidableEq H] in
/-- The objects, and who borrows which handle. -/
structure Inv (s : SharedState H) : Prop where
  balanced : ∀ x, Balanced s x
  borrowing : Borrowing s

section giveBack
variable {a : Assign H}

omit [Fintype H] in
theorem setPc_ptr (s : SharedState H) (r : H) (pc : HandlePc H) (g : H) :
    ((s.setPc r pc).handles g).ptr = (s.handles g).ptr := by
  show (Function.update s.handles r ⟨(s.handles r).ptr, pc⟩ g).ptr = _
  by_cases hg : g = r
  · rw [hg, Function.update_self]
  · rw [Function.update_of_ne hg]

omit [Fintype H] in
theorem giveBack_other {a : Assign H} {g : H} (hg : a.rhs? ≠ some g) : (s.giveBack a).handles g = s.handles g := by
  cases a with
  | raw it => rfl
  | copy r p =>
    apply Function.update_of_ne
    rintro rfl
    exact hg rfl

omit [Fintype H] in
theorem giveBack_rhs {r : H} (hr : a.rhs? = some r) : (s.giveBack a).handles r = ⟨(s.handles r).ptr, .idle⟩ := by
  cases a with
  | raw it => cases hr
  | copy q p =>
    obtain rfl : q = r := Option.some.inj hr
    exact Function.update_self ..

end giveBack

namespace Inv

variable {a : Assign H}

theorem giveBack (hi : Inv s) (ha : (s.handles h).pc.assign? = some a) (x : ℕ) : Balanced (s.giveBack a) x := by
  cases a with
  | raw it => exact hi.balanced x
  | copy r p =>
    apply (hi.balanced x).set
    rcases hi.borrowing.lent h r (HandlePc.rhs_of_copy ha) with hrh | hlent
    · have htest : ∃ a, (s.handles h).pc = .test a := by
        by_contra hnot
        exact (hi.borrowing.copied h r p ha).2 (fun a ha' => hnot ⟨a, ha'⟩) hrh
      obtain ⟨a, htest⟩ := htest
      rw [htest] at ha
      obtain rfl : a = .copy r p := Option.some.inj ha
      rw [hrh]
      unfold Handle.Same Handle.counted? Handle.deletes?
      rw [htest]
      exact ⟨rfl, rfl, rfl⟩
    · unfold Handle.Same Handle.counted? Handle.deletes?
      rw [hlent]
      exact ⟨rfl, rfl, rfl⟩

omit [Fintype H] in
theorem finish (hb : Borrowing s) (hpc : (s.handles h).pc ≠ .lent) (ha : (s.handles h).pc.assign? = some a)
    (hs' : t.handles = ((s.giveBack a).setPc h .idle).handles) : Borrowing t := by
  apply hb.finish hpc
  case hme =>
    have hme : t.handles h = ⟨((s.giveBack a).handles h).ptr, .idle⟩ := by
      rw [hs']
      exact Function.update_self ..
    rw [hme]
    exact .inl rfl
  case hothers =>
    intro g hg
    have hsame : t.handles g = (s.giveBack a).handles g := by
      rw [hs']
      exact Function.update_of_ne hg ..
    rw [hsame]
    cases a with
    | raw it => exact .inl rfl
    | copy r p =>
      by_cases hgr : g = r
      · subst hgr
        rw [giveBack_rhs rfl]
        exact .inr ⟨rfl, HandlePc.rhs_of_copy ha⟩
      · exact .inl (giveBack_other (a := .copy r p) fun h => hgr (Option.some.inj h).symm)

theorem test (hi : Inv s) (hpc : (s.handles h).pc = .test a) : Inv (s.stepHandle h) := by
  have ha : (s.handles h).pc.assign? = some a := by rw [hpc]; rfl
  by_cases hptr : (s.handles h).ptr = a.value
  · have hstep : s.stepHandle h = (s.giveBack a).setPc h .idle := by
      simp only [stepHandle, hpc, hptr, ne_eq, not_true_eq_false, if_false]
    rw [hstep]
    refine ⟨fun x => ?_, finish hi.borrowing (by rw [hpc]; simp) ha rfl⟩
    -- a new object is not the one that the handle has
    have hbrings : a.brings? = none := by
      cases a with
      | copy r p => rfl
      | raw it =>
        cases it with
        | none => rfl
        | some x =>
          have hcounted : (s.handles h).counted? = some x := by rw [Handle.counted?, hpc]; exact hptr
          have hkeeps : 0 < (s.handles h).keeps x := by
            have hbrings : (s.handles h).pc.brings? = some x := by rw [hpc]; rfl
            rw [Handle.keeps, if_pos hbrings]
            omega
          have hzero := ((hi.balanced x).of_kept hkeeps).2.1
          have hpos := ((hi.balanced x).of_counted hcounted).2.1
          omega
    apply (hi.giveBack ha x).set
    by_cases hrhs : a.rhs? = some h
    · rw [giveBack_rhs hrhs]
      exact ⟨rfl, rfl, rfl⟩
    · rw [giveBack_other hrhs]
      unfold Handle.Same Handle.counted? Handle.deletes?
      rw [hpc]
      exact ⟨rfl, hbrings.symm, rfl⟩
  · have hstep : s.stepHandle h = s.setPc h (.dropDec (.assign a)) := by
      simp only [stepHandle, hpc, ne_eq, hptr, not_false_eq_true, if_true]
    rw [hstep]
    constructor
    case balanced =>
      intro x
      apply (hi.balanced x).set
      unfold Handle.Same Handle.counted? Handle.deletes?
      rw [hpc]
      exact ⟨rfl, rfl, rfl⟩
    case borrowing =>
      apply hi.borrowing.inside (t := s.setPc h (.dropDec (.assign a))) (h := h) rfl
      case hpc =>
        rw [hpc]
        simp
      case hrhs => rw [hpc]; rfl
      case hassign => rw [hpc]; rfl
      case hself =>
        intro p hp
        rw [hpc] at hp
        obtain rfl : a = .copy h p := Option.some.inj hp
        exact hptr (hi.borrowing.copied h h p ha).1
      case hadded => simp
      case hmoved => simp

theorem add (hH : Fintype.card H < 2 ^ 32) (hi : Inv s) (hpc : (s.handles h).pc = .add a) : Inv (s.stepHandle h) := by
  have ha : (s.handles h).pc.assign? = some a := by rw [hpc]; rfl
  have hvalue := hi.borrowing.added h a hpc
  have hrhs : ∀ r, a.rhs? = some r → r ≠ h ∧ (s.handles r).pc = .lent ∧ (s.handles r).ptr = a.value := by
    intro r hr
    cases a with
    | raw it => cases hr
    | copy q p =>
      obtain rfl : q = r := Option.some.inj hr
      obtain ⟨hptr, hne⟩ := hi.borrowing.copied h q p ha
      have hqh := hne fun b hb => by rw [hpc] at hb; cases hb
      exact ⟨hqh, (hi.borrowing.lent h q (HandlePc.rhs_of_copy ha)).resolve_left hqh, hptr⟩
  have hsame : (s.giveBack a).handles h = s.handles h := giveBack_other fun hr => (hrhs h hr).1 rfl
  have hback : ∀ x, Balanced (s.giveBack a) x := fun x => hi.giveBack ha x
  constructor
  case balanced =>
    intro y
    cases hx : (s.handles h).ptr with
    | none =>
      have hstep : s.stepHandle h = (s.giveBack a).setPc h .idle := by simp only [stepHandle, hpc, hx]
      have hbrings : a.brings? = none := by
        cases a with
        | copy r p => rfl
        | raw it => exact hvalue.symm.trans hx
      rw [hstep]
      apply (hback y).set
      rw [hsame]
      unfold Handle.Same Handle.counted? Handle.deletes?
      rw [hpc, hx]
      exact ⟨rfl, hbrings.symm, rfl⟩
    | some x =>
      apply Balanced.count (s := s.giveBack a) (h := h) (c := ⟨some x, .idle⟩) (x := x) hH hback
      case hs' => simp only [stepHandle, hpc, hx, setPc, hsame]; rfl
      case hold =>
        rw [hsame, Handle.counted?, Handle.deletes?, hpc]
        exact ⟨rfl, rfl⟩
      case hnew => exact ⟨rfl, rfl⟩
      case hbrings => rfl
      case hx =>
        rw [hsame, hpc]
        cases a with
        | raw it => exact .inl (hvalue.symm.trans hx)
        | copy r p =>
          refine .inr ⟨rfl, r, ?_⟩
          rw [giveBack_rhs rfl]
          exact ((hrhs r rfl).2.2.trans hvalue.symm).trans hx
      case href =>
        have hcount : (s.giveBack a).ref_count = s.ref_count := by cases a <;> rfl
        simp only [stepHandle, hpc, hx, hcount]
      case hrest =>
        simp only [stepHandle, hpc, hx]
        exact ⟨rfl, rfl, rfl⟩
  case borrowing =>
    apply finish hi.borrowing (by rw [hpc]; simp) ha
    cases hx : (s.handles h).ptr <;> simp only [stepHandle, hpc, hx]

omit [DecidableEq H] [Fintype H] in
/-- Past its test, a copy is not from the handle itself. -/
theorem not_self (hb : Borrowing s) (hpc : ∀ a, (s.handles h).pc ≠ .test a) (p : Option ℕ) :
    (s.handles h).pc.assign? ≠ some (.copy h p) :=
  fun hp => (hb.copied h h p hp).2 hpc rfl

omit [Fintype H] in
/-- The operation goes on to what comes after its drop. -/
theorem goOn {k : AfterDrop H} {p : Option ℕ} {q : HandlePc H} (hb : Borrowing s)
    (hpc : (s.handles h).pc = .dropDec k ∨ (s.handles h).pc = .dropDelete k ∨ (s.handles h).pc = .dropNull k)
    (hq : q = .dropDelete k ∨ q = .dropNull k ∨ q = k.pc)
    (hs' : t.handles = Function.update s.handles h ⟨p, q⟩) : Borrowing t := by
  have hold : (s.handles h).pc ≠ .lent ∧ (∀ a, (s.handles h).pc ≠ .test a) ∧ (s.handles h).pc.rhs? = k.rhs? ∧
      (s.handles h).pc.assign? = (HandlePc.dropDec k).assign? := by
    rcases hpc with hpc | hpc | hpc <;> rw [hpc] <;> exact ⟨by simp, by simp, rfl, by cases k <;> rfl⟩
  have hnew : q.rhs? = k.rhs? ∧ q.assign? = (HandlePc.dropDec k).assign? ∧ (∀ a, q ≠ .add a) ∧ ∀ r, q ≠ .moveNull r := by
    rcases hq with hq | hq | hq <;> rw [hq]
    · exact ⟨rfl, by cases k <;> rfl, by simp, by simp⟩
    · exact ⟨rfl, by cases k <;> rfl, by simp, by simp⟩
    · exact ⟨k.pc_rhs?, k.pc_assign?, k.pc_ne⟩
  apply hb.inside hs' hold.1
  case hrhs => exact hnew.1.trans hold.2.2.1.symm
  case hassign => exact hnew.2.1.trans hold.2.2.2.symm
  case hself => exact not_self hb hold.2.1
  case hadded => exact fun a ha => absurd ha (hnew.2.2.1 a)
  case hmoved => exact fun r hr => absurd hr (hnew.2.2.2 r)

theorem dropDec {k : AfterDrop H} (hH : Fintype.card H < 2 ^ 32) (hi : Inv s) (hpc : (s.handles h).pc = .dropDec k) :
    Inv (s.stepHandle h) := by
  constructor
  case balanced =>
    intro x
    cases hx : (s.handles h).ptr with
    | none =>
      have hstep : s.stepHandle h = s.setPc h k.pc := by simp only [stepHandle, hpc, hx]
      rw [hstep]
      apply (hi.balanced x).set
      rw [hx]
      refine ⟨?_, ?_, ?_⟩
      · rw [k.counted?_pc, Handle.counted?, hpc, hx]
      · rw [hpc]
        exact k.pc_brings?
      · rw [k.deletes?_pc, Handle.deletes?, hpc]
    | some y => exact Balanced.dropDec hH hi.balanced hpc hx x
  case borrowing =>
    cases hx : (s.handles h).ptr with
    | none => exact goOn (p := none) hi.borrowing (.inl hpc) (.inr (.inr rfl)) (by simp only [stepHandle, hpc, hx, setPc, set])
    | some y =>
      obtain ⟨q, hq⟩ : ∃ q, (if (s.ref_count y + 2 ^ 32 - 1) % 2 ^ 32 = 0 then .dropDelete k else k.pc) = q := ⟨_, rfl⟩
      apply goOn (p := some y) (q := q) hi.borrowing (.inl hpc)
      case hq =>
        rw [← hq]
        split_ifs
        · exact .inl rfl
        · exact .inr (.inr rfl)
      case hs' => simp only [stepHandle, hpc, hx, setPc, set, hq]

theorem dropDelete {k : AfterDrop H} (hi : Inv s) (hpc : (s.handles h).pc = .dropDelete k) :
    Inv (s.stepHandle h) := by
  constructor
  case balanced =>
    intro x
    cases hx : (s.handles h).ptr with
    | none =>
      have hstep : s.stepHandle h = s.setPc h (.dropNull k) := by simp only [stepHandle, hpc, hx]
      rw [hstep]
      apply (hi.balanced x).set
      unfold Handle.Same Handle.counted? Handle.deletes?
      rw [hpc, hx]
      exact ⟨rfl, rfl, rfl⟩
    | some y => exact Balanced.dropDelete hi.balanced hpc hx x
  case borrowing =>
    cases hx : (s.handles h).ptr <;>
      exact goOn (p := (s.handles h).ptr) hi.borrowing (.inr (.inl hpc)) (.inr (.inl rfl))
        (by simp only [stepHandle, hpc, hx, setPc, set])

theorem dropNull {k : AfterDrop H} (hi : Inv s) (hpc : (s.handles h).pc = .dropNull k) : Inv (s.stepHandle h) := by
  have hstep : s.stepHandle h = s.set h ⟨none, k.pc⟩ := by simp only [stepHandle, hpc]
  rw [hstep]
  constructor
  case balanced =>
    intro x
    apply (hi.balanced x).set
    refine ⟨?_, ?_, ?_⟩
    · rw [k.counted?_pc, Handle.counted?, hpc]
    · rw [hpc]
      exact k.pc_brings?
    · rw [k.deletes?_pc, Handle.deletes?, hpc]
  case borrowing => exact goOn (p := none) hi.borrowing (.inr (.inr hpc)) (.inr (.inr rfl)) rfl

theorem store (hi : Inv s) (hpc : (s.handles h).pc = .store a) : Inv (s.stepHandle h) := by
  have hstep : s.stepHandle h = s.set h ⟨a.value, .add a⟩ := by simp only [stepHandle, hpc]
  rw [hstep]
  constructor
  case balanced =>
    intro x
    apply (hi.balanced x).set
    unfold Handle.Same Handle.counted? Handle.deletes?
    rw [hpc]
    exact ⟨rfl, rfl, rfl⟩
  case borrowing =>
    apply hi.borrowing.inside (t := s.set h ⟨a.value, .add a⟩) (h := h) rfl
    case hpc =>
      rw [hpc]
      simp
    case hrhs => rw [hpc]; rfl
    case hassign => rw [hpc]; rfl
    case hself => exact not_self hi.borrowing fun b hb => by rw [hpc] at hb; cases hb
    case hadded =>
      intro b hb
      obtain rfl : a = b := HandlePc.add.inj hb
      rfl
    case hmoved => simp

theorem moveStore (hi : Inv s) (hpc : (s.handles h).pc = .moveStore r) : Inv (s.stepHandle h) := by
  have hstep : s.stepHandle h = s.set h ⟨(s.handles r).ptr, .moveNull r⟩ := by simp only [stepHandle, hpc]
  rw [hstep]
  constructor
  case balanced =>
    intro x
    apply (hi.balanced x).set
    unfold Handle.Same Handle.counted? Handle.deletes?
    rw [hpc]
    exact ⟨rfl, rfl, rfl⟩
  case borrowing =>
    apply hi.borrowing.inside (t := s.set h ⟨(s.handles r).ptr, .moveNull r⟩) (h := h) rfl
    case hpc =>
      rw [hpc]
      simp
    case hrhs => rw [hpc]; rfl
    case hassign => rw [hpc]; rfl
    case hself => exact not_self hi.borrowing fun b hb => by rw [hpc] at hb; cases hb
    case hadded => simp
    case hmoved =>
      intro q hq _
      obtain rfl : r = q := HandlePc.moveNull.inj hq
      rfl

/-- The right-hand side stops counting for the object when the handle starts to. -/
theorem moveNull (hi : Inv s) (hpc : (s.handles h).pc = .moveNull r) : Inv (s.stepHandle h) := by
  have hstep : s.stepHandle h =
      (s.set r ⟨none, .idle⟩).set h ⟨if h = r then none else (s.handles h).ptr, .idle⟩ := by
    simp only [stepHandle, hpc]
  have hcounted : (s.handles h).counted? = none ∧ (s.handles h).deletes? = none ∧ (s.handles h).pc.brings? = none := by
    rw [Handle.counted?, Handle.deletes?, hpc]
    exact ⟨rfl, rfl, rfl⟩
  have hrhs : (s.handles h).pc.rhs? = some r := by rw [hpc]; rfl
  rw [hstep]
  constructor
  case borrowing =>
    apply hi.borrowing.finish (h := h)
    case hpc =>
      rw [hpc]
      simp
    case hme => exact .inl (by simp [set])
    case hothers =>
      intro g hg
      have hg' : ((s.set r ⟨none, .idle⟩).set h ⟨if h = r then none else (s.handles h).ptr, .idle⟩).handles g =
          (s.set r ⟨none, .idle⟩).handles g := Function.update_of_ne hg ..
      rw [hg']
      by_cases hgr : g = r
      · subst hgr
        exact .inr ⟨by simp [set], hrhs⟩
      · exact .inl (Function.update_of_ne hgr ..)
  case balanced =>
    intro x
    by_cases hrh : h = r
    · subst hrh
      have hself : (s.set h ⟨none, .idle⟩).handles h = ⟨none, .idle⟩ := Function.update_self ..
      rw [if_pos rfl]
      refine ((hi.balanced x).set (h := h) (c := ⟨none, .idle⟩) ?_).set ?_
      · exact ⟨hcounted.1.symm, hcounted.2.2.symm, hcounted.2.1.symm⟩
      · rw [hself]
        exact ⟨rfl, rfl, rfl⟩
    · have hlent := (hi.borrowing.lent h r hrhs).resolve_left (Ne.symm hrh)
      have hptr := hi.borrowing.moved h r hpc
      have hother : (s.set r ⟨none, .idle⟩).handles h = s.handles h := Function.update_of_ne hrh ..
      have hlending : (s.handles r).counted? = (s.handles h).ptr ∧ (s.handles r).deletes? = none ∧
          (s.handles r).pc.brings? = none := by
        rw [Handle.counted?, Handle.deletes?, hlent, hptr]
        exact ⟨rfl, rfl, rfl⟩
      have hcounters := counters_update (s := s) (t := s.set r ⟨none, .idle⟩) rfl x
      have hkeepers := keepers_update (s := s) (t := s.set r ⟨none, .idle⟩) rfl x
      have hset : ∀ (t : SharedState H) (c : Handle H), (t.set h c).counters x + (t.handles h).counts x =
          t.counters x + c.counts x ∧ (t.set h c).keepers x + (t.handles h).keeps x = t.keepers x + c.keeps x :=
        fun t c => ⟨counters_update rfl x, keepers_update rfl x⟩
      obtain ⟨hcounters', hkeepers'⟩ := hset (s.set r ⟨none, .idle⟩) ⟨(s.handles h).ptr, .idle⟩
      rw [hother] at hcounters' hkeepers'
      rw [if_neg hrh]
      refine (hi.balanced x).congr ?_ ?_ ⟨rfl, rfl, rfl⟩ Iff.rfl
      · have hnow : Handle.counts x (⟨none, .idle⟩ : Handle H) = 0 ∧ (s.handles h).counts x = 0 ∧
            (s.handles r).counts x = Handle.counts x (⟨(s.handles h).ptr, .idle⟩ : Handle H) := by
          unfold Handle.counts
          rw [hcounted.1, hlending.1]
          exact ⟨rfl, rfl, rfl⟩
        omega
      · have hnow : Handle.keeps x (⟨none, .idle⟩ : Handle H) = 0 ∧ (s.handles h).keeps x = 0 ∧ (s.handles r).keeps x = 0 ∧
            Handle.keeps x (⟨(s.handles h).ptr, .idle⟩ : Handle H) = 0 := by
          unfold Handle.keeps
          rw [hcounted.2.1, hcounted.2.2, hlending.2.1, hlending.2.2]
          exact ⟨rfl, rfl, rfl, rfl⟩
        omega

theorem step (hH : Fintype.card H < 2 ^ 32) (hi : Inv s) (he : s.enabled (.step h : SharedAct H) = true) :
    Inv (s.stepHandle h) := by
  cases hpc : (s.handles h).pc with
  | dead | idle | lent => simp [enabled, hpc] at he
  | test a => exact hi.test hpc
  | dropDec k => exact hi.dropDec hH hpc
  | dropDelete k => exact hi.dropDelete hpc
  | dropNull k => exact hi.dropNull hpc
  | store a => exact hi.store hpc
  | add a => exact hi.add hH hpc
  | moveStore r => exact hi.moveStore hpc
  | moveNull r => exact hi.moveNull hpc

/-- An operation begins on one handle alone. -/
theorem start {pc : HandlePc H} (hi : Inv s) (hh : (s.handles h).pc = .idle ∨ (s.handles h).pc = .dead) (new : Bool)
    (hcounted : Handle.counted? ⟨(s.handles h).ptr, pc⟩ = (s.handles h).counted?)
    (hbrings : pc.brings? = s.created new) (hdeletes : Handle.deletes? ⟨(s.handles h).ptr, pc⟩ = none)
    (hrhs : pc.rhs? = none) (hnew : (∀ a, pc ≠ .add a) ∧ ∀ r, pc ≠ .moveNull r) :
    Inv ((s.create new).setPc h pc) := by
  have hold : (s.handles h).pc.brings? = none ∧ (s.handles h).deletes? = none := by
    unfold Handle.deletes?
    rcases hh with hh | hh <;> rw [hh] <;> exact ⟨rfl, rfl⟩
  refine ⟨Balanced.create hi.balanced hcounted hold new hbrings hdeletes, ?_⟩
  apply hi.borrowing.start (c := ⟨(s.handles h).ptr, pc⟩) hh _ hrhs hnew
  cases new <;> rfl

/-- An operation begins with a right-hand side. -/
theorem lend {pc : HandlePc H} (hi : Inv s) (hh : (s.handles h).pc = .idle ∨ (s.handles h).pc = .dead)
    (hr : (s.handles r).pc = .idle)
    (hcounted : Handle.counted? ⟨(s.handles h).ptr, pc⟩ = (s.handles h).counted?)
    (hbrings : pc.brings? = none) (hdeletes : Handle.deletes? ⟨(s.handles h).ptr, pc⟩ = none) (hrhs : pc.rhs? = some r)
    (hcopied : ∀ p, pc.assign? = some (.copy r p) → (s.handles r).ptr = p ∧ ((∀ a, pc ≠ .test a) → r ≠ h))
    (hnew : (∀ a, pc ≠ .add a) ∧ ∀ r, pc ≠ .moveNull r) : Inv ((s.setPc r .lent).setPc h pc) := by
  have hself : ((s.setPc r .lent).setPc h pc).handles h = ⟨(s.handles h).ptr, pc⟩ := by
    rw [← s.setPc_ptr r .lent h]
    exact Function.update_self ..
  have hlent : (s.setPc r .lent).handles r = ⟨(s.handles r).ptr, .lent⟩ := Function.update_self ..
  constructor
  case balanced =>
    intro x
    have hfirst : Balanced (s.setPc r .lent) x := by
      apply (hi.balanced x).set
      unfold Handle.Same Handle.counted? Handle.deletes?
      rw [hr]
      exact ⟨rfl, rfl, rfl⟩
    apply hfirst.set
    rw [s.setPc_ptr r .lent h]
    have hbegin : ((s.setPc r .lent).handles h).counted? = (s.handles h).counted? ∧
        ((s.setPc r .lent).handles h).pc.brings? = none ∧ ((s.setPc r .lent).handles h).deletes? = none := by
      by_cases hrh : h = r
      · subst hrh
        rw [hlent]
        unfold Handle.counted? Handle.deletes?
        rw [hr]
        exact ⟨rfl, rfl, rfl⟩
      · have hsame : (s.setPc r .lent).handles h = s.handles h := Function.update_of_ne hrh ..
        rw [hsame]
        unfold Handle.deletes?
        rcases hh with hh | hh <;> rw [hh] <;> exact ⟨rfl, rfl, rfl⟩
    exact ⟨hcounted.trans hbegin.1.symm, hbrings.trans hbegin.2.1.symm, hdeletes.trans hbegin.2.2.symm⟩
  case borrowing =>
    apply hi.borrowing.lend hh hr
    case hrhs =>
      rw [hself]
      exact hrhs
    case hlent =>
      intro hrh
      exact (Function.update_of_ne hrh ..).trans hlent
    case hothers => exact fun g hgh hgr => (Function.update_of_ne hgh ..).trans (Function.update_of_ne hgr ..)
    case hcopied =>
      rw [hself, setPc_ptr, setPc_ptr]
      exact hcopied
    case hnew =>
      rw [hself]
      exact hnew

theorem next (hH : Fintype.card H < 2 ^ 32) (hi : Inv s) {a : SharedAct H} (he : s.enabled a = true) :
    Inv (s.next a) := by
  cases a with
  | construct h =>
    have hpc : (s.handles h).pc = .dead := by cases hpc : (s.handles h).pc <;> simp [enabled, hpc] at he ⊢
    refine ⟨fun x => (hi.balanced x).set ?_, hi.borrowing.start (c := ⟨none, .idle⟩) (.inr hpc) rfl rfl (by simp)⟩
    unfold Handle.Same Handle.counted? Handle.deletes?
    rw [hpc]
    exact ⟨rfl, rfl, rfl⟩
  | constructRaw h new =>
    have hpc : (s.handles h).pc = .dead := by cases hpc : (s.handles h).pc <;> simp [enabled, hpc] at he ⊢
    apply hi.start (.inr hpc) new _ rfl rfl rfl (by simp)
    rw [Handle.counted?, Handle.counted?, hpc]
  | constructCopy h rhs =>
    have hpc : (s.handles h).pc = .dead ∧ (s.handles rhs).pc = .idle := by
      cases hpc : (s.handles h).pc <;> cases hpc' : (s.handles rhs).pc <;> simp [enabled, hpc, hpc'] at he ⊢
    apply hi.lend (.inr hpc.1) hpc.2 _ rfl rfl rfl _ (by simp)
    · rw [Handle.counted?, Handle.counted?, hpc.1]
    · intro p hp
      obtain rfl : (s.handles rhs).ptr = p := (Assign.copy.inj (Option.some.inj hp)).2
      refine ⟨rfl, fun _ hrh => ?_⟩
      rw [hrh, hpc.1] at hpc
      cases hpc.2
  | constructMove h rhs =>
    have hpc : (s.handles h).pc = .dead ∧ (s.handles rhs).pc = .idle := by
      cases hpc : (s.handles h).pc <;> cases hpc' : (s.handles rhs).pc <;> simp [enabled, hpc, hpc'] at he ⊢
    apply hi.lend (.inr hpc.1) hpc.2 _ rfl rfl rfl (by simp [HandlePc.assign?]) (by simp)
    rw [Handle.counted?, Handle.counted?, hpc.1]
  | destroy h =>
    have hpc : (s.handles h).pc = .idle := by cases hpc : (s.handles h).pc <;> simp [enabled, hpc] at he ⊢
    apply hi.start (.inl hpc) false _ rfl rfl rfl (by simp)
    rw [Handle.counted?, Handle.counted?, hpc]
  | assignRaw h new =>
    have hpc : (s.handles h).pc = .idle := by cases hpc : (s.handles h).pc <;> simp [enabled, hpc] at he ⊢
    apply hi.start (.inl hpc) new _ rfl rfl rfl (by simp)
    rw [Handle.counted?, Handle.counted?, hpc]
  | assignCopy h rhs =>
    have hpc : (s.handles h).pc = .idle ∧ (s.handles rhs).pc = .idle := by
      cases hpc : (s.handles h).pc <;> cases hpc' : (s.handles rhs).pc <;> simp [enabled, hpc, hpc'] at he ⊢
    apply hi.lend (.inl hpc.1) hpc.2 _ rfl rfl rfl _ (by simp)
    · rw [Handle.counted?, Handle.counted?, hpc.1]
    · intro p hp
      obtain rfl : (s.handles rhs).ptr = p := (Assign.copy.inj (Option.some.inj hp)).2
      exact ⟨rfl, fun hnot => absurd rfl (hnot _)⟩
  | assignMove h rhs =>
    have hpc : (s.handles h).pc = .idle ∧ (s.handles rhs).pc = .idle := by
      cases hpc : (s.handles h).pc <;> cases hpc' : (s.handles rhs).pc <;> simp [enabled, hpc, hpc'] at he ⊢
    apply hi.lend (.inl hpc.1) hpc.2 _ rfl rfl rfl (by simp [HandlePc.assign?]) (by simp)
    rw [Handle.counted?, Handle.counted?, hpc.1]
  | step h => exact hi.step hH he

theorem reachable (hH : Fintype.card H < 2 ^ 32) (hs : (sharedMachine H).Reachable s) : Inv s := by
  apply hs.invariant
  · intro s hs
    change s = .new at hs
    rw [hs]
    refine ⟨fun x => ?_, .new⟩
    constructor <;> simp [SharedState.new, counters, keepers, Handle.counts, Handle.keeps, Handle.counted?,
      Handle.deletes?, HandlePc.brings?]
  · exact fun s a hi he => hi.next hH he

end Inv
end SharedState
end AudioKernel
