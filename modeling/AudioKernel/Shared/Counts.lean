import AudioKernel.Lib.Counting
import AudioKernel.Shared.Model

/-! The reference counts: who counts for an object, and who has it in keeping while nobody does. -/
namespace AudioKernel
open Lib

variable {H : Type}

namespace HandlePc

/-- The assignment that the operation makes. -/
def assign? : HandlePc H → Option (Assign H)
  | test a | store a | add a => some a
  | dropDec (.assign a) | dropDelete (.assign a) | dropNull (.assign a) => some a
  | _ => none

/-- The handle that the operation uses as its right-hand side. -/
def rhs? : HandlePc H → Option H
  | test a | store a | add a => a.rhs?
  | dropDec k | dropDelete k | dropNull k => k.rhs?
  | moveStore rhs | moveNull rhs => some rhs
  | dead | idle | lent => none

/-- The new object that the operation brings and that has no handle yet. -/
def brings? : HandlePc H → Option ℕ
  | test a | store a | add a => a.brings?
  | dropDec k | dropDelete k | dropNull k => k.brings?
  | dead | idle | lent | moveStore _ | moveNull _ => none

theorem rhs_of_copy {pc : HandlePc H} {r : H} {p : Option ℕ} (hp : pc.assign? = some (.copy r p)) :
    pc.rhs? = some r := by
  cases pc with
  | test a | store a | add a =>
    obtain rfl : a = .copy r p := Option.some.inj hp
    rfl
  | dropDec k | dropDelete k | dropNull k =>
    cases k with
    | assign a =>
      obtain rfl : a = .copy r p := Option.some.inj hp
      rfl
    | destroy | move rhs => cases hp
  | dead | idle | lent | moveStore rhs | moveNull rhs => cases hp

end HandlePc

namespace Handle

def counted? (c : Handle H) : Option ℕ :=
  match c.pc with
  | .idle | .lent | .test _ | .dropDec _ => c.ptr
  | _ => none

/-- The object that the handle is about to delete. -/
def deletes? (c : Handle H) : Option ℕ :=
  match c.pc with
  | .dropDelete _ => c.ptr
  | _ => none

def counts (x : ℕ) (c : Handle H) : ℕ := if c.counted? = some x then 1 else 0

def keeps (x : ℕ) (c : Handle H) : ℕ :=
  (if c.pc.brings? = some x then 1 else 0) + if c.deletes? = some x then 1 else 0

end Handle

namespace SharedState

section
variable [Fintype H]

def counters (s : SharedState H) (x : ℕ) : ℕ := ∑ h, (s.handles h).counts x

def keepers (s : SharedState H) (x : ℕ) : ℕ := ∑ h, (s.handles h).keeps x

/-- The object `x`, when it is live, has handles that count for it, or one operation that is about to give it a handle or
to delete it. -/
structure Balanced (s : SharedState H) (x : ℕ) : Prop where
  counted : s.live x = true → s.ref_count x = s.counters x ∧ s.keepers x = if s.counters x = 0 then 1 else 0
  deleted : s.live x = false → s.counters x = 0 ∧ s.keepers x = 0
  beyond : s.fresh ≤ x → s.live x = false ∧ s.deletes x = 0
  deletes : x < s.fresh → s.deletes x = if s.live x then 0 else 1

end

/-- A right-hand side is lent to one operation, which finds in it what it has read there. -/
structure Borrowing (s : SharedState H) : Prop where
  lent : ∀ h r, (s.handles h).pc.rhs? = some r → r = h ∨ (s.handles r).pc = .lent
  alone : ∀ h g r, (s.handles h).pc.rhs? = some r → (s.handles g).pc.rhs? = some r → h = g
  copied : ∀ h r p, (s.handles h).pc.assign? = some (.copy r p) →
    (s.handles r).ptr = p ∧ ((∀ a, (s.handles h).pc ≠ .test a) → r ≠ h)
  added : ∀ h a, (s.handles h).pc = .add a → (s.handles h).ptr = a.value
  moved : ∀ h r, (s.handles h).pc = .moveNull r → (s.handles h).ptr = (s.handles r).ptr

variable {s t : SharedState H} {h r : H} {c : Handle H} {x : ℕ}

namespace Borrowing

theorem new : Borrowing (SharedState.new : SharedState H) := by
  constructor <;> simp [SharedState.new, HandlePc.rhs?, HandlePc.assign?]

/-- A handle at rest is not in use by the operation of another. -/
theorem unused (hb : Borrowing s) (hr : (s.handles r).pc = .idle ∨ (s.handles r).pc = .dead) (g : H) :
    (s.handles g).pc.rhs? ≠ some r := by
  intro hg
  rcases hb.lent g r hg with rfl | hlent
  · rcases hr with hr | hr <;> rw [hr] at hg <;> cases hg
  · rcases hr with hr | hr <;> rw [hr] at hlent <;> cases hlent

/-- A step of the operation on `h`, which may lend a handle to it or take one back from it. -/
theorem of_step (hb : Borrowing s) (hpc : (s.handles h).pc ≠ .lent)
    (hothers : ∀ g, g ≠ h → t.handles g = s.handles g ∨
      ((t.handles g).pc = .idle ∨ (t.handles g).pc = .lent) ∧ ∀ u, u ≠ h → (s.handles u).pc.rhs? ≠ some g)
    (hlent : ∀ r, (t.handles h).pc.rhs? = some r →
      (r = h ∨ (t.handles r).pc = .lent) ∧ ∀ g, g ≠ h → (s.handles g).pc.rhs? ≠ some r)
    (hcopied : ∀ r p, (t.handles h).pc.assign? = some (.copy r p) →
      (t.handles r).ptr = p ∧ ((∀ a, (t.handles h).pc ≠ .test a) → r ≠ h))
    (hadded : ∀ a, (t.handles h).pc = .add a → (t.handles h).ptr = a.value)
    (hmoved : ∀ r, (t.handles h).pc = .moveNull r → (t.handles h).ptr = (t.handles r).ptr) : Borrowing t := by
  -- what another operation uses stays as it is
  have hkept : ∀ g r, g ≠ h → (s.handles g).pc.rhs? = some r → t.handles g = s.handles g →
      t.handles r = s.handles r := by
    intro g r hg hr hsame
    rcases hb.lent g r hr with rfl | hrlent
    · exact hsame
    · have hrh : r ≠ h := by
        rintro rfl
        exact hpc hrlent
      rcases hothers r hrh with hsame | ⟨-, hnobody⟩
      · exact hsame
      · exact absurd hr (hnobody g hg)
  have hrest : ∀ g, g ≠ h → t.handles g = s.handles g ∨ (t.handles g).pc = .idle ∨ (t.handles g).pc = .lent :=
    fun g hg => (hothers g hg).imp_right And.left
  have huses : ∀ g r, g ≠ h → (t.handles g).pc.rhs? = some r →
      t.handles g = s.handles g ∧ (s.handles g).pc.rhs? = some r := by
    intro g r hg hr
    rcases hrest g hg with hsame | hidle | hidle
    · rw [hsame] at hr
      exact ⟨hsame, hr⟩
    · rw [hidle] at hr
      cases hr
    · rw [hidle] at hr
      cases hr
  constructor
  case lent =>
    intro g r hr
    by_cases hg : g = h
    · subst hg
      exact (hlent r hr).1
    · obtain ⟨hsame, hr⟩ := huses g r hg hr
      rw [hkept g r hg hr hsame]
      exact hb.lent g r hr
  case alone =>
    intro g g' r hr hr'
    by_cases hg : g = h <;> by_cases hg' : g' = h
    · rw [hg, hg']
    · subst hg
      exact absurd (huses g' r hg' hr').2 ((hlent r hr).2 g' hg')
    · subst hg'
      exact absurd (huses g r hg hr).2 ((hlent r hr').2 g hg)
    · exact hb.alone g g' r (huses g r hg hr).2 (huses g' r hg' hr').2
  case copied =>
    intro g r p hp
    by_cases hg : g = h
    · subst hg
      exact hcopied r p hp
    · rcases hrest g hg with hsame | hidle | hidle
      · rw [hsame] at hp ⊢
        rw [hkept g r hg (HandlePc.rhs_of_copy hp) hsame]
        exact hb.copied g r p hp
      · rw [hidle] at hp
        cases hp
      · rw [hidle] at hp
        cases hp
  case added =>
    intro g a ha
    by_cases hg : g = h
    · subst hg
      exact hadded a ha
    · rcases hrest g hg with hsame | hidle | hidle
      · rw [hsame] at ha ⊢
        exact hb.added g a ha
      · rw [hidle] at ha
        cases ha
      · rw [hidle] at ha
        cases ha
  case moved =>
    intro g r hr
    by_cases hg : g = h
    · subst hg
      exact hmoved r hr
    · rcases hrest g hg with hsame | hidle | hidle
      · rw [hsame] at hr ⊢
        rw [hkept g r hg (by rw [hr]; rfl) hsame]
        exact hb.moved g r hr
      · rw [hidle] at hr
        cases hr
      · rw [hidle] at hr
        cases hr

/-- The operation goes on with the handle that it has borrowed. -/
theorem inside [DecidableEq H] (hb : Borrowing s) (hs' : t.handles = Function.update s.handles h c)
    (hpc : (s.handles h).pc ≠ .lent) (hrhs : c.pc.rhs? = (s.handles h).pc.rhs?)
    (hassign : c.pc.assign? = (s.handles h).pc.assign?) (hself : ∀ p, (s.handles h).pc.assign? ≠ some (.copy h p))
    (hadded : ∀ a, c.pc = .add a → c.ptr = a.value)
    (hmoved : ∀ r, c.pc = .moveNull r → r ≠ h → c.ptr = (s.handles r).ptr) : Borrowing t := by
  have hme : t.handles h = c := by
    rw [hs']
    exact Function.update_self ..
  have hothers : ∀ g, g ≠ h → t.handles g = s.handles g := by
    intro g hg
    rw [hs']
    exact Function.update_of_ne hg ..
  apply hb.of_step hpc fun g hg => .inl (hothers g hg)
  case hlent =>
    intro r hr
    rw [hme, hrhs] at hr
    refine ⟨?_, fun g hg hg' => hg (hb.alone g h r hg' hr)⟩
    by_cases hrh : r = h
    · exact .inl hrh
    · rw [hothers r hrh]
      exact hb.lent h r hr
  case hcopied =>
    intro r p hp
    rw [hme, hassign] at hp
    have hrh : r ≠ h := by
      rintro rfl
      exact hself p hp
    rw [hothers r hrh]
    exact ⟨(hb.copied h r p hp).1, fun _ => hrh⟩
  case hadded =>
    rw [hme]
    exact hadded
  case hmoved =>
    intro r hr
    rw [hme] at hr
    by_cases hrh : r = h
    · rw [hrh]
    · rw [hme, hothers r hrh]
      exact hmoved r hr hrh

/-- The operation ends and gives back the handle that it has borrowed. -/
theorem finish (hb : Borrowing s) (hpc : (s.handles h).pc ≠ .lent)
    (hme : (t.handles h).pc = .idle ∨ (t.handles h).pc = .dead)
    (hothers : ∀ g, g ≠ h → t.handles g = s.handles g ∨
      (t.handles g).pc = .idle ∧ (s.handles h).pc.rhs? = some g) : Borrowing t := by
  apply hb.of_step hpc
  case hothers =>
    intro g hg
    rcases hothers g hg with hsame | ⟨hidle, hrhs⟩
    · exact .inl hsame
    · exact .inr ⟨.inl hidle, fun u hu hu' => hu (hb.alone u h g hu' hrhs)⟩
  all_goals rcases hme with hme | hme <;> rw [hme] <;> simp [HandlePc.rhs?, HandlePc.assign?]

/-- An operation begins on `h`, with the handle `r` lent to it. -/
theorem lend (hb : Borrowing s) (hh : (s.handles h).pc = .idle ∨ (s.handles h).pc = .dead)
    (hr : (s.handles r).pc = .idle) (hrhs : (t.handles h).pc.rhs? = some r)
    (hlent : r ≠ h → t.handles r = ⟨(s.handles r).ptr, .lent⟩)
    (hothers : ∀ g, g ≠ h → g ≠ r → t.handles g = s.handles g)
    (hcopied : ∀ p, (t.handles h).pc.assign? = some (.copy r p) →
      (t.handles r).ptr = p ∧ ((∀ a, (t.handles h).pc ≠ .test a) → r ≠ h))
    (hnew : (∀ a, (t.handles h).pc ≠ .add a) ∧ ∀ r, (t.handles h).pc ≠ .moveNull r) : Borrowing t := by
  have hunused := hb.unused (.inl hr)
  apply hb.of_step (h := h)
  case hpc => rcases hh with hh | hh <;> rw [hh] <;> simp
  case hothers =>
    intro g hg
    by_cases hgr : g = r
    · subst hgr
      rw [hlent hg]
      exact .inr ⟨.inr rfl, fun u _ => hunused u⟩
    · exact .inl (hothers g hg hgr)
  case hlent =>
    intro q hq
    obtain rfl : r = q := Option.some.inj (hrhs.symm.trans hq)
    refine ⟨?_, fun g _ => hunused g⟩
    by_cases hrh : r = h
    · exact .inl hrh
    · rw [hlent hrh]
      exact .inr rfl
  case hcopied =>
    intro q p hp
    obtain rfl : r = q := Option.some.inj (hrhs.symm.trans (HandlePc.rhs_of_copy hp))
    exact hcopied p hp
  case hadded => exact fun a ha => absurd ha (hnew.1 a)
  case hmoved => exact fun q hq => absurd hq (hnew.2 q)

/-- An operation begins on `h` without another handle. -/
theorem start [DecidableEq H] (hb : Borrowing s) (hh : (s.handles h).pc = .idle ∨ (s.handles h).pc = .dead)
    (hs' : t.handles = Function.update s.handles h c) (hrhs : c.pc.rhs? = none)
    (hnew : (∀ a, c.pc ≠ .add a) ∧ ∀ r, c.pc ≠ .moveNull r) : Borrowing t := by
  have hme : t.handles h = c := by
    rw [hs']
    exact Function.update_self ..
  apply hb.of_step (h := h)
  case hpc => rcases hh with hh | hh <;> rw [hh] <;> simp
  case hothers =>
    intro g hg
    rw [hs']
    exact .inl (Function.update_of_ne hg ..)
  all_goals rw [hme]
  case hlent =>
    intro r hr
    rw [hrhs] at hr
    cases hr
  case hcopied =>
    intro r p hp
    rw [HandlePc.rhs_of_copy hp] at hrhs
    cases hrhs
  case hadded => exact fun a ha => absurd ha (hnew.1 a)
  case hmoved => exact fun q hq => absurd hq (hnew.2 q)

end Borrowing
end SharedState
end AudioKernel
