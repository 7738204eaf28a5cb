import Mathlib.Logic.Function.Basic

/-! A lock word and the threads that are in the critical section that it guards. -/
namespace AudioKernel.Lib

variable {T : Type*}

/-- At most one thread is in the critical section, and none while the lock is free. -/
structure Exclusive (taken : Bool) (holds : T → Prop) : Prop where
  unique : ∀ t u, holds t → holds u → t = u
  free : taken = false → ∀ t, ¬ holds t

namespace Exclusive

variable {taken taken' : Bool} {holds holds' : T → Prop} {t u : T}

theorem taken_of_holds (h : Exclusive taken holds) (ht : holds t) : taken = true := by
  cases htaken : taken with
  | true => rfl
  | false => exact absurd ht (h.free htaken t)

theorem acquire (h : Exclusive taken holds) (hfree : taken = false) (hholds : ∀ u, holds' u → u = t ∨ holds u) :
    Exclusive true holds' := by
  have hself : ∀ u, holds' u → u = t := by
    intro u hu
    rcases hholds u hu with he | hu
    · exact he
    · exact absurd hu (h.free hfree u)
  constructor
  · intro u u' hu hu'
    rw [hself u hu, hself u' hu']
  · intro hf
    cases hf

/-- The thread leaves the critical section, or gives the lock back. -/
theorem release (h : Exclusive taken holds) (ht : holds t) (hholds : ∀ u, holds' u → holds u ∧ u ≠ t) :
    Exclusive taken' holds' := by
  have hnone : ∀ u, ¬ holds' u := by
    intro u hu
    obtain ⟨hu, hne⟩ := hholds u hu
    exact hne (h.unique u t hu ht)
  constructor
  · intro u _ hu
    exact absurd hu (hnone u)
  · intro _
    exact hnone

theorem mono (h : Exclusive taken holds) (hholds : ∀ u, holds' u → holds u) : Exclusive taken holds' := by
  constructor
  · intro u u' hu hu'
    exact h.unique u u' (hholds u hu) (hholds u' hu')
  · intro hf u hu
    exact h.free hf u (hholds u hu)

/-! The same for threads at program points, of which some are in the critical section, when one thread goes on. -/

section update
variable {P : Type*} [DecidableEq T] {f : P → Bool} {pc : T → P} {q : P} (h : Exclusive taken fun u => f (pc u) = true)
include h

theorem update_acquire (hfree : taken = false) : Exclusive true fun u => f (Function.update pc t q u) = true := by
  apply h.acquire (t := t) hfree
  intro u hu
  by_cases hut : u = t
  · exact .inl hut
  · rw [Function.update_of_ne hut] at hu
    exact .inr hu

theorem update_keep (ht : f q = true → f (pc t) = true) :
    Exclusive taken fun u => f (Function.update pc t q u) = true := by
  apply h.mono
  intro u hu
  by_cases hut : u = t
  · rw [hut, Function.update_self] at hu
    rw [hut]
    exact ht hu
  · rw [Function.update_of_ne hut] at hu
    exact hu

theorem update_release (ht : f (pc t) = true) (hq : f q = false) :
    Exclusive taken' fun u => f (Function.update pc t q u) = true := by
  apply h.release (t := t) ht
  intro u hu
  by_cases hut : u = t
  · rw [hut, Function.update_self, hq] at hu
    cases hu
  · rw [Function.update_of_ne hut] at hu
    exact ⟨hu, hut⟩

end update
end Exclusive
end AudioKernel.Lib
