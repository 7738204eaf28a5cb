import Mathlib.Logic.Function.Basic
import Mathlib.Data.List.Nodup

/-! Singly linked lists: nodes that hold the next one, or nothing. -/
namespace AudioKernel.Lib

variable {α : Type*} {next next' : α → Option α} {a : Option α} {x y : α} {xs ys : List α}

/-- From `a` on, the links lead through the nodes of the list in turn, and then to nothing. -/
def Chain (next : α → Option α) : Option α → List α → Prop
  | a, [] => a = none
  | a, x :: xs => a = some x ∧ Chain next (next x) xs

namespace Chain

theorem congr (h : Chain next a xs) (hsame : ∀ x ∈ xs, next' x = next x) : Chain next' a xs := by
  induction xs generalizing a with
  | nil => exact h
  | cons x xs ih =>
    obtain ⟨ha, hrest⟩ := h
    refine ⟨ha, ?_⟩
    rw [hsame x List.mem_cons_self]
    exact ih hrest fun y hy => hsame y (List.mem_cons_of_mem _ hy)

theorem unique (h : Chain next a xs) (h' : Chain next a ys) : xs = ys := by
  induction xs generalizing a ys with
  | nil =>
    obtain rfl : a = none := h
    cases ys with
    | nil => rfl
    | cons y ys => cases h'.1
  | cons x xs ih =>
    obtain ⟨rfl, hrest⟩ := h
    cases ys with
    | nil => cases h'
    | cons y ys =>
      obtain rfl := Option.some.inj h'.1
      rw [ih hrest h'.2]

theorem head_eq (h : Chain next a xs) : a = xs.head? := by
  cases xs with
  | nil => exact h
  | cons x xs => exact h.1

/-- Taking the first node. -/
theorem tail (h : Chain next (some x) xs) : ∃ ys, xs = x :: ys ∧ Chain next (next x) ys := by
  cases xs with
  | nil => cases h
  | cons y ys =>
    obtain rfl := Option.some.inj h.1
    exact ⟨ys, rfl, h.2⟩

/-- Adding a node behind the last one. -/
theorem snoc [DecidableEq α] (h : Chain next a xs) (hlast : xs.getLast? = some y) (hnodup : xs.Nodup) (hx : x ∉ xs) :
    Chain (Function.update (Function.update next x none) y (some x)) a (xs ++ [x]) := by
  induction xs generalizing a with
  | nil => cases hlast
  | cons z zs ih =>
    obtain ⟨rfl, hrest⟩ := h
    rw [List.mem_cons, not_or] at hx
    rw [List.nodup_cons] at hnodup
    refine ⟨rfl, ?_⟩
    cases zs with
    | nil =>
      have hzy : z = y := Option.some.inj hlast
      subst hzy
      rw [Function.update_self]
      refine ⟨rfl, ?_⟩
      rw [Function.update_of_ne hx.1, Function.update_self]
      rfl
    | cons w ws =>
      rw [List.getLast?_cons_cons] at hlast
      have hzy : z ≠ y := by
        rintro rfl
        exact hnodup.1 (List.mem_of_getLast? hlast)
      rw [Function.update_of_ne hzy, Function.update_of_ne (Ne.symm hx.1)]
      exact ih hrest hlast hnodup.2 hx.2

end Chain
end AudioKernel.Lib
