import Mathlib.Algebra.Group.Nat.Defs
import Mathlib.Data.List.Basic
import Mathlib.Data.Nat.ModEq
import Mathlib.Logic.Function.Basic

/-! A queue kept in a circular array: the window of used cells, and what a store at its end and a load at its head do. -/
namespace AudioKernel.Lib

variable {V : Type*}

/-- The cells of the window that starts at `head` hold `xs`, and they are the ones in use. -/
structure Holds (N : ℕ) (data : ℕ → V) (used : ℕ → Bool) (head : ℕ) (xs : List V) : Prop where
  head_lt : head < N
  length_le : xs.length ≤ N
  data : ∀ (i : ℕ) (hi : i < xs.length), data ((head + i) % N) = xs[i]
  used : ∀ j, used j = true ↔ ∃ i < xs.length, j = (head + i) % N

namespace Holds

variable {N head i j : ℕ} {data : ℕ → V} {used : ℕ → Bool} {xs : List V} {v : V}

theorem index_injective (hi : i < N) (hj : j < N) (h : (head + i) % N = (head + j) % N) : i = j := by
  have hmod : i % N = j % N := Nat.ModEq.add_left_cancel' head h
  rw [Nat.mod_eq_of_lt hi, Nat.mod_eq_of_lt hj] at hmod
  exact hmod

theorem index_succ : ((head + 1) % N + i) % N = (head + (i + 1)) % N := by
  rw [Nat.mod_add_mod, Nat.add_assoc, Nat.add_comm 1 i]

theorem empty (hhead : head < N) (data : ℕ → V) : Holds N data (fun _ => false) head [] where
  head_lt := hhead
  length_le := Nat.zero_le N
  data := fun i hi => absurd hi (Nat.not_lt_zero i)
  used := by simp

/-- The cell behind the window is not in use while there is room. -/
theorem free (h : Holds N data used head xs) (hroom : xs.length < N) : used ((head + xs.length) % N) = false := by
  rw [Bool.eq_false_iff]
  intro hused
  obtain ⟨i, hi, hindex⟩ := (h.used _).mp hused
  have hsame := index_injective hroom (hi.trans hroom) hindex
  omega

theorem push (h : Holds N data used head xs) (hroom : xs.length < N) :
    Holds N (Function.update data ((head + xs.length) % N) v) (Function.update used ((head + xs.length) % N) true)
      head (xs ++ [v]) := by
  constructor
  case head_lt => exact h.head_lt
  case length_le =>
    rw [List.length_append, List.length_singleton]
    exact hroom
  case data =>
    intro i hi
    by_cases hlast : i = xs.length
    · subst hlast
      rw [Function.update_self, List.getElem_concat_length rfl]
    · have hi' : i < xs.length := by
        rw [List.length_append, List.length_singleton] at hi
        omega
      have hne : (head + i) % N ≠ (head + xs.length) % N :=
        fun heq => hlast (index_injective (hi'.trans hroom) hroom heq)
      rw [Function.update_of_ne hne, h.data i hi', List.getElem_append_left hi']
  case used =>
    intro j
    rw [List.length_append, List.length_singleton]
    by_cases hj : j = (head + xs.length) % N
    · rw [hj, Function.update_self]
      exact iff_of_true rfl ⟨xs.length, Nat.lt_succ_self _, rfl⟩
    · rw [Function.update_of_ne hj, h.used]
      constructor
      · rintro ⟨i, hi, rfl⟩
        exact ⟨i, Nat.lt_succ_of_lt hi, rfl⟩
      · rintro ⟨i, hi, rfl⟩
        have hi' : i ≠ xs.length := by
          rintro rfl
          exact hj rfl
        exact ⟨i, by omega, rfl⟩

theorem head_data (h : Holds N data used head (v :: xs)) : data head = v := by
  have hcell := h.data 0 (Nat.zero_lt_succ _)
  rw [Nat.add_zero, Nat.mod_eq_of_lt h.head_lt] at hcell
  exact hcell

theorem head_used (h : Holds N data used head (v :: xs)) : used head = true :=
  (h.used head).mpr ⟨0, Nat.zero_lt_succ _, by rw [Nat.add_zero, Nat.mod_eq_of_lt h.head_lt]⟩

theorem pop (h : Holds N data used head (v :: xs)) :
    Holds N data (Function.update used head false) ((head + 1) % N) xs := by
  have hlength : xs.length + 1 ≤ N := h.length_le
  have hhead : (head + 0) % N = head := Nat.mod_eq_of_lt h.head_lt
  constructor
  case head_lt => exact Nat.mod_lt _ (by omega)
  case length_le => omega
  case data =>
    intro i hi
    rw [index_succ]
    exact h.data (i + 1) (Nat.succ_lt_succ hi)
  case used =>
    intro j
    by_cases hj : j = head
    · rw [hj, Function.update_self]
      refine iff_of_false Bool.false_ne_true ?_
      rintro ⟨i, hi, hindex⟩
      rw [index_succ] at hindex
      have hzero := index_injective (by omega) (by omega) (hhead.trans hindex)
      omega
    · rw [Function.update_of_ne hj, h.used]
      constructor
      · rintro ⟨i, hi, rfl⟩
        cases i with
        | zero => exact absurd hhead hj
        | succ i => exact ⟨i, Nat.lt_of_succ_lt_succ hi, index_succ.symm⟩
      · rintro ⟨i, hi, rfl⟩
        exact ⟨i + 1, Nat.succ_lt_succ hi, index_succ⟩

end Holds
end AudioKernel.Lib
