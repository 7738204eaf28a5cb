import Mathlib.Algebra.BigOperators.Group.Finset.Basic
import Mathlib.Algebra.Order.BigOperators.Group.Finset
import Mathlib.Data.Fintype.BigOperators

/-! Weights summed over the members of a finite type, and what happens to the sum when one member changes. -/
namespace AudioKernel.Lib

variable {T P : Type*} [Fintype T] {f : P → ℕ} {pc : T → P} {t u : T}

theorem sum_update [DecidableEq T] (f : P → ℕ) (pc : T → P) (t : T) (q : P) :
    ∑ u, f (Function.update pc t q u) + f (pc t) = ∑ u, f (pc u) + f q := by
  have hf : (fun u => f (Function.update pc t q u)) = Function.update (fun u => f (pc u)) t (f q) := by
    funext u
    by_cases hu : u = t
    · rw [hu, Function.update_self, Function.update_self]
    · rw [Function.update_of_ne hu, Function.update_of_ne hu]
  have hrest := Finset.sum_erase_add Finset.univ (fun u => f (pc u)) (Finset.mem_univ t)
  rw [hf, Finset.sum_update_of_mem (Finset.mem_univ t), Finset.sdiff_singleton_eq_erase]
  omega

theorem le_sum : f (pc t) ≤ ∑ u, f (pc u) :=
  Finset.single_le_sum (f := fun u => f (pc u)) (fun _ _ => Nat.zero_le _) (Finset.mem_univ t)

theorem sum_le_card (hf : ∀ p, f p ≤ 1) : ∑ u, f (pc u) ≤ Fintype.card T := by
  have hle : ∑ u, f (pc u) ≤ ∑ _u : T, 1 := Finset.sum_le_sum fun u _ => hf (pc u)
  rw [← Finset.card_eq_sum_ones, Finset.card_univ] at hle
  exact hle

theorem pair_le_sum [DecidableEq T] (htu : t ≠ u) : f (pc t) + f (pc u) ≤ ∑ v, f (pc v) := by
  have hpair : ∑ v ∈ {t, u}, f (pc v) ≤ ∑ v, f (pc v) := Finset.sum_le_univ_sum_of_nonneg fun _ => Nat.zero_le _
  rw [Finset.sum_pair htu] at hpair
  exact hpair

theorem exists_of_sum_ne_zero (h : ∑ v, f (pc v) ≠ 0) : ∃ v, f (pc v) ≠ 0 := by
  obtain ⟨v, -, hv⟩ := Finset.exists_ne_zero_of_sum_ne_zero h
  exact ⟨v, hv⟩

variable {S : Type*} {s s' : Finset S} {held : S → Option P} {x : S} {k : P} [DecidableEq P]

def tally (s : Finset S) (held : S → Option P) (k : P) : ℕ := ∑ x ∈ s, if held x = some k then 1 else 0

theorem tally_update [DecidableEq S] (held : S → Option P) (hx : x ∈ s) (v : Option P) (k : P) :
    tally s (Function.update held x v) k + (if held x = some k then 1 else 0) =
      tally s held k + if v = some k then 1 else 0 := by
  have hrest : ∑ y ∈ s.erase x, (if Function.update held x v y = some k then 1 else 0) =
      ∑ y ∈ s.erase x, if held y = some k then 1 else 0 :=
    Finset.sum_congr rfl fun y hy => by rw [Function.update_of_ne (Finset.ne_of_mem_erase hy)]
  unfold tally
  rw [← Finset.sum_erase_add s _ hx, ← Finset.sum_erase_add s _ hx, hrest, Function.update_self]
  omega

theorem tally_ne_zero_iff : tally s held k ≠ 0 ↔ ∃ x ∈ s, held x = some k := by
  unfold tally
  rw [Ne, Finset.sum_eq_zero_iff]
  simp

theorem tally_le_card : tally s held k ≤ s.card := by
  unfold tally
  rw [Finset.card_eq_sum_ones]
  refine Finset.sum_le_sum fun y _ => ?_
  split_ifs <;> omega

/-- Places that hold nothing do not count. -/
theorem tally_extend (hsub : s ⊆ s') (hnone : ∀ x ∈ s', x ∉ s → held x = none) : tally s' held k = tally s held k := by
  symm
  apply Finset.sum_subset hsub
  intro x hx hout
  rw [hnone x hx hout]
  rfl

/-- A place that is left out and holds the value is missed. -/
theorem tally_filter_lt {ok : S → Prop} [DecidablePred ok] (hx : x ∈ s) (hnot : ¬ ok x) (hheld : held x = some k) :
    tally (s.filter ok) held k < tally s held k := by
  unfold tally
  refine Finset.sum_lt_sum_of_subset (Finset.filter_subset ok s) hx ?_ ?_ ?_
  · simp [hnot]
  · rw [if_pos hheld]
    exact Nat.one_pos
  · intro y _ _
    exact Nat.zero_le _

end AudioKernel.Lib
