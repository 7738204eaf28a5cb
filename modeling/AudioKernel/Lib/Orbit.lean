import Mathlib.Data.Finset.Card
import Mathlib.Data.Fintype.Pigeonhole

/-! Partial steps taken again and again: when they come to an end. -/
namespace AudioKernel.Lib

variable {α : Type*} {f : α → Option α} {a b : α} {i j k : ℕ}

/-- Where `k` steps from `a` on lead, if they can be taken. -/
def visit (f : α → Option α) (a : α) : ℕ → Option α
  | 0 => some a
  | k + 1 => (visit f a k).bind f

def Ends (f : α → Option α) (a : α) : Prop := ∃ k, visit f a k = none

theorem visit_add (f : α → Option α) (a : α) (i k : ℕ) :
    visit f a (i + k) = (visit f a i).bind fun b => visit f b k := by
  induction k with
  | zero => simp [visit]
  | succ k ih =>
    rw [← Nat.add_assoc, visit, ih, Option.bind_assoc]
    rfl

theorem visit_succ (f : α → Option α) (a : α) (k : ℕ) : visit f a (k + 1) = (f a).bind fun b => visit f b k := by
  rw [Nat.add_comm, visit_add]
  rfl

theorem visit_none_of_le (h : visit f a i = none) (hij : i ≤ j) : visit f a j = none := by
  obtain ⟨k, rfl⟩ := Nat.exists_eq_add_of_le hij
  rw [visit_add, h]
  rfl

/-- There is only one place where the steps can end. -/
theorem visit_last_unique {c : α} (hi : visit f a i = some b) (hb : f b = none) (hj : visit f a j = some c)
    (hc : f c = none) : b = c := by
  have hlast {i j : ℕ} {b c : α} (hi : visit f a i = some b) (hb : f b = none) (hj : visit f a j = some c) : j ≤ i := by
    by_contra hlt
    have hnone : visit f a (i + 1) = none := by
      rw [visit, hi]
      exact hb
    rw [visit_none_of_le hnone (Nat.lt_of_not_le hlt)] at hj
    cases hj
  obtain rfl : i = j := Nat.le_antisymm (hlast hj hc hi) (hlast hi hb hj)
  exact Option.some.inj (hi.symm.trans hj)

/-- Steps that come back to a place go on for ever. -/
theorem not_ends_of_repeat (hij : i < j) (hi : visit f a i = some b) (hj : visit f a j = some b) : ¬ Ends f a := by
  rintro ⟨k, hk⟩
  have hloop : visit f b (j - i) = some b := by
    have hsplit := visit_add f a i (j - i)
    rw [Nat.add_sub_cancel' (Nat.le_of_lt hij), hi, hj] at hsplit
    exact hsplit.symm
  have hagain : ∀ m, visit f a (i + m * (j - i)) = some b := by
    intro m
    induction m with
    | zero => rwa [Nat.zero_mul, Nat.add_zero]
    | succ m ih => rw [Nat.succ_mul, ← Nat.add_assoc, visit_add, ih, Option.bind_some, hloop]
  have hle : k ≤ i + k * (j - i) :=
    Nat.le_add_left_of_le (Nat.le_mul_of_pos_right k (Nat.sub_pos_of_lt hij))
  have hnone := visit_none_of_le hk hle
  rw [hagain] at hnone
  cases hnone

/-- As many steps as there are places visit one of them twice. -/
theorem repeat_of_visit_card {S : Finset α} (hS : ∀ k b, visit f a k = some b → b ∈ S)
    (h : visit f a S.card ≠ none) : ∃ i j b, i < j ∧ visit f a i = some b ∧ visit f a j = some b := by
  have hsome : ∀ k ∈ Finset.range (S.card + 1), (visit f a k).isSome := by
    intro k hk
    rw [Option.isSome_iff_ne_none]
    intro hnone
    exact h (visit_none_of_le hnone (Nat.le_of_lt_succ (Finset.mem_range.mp hk)))
  have hmaps : ∀ k ∈ Finset.range (S.card + 1), (visit f a k).getD a ∈ S := by
    intro k hk
    obtain ⟨b, hb⟩ := Option.isSome_iff_exists.mp (hsome k hk)
    rw [hb]
    exact hS k b hb
  obtain ⟨i, hi, j, hj, hne, heq⟩ := Finset.exists_ne_map_eq_of_card_lt_of_maps_to (by simp) hmaps
  obtain ⟨b, hb⟩ := Option.isSome_iff_exists.mp (hsome i hi)
  obtain ⟨c, hc⟩ := Option.isSome_iff_exists.mp (hsome j hj)
  rw [hb, hc] at heq
  obtain rfl : b = c := heq
  rcases Nat.lt_or_gt_of_ne hne with hlt | hlt
  · exact ⟨i, j, b, hlt, hb, hc⟩
  · exact ⟨j, i, b, hlt, hc, hb⟩

/-- Among finitely many places the steps end just when none of them is visited twice. -/
theorem ends_iff {S : Finset α} (hS : ∀ k b, visit f a k = some b → b ∈ S) :
    Ends f a ↔ ∀ i j b, i < j → visit f a i = some b → visit f a j ≠ some b := by
  constructor
  · intro hends i j b hij hi hj
    exact not_ends_of_repeat hij hi hj hends
  · intro honce
    by_contra hnot
    obtain ⟨i, j, b, hij, hi, hj⟩ := repeat_of_visit_card hS fun hnone => hnot ⟨_, hnone⟩
    exact honce i j b hij hi hj

/-- If they end at all, they have ended after as many steps as there are places. -/
theorem Ends.visit_card {S : Finset α} (hS : ∀ k b, visit f a k = some b → b ∈ S) (h : Ends f a) :
    visit f a S.card = none := by
  by_contra hsome
  obtain ⟨i, j, b, hij, hi, hj⟩ := repeat_of_visit_card hS hsome
  exact not_ends_of_repeat hij hi hj h

end AudioKernel.Lib
