import Mathlib.Data.List.Basic
import Mathlib.Logic.Function.Basic

/-! A list of blocks in which each free block holds the address of the next one. -/
namespace AudioKernel.Lib

/-- From `first` on, the links lead through the blocks of the list in turn, and then to 0. -/
def Chained (link : ℕ → ℕ) : ℕ → List ℕ → Prop
  | a, [] => a = 0
  | a, b :: l => a = b ∧ a ≠ 0 ∧ Chained link (link a) l

namespace Chained

variable {link link' : ℕ → ℕ} {a : ℕ} {l l' : List ℕ}

theorem congr (h : Chained link a l) (hsame : ∀ b ∈ l, link' b = link b) : Chained link' a l := by
  induction l generalizing a with
  | nil => exact h
  | cons b l ih =>
    obtain ⟨rfl, hne, hrest⟩ := h
    refine ⟨rfl, hne, ?_⟩
    rw [hsame a List.mem_cons_self]
    exact ih hrest fun c hc => hsame c (List.mem_cons_of_mem _ hc)

theorem unique (h : Chained link a l) (h' : Chained link a l') : l = l' := by
  induction l generalizing a l' with
  | nil =>
    cases l' with
    | nil => rfl
    | cons b l' => exact absurd h h'.2.1
  | cons b l ih =>
    obtain ⟨rfl, hne, hrest⟩ := h
    cases l' with
    | nil => exact absurd h' hne
    | cons c l' =>
      obtain ⟨rfl, -, hrest'⟩ := h'
      rw [ih hrest hrest']

theorem pop (h : Chained link a l) (hne : a ≠ 0) : ∃ l', l = a :: l' ∧ Chained link (link a) l' := by
  cases l with
  | nil => exact absurd h hne
  | cons b l =>
    obtain ⟨rfl, -, hrest⟩ := h
    exact ⟨l, rfl, hrest⟩

theorem push (h : Chained link a l) {b : ℕ} (hne : b ≠ 0) (hb : b ∉ l) :
    Chained (Function.update link b a) b (b :: l) := by
  refine ⟨rfl, hne, ?_⟩
  rw [Function.update_self]
  exact h.congr fun c hc => Function.update_of_ne (by rintro rfl; exact hb hc) ..

end Chained
end AudioKernel.Lib
