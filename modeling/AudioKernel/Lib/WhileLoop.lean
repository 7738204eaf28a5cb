import Mathlib.Data.Nat.Notation
import Mathlib.Logic.Relation

/-! `while` loops whose body may stop with an error: the loop with fuel, and its turns as a relation. -/
namespace AudioKernel.Lib

variable {ε σ : Type*} {done : σ → Bool} {body : σ → Except ε σ} {s t u : σ} {e : ε} {n fuel : ℕ}

/-- `while (!done) body`; `none` if the fuel does not last. -/
def whileLoop (done : σ → Bool) (body : σ → Except ε σ) : ℕ → σ → Option (Except ε σ)
  | 0, s => if done s then some (.ok s) else none
  | fuel + 1, s =>
    if done s then some (.ok s)
    else
      match body s with
      | .ok t => whileLoop done body fuel t
      | .error e => some (.error e)

def Turn (done : σ → Bool) (body : σ → Except ε σ) (s t : σ) : Prop := done s = false ∧ body s = .ok t

abbrev Turns (done : σ → Bool) (body : σ → Except ε σ) : σ → σ → Prop := Relation.ReflTransGen (Turn done body)

theorem whileLoop_of_done (h : done s = true) : whileLoop done body fuel s = some (.ok s) := by
  cases fuel <;> rw [whileLoop, if_pos h]

theorem Turn.whileLoop (h : Turn done body s t) : whileLoop done body (fuel + 1) s = whileLoop done body fuel t := by
  rw [Lib.whileLoop, if_neg (by rw [h.1]; exact Bool.false_ne_true), h.2]

theorem whileLoop_of_error (hs : done s = false) (h : body s = .error e) :
    whileLoop done body (fuel + 1) s = some (.error e) := by
  rw [whileLoop, if_neg (by rw [hs]; exact Bool.false_ne_true), h]

/-- The loop goes on from where its first turns lead. -/
theorem Turns.whileLoop (h : Turns done body s t) :
    ∃ n, ∀ fuel, whileLoop done body (fuel + n) s = whileLoop done body fuel t := by
  induction h using Relation.ReflTransGen.head_induction_on with
  | refl => exact ⟨0, fun _ => rfl⟩
  | head hturn _ ih =>
    obtain ⟨n, hn⟩ := ih
    exact ⟨n + 1, fun fuel => by rw [← Nat.add_assoc, hturn.whileLoop, hn]⟩

/-- Turns that lead to the end of the loop: it returns, with any fuel from some amount on. -/
theorem Turns.returns (h : Turns done body s t) (ht : done t = true) :
    ∃ n, ∀ fuel, n ≤ fuel → Lib.whileLoop done body fuel s = some (.ok t) := by
  obtain ⟨n, hn⟩ := Turns.whileLoop h
  refine ⟨n, fun fuel hle => ?_⟩
  rw [← Nat.sub_add_cancel hle, hn, whileLoop_of_done ht]

/-- Turns that lead to an error. -/
theorem Turns.stops (h : Turns done body s t) (ht : done t = false) (he : body t = .error e) :
    ∃ n, ∀ fuel, n ≤ fuel → Lib.whileLoop done body fuel s = some (.error e) := by
  obtain ⟨n, hn⟩ := Turns.whileLoop h
  refine ⟨n + 1, fun fuel hle => ?_⟩
  obtain ⟨k, rfl⟩ := Nat.exists_eq_add_of_le' hle
  rw [Nat.add_comm n 1, ← Nat.add_assoc, hn, whileLoop_of_error ht he]

theorem Turn.unique (ht : Turn done body s t) (hu : Turn done body s u) : t = u :=
  Except.ok.inj (ht.2.symm.trans hu.2)

/-- Of two places in a run one comes before the other. -/
theorem Turns.total (ht : Turns done body s t) (hu : Turns done body s u) :
    Turns done body t u ∨ Turns done body u t :=
  Relation.ReflTransGen.total_of_right_unique (fun _ _ _ => Turn.unique) ht hu

theorem not_turn_of_done (h : done s = true) (t : σ) : ¬ Turn done body s t := by
  intro hturn
  rw [hturn.1] at h
  cases h

theorem not_turn_of_error (h : body s = .error e) (t : σ) : ¬ Turn done body s t := by
  intro hturn
  have hok := hturn.2
  rw [h] at hok
  cases hok

/-- Every place of a run lies before the last one. -/
theorem Turns.before_last (hlast : Turns done body s t) (ht : ∀ v, ¬ Turn done body t v) (hu : Turns done body s u) :
    Turns done body u t := by
  rcases Turns.total hlast hu with h | h
  · rcases Relation.ReflTransGen.cases_head h with heq | ⟨v, hturn, -⟩
    · rw [heq]
    · exact absurd hturn (ht v)
  · exact h

/-- What no turn makes smaller. -/
theorem Turns.mono {f : σ → ℕ} (hf : ∀ s t, Turn done body s t → f s ≤ f t) (h : Turns done body s t) : f s ≤ f t := by
  induction h with
  | refl => exact Nat.le_refl _
  | tail _ hturn ih => exact Nat.le_trans ih (hf _ _ hturn)

end AudioKernel.Lib
