import Mathlib.Logic.Basic
import Mathlib.Data.Option.Basic
import Mathlib.Data.List.Basic

/-! Guarded-command machines: reachable states, runs, and the rules that prove invariants of them. -/
namespace AudioKernel.Lib

/-- A machine has initial states and, for every action, a guard and an effect. -/
structure Machine (σ α : Type*) where
  init : σ → Prop
  enabled : σ → α → Prop
  next : σ → α → σ

namespace Machine

variable {σ α : Type*} {M : Machine σ α}

inductive Reachable (M : Machine σ α) : σ → Prop
  | init {s : σ} : M.init s → Reachable M s
  | step {s : σ} {a : α} : Reachable M s → M.enabled s a → Reachable M (M.next s a)

/-- `M.Run s as t`: the actions `as` are enabled in turn and lead from `s` to `t`. -/
inductive Run (M : Machine σ α) : σ → List α → σ → Prop
  | nil (s : σ) : Run M s [] s
  | cons {s t : σ} {a : α} {as : List α} :
      M.enabled s a → Run M (M.next s a) as t → Run M s (a :: as) t

/-- The invariant rule. -/
theorem Reachable.invariant {I : σ → Prop} (hinit : ∀ s, M.init s → I s)
    (hstep : ∀ s a, I s → M.enabled s a → I (M.next s a)) {s : σ} (hs : M.Reachable s) : I s := by
  induction hs with
  | init h => exact hinit _ h
  | step _ he ih => exact hstep _ _ ih he

/-- The invariant rule under an invariant that is already known. -/
theorem Reachable.invariant_of {I J : σ → Prop} (hJ : ∀ s, M.Reachable s → J s)
    (hinit : ∀ s, M.init s → I s)
    (hstep : ∀ s a, J s → I s → M.enabled s a → I (M.next s a)) {s : σ} (hs : M.Reachable s) :
    I s := by
  induction hs with
  | init h => exact hinit _ h
  | step hr he ih => exact hstep _ _ (hJ _ hr) ih he

/-- The refinement rule: under an invariant, a step of the one machine is a step of the other, or none. -/
theorem Reachable.refines {τ β : Type*} {N : Machine τ β} {I : σ → Prop} (f : σ → τ) (hI : ∀ s, M.Reachable s → I s)
    (hinit : ∀ s, M.init s → N.init (f s))
    (hstep : ∀ s a, I s → M.enabled s a → f (M.next s a) = f s ∨
      ∃ b, N.enabled (f s) b ∧ f (M.next s a) = N.next (f s) b) {s : σ} (hs : M.Reachable s) : N.Reachable (f s) := by
  induction hs with
  | init h => exact .init (hinit _ h)
  | step hr he ih =>
    rcases hstep _ _ (hI _ hr) he with hsame | ⟨b, hb, hnext⟩
    · rw [hsame]
      exact ih
    · rw [hnext]
      exact ih.step hb

theorem Run.reachable {s t : σ} {as : List α} (h : M.Run s as t) (hs : M.Reachable s) :
    M.Reachable t := by
  induction h with
  | nil => exact hs
  | cons he _ ih => exact ih (hs.step he)

theorem Run.concat {s t : σ} {a : α} {as : List α} (h : M.Run s as t) (he : M.enabled t a) :
    M.Run s (as ++ [a]) (M.next t a) := by
  induction h with
  | nil => exact .cons he (.nil _)
  | cons he' _ ih => exact .cons he' (ih he)

/-- The rule for ends: as long as the goal is not reached, some step that is allowed leads nearer. -/
theorem Reachable.leads {I goal : σ → Prop} {allowed : α → Prop} (rank : σ → ℕ)
    (hstep : ∀ s, M.Reachable s → I s → ¬ goal s →
      ∃ a, allowed a ∧ M.enabled s a ∧ I (M.next s a) ∧ rank (M.next s a) < rank s)
    {s : σ} (hs : M.Reachable s) (hi : I s) :
    ∃ as t, M.Run s as t ∧ (∀ a ∈ as, allowed a) ∧ I t ∧ goal t := by
  induction hn : rank s using Nat.strongRecOn generalizing s with
  | ind n ih =>
    by_cases hgoal : goal s
    · exact ⟨[], s, .nil s, fun _ ha => absurd ha List.not_mem_nil, hi, hgoal⟩
    · obtain ⟨a, ha, he, hnext, hless⟩ := hstep s hs hi hgoal
      rw [hn] at hless
      obtain ⟨as, t, hrun, has, ht⟩ := ih _ hless (hs.step he) hnext rfl
      refine ⟨a :: as, t, .cons he hrun, fun b hb => ?_, ht⟩
      rcases List.mem_cons.mp hb with rfl | hb
      · exact ha
      · exact has b hb

/-- The rule for lengths: a run of steps that all lead nearer to the end is no longer than the way to it. -/
theorem Run.length_add_le {s t : σ} {as : List α} {ok : α → Prop} (h : M.Run s as t) (hs : M.Reachable s)
    (has : ∀ a ∈ as, ok a) (rank : σ → ℕ)
    (hstep : ∀ s a, M.Reachable s → M.enabled s a → ok a → rank (M.next s a) < rank s) : as.length + rank t ≤ rank s := by
  induction h with
  | nil s => exact Nat.le_of_eq (Nat.zero_add _)
  | @cons s t a as he hrun ih =>
    have hnext := ih (hs.step he) fun b hb => has b (List.mem_cons_of_mem a hb)
    have hless := hstep s a hs he (has a List.mem_cons_self)
    rw [List.length_cons]
    omega

/-- The machine that takes a step only when it is `ok`. -/
def restrict (M : Machine σ α) (ok : σ → α → Prop) : Machine σ α :=
  { M with enabled := fun s a => M.enabled s a ∧ ok s a }

instance {ok : σ → α → Prop} [∀ s a, Decidable (M.enabled s a)] [∀ s a, Decidable (ok s a)] (s : σ) (a : α) :
    Decidable ((M.restrict ok).enabled s a) :=
  inferInstanceAs (Decidable (_ ∧ _))

theorem Reachable.of_restrict {ok : σ → α → Prop} {s : σ} (hs : (M.restrict ok).Reachable s) : M.Reachable s := by
  induction hs with
  | init h => exact .init h
  | step _ he ih => exact ih.step he.1

theorem Run.of_restrict {ok : σ → α → Prop} {s t : σ} {as : List α} (h : (M.restrict ok).Run s as t) : M.Run s as t := by
  induction h with
  | nil => exact .nil _
  | cons he _ ih => exact .cons he.1 ih

/-- A condition on the actions alone. -/
theorem Run.restrict_iff {ok : α → Prop} {s t : σ} {as : List α} (h : M.Run s as t) :
    (M.restrict fun _ a => ok a).Run s as t ↔ ∀ a ∈ as, ok a := by
  constructor
  · intro hrun
    induction hrun with
    | nil => exact fun a ha => absurd ha List.not_mem_nil
    | cons he _ ih =>
      cases h with
      | cons _ hrest => exact List.forall_mem_cons.mpr ⟨he.2, ih hrest⟩
  · intro hall
    induction h with
    | nil => exact .nil _
    | cons he _ ih =>
      rw [List.forall_mem_cons] at hall
      exact .cons ⟨he, hall.1⟩ (ih hall.2)

/-- `P` holds in every state that the actions lead through. -/
def Along (M : Machine σ α) (P : σ → Prop) (s : σ) : List α → Prop
  | [] => P s
  | a :: as => P s ∧ Along M P (M.next s a) as

/-- The rule for the exact condition: a property that the steps which are `ok` keep, and that every other step breaks,
holds along a run just when all its steps are `ok`. -/
theorem Run.along_iff {P I : σ → Prop} {ok : σ → α → Prop} (hI : ∀ s, I s → P s)
    (hkeep : ∀ s a, I s → M.enabled s a → ok s a → I (M.next s a))
    (hbreak : ∀ s a, I s → M.enabled s a → ¬ ok s a → ¬ P (M.next s a)) {s t : σ} {as : List α} (h : M.Run s as t)
    (hs : I s) : M.Along P s as ↔ (M.restrict ok).Run s as t := by
  induction h with
  | nil s => exact iff_of_true (hI s hs) (.nil s)
  | @cons s t a as he hrun ih =>
    constructor
    · rintro ⟨-, halong⟩
      have hok : ok s a := by
        by_contra hnot
        have hnext : P (M.next s a) := by
          cases as with
          | nil => exact halong
          | cons b bs => exact halong.1
        exact hbreak s a hs he hnot hnext
      exact .cons ⟨he, hok⟩ ((ih (hkeep s a hs he hok)).mp halong)
    · intro hrun'
      cases hrun' with
      | cons he' hrest => exact ⟨hI s hs, (ih (hkeep s a hs he'.1 he'.2)).mpr hrest⟩

def EachStep (M : Machine σ α) (Q : σ → α → σ → Prop) (s : σ) : List α → Prop
  | [] => True
  | a :: as => Q s a (M.next s a) ∧ EachStep M Q (M.next s a) as

/-- The rule for the exact condition on steps, under an invariant that the steps which are `ok` keep. -/
theorem Run.eachStep_iff {Q : σ → α → σ → Prop} {I : σ → Prop} {ok : σ → α → Prop}
    (hkeep : ∀ s a, I s → M.enabled s a → ok s a → I (M.next s a))
    (hexact : ∀ s a, I s → M.enabled s a → (Q s a (M.next s a) ↔ ok s a)) {s t : σ} {as : List α} (h : M.Run s as t)
    (hs : I s) : M.EachStep Q s as ↔ (M.restrict ok).Run s as t := by
  induction h with
  | nil s => exact iff_of_true trivial (.nil s)
  | @cons s t a as he hrun ih =>
    constructor
    · rintro ⟨hstep, hrest⟩
      have hok := (hexact s a hs he).mp hstep
      exact .cons ⟨he, hok⟩ ((ih (hkeep s a hs he hok)).mp hrest)
    · intro hrun'
      cases hrun' with
      | cons he' hrest =>
        exact ⟨(hexact s a hs he).mpr he'.2, (ih (hkeep s a hs he he'.2)).mpr hrest⟩

/-- Executes a list of actions; `none` when a guard fails. -/
def replay (M : Machine σ α) [∀ s a, Decidable (M.enabled s a)] (s : σ) : List α → Option σ
  | [] => some s
  | a :: as => if M.enabled s a then replay M (M.next s a) as else none

theorem run_of_replay [∀ s a, Decidable (M.enabled s a)] {as : List α} {s t : σ}
    (h : M.replay s as = some t) : M.Run s as t := by
  induction as generalizing s with
  | nil =>
    obtain rfl : s = t := Option.some.inj h
    exact .nil s
  | cons a as ih =>
    simp only [replay] at h
    split_ifs at h with he
    exact .cons he (ih h)

/-- A run found by execution, with a check of its last state. -/
theorem exists_run_of_replay [∀ s a, Decidable (M.enabled s a)] {as : List α} {s : σ}
    {check : σ → Bool} (h : (M.replay s as).any check = true) :
    ∃ t, M.Run s as t ∧ check t = true := by
  obtain ⟨t, ht, hc⟩ := (Option.any_eq_true_iff_get ..).mp h |> fun ⟨hs, hc⟩ =>
    (⟨_, (Option.some_get hs).symm, hc⟩ : ∃ t, M.replay s as = some t ∧ check t = true)
  exact ⟨t, run_of_replay ht, hc⟩

end Machine
end AudioKernel.Lib
