import Mathlib.Order.Basic

/-! Counting loops whose body may fail, with the rules for them. -/
namespace AudioKernel.Lib

variable {σ : Type*} {f : ℕ → σ → Option σ} {lo m n : ℕ} {s t : σ}

/-- `for (i = lo; i < lo + n; i++)`; the first failure ends the loop. -/
def forLoop (f : ℕ → σ → Option σ) (lo : ℕ) : ℕ → σ → Option σ
  | 0, s => some s
  | n + 1, s => (forLoop f lo n s).bind (f (lo + n))

/-- The loop rule: `P k` holds after `k` rounds. -/
theorem forLoop_invariant {P : ℕ → σ → Prop} (hinit : P 0 s)
    (hround : ∀ k s t, k < n → P k s → f (lo + k) s = some t → P (k + 1) t) (h : forLoop f lo n s = some t) :
    P n t := by
  induction n generalizing t with
  | zero =>
    obtain rfl : s = t := Option.some.inj h
    exact hinit
  | succ n ih =>
    obtain ⟨u, hu, ht⟩ := Option.bind_eq_some_iff.mp h
    exact hround n u t (Nat.lt_succ_self n) (ih (fun k s t hk => hround k s t (Nat.lt_succ_of_lt hk)) hu) ht

/-- The loop rule for a body that never fails. -/
theorem forLoop_total {P : ℕ → σ → Prop} (hinit : P 0 s)
    (hround : ∀ k s, k < n → P k s → ∃ t, f (lo + k) s = some t ∧ P (k + 1) t) :
    ∃ t, forLoop f lo n s = some t ∧ P n t := by
  induction n with
  | zero => exact ⟨s, rfl, hinit⟩
  | succ n ih =>
    obtain ⟨u, hu, hP⟩ := ih fun k s hk => hround k s (Nat.lt_succ_of_lt hk)
    obtain ⟨t, ht, hP'⟩ := hround n u (Nat.lt_succ_self n) hP
    exact ⟨t, by rw [forLoop, hu]; exact ht, hP'⟩

/-- `while (!stop(i)) i++`, for a number of turns. -/
def scan (stop : ℕ → Bool) : ℕ → ℕ → Option ℕ
  | 0, _ => none
  | fuel + 1, i => if stop i then some i else scan stop fuel (i + 1)

/-- A scan finds the first place where it stops. -/
theorem scan_eq_some_iff {stop : ℕ → Bool} {fuel k n : ℕ} :
    scan stop fuel k = some n ↔ k ≤ n ∧ n < k + fuel ∧ stop n = true ∧ ∀ i, k ≤ i → i < n → stop i = false := by
  induction fuel generalizing k with
  | zero =>
    refine iff_of_false (by simp [scan]) ?_
    rintro ⟨hlo, hhi, -⟩
    exact absurd hlo (Nat.not_le_of_lt hhi)
  | succ fuel ih =>
    rw [scan]
    split_ifs with hstop
    · rw [Option.some.injEq]
      constructor
      · rintro rfl
        exact ⟨Nat.le_refl _, Nat.lt_add_of_pos_right (Nat.succ_pos _), hstop,
          fun i hlo hhi => absurd hlo (Nat.not_le_of_lt hhi)⟩
      · rintro ⟨hlo, -, -, hbefore⟩
        by_contra hne
        have hfalse := hbefore k (Nat.le_refl _) (Nat.lt_of_le_of_ne hlo hne)
        rw [hstop] at hfalse
        cases hfalse
    · rw [ih]
      constructor
      · rintro ⟨hlo, hhi, hn, hbefore⟩
        refine ⟨by omega, by omega, hn, fun i hi hi' => ?_⟩
        by_cases hk : i = k
        · rw [hk]
          simpa using hstop
        · exact hbefore i (by omega) hi'
      · rintro ⟨hlo, hhi, hn, hbefore⟩
        have hne : n ≠ k := by
          rintro rfl
          exact hstop hn
        exact ⟨by omega, by omega, hn, fun i hi hi' => hbefore i (by omega) hi'⟩

end AudioKernel.Lib
