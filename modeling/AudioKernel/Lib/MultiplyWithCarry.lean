import Mathlib.Data.Nat.GCD.Basic
import Mathlib.Data.Nat.Notation
import Mathlib.Logic.Function.Iterate
import Mathlib.Tactic.Ring

/-! Multiply-with-carry: a digit to the base `b` and a carry above it, which is added to `a` times the digit. -/
namespace AudioKernel.Lib

def multiplyWithCarry (a b x : ℕ) : ℕ := a * (x % b) + x / b

namespace MultiplyWithCarry

variable {a b x : ℕ}

/-- A step divides by `b` modulo `a * b - 1`. -/
theorem base_mul_step (hab : 0 < a * b) : b * multiplyWithCarry a b x = x + (a * b - 1) * (x % b) := by
  obtain ⟨m, hm⟩ : ∃ m, a * b = m + 1 := ⟨a * b - 1, by omega⟩
  have hdiv := Nat.mod_add_div x b
  rw [hm, Nat.add_sub_cancel]
  calc b * multiplyWithCarry a b x = a * b * (x % b) + b * (x / b) := by
        unfold multiplyWithCarry
        ring
    _ = m * (x % b) + (x % b + b * (x / b)) := by
        rw [hm]
        ring
    _ = x + m * (x % b) := by rw [hdiv, Nat.add_comm]

theorem coprime_base (hab : 0 < a * b) : Nat.Coprime (a * b - 1) b := by
  have hsub : Nat.Coprime (a * b - 1) (a * b) := (Nat.coprime_self_sub_left hab).mpr (Nat.coprime_one_left _)
  exact hsub.coprime_mul_left_right

/-- A step keeps the multiples of `a * b - 1` apart from the other states. -/
theorem dvd_step_iff (hab : 0 < a * b) : a * b - 1 ∣ multiplyWithCarry a b x ↔ a * b - 1 ∣ x := by
  rw [← (coprime_base hab).dvd_mul_left, base_mul_step hab]
  exact (Nat.dvd_add_iff_left (dvd_mul_right _ _)).symm

theorem dvd_iterate_iff (hab : 0 < a * b) (n : ℕ) : a * b - 1 ∣ (multiplyWithCarry a b)^[n] x ↔ a * b - 1 ∣ x := by
  induction n with
  | zero => rfl
  | succ n ih =>
    rw [Function.iterate_succ_apply', dvd_step_iff hab]
    exact ih

/-- A step leads below twice `a * b - 1`, so that there are two multiples which it can lead to. -/
theorem step_lt (ha : 2 ≤ a) (hb : 2 ≤ b) (hx : x < b ^ 2) : multiplyWithCarry a b x < 2 * (a * b - 1) := by
  have hcarry : x / b < b := Nat.div_lt_of_lt_mul (by rw [← Nat.pow_two]; exact hx)
  have hdigit : x % b ≤ b - 1 := Nat.le_sub_one_of_lt (Nat.mod_lt x (by omega))
  have hmul : a * (x % b) ≤ a * (b - 1) := Nat.mul_le_mul_left a hdigit
  have hsub : a * (b - 1) = a * b - a := by rw [Nat.mul_sub, Nat.mul_one]
  have hle : 2 * b ≤ a * b := Nat.mul_le_mul_right b ha
  have hle' : a * 2 ≤ a * b := Nat.mul_le_mul_left a hb
  unfold multiplyWithCarry
  omega

/-- Among the states below `2 * (a * b - 1)` the multiples are the two degenerate ones. -/
theorem dvd_iff_of_lt (hx : x < 2 * (a * b - 1)) : a * b - 1 ∣ x ↔ x = 0 ∨ x = a * b - 1 := by
  constructor
  · rintro ⟨k, rfl⟩
    have hk : k < 2 := Nat.lt_of_mul_lt_mul_left (by rw [Nat.mul_comm 2] at hx; exact hx)
    obtain rfl | rfl : k = 0 ∨ k = 1 := by omega
    · exact .inl (Nat.mul_zero _)
    · exact .inr (Nat.mul_one _)
  · rintro (rfl | rfl)
    · exact dvd_zero _
    · exact dvd_rfl

/-- The degenerate states are reached just from the multiples of `a * b - 1`, and at the first step. -/
theorem never_degenerate_iff (ha : 2 ≤ a) (hb : 2 ≤ b) (hx : x < b ^ 2) :
    (∀ n, (multiplyWithCarry a b)^[n] x ≠ 0 ∧ (multiplyWithCarry a b)^[n] x ≠ a * b - 1) ↔ ¬ a * b - 1 ∣ x := by
  have hab : 0 < a * b := Nat.mul_pos (by omega) (by omega)
  constructor
  · intro hall hdvd
    obtain ⟨hzero, htop⟩ := hall 1
    rw [Function.iterate_one] at hzero htop
    rcases (dvd_iff_of_lt (step_lt ha hb hx)).mp ((dvd_step_iff hab).mpr hdvd) with h | h
    · exact hzero h
    · exact htop h
  · intro hnot n
    rw [← dvd_iterate_iff hab n] at hnot
    refine ⟨fun h => hnot ?_, fun h => hnot ?_⟩
    · rw [h]
      exact dvd_zero _
    · rw [h]

/-- The degenerate states are those that a step leaves as they are. -/
theorem step_eq_self_iff (ha : 2 ≤ a) (hb : 2 ≤ b) (hcoprime : Nat.Coprime (b - 1) (a - 1)) :
    multiplyWithCarry a b x = x ↔ x = 0 ∨ x = a * b - 1 := by
  obtain ⟨m, rfl⟩ : ∃ m, a = m + 1 := ⟨a - 1, by omega⟩
  obtain ⟨k, rfl⟩ : ∃ k, b = k + 1 := ⟨b - 1, by omega⟩
  rw [Nat.add_sub_cancel, Nat.add_sub_cancel] at hcoprime
  have htop : (m + 1) * (k + 1) - 1 = k + (k + 1) * m := by
    have hexpand : (m + 1) * (k + 1) = k + (k + 1) * m + 1 := by ring
    rw [hexpand, Nat.add_sub_cancel]
  have hdiv := Nat.mod_add_div x (k + 1)
  have hdigit : x % (k + 1) ≤ k := Nat.lt_succ_iff.mp (Nat.mod_lt x (Nat.succ_pos k))
  have hfixed : multiplyWithCarry (m + 1) (k + 1) x = x ↔ m * (x % (k + 1)) = k * (x / (k + 1)) := by
    conv_lhs => rhs; rw [← hdiv]
    unfold multiplyWithCarry
    rw [Nat.add_one_mul, Nat.add_one_mul]
    omega
  rw [hfixed, htop]
  constructor
  · intro heq
    have hdvd : k ∣ x % (k + 1) := hcoprime.dvd_of_dvd_mul_left ⟨_, heq⟩
    obtain ⟨j, hj⟩ := hdvd
    have hj2 : j < 2 := by
      refine Nat.lt_of_mul_lt_mul_left (a := k) ?_
      omega
    obtain rfl | rfl : j = 0 ∨ j = 1 := by omega
    · left
      rw [hj, Nat.mul_zero, Nat.mul_zero] at heq
      have hcarry : x / (k + 1) = 0 := (Nat.mul_eq_zero.mp heq.symm).resolve_left (by omega)
      rw [hj, hcarry] at hdiv
      omega
    · right
      rw [hj, Nat.mul_one, Nat.mul_comm m k] at heq
      have hcarry : m = x / (k + 1) := Nat.eq_of_mul_eq_mul_left (by omega) heq
      rw [hj, Nat.mul_one, ← hcarry] at hdiv
      exact hdiv.symm
  · rintro (rfl | rfl)
    · simp
    · rw [Nat.add_mul_mod_self_left, Nat.mod_eq_of_lt (Nat.lt_succ_self k), Nat.add_mul_div_left _ _ (Nat.succ_pos k),
        Nat.div_eq_of_lt (Nat.lt_succ_self k), Nat.zero_add, Nat.mul_comm]

end MultiplyWithCarry
end AudioKernel.Lib
