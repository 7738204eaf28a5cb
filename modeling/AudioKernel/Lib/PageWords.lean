import Mathlib.Algebra.Group.Nat.Defs
import Mathlib.Data.Nat.Bitwise

/-! Words that hold an aligned address with flags in its low bits. -/
namespace AudioKernel.Lib

variable {k n x y m : ℕ}

theorem or_low (hx : x % 2 ^ k = 0) (hm : m < 2 ^ k) : x ||| m = x + m := by
  obtain ⟨q, rfl⟩ := Nat.dvd_of_mod_eq_zero hx
  exact (Nat.two_pow_add_eq_or_of_lt hm q).symm

/-- The mask of the bits from `k` to `n - 1` rounds down to a multiple of `2 ^ k`. -/
theorem and_high (hkn : k ≤ n) (hx : x < 2 ^ n) : x &&& (2 ^ n - 2 ^ k) = x / 2 ^ k * 2 ^ k := by
  have hmask : 2 ^ n - 2 ^ k = (2 ^ (n - k) - 1) <<< k := by
    rw [Nat.shiftLeft_eq, Nat.sub_mul, ← Nat.pow_add, Nat.sub_add_cancel hkn, Nat.one_mul]
  apply Nat.eq_of_testBit_eq
  intro i
  rw [hmask, Nat.testBit_and, Nat.testBit_shiftLeft, Nat.testBit_two_pow_sub_one, Nat.testBit_mul_two_pow,
    Nat.testBit_div_two_pow]
  by_cases hi : k ≤ i
  · have hin : i - k + k = i := by omega
    by_cases hlt : i < n
    · simp [hi, hin, show i - k < n - k by omega]
    · have hzero : x.testBit i = false :=
        Nat.testBit_lt_two_pow (hx.trans_le (Nat.pow_le_pow_right (by decide) (by omega)))
      simp [hi, hin, hzero]
  · simp [hi]

/-- The word for an aligned block with its flags set. -/
theorem and_high_or (hkn : k ≤ n) (hx : x % 2 ^ k = 0) (hxn : x < 2 ^ n) (hm : m < 2 ^ k) :
    (x ||| m) &&& (2 ^ n - 2 ^ k) = x := by
  rw [or_low hx hm]
  obtain ⟨q, rfl⟩ := Nat.dvd_of_mod_eq_zero hx
  have hpos : 0 < 2 ^ k := Nat.two_pow_pos k
  have hlt : 2 ^ k * q + m < 2 ^ n := by
    obtain ⟨d, rfl⟩ := Nat.exists_eq_add_of_le hkn
    rw [Nat.pow_add] at hxn ⊢
    have hq : q + 1 ≤ 2 ^ d := Nat.lt_of_mul_lt_mul_left hxn
    calc 2 ^ k * q + m < 2 ^ k * (q + 1) := by rw [Nat.mul_succ]; omega
      _ ≤ 2 ^ k * 2 ^ d := Nat.mul_le_mul_left _ hq
  rw [and_high hkn hlt, Nat.mul_add_div hpos, Nat.div_eq_of_lt hm, Nat.add_zero, Nat.mul_comm]

theorem or_or_self : (x ||| m) ||| m = x ||| m := by
  rw [Nat.or_assoc, Nat.or_self]

theorem or_and_one (hk : 0 < k) (hx : x % 2 ^ k = 0) (hm : m < 2 ^ k) : (x ||| m) &&& 1 = m % 2 := by
  rw [or_low hx hm, Nat.and_one_is_mod]
  have htwo : 2 ∣ x := (dvd_pow_self 2 (by omega)).trans (Nat.dvd_of_mod_eq_zero hx)
  omega

end AudioKernel.Lib
