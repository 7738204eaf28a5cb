import Mathlib.Algebra.Group.Nat.Defs
import Mathlib.Algebra.Ring.Int.Defs
import Mathlib.Algebra.Order.Group.Nat
import Mathlib.Tactic.Ring

/-! The bytes of 32-bit words in little-endian order. -/
namespace AudioKernel.Lib

def digit (u b : ℕ) : ℕ := u / 256 ^ b % 256

def setDigit (u b v : ℕ) : ℕ := u % 256 ^ b + 256 ^ b * (v + 256 * (u / 256 ^ (b + 1)))

variable {u b c v : ℕ}

theorem digit_setDigit_self (hv : v < 256) : digit (setDigit u b v) b = v := by
  have hpos : 0 < 256 ^ b := Nat.pow_pos (by decide)
  rw [digit, setDigit, Nat.add_mul_div_left _ _ hpos, Nat.div_eq_of_lt (Nat.mod_lt u hpos)]
  omega

/-- The digits below come from the part of the number that stays below. -/
theorem digit_setDigit_of_lt (hc : c < b) : digit (setDigit u b v) c = digit u c := by
  have hpos : 0 < 256 ^ c := Nat.pow_pos (by decide)
  obtain ⟨d, rfl⟩ : ∃ d, b = c + 1 + d := ⟨b - (c + 1), by omega⟩
  have hsplit : 256 ^ (c + 1 + d) = 256 ^ c * (256 * 256 ^ d) := by ring
  rw [digit, setDigit, hsplit, Nat.mul_assoc, Nat.add_mul_div_left _ _ hpos, Nat.mod_mul_right_div_self, Nat.mul_assoc,
    Nat.add_mul_mod_self_left, Nat.mod_mul_right_mod, digit]

/-- The digits above come from the part of the number that stays above. -/
theorem digit_setDigit_of_gt (hv : v < 256) (hc : b < c) : digit (setDigit u b v) c = digit u c := by
  have hpos : 0 < 256 ^ b := Nat.pow_pos (by decide)
  obtain ⟨d, rfl⟩ : ∃ d, c = b + 1 + d := ⟨c - (b + 1), by omega⟩
  have hhigh : setDigit u b v / 256 ^ (b + 1) = u / 256 ^ (b + 1) := by
    rw [setDigit, Nat.pow_succ, ← Nat.div_div_eq_div_mul, Nat.add_mul_div_left _ _ hpos,
      Nat.div_eq_of_lt (Nat.mod_lt u hpos)]
    omega
  rw [digit, digit, Nat.pow_add 256 (b + 1) d, ← Nat.div_div_eq_div_mul, ← Nat.div_div_eq_div_mul, hhigh]

/-- A number of 32 bits keeps the four lowest digits. -/
theorem digit_mod (hc : c < 4) : digit (u % 2 ^ 32) c = digit u c := by
  have hsplit : 2 ^ 32 = 256 ^ c * 256 ^ (4 - c) := by
    rw [← Nat.pow_add, Nat.add_sub_cancel' hc.le]
    decide
  have hdvd : 256 ∣ 256 ^ (4 - c) := dvd_pow_self 256 (by omega)
  rw [digit, digit, hsplit, Nat.mod_mul_right_div_self, Nat.mod_mod_of_dvd _ hdvd]

def byteOf (x : ℤ) (b : ℕ) : UInt8 := UInt8.ofNat (digit (x % 2 ^ 32).toNat b)

def setByte (x : ℤ) (b : ℕ) (v : UInt8) : ℤ := Int.bmod (setDigit (x % 2 ^ 32).toNat b v.toNat) (2 ^ 32)

theorem toNat_bmod (u m : ℕ) : (Int.bmod u m % m).toNat = u % m := by
  rw [Int.bmod_emod, ← Int.natCast_emod, Int.toNat_natCast]

theorem byteOf_setByte (x : ℤ) (hc : c < 4) (v : UInt8) :
    byteOf (setByte x b v) c = if c = b then v else byteOf x c := by
  have hv := v.toNat_lt
  have hword := toNat_bmod (setDigit (x % 2 ^ 32).toNat b v.toNat) (2 ^ 32)
  rw [Nat.cast_pow, Nat.cast_ofNat] at hword
  unfold byteOf setByte
  rw [hword, digit_mod hc]
  rcases lt_trichotomy c b with hlt | heq | hgt
  · rw [digit_setDigit_of_lt hlt, if_neg hlt.ne]
  · rw [heq, digit_setDigit_self hv, if_pos rfl, UInt8.ofNat_toNat]
  · rw [digit_setDigit_of_gt hv hgt, if_neg hgt.ne']

end AudioKernel.Lib
