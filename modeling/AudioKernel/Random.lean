import AudioKernel.Lib.MultiplyWithCarry
import Mathlib.Data.UInt

/-! The generator of `random.h`, and the seeds from which it degenerates. -/
namespace AudioKernel
open Lib

structure Random where
  w : UInt32
  z : UInt32
  deriving DecidableEq

namespace Random

def new (seed : UInt32) : Random :=
  let w := seed
  let z := ~~~seed
  { w := if w = 0 ∨ w = 0x464fffff then w + 1 else w
    z := if z = 0 ∨ z = 0x9068ffff then z + 1 else z }

def update (a x : UInt32) : UInt32 := a * (x &&& (65535 : UInt32)) + (x >>> 16)

def next (r : Random) : UInt32 × Random :=
  let z := update 36969 r.z
  let w := update 18000 r.w
  ((z <<< 16) + w, ⟨w, z⟩)

def after (r : Random) : ℕ → Random
  | 0 => r
  | n + 1 => (r.after n).next.2

/-- No component is at a fixed point, and none stays what it is in the next call. -/
structure Varies (r : Random) : Prop where
  w_ne : r.w ≠ 0 ∧ r.w ≠ 0x464fffff
  z_ne : r.z ≠ 0 ∧ r.z ≠ 0x9068ffff
  w_moves : r.next.2.w ≠ r.w
  z_moves : r.next.2.z ≠ r.z

/-- The sums and products of an update do not wrap. -/
theorem update_toNat {a : UInt32} (x : UInt32) (ha : a.toNat < 2 ^ 16) :
    (update a x).toNat = multiplyWithCarry a.toNat (2 ^ 16) x.toNat := by
  have hdigit : (x &&& (65535 : UInt32)).toNat = x.toNat % 2 ^ 16 := by
    rw [UInt32.toNat_and]
    exact Nat.and_two_pow_sub_one_eq_mod _ 16
  have hcarry : (x >>> 16).toNat = x.toNat / 2 ^ 16 := by
    rw [UInt32.toNat_shiftRight]
    exact Nat.shiftRight_eq_div_pow _ 16
  have hx := x.toNat_lt
  have hmul : a.toNat * (x.toNat % 2 ^ 16) ≤ (2 ^ 16 - 1) * (2 ^ 16 - 1) := Nat.mul_le_mul (by omega) (by omega)
  unfold update multiplyWithCarry
  rw [UInt32.toNat_add, UInt32.toNat_mul, hdigit, hcarry, Nat.mod_eq_of_lt (a := a.toNat * _) (by omega),
    Nat.mod_eq_of_lt (by omega)]

theorem after_w (r : Random) (n : ℕ) : (r.after n).w.toNat = (multiplyWithCarry 18000 (2 ^ 16))^[n] r.w.toNat := by
  induction n with
  | zero => rfl
  | succ n ih =>
    rw [Function.iterate_succ_apply', ← ih]
    exact update_toNat (a := 18000) _ (by decide)

theorem after_z (r : Random) (n : ℕ) : (r.after n).z.toNat = (multiplyWithCarry 36969 (2 ^ 16))^[n] r.z.toNat := by
  induction n with
  | zero => rfl
  | succ n ih =>
    rw [Function.iterate_succ_apply', ← ih]
    exact update_toNat (a := 36969) _ (by decide)

theorem varies_iff (r : Random) : r.Varies ↔
    (r.w.toNat ≠ 0 ∧ r.w.toNat ≠ 18000 * 2 ^ 16 - 1) ∧ (r.z.toNat ≠ 0 ∧ r.z.toNat ≠ 36969 * 2 ^ 16 - 1) := by
  have hw : r.next.2.w = r.w ↔ r.w.toNat = 0 ∨ r.w.toNat = 18000 * 2 ^ 16 - 1 := by
    rw [← UInt32.toNat_inj, ← MultiplyWithCarry.step_eq_self_iff (by decide) (by decide) (by decide)]
    exact Iff.of_eq (congrArg (· = _) (update_toNat (a := 18000) r.w (by decide)))
  have hz : r.next.2.z = r.z ↔ r.z.toNat = 0 ∨ r.z.toNat = 36969 * 2 ^ 16 - 1 := by
    rw [← UInt32.toNat_inj, ← MultiplyWithCarry.step_eq_self_iff (by decide) (by decide) (by decide)]
    exact Iff.of_eq (congrArg (· = _) (update_toNat (a := 36969) r.z (by decide)))
  have hw0 : r.w = 0 ↔ r.w.toNat = 0 := UInt32.toNat_inj.symm
  have hz0 : r.z = 0 ↔ r.z.toNat = 0 := UInt32.toNat_inj.symm
  have hwF : r.w = 0x464fffff ↔ r.w.toNat = 18000 * 2 ^ 16 - 1 := UInt32.toNat_inj.symm
  have hzF : r.z = 0x9068ffff ↔ r.z.toNat = 36969 * 2 ^ 16 - 1 := UInt32.toNat_inj.symm
  constructor
  · rintro ⟨⟨h₁, h₂⟩, ⟨h₃, h₄⟩, -, -⟩
    exact ⟨⟨mt hw0.mpr h₁, mt hwF.mpr h₂⟩, mt hz0.mpr h₃, mt hzF.mpr h₄⟩
  · rintro ⟨⟨h₁, h₂⟩, h₃, h₄⟩
    exact ⟨⟨mt hw0.mp h₁, mt hwF.mp h₂⟩, ⟨mt hz0.mp h₃, mt hzF.mp h₄⟩, mt hw.mp (not_or.mpr ⟨h₁, h₂⟩),
      mt hz.mp (not_or.mpr ⟨h₃, h₄⟩)⟩

theorem always_varies_iff (r : Random) : (∀ n, (r.after n).Varies) ↔
    ¬ 18000 * 2 ^ 16 - 1 ∣ r.w.toNat ∧ ¬ 36969 * 2 ^ 16 - 1 ∣ r.z.toNat := by
  rw [← MultiplyWithCarry.never_degenerate_iff (by decide) (by decide) r.w.toNat_lt,
    ← MultiplyWithCarry.never_degenerate_iff (by decide) (by decide) r.z.toNat_lt, ← forall_and]
  refine forall_congr' fun n => ?_
  rw [varies_iff, after_w, after_z]

/-- Passing over the fixed points, with the bound from the word. -/
theorem passed_toNat {x f : UInt32} (hf : f.toNat < 2 ^ 32 - 1) : (if x = 0 ∨ x = f then x + 1 else x).toNat =
    if x.toNat = 0 ∨ x.toNat = f.toNat then x.toNat + 1 else x.toNat := by
  have hcond : (x = 0 ∨ x = f) ↔ (x.toNat = 0 ∨ x.toNat = f.toNat) := or_congr UInt32.toNat_inj.symm UInt32.toNat_inj.symm
  by_cases h : x = 0 ∨ x = f
  · rw [if_pos h, if_pos (hcond.mp h), UInt32.toNat_add]
    refine Nat.mod_eq_of_lt ?_
    rcases hcond.mp h with h | h
    · rw [h]
      decide
    · rw [h]
      exact Nat.lt_sub_iff_add_lt.mp hf
  · rw [if_neg h, if_neg (mt hcond.mpr h)]

theorem new_w (seed : UInt32) : (new seed).w.toNat =
    if seed.toNat = 0 ∨ seed.toNat = 0x464fffff then seed.toNat + 1 else seed.toNat :=
  passed_toNat (by decide)

theorem new_z (seed : UInt32) : (new seed).z.toNat =
    if 2 ^ 32 - 1 - seed.toNat = 0 ∨ 2 ^ 32 - 1 - seed.toNat = 0x9068ffff then 2 ^ 32 - 1 - seed.toNat + 1
    else 2 ^ 32 - 1 - seed.toNat := by
  have hnot : (~~~seed).toNat = 2 ^ 32 - 1 - seed.toNat := UInt32.toNat_not seed
  rw [← hnot]
  exact passed_toNat (by decide)

/-- The constructor passes over the fixed points, but not over the other two seeds that lead to one. -/
theorem new_varies_iff (seed : UInt32) :
    (∀ n, ((new seed).after n).Varies) ↔ seed ≠ 0x8c9ffffe ∧ seed ≠ 0xd2effffd := by
  have hfirst : seed = 0x8c9ffffe ↔ seed.toNat = 0x8c9ffffe := UInt32.toNat_inj.symm
  have hsecond : seed = 0xd2effffd ↔ seed.toNat = 0xd2effffd := UInt32.toNat_inj.symm
  have hlt := seed.toNat_lt
  rw [always_varies_iff, new_w, new_z, Ne, Ne, hfirst, hsecond]
  split_ifs <;> omega

/-- The first call of `next` takes `w` to the fixed point that the constructor avoids. -/
theorem seed_degenerates : ((new 0x8c9ffffe).after 1).w = 0x464fffff ∧ ¬ ∀ seed n, ((new seed).after n).Varies := by
  have hw : ((new 0x8c9ffffe).after 1).w = 0x464fffff := by decide
  exact ⟨hw, fun hall => (hall 0x8c9ffffe 1).w_ne.2 hw⟩

end Random
end AudioKernel
