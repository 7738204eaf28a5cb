import AudioKernel.Lib.PageWords
import AudioKernel.Vm.Model

/-! The arithmetic of entries, and of the two indices of a page. -/
namespace AudioKernel
open Lib

namespace PhysMem

variable {f i j va : ℕ}

@[simp] theorem present_zero : present 0 = false := rfl

theorem present_or (hf : f % 4096 = 0) : present (f ||| 7) = true := by
  have hodd : (f ||| 7) &&& 1 = 7 % 2 := or_and_one (k := 12) (by decide) hf (by decide)
  simp [present, hodd]

theorem frameOf_or (hf : f % 4096 = 0) (hlt : f < 2 ^ 32) : frameOf (f ||| 7) = f :=
  and_high_or (k := 12) (n := 32) (by decide) hf hlt (by decide)

theorem offset_eq (f : ℕ) : offset f = f % 4096 := Nat.and_two_pow_sub_one_eq_mod f 12

theorem pdiOf_eq (va : ℕ) : pdiOf va = va / 2 ^ 22 := Nat.shiftRight_eq_div_pow va 22

theorem ptiOf_eq (va : ℕ) : ptiOf va = va / 2 ^ 12 % 2 ^ 10 := by
  unfold ptiOf
  rw [Nat.shiftRight_eq_div_pow]
  exact Nat.and_two_pow_sub_one_eq_mod _ 10

theorem pageAt_eq (hj : j < 1024) : pageAt i j = i * 2 ^ 22 + j * 2 ^ 12 := by
  unfold pageAt
  rw [Nat.shiftLeft_eq, Nat.shiftLeft_eq]
  exact or_low (Nat.mul_mod_left ..) (by omega)

theorem pdiOf_pageAt (hj : j < 1024) : pdiOf (pageAt i j) = i := by
  rw [pageAt_eq hj, pdiOf_eq]
  omega

theorem ptiOf_pageAt (hj : j < 1024) : ptiOf (pageAt i j) = j := by
  rw [pageAt_eq hj, ptiOf_eq]
  omega

theorem ptiOf_lt (va : ℕ) : ptiOf va < 1024 := by
  rw [ptiOf_eq]
  omega

theorem pageAt_of (hva : va % 4096 = 0) : pageAt (pdiOf va) (ptiOf va) = va := by
  rw [pageAt_eq (ptiOf_lt va), pdiOf_eq, ptiOf_eq]
  omega

theorem pageAt_mod (hj : j < 1024) : pageAt i j % 4096 = 0 := by
  rw [pageAt_eq hj]
  omega

theorem pageAt_lt (hi : i < 1024) (hj : j < 1024) : pageAt i j < 2 ^ 32 := by
  rw [pageAt_eq hj]
  omega

theorem pageAt_private (hi : 512 ≤ i) (hj : j < 1024) : 0x80000000 ≤ pageAt i j := by
  rw [pageAt_eq hj]
  omega

theorem pdiOf_private (hlo : 0x80000000 ≤ va) (hhi : va < 2 ^ 32) : 512 ≤ pdiOf va ∧ pdiOf va < 1024 := by
  rw [pdiOf_eq]
  omega

theorem framedown_eq (va : ℕ) : framedown va = va - va % 4096 := by
  unfold framedown FRAME_SIZE
  omega

end PhysMem

namespace VmConfig

variable {cfg : VmConfig} {va : ℕ}

theorem Apic.bounds (h : cfg.Apic va) : 0x80000000 ≤ va ∧ va < 2 ^ 32 ∧ va % 4096 = 0 := by
  rcases h with rfl | rfl
  · exact ⟨cfg.ioAPIC_private, cfg.ioAPIC_lt, cfg.ioAPIC_page⟩
  · exact ⟨cfg.localAPIC_private, cfg.localAPIC_lt, cfg.localAPIC_page⟩

theorem sharedEntries_le (cfg : VmConfig) : cfg.sharedEntries ≤ 512 := by
  have := cfg.memSize_le
  unfold sharedEntries
  omega

theorem sharedEntries_le_treeStart (cfg : VmConfig) : cfg.sharedEntries ≤ cfg.treeStart := by
  unfold sharedEntries treeStart
  omega

/-- The loop of `fork` begins at or below private space, unless the memory ends just where private space begins. -/
theorem treeStart_le_iff (cfg : VmConfig) : cfg.treeStart ≤ 512 ↔ cfg.memSize < 0x80000000 := by
  unfold treeStart
  omega

theorem treeStart_le (cfg : VmConfig) : cfg.treeStart ≤ 513 := by
  have := cfg.memSize_le
  unfold treeStart
  omega

end VmConfig
end AudioKernel
