import Mathlib.Algebra.Group.Nat.Defs
import Mathlib.Data.List.Basic
import Mathlib.Logic.Function.Basic

/-! Byte stores to the 32-bit address space. -/
namespace AudioKernel

/-- The bytes that a routine stores, in order, with their addresses. -/
abbrev Stores := List (ℕ × UInt8)

namespace Stores

def apply (mem : ℕ → UInt8) (stores : Stores) : ℕ → UInt8 :=
  stores.foldl (fun mem s => Function.update mem s.1 s.2) mem

/-- Consecutive stores from the address `dest` on; addresses are `uint32_t` and wrap. -/
def consecutive (dest : ℕ) (src : ℕ → UInt8) (n : ℕ) : Stores :=
  (List.range n).map fun i => ((dest + i) % 2 ^ 32, src i)

theorem consecutive_succ (dest : ℕ) (src : ℕ → UInt8) (n : ℕ) :
    consecutive dest src (n + 1) = consecutive dest src n ++ [((dest + n) % 2 ^ 32, src n)] := by
  simp [consecutive, List.range_succ]

/-- Stores that go on where others have ended. -/
theorem consecutive_append (dest : ℕ) (src : ℕ → UInt8) (m n : ℕ) :
    consecutive dest src m ++ consecutive ((dest + m) % 2 ^ 32) (fun i => src (m + i)) n =
      consecutive dest src (m + n) := by
  induction n with
  | zero => simp [consecutive]
  | succ n ih =>
    have haddr : ((dest + m) % 2 ^ 32 + n) % 2 ^ 32 = (dest + (m + n)) % 2 ^ 32 := by omega
    rw [consecutive_succ, ← List.append_assoc, ih, ← Nat.add_assoc, consecutive_succ, haddr]

theorem consecutive_congr {dest n : ℕ} {src src' : ℕ → UInt8} (h : ∀ i < n, src i = src' i) :
    consecutive dest src n = consecutive dest src' n :=
  List.map_congr_left fun i hi => by rw [h i (List.mem_range.mp hi)]

theorem mem_consecutive {dest n a : ℕ} {src : ℕ → UInt8} :
    a ∈ (consecutive dest src n).map Prod.fst ↔ ∃ i < n, a = (dest + i) % 2 ^ 32 := by
  simp only [consecutive, List.map_map, List.mem_map, List.mem_range, Function.comp_apply, eq_comm]

theorem apply_append (mem : ℕ → UInt8) (xs ys : Stores) : apply mem (xs ++ ys) = apply (apply mem xs) ys :=
  List.foldl_append

/-- At most `2 ^ 32` consecutive stores do not overwrite each other. -/
theorem apply_consecutive (mem : ℕ → UInt8) (dest : ℕ) (src : ℕ → UInt8) {i n : ℕ} (hn : n ≤ 2 ^ 32) (hi : i < n) :
    apply mem (consecutive dest src n) ((dest + i) % 2 ^ 32) = src i := by
  induction n with
  | zero => omega
  | succ n ih =>
    rw [consecutive_succ, apply_append]
    change Function.update _ _ _ _ = _
    by_cases he : i = n
    · subst he
      exact Function.update_self ..
    · rw [Function.update_of_ne (by omega)]
      exact ih (by omega) (by omega)

/-- Bytes that are stored to a buffer of their own. -/
theorem consecutive_zero {src : ℕ → UInt8} {n i : ℕ} (hn : n ≤ 2 ^ 32) (hi : i < n) :
    apply (fun _ => 0) (consecutive 0 src n) i = src i := by
  have happly := apply_consecutive (fun _ => 0) 0 src hn hi
  rwa [Nat.zero_add, Nat.mod_eq_of_lt (by omega)] at happly

/-- The other addresses keep their bytes. -/
theorem apply_of_notMem (mem : ℕ → UInt8) {stores : Stores} {a : ℕ} (h : a ∉ stores.map Prod.fst) :
    apply mem stores a = mem a := by
  induction stores generalizing mem with
  | nil => rfl
  | cons s stores ih =>
    rw [List.map_cons, List.mem_cons, not_or] at h
    show apply (Function.update mem s.1 s.2) stores a = mem a
    rw [ih _ h.2, Function.update_of_ne h.1]

theorem apply_append_of_notMem (mem : ℕ → UInt8) {xs ys : Stores} {a : ℕ} (h : a ∉ ys.map Prod.fst) :
    apply mem (xs ++ ys) a = apply mem xs a := by
  rw [apply_append, apply_of_notMem _ h]

/-- Stores that do not wrap leave the addresses below and above alone. -/
theorem notMem_consecutive {dest n a : ℕ} {src : ℕ → UInt8} (hn : dest + n ≤ 2 ^ 32) (ha : a < dest ∨ dest + n ≤ a) :
    a ∉ (consecutive dest src n).map Prod.fst := by
  rw [mem_consecutive]
  rintro ⟨i, hi, rfl⟩
  omega

theorem apply_append_consecutive (mem : ℕ → UInt8) (xs : Stores) (src : ℕ → UInt8) {dest n i : ℕ}
    (hn : dest + n ≤ 2 ^ 32) (hi : i < n) : apply mem (xs ++ consecutive dest src n) (dest + i) = src i := by
  have happly := apply_consecutive (apply mem xs) dest src (by omega) hi
  rw [Nat.mod_eq_of_lt (by omega)] at happly
  rw [apply_append, happly]

end Stores

/-- The little-endian number of the `n` bytes from `a` on. -/
def uintAt (bytes : ℕ → UInt8) (a : ℕ) : ℕ → ℕ
  | 0 => 0
  | n + 1 => (bytes a).toNat + 256 * uintAt bytes (a + 1) n

theorem uintAt_lt (bytes : ℕ → UInt8) (a n : ℕ) : uintAt bytes a n < 256 ^ n := by
  induction n generalizing a with
  | zero => exact Nat.one_pos
  | succ n ih =>
    have hbyte := (bytes a).toNat_lt
    have hrest := ih (a + 1)
    rw [uintAt, Nat.pow_succ]
    omega

theorem uintAt_congr {bytes bytes' : ℕ → UInt8} {a n : ℕ} (h : ∀ i, a ≤ i → i < a + n → bytes i = bytes' i) :
    uintAt bytes a n = uintAt bytes' a n := by
  induction n generalizing a with
  | zero => rfl
  | succ n ih =>
    rw [uintAt, uintAt, h a (Nat.le_refl a) (by omega), ih fun i hlo hhi => h i (by omega) (by omega)]

theorem uintAt_shift (bytes : ℕ → UInt8) (offset a n : ℕ) :
    uintAt (fun i => bytes (offset + i)) a n = uintAt bytes (offset + a) n := by
  induction n generalizing a with
  | zero => rfl
  | succ n ih => rw [uintAt, uintAt, ih, Nat.add_assoc]

end AudioKernel
