import AudioKernel.Lib.Orbit
import Mathlib.Logic.Function.Basic
import Mathlib.Tactic.SplitIfs

/-! A small part of the IA-32: a routine in its registers, the flags of signed comparisons, and a memory of bytes. -/
namespace AudioKernel.Lib

inductive Register
  | eax | ebx | ecx | edx | esp
  deriving DecidableEq

/-- Operands stand in the order of the assembler, the destination last. A byte operand is the low byte of its register, and
a jump goes to an instruction of the routine. -/
inductive Instruction
  | mov (disp : BitVec 32) (base dst : Register)
  | push (src : Register)
  | pop (dst : Register)
  | add (imm : BitVec 32) (dst : Register)
  | jl (target : ℕ)
  | jmp (target : ℕ)
  | movbLoad (base dst : Register)
  | movbStore (src base : Register)
  | ret

/-- The next instruction of the routine, or where it has returned to. -/
inductive Control
  | at (i : ℕ)
  | returned (address : BitVec 32)
  deriving DecidableEq

structure Ia32 where
  control : Control
  reg : Register → BitVec 32
  sf : Bool
  of : Bool
  mem : BitVec 32 → BitVec 8

/-- `x` is one of the `n` addresses from `a` on. Addresses wrap. -/
def Within (a : BitVec 32) (n : ℕ) (x : BitVec 32) : Prop := (x - a).toNat < n

instance (a : BitVec 32) (n : ℕ) (x : BitVec 32) : Decidable (Within a n x) := inferInstanceAs (Decidable (_ < _))

/-- The word at an address, in little-endian order. -/
def loadWord (mem : BitVec 32 → BitVec 8) (a : BitVec 32) : BitVec 32 :=
  BitVec.ofNat 32 ((mem a).toNat + 2 ^ 8 * (mem (a + 1)).toNat + 2 ^ 16 * (mem (a + 2)).toNat + 2 ^ 24 * (mem (a + 3)).toNat)

def storeWord (mem : BitVec 32 → BitVec 8) (a v x : BitVec 32) : BitVec 8 :=
  if Within a 4 x then BitVec.ofNat 8 (v.toNat / 2 ^ (8 * (x - a).toNat)) else mem x

namespace Ia32

variable (s : Ia32)

def setReg (r : Register) (v : BitVec 32) : Ia32 := { s with reg := Function.update s.reg r v }

def exec (i : ℕ) : Instruction → Ia32
  | .mov disp base dst => { s.setReg dst (loadWord s.mem (s.reg base + disp)) with control := .at (i + 1) }
  | .push src =>
    let sp := s.reg .esp - 4
    { s.setReg .esp sp with mem := storeWord s.mem sp (s.reg src), control := .at (i + 1) }
  | .pop dst =>
    let sp := s.reg .esp
    { (s.setReg .esp (sp + 4)).setReg dst (loadWord s.mem sp) with control := .at (i + 1) }
  | .add imm dst =>
    let x := s.reg dst
    let sum := x + imm
    { s.setReg dst sum with sf := sum.msb, of := x.msb == imm.msb && sum.msb != x.msb, control := .at (i + 1) }
  | .jl target => { s with control := .at (if s.sf != s.of then target else i + 1) }
  | .jmp target => { s with control := .at target }
  | .movbLoad base dst =>
    let low := (s.mem (s.reg base)).toNat
    { s.setReg dst (BitVec.ofNat 32 ((s.reg dst).toNat / 2 ^ 8 * 2 ^ 8 + low)) with control := .at (i + 1) }
  | .movbStore src base =>
    { s with mem := Function.update s.mem (s.reg base) ((s.reg src).setWidth 8), control := .at (i + 1) }
  | .ret =>
    let sp := s.reg .esp
    { s.setReg .esp (sp + 4) with control := .returned (loadWord s.mem sp) }

/-- A step of a routine, whose code is not in the memory. There is none when it has returned. -/
def step (code : List Instruction) (s : Ia32) : Option Ia32 :=
  match s.control with
  | .at i => code[i]?.map (s.exec i)
  | .returned _ => none

def Returns (code : List Instruction) (s t : Ia32) : Prop :=
  ∃ k address, visit (step code) s k = some t ∧ t.control = .returned address

end Ia32

variable {mem mem' : BitVec 32 → BitVec 8} {a b v x : BitVec 32} {n : ℕ} {code : List Instruction} {s t t' : Ia32} {i k : ℕ}
  {instr : Instruction}

theorem within_add {i : ℕ} (hi : i < n) (hn : n ≤ 2 ^ 32) : Within a n (a + BitVec.ofNat 32 i) := by
  unfold Within
  bv_omega

theorem loadWord_congr (h : ∀ x, Within a 4 x → mem' x = mem x) : loadWord mem' a = loadWord mem a := by
  have hbyte (i : BitVec 32) (hi : i.toNat < 4) : mem' (a + i) = mem (a + i) := by
    apply h
    unfold Within
    bv_omega
  have hzero := hbyte 0#32 (by decide)
  rw [BitVec.add_zero] at hzero
  unfold loadWord
  rw [hzero, hbyte 1 (by decide), hbyte 2 (by decide), hbyte 3 (by decide)]

theorem loadWord_storeWord : loadWord (storeWord mem a v) a = v := by
  have hbyte (i : BitVec 32) (hi : i.toNat < 4) :
      (storeWord mem a v (a + i)).toNat = v.toNat / 2 ^ (8 * i.toNat) % 2 ^ 8 := by
    have hsub : a + i - a = i := by bv_omega
    have hwithin : Within a 4 (a + i) := by
      unfold Within
      rw [hsub]
      exact hi
    rw [storeWord, if_pos hwithin, hsub, BitVec.toNat_ofNat]
  have hzero := hbyte 0#32 (by decide)
  rw [BitVec.add_zero] at hzero
  have hv := v.isLt
  unfold loadWord
  rw [hzero, hbyte 1 (by decide), hbyte 2 (by decide), hbyte 3 (by decide)]
  apply BitVec.eq_of_toNat_eq
  rw [BitVec.toNat_ofNat]
  simp only [BitVec.reduceToNat]
  omega

theorem storeWord_of_not_within (h : ¬ Within a 4 x) : storeWord mem a v x = mem x := if_neg h

/-- The low byte of a register after it has been exchanged. -/
theorem setWidth_low (high : ℕ) (low : BitVec 8) : (BitVec.ofNat 32 (high * 2 ^ 8 + low.toNat)).setWidth 8 = low := by
  apply BitVec.eq_of_toNat_eq
  rw [BitVec.toNat_setWidth, BitVec.toNat_ofNat]
  omega

namespace Ia32

@[simp] theorem reg_setReg (s : Ia32) (r : Register) (v : BitVec 32) : (s.setReg r v).reg = Function.update s.reg r v := rfl

@[simp] theorem mem_setReg (s : Ia32) (r : Register) (v : BitVec 32) : (s.setReg r v).mem = s.mem := rfl

@[simp] theorem sf_setReg (s : Ia32) (r : Register) (v : BitVec 32) : (s.setReg r v).sf = s.sf := rfl

@[simp] theorem of_setReg (s : Ia32) (r : Register) (v : BitVec 32) : (s.setReg r v).of = s.of := rfl

/-- After an addition the flags tell whether the sum of the signed numbers is negative, overflow or not. -/
theorem less_iff (x y : BitVec 32) :
    ((x + y).msb != (x.msb == y.msb && (x + y).msb != x.msb)) = decide (x.toInt + y.toInt < 0) := by
  have hx := x.isLt
  have hy := y.isLt
  have hmsb (z : BitVec 32) : z.msb = decide (2 ^ 31 ≤ z.toNat) := BitVec.msb_eq_decide z
  have hint (z : BitVec 32) : z.toInt = if 2 ^ 31 ≤ z.toNat then (z.toNat : ℤ) - 2 ^ 32 else (z.toNat : ℤ) := by
    rw [BitVec.toInt_eq_toNat_cond]
    split_ifs <;> omega
  rw [hmsb, hmsb, hmsb, hint, hint, BitVec.toNat_add]
  by_cases hxs : 2 ^ 31 ≤ x.toNat <;> by_cases hys : 2 ^ 31 ≤ y.toNat <;>
    by_cases hsum : 2 ^ 31 ≤ (x.toNat + y.toNat) % 2 ^ 32 <;>
    simp only [hxs, hys, hsum, if_true, if_false, decide_true, decide_false] <;> symm <;>
    first | exact decide_eq_true (by omega) | exact decide_eq_false (by omega)

theorem flags_add (s : Ia32) (i : ℕ) (imm : BitVec 32) (r : Register) :
    ((s.exec i (.add imm r)).sf != (s.exec i (.add imm r)).of) = decide ((s.reg r).toInt + imm.toInt < 0) :=
  less_iff (s.reg r) imm

/-- Where the next instruction is, execution goes on behind it. -/
theorem visit_exec (hcontrol : s.control = .at i) (hinstr : code[i]? = some instr) (k : ℕ) :
    visit (step code) s (k + 1) = visit (step code) (s.exec i instr) k := by
  have hstep : step code s = some (s.exec i instr) := by
    unfold step
    rw [hcontrol]
    dsimp only
    rw [hinstr]
    rfl
  rw [visit_succ, hstep]
  rfl

/-- A routine returns in one state. -/
theorem Returns.unique (h : Returns code s t) (h' : Returns code s t') : t = t' := by
  obtain ⟨k, address, hk, ht⟩ := h
  obtain ⟨k', address', hk', ht'⟩ := h'
  have hlast {t : Ia32} {address : BitVec 32} (ht : t.control = .returned address) : step code t = none := by
    unfold step
    rw [ht]
  exact visit_last_unique hk (hlast ht) hk' (hlast ht')

end Ia32
end AudioKernel.Lib
