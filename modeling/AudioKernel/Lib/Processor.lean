import AudioKernel.Lib.Ia32

/-! Straight-line code of the IA-32 in supervisor mode: all general registers, the flags, control registers, calls, and what
the processor does at interrupts. -/
namespace AudioKernel.Lib

inductive Gpr
  | eax | ecx | edx | ebx | esp | ebp | esi | edi
  deriving DecidableEq

/-- Operands stand in the order of the assembler. A call is given the address behind it. -/
inductive Instr
  | load (disp : BitVec 32) (base dst : Gpr)
  | store (src : Gpr) (disp : BitVec 32) (base : Gpr)
  | storeImm (imm disp : BitVec 32) (base : Gpr)
  | move (src dst : Gpr)
  | moveImm (imm : BitVec 32) (dst : Gpr)
  | fromCr2 (dst : Gpr)
  | toCr2 (src : Gpr)
  | toCr3 (src : Gpr)
  | push (src : Gpr)
  | pushMem (disp : BitVec 32) (base : Gpr)
  | pushImm (imm : BitVec 32)
  | pop (dst : Gpr)
  | pushf
  | popf
  | cli
  | add (imm : BitVec 32) (dst : Gpr)
  | pusha
  | popa
  | call (target next : BitVec 32)
  | callReg (target : Gpr) (next : BitVec 32)
  | ret
  | iret

/-- `eflags` holds the flags that `popf` loads. The memory is that of the kernel, which all address spaces share. -/
@[ext]
structure Processor where
  reg : Gpr → BitVec 32
  eflags : BitVec 32
  eip : BitVec 32
  cs : BitVec 32
  ss : BitVec 32
  cr2 : BitVec 32
  cr3 : BitVec 32
  mem : BitVec 32 → BitVec 8

def IF : BitVec 32 := 0x200

/-- The flags after an addition: carry, parity, auxiliary carry, zero, sign and overflow. -/
def addFlags (eflags x y : BitVec 32) : BitVec 32 :=
  let sum := x + y
  let bit (b : Bool) (i : ℕ) : BitVec 32 := if b then BitVec.ofNat 32 (2 ^ i) else 0
  let parity := ((List.range 8).filter sum.getLsbD).length % 2 == 0
  (eflags &&& ~~~0x8d5) ||| bit (decide (2 ^ 32 ≤ x.toNat + y.toNat)) 0 ||| bit parity 2 |||
    bit (decide (16 ≤ x.toNat % 16 + y.toNat % 16)) 4 ||| bit (sum == 0) 6 ||| bit sum.msb 7 |||
    bit (x.msb == y.msb && sum.msb != x.msb) 11

namespace Processor

variable (s : Processor)

def setReg (r : Gpr) (v : BitVec 32) : Processor := { s with reg := Function.update s.reg r v }

def setMem (mem : BitVec 32 → BitVec 8) : Processor := { s with mem }

def jump (address : BitVec 32) : Processor := { s with eip := address }

def top (disp : BitVec 32) : BitVec 32 := loadWord s.mem (s.reg .esp + disp)

theorem top_zero : s.top 0 = loadWord s.mem (s.reg .esp) := by
  rw [top]
  congr 1
  bv_omega

def pushWord (v : BitVec 32) : Processor :=
  { s.setReg .esp (s.reg .esp - 4) with mem := storeWord s.mem (s.reg .esp - 4) v }

def setEsp (v : BitVec 32) : Processor := s.setReg .esp v

/-- `pusha`: `esp` is pushed as it was before. -/
def pushAll : Processor :=
  let esp := s.reg .esp
  (((((((s.pushWord (s.reg .eax)).pushWord (s.reg .ecx)).pushWord (s.reg .edx)).pushWord (s.reg .ebx)).pushWord esp).pushWord
    (s.reg .ebp)).pushWord (s.reg .esi)).pushWord (s.reg .edi)

/-- `popa`: the word for `esp` is thrown away. -/
def popAll : Processor :=
  let esp := s.reg .esp
  { s with reg := fun
    | .edi => loadWord s.mem esp
    | .esi => loadWord s.mem (esp + 4)
    | .ebp => loadWord s.mem (esp + 8)
    | .ebx => loadWord s.mem (esp + 16)
    | .edx => loadWord s.mem (esp + 20)
    | .ecx => loadWord s.mem (esp + 24)
    | .eax => loadWord s.mem (esp + 28)
    | .esp => esp + 32 }

/-- The privilege level of a selector. -/
def rpl (selector : BitVec 32) : BitVec 32 := selector &&& 3

/-- `iret`: to another privilege level it takes `esp` and `ss` from the stack, too. -/
def interruptReturn : Processor :=
  let cs := s.top 4
  let t := { s with eip := s.top 0, cs, eflags := s.top 8 }
  if rpl cs = rpl s.cs then t.setEsp (s.reg .esp + 12) else { t.setEsp (s.top 12) with ss := s.top 16 }

def exec (s : Processor) : Instr → Processor
  | .load disp base dst => s.setReg dst (loadWord s.mem (s.reg base + disp))
  | .store src disp base => s.setMem (storeWord s.mem (s.reg base + disp) (s.reg src))
  | .storeImm imm disp base => s.setMem (storeWord s.mem (s.reg base + disp) imm)
  | .move src dst => s.setReg dst (s.reg src)
  | .moveImm imm dst => s.setReg dst imm
  | .fromCr2 dst => s.setReg dst s.cr2
  | .toCr2 src => { s with cr2 := s.reg src }
  | .toCr3 src => { s with cr3 := s.reg src }
  | .push src => s.pushWord (s.reg src)
  | .pushMem disp base => s.pushWord (loadWord s.mem (s.reg base + disp))
  | .pushImm imm => s.pushWord imm
  | .pop dst => (s.setEsp (s.reg .esp + 4)).setReg dst (s.top 0)
  | .pushf => s.pushWord s.eflags
  | .popf => { s.setEsp (s.reg .esp + 4) with eflags := s.top 0 }
  | .cli => { s with eflags := s.eflags &&& ~~~IF }
  | .add imm dst => { s.setReg dst (s.reg dst + imm) with eflags := addFlags s.eflags (s.reg dst) imm }
  | .pusha => s.pushAll
  | .popa => s.popAll
  | .call target next => { s.pushWord next with eip := target }
  | .callReg target next => { s.pushWord next with eip := s.reg target }
  | .ret => { s.setEsp (s.reg .esp + 4) with eip := s.top 0 }
  | .iret => s.interruptReturn

def run (code : List Instr) : Processor := code.foldl exec s

theorem run_append (code code' : List Instr) : s.run (code ++ code') = (s.run code).run code' := List.foldl_append

/-- What the processor does before it comes to a handler. From another privilege level it changes to the stack of the task
state, `ss0:esp0`. A page fault, or another exception with an error code, pushes that as well. A trap gate leaves the
interrupt flag as it is, an interrupt gate clears it. -/
def deliver (kernelCS ss0 esp0 handler : BitVec 32) (trap : Bool) (error : Option (BitVec 32)) : Processor :=
  let t := if rpl s.cs = rpl kernelCS then s
    else ({ s.setEsp esp0 with ss := ss0 }.pushWord s.ss).pushWord (s.reg .esp)
  let t := ((t.pushWord s.eflags).pushWord s.cs).pushWord s.eip
  let t := error.elim t t.pushWord
  { t with eflags := if trap then s.eflags else s.eflags &&& ~~~IF, cs := kernelCS, eip := handler }

/-- The registers that a C function leaves as they are. -/
def calleeSaved : Gpr → Bool
  | .ebx | .ebp | .esi | .edi => true
  | _ => false

/-- What the caller of a C function relies on, when the function has been entered in the state `s` and has returned in the
state `t`. -/
structure Cdecl (s t : Processor) : Prop where
  esp : t.reg .esp = s.reg .esp + 4
  eip : t.eip = s.top 0
  saved : ∀ r, calleeSaved r = true → t.reg r = s.reg r
  cs : t.cs = s.cs
  ss : t.ss = s.ss
  cr3 : t.cr3 = s.cr3

/-- Words that are pushed, the last one first: in the list they stand as in memory. -/
def pushes (s : Processor) : List (BitVec 32) → Processor
  | [] => s
  | w :: ws => (s.pushes ws).pushWord w

end Processor

variable {mem : BitVec 32 → BitVec 8} {a b v x : BitVec 32} {k m n : ℕ} {fields : List (ℕ × BitVec 32)}

/-- The `m` addresses from `a` on and the `n` addresses from `b` on are different ones. -/
def Separate (a : BitVec 32) (m : ℕ) (b : BitVec 32) (n : ℕ) : Prop := ∀ x, Within a m x → ¬ Within b n x

/-- The `m` addresses from `a` on are among the `n` addresses from `b` on. -/
def Inside (a : BitVec 32) (m : ℕ) (b : BitVec 32) (n : ℕ) : Prop := ∀ x, Within a m x → Within b n x

theorem Separate.symm (h : Separate a m b n) : Separate b n a m := fun x hb ha => h x ha hb

theorem Separate.inside {a' b' : BitVec 32} {m' n' : ℕ} (h : Separate a m b n) (ha : Inside a' m' a m) (hb : Inside b' n' b n) :
    Separate a' m' b' n' :=
  fun x hx hx' => h x (ha x hx) (hb x hx')

theorem inside_of_offset (h : k + m ≤ n) (hn : n ≤ 2 ^ 32) : Inside (a + BitVec.ofNat 32 k) m a n := by
  intro x hx
  unfold Within at hx ⊢
  bv_omega

theorem Inside.refl (a : BitVec 32) (n : ℕ) : Inside a n a n := fun _ h => h

/-- Words that are stored to a record in turn, each at its offset. -/
def storeFields (mem : BitVec 32 → BitVec 8) (base : BitVec 32) (fields : List (ℕ × BitVec 32)) : BitVec 32 → BitVec 8 :=
  fields.foldl (fun mem f => storeWord mem (base + BitVec.ofNat 32 f.1) f.2) mem

def FieldsIn (n : ℕ) (fields : List (ℕ × BitVec 32)) : Prop := ∀ f ∈ fields, f.1 + 4 ≤ n

def FieldsApart (offsets : List ℕ) : Prop := offsets.Pairwise fun i j => i + 4 ≤ j ∨ j + 4 ≤ i

instance (offsets : List ℕ) : Decidable (FieldsApart offsets) := inferInstanceAs (Decidable (List.Pairwise _ _))

/-- The bytes that are in none of the fields are kept. -/
theorem storeFields_of_not_within (h : ∀ f ∈ fields, ¬ Within (b + BitVec.ofNat 32 f.1) 4 x) :
    storeFields mem b fields x = mem x := by
  induction fields generalizing mem with
  | nil => rfl
  | cons f fields ih =>
    rw [List.forall_mem_cons] at h
    change storeFields (storeWord mem _ _) b fields x = _
    rw [ih h.2, storeWord_of_not_within h.1]

/-- The bytes that are not in the record are kept. -/
theorem storeFields_outside (hfields : FieldsIn n fields) (hn : n ≤ 2 ^ 32) (h : ¬ Within b n x) :
    storeFields mem b fields x = mem x :=
  storeFields_of_not_within fun f hf hx => h (inside_of_offset (hfields f hf) hn x hx)

theorem loadWord_storeFields_apart (hfields : FieldsIn n fields) (hn : n ≤ 2 ^ 32) (h : Separate a 4 b n) :
    loadWord (storeFields mem b fields) a = loadWord mem a :=
  loadWord_congr fun x hx => storeFields_outside hfields hn (h x hx)

/-- Different offsets in one record. -/
theorem apart_offsets (hk : k + 4 ≤ 2 ^ 32) (hm : m + 4 ≤ 2 ^ 32) (h : k + 4 ≤ m ∨ m + 4 ≤ k) :
    Separate (b + BitVec.ofNat 32 k) 4 (b + BitVec.ofNat 32 m) 4 := by
  intro x hx hx'
  unfold Within at hx hx'
  bv_omega

/-- A word of the record that is not among the fields. -/
theorem loadWord_storeFields_other (hfields : FieldsIn n fields) (hn : n ≤ 2 ^ 32) (hk : k + 4 ≤ n)
    (h : ∀ f ∈ fields, k + 4 ≤ f.1 ∨ f.1 + 4 ≤ k) :
    loadWord (storeFields mem b fields) (b + BitVec.ofNat 32 k) = loadWord mem (b + BitVec.ofNat 32 k) := by
  induction fields generalizing mem with
  | nil => rfl
  | cons f fields ih =>
    rw [FieldsIn, List.forall_mem_cons] at hfields
    rw [List.forall_mem_cons] at h
    change loadWord (storeFields (storeWord mem _ _) b fields) _ = _
    rw [ih hfields.2 h.2]
    exact loadWord_congr fun x hx => storeWord_of_not_within
      (apart_offsets (Nat.le_trans hk hn) (Nat.le_trans hfields.1 hn) h.1 x hx)

/-- The fields hold what has been stored. -/
theorem loadWord_storeFields (hfields : FieldsIn n fields) (hn : n ≤ 2 ^ 32) (hapart : FieldsApart (fields.map Prod.fst))
    (h : (k, v) ∈ fields) : loadWord (storeFields mem b fields) (b + BitVec.ofNat 32 k) = v := by
  induction fields generalizing mem with
  | nil => cases h
  | cons f fields ih =>
    rw [FieldsIn, List.forall_mem_cons] at hfields
    rw [FieldsApart, List.map_cons, List.pairwise_cons] at hapart
    change loadWord (storeFields (storeWord mem _ _) b fields) _ = _
    rcases List.mem_cons.mp h with rfl | h
    · rw [loadWord_storeFields_other hfields.2 hn hfields.1, loadWord_storeWord]
      intro g hg
      exact hapart.1 g.1 (List.mem_map_of_mem hg)
    · exact ih hfields.2 hapart.2 h

/-! What is on the stack. -/

namespace Processor

variable {s t : Processor} {ws : List (BitVec 32)} {w : BitVec 32} {r : Gpr} {i : ℕ}

theorem setReg_self : (s.setReg r w).reg r = w := by
  simp [setReg]

theorem setEsp_esp : (s.setEsp w).reg .esp = w := setReg_self

theorem setReg_of_ne {q : Gpr} (hr : r ≠ q) : (s.setReg q w).reg r = s.reg r := by
  simp [setReg, hr]

theorem interruptReturn_mem : s.interruptReturn.mem = s.mem := by
  unfold interruptReturn
  dsimp only
  by_cases h : rpl (s.top 4) = rpl s.cs
  · rw [if_pos h]
    rfl
  · rw [if_neg h]
    rfl

theorem run_add {imm : BitVec 32} : (s.run [.add imm r]).reg r = s.reg r + imm := by
  simp [run, exec, setReg]

theorem pushWord_esp : (s.pushWord w).reg .esp = s.reg .esp - 4 := by
  change (s.setReg .esp (s.reg .esp - 4)).reg .esp = _
  rw [setReg_self]

theorem pushWord_reg (hr : r ≠ .esp) : (s.pushWord w).reg r = s.reg r := by
  change (s.setReg .esp (s.reg .esp - 4)).reg r = _
  rw [setReg_of_ne hr]

theorem pushes_esp : (s.pushes ws).reg .esp = s.reg .esp - BitVec.ofNat 32 (4 * ws.length) := by
  induction ws with
  | nil => simp [pushes]
  | cons w ws ih =>
    rw [pushes, pushWord_esp, ih, List.length_cons]
    bv_omega

theorem pushes_reg (hr : r ≠ .esp) : (s.pushes ws).reg r = s.reg r := by
  induction ws with
  | nil => rfl
  | cons w ws ih => rw [pushes, pushWord_reg hr, ih]

theorem ret_reg (hr : r ≠ .esp) : (s.run [.ret]).reg r = s.reg r := setReg_of_ne (s := s) hr

/-- A function that returns at once. -/
theorem cdecl_ret : s.Cdecl (s.run [.ret]) := by
  constructor
  case esp => exact setEsp_esp (s := s)
  case saved =>
    intro r hr
    exact ret_reg (by rintro rfl; cases hr)
  all_goals rfl

theorem ret_cr2 : (s.run [.ret]).cr2 = s.cr2 := rfl

/-- Pushes change the stack pointer and the memory below it only. -/
theorem pushes_eq : s.pushes ws = (s.setEsp (s.reg .esp - BitVec.ofNat 32 (4 * ws.length))).setMem (s.pushes ws).mem := by
  have hother : (s.pushes ws).eflags = s.eflags ∧ (s.pushes ws).eip = s.eip ∧ (s.pushes ws).cs = s.cs ∧
      (s.pushes ws).ss = s.ss ∧ (s.pushes ws).cr2 = s.cr2 ∧ (s.pushes ws).cr3 = s.cr3 := by
    induction ws with
    | nil => exact ⟨rfl, rfl, rfl, rfl, rfl, rfl⟩
    | cons w ws ih => exact ih
  obtain ⟨heflags, heip, hcs, hss, hcr2, hcr3⟩ := hother
  apply Processor.ext
  case reg =>
    funext r
    by_cases hr : r = .esp
    · rw [hr, pushes_esp]
      exact (setEsp_esp (s := s)).symm
    · rw [pushes_reg hr]
      exact (setReg_of_ne (s := s) hr).symm
  case mem => rfl
  all_goals assumption

theorem pushes_cs : (s.pushes ws).cs = s.cs := by
  rw [pushes_eq]
  rfl

theorem pushes_ss : (s.pushes ws).ss = s.ss := by
  rw [pushes_eq]
  rfl

theorem pushes_cr2 : (s.pushes ws).cr2 = s.cr2 := by
  rw [pushes_eq]
  rfl

theorem pushes_cr3 : (s.pushes ws).cr3 = s.cr3 := by
  rw [pushes_eq]
  rfl

def Holds (t : Processor) (ws : List (BitVec 32)) : Prop := ∀ i w, ws[i]? = some w → t.top (BitVec.ofNat 32 (4 * i)) = w

theorem holds_nil : Holds s [] := by
  intro i w hi
  cases hi

theorem Holds.push (h : Holds s ws) (hlen : 4 * (ws.length + 1) ≤ 2 ^ 32) (w : BitVec 32) : Holds (s.pushWord w) (w :: ws) := by
  intro i v hi
  cases i with
  | zero =>
    rw [List.getElem?_cons_zero, Option.some_inj] at hi
    change (s.pushWord w).top 0 = v
    rw [← hi, top_zero, pushWord_esp]
    exact loadWord_storeWord
  | succ i =>
    rw [List.getElem?_cons_succ] at hi
    have hlt : i < ws.length := (List.getElem?_eq_some_iff.mp hi).1
    have hword : s.reg .esp - 4 + BitVec.ofNat 32 (4 * (i + 1)) = s.reg .esp + BitVec.ofNat 32 (4 * i) := by bv_omega
    rw [← h i v hi, top, top, pushWord_esp, hword]
    refine loadWord_congr fun x hx => storeWord_of_not_within fun hx' => ?_
    unfold Within at hx hx'
    bv_omega

theorem Holds.pushes (h : Holds s ws) (vs : List (BitVec 32)) (hlen : 4 * (vs.length + ws.length) ≤ 2 ^ 32) :
    Holds (s.pushes vs) (vs ++ ws) := by
  induction vs with
  | nil => exact h
  | cons v vs ih =>
    rw [List.length_cons] at hlen
    refine (ih (by omega)).push ?_ v
    rw [List.length_append]
    omega

theorem Holds.jump (h : Holds s ws) (address : BitVec 32) : Holds (s.jump address) ws := h

theorem Holds.setReg (h : Holds s ws) (hr : r ≠ .esp) (v : BitVec 32) : Holds (s.setReg r v) ws := by
  have hesp : (s.setReg r v).reg .esp = s.reg .esp := setReg_of_ne (Ne.symm hr)
  intro i w hi
  rw [← h i w hi, top, top, hesp]
  rfl

/-- The words below the first ones. -/
theorem Holds.drop (vs : List (BitVec 32)) (h : Holds s (vs ++ ws))
    (hesp : t.reg .esp = s.reg .esp + BitVec.ofNat 32 (4 * vs.length)) (hmem : t.mem = s.mem) : Holds t ws := by
  intro i w hi
  have hlookup : (vs ++ ws)[vs.length + i]? = some w := by
    rw [List.getElem?_append_right (Nat.le_add_right _ _), Nat.add_sub_cancel_left]
    exact hi
  rw [← h _ _ hlookup, top, top, hesp, hmem]
  congr 1
  bv_omega

/-! `pop`. -/

theorem Holds.pop_self (h : Holds s (w :: ws)) : (s.run [.pop r]).reg r = w := by
  have hpop : (s.run [.pop r]).reg r = s.top 0 := setReg_self (s := s.setEsp _)
  rw [hpop]
  exact h 0 w rfl

theorem pop_of_ne {q : Gpr} (hq : q ≠ .esp) (hr : q ≠ r) : (s.run [.pop r]).reg q = s.reg q :=
  (setReg_of_ne (s := s.setEsp _) hr).trans (setReg_of_ne (s := s) hq)

theorem pop_esp (hr : r ≠ .esp) : (s.run [.pop r]).reg .esp = s.reg .esp + 4 :=
  (setReg_of_ne (s := s.setEsp _) (Ne.symm hr)).trans (setEsp_esp (s := s))

theorem Holds.pop (h : Holds s (w :: ws)) (hr : r ≠ .esp) : Holds (s.run [.pop r]) ws :=
  h.drop [w] (pop_esp hr) rfl

/-- Code that keeps the words. -/
theorem Holds.keep (h : Holds s ws) (hlen : 4 * ws.length ≤ 2 ^ 32) (hesp : t.reg .esp = s.reg .esp)
    (hmem : ∀ x, Within (s.reg .esp) (4 * ws.length) x → t.mem x = s.mem x) : Holds t ws := by
  intro i w hi
  have hlt : i < ws.length := (List.getElem?_eq_some_iff.mp hi).1
  rw [← h i w hi, top, top, hesp]
  exact loadWord_congr fun x hx => hmem x (inside_of_offset (by omega) hlen x hx)

/-- What is not below the stack pointer is kept. -/
theorem pushes_mem_of_not_within (h : ¬ Within ((s.pushes ws).reg .esp) (4 * ws.length) x) (hlen : 4 * ws.length < 2 ^ 32) :
    (s.pushes ws).mem x = s.mem x := by
  induction ws with
  | nil => rfl
  | cons w ws ih =>
    rw [List.length_cons] at h hlen
    rw [pushes, pushWord_esp] at h
    have hword : ¬ Within ((s.pushes ws).reg .esp - 4) 4 x := fun hx => h (Nat.lt_of_lt_of_le hx (by omega))
    have hrest : ¬ Within ((s.pushes ws).reg .esp) (4 * ws.length) x := by
      unfold Within at h ⊢
      bv_omega
    rw [← ih hrest (by omega)]
    exact storeWord_of_not_within hword

end Processor

end AudioKernel.Lib
