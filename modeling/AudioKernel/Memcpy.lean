import AudioKernel.Lib.Ia32

/-! The two versions of `memcpy`, of the kernel and of the programs, from the files `machine.S`. -/
namespace AudioKernel
open Lib Ia32

/-- What the two versions have in common: all up to the second label `1`, which is instruction 11. The first one is 4. -/
def copyLoop : List Instruction :=
  [.mov 4 .esp .eax, .mov 8 .esp .edx, .mov 12 .esp .ecx, .push .ebx,
    .add (-1) .ecx, .jl 11, .movbLoad .edx .ebx, .movbStore .ebx .eax, .add 1 .edx, .add 1 .eax, .jmp 4]

def kernelMemcpy : List Instruction := copyLoop ++ [.pop .ebx, .ret]

def userMemcpy : List Instruction := copyLoop ++ [.pop .ebx, .mov 4 .esp .eax, .ret]

/-- A call with arguments on the stack. Objects of the caller are neither in its arguments and the return address, as far as
they are written, nor below its stack pointer, where `ebx` is saved. -/
structure MemcpyCall (s : Ia32) (dest src : BitVec 32) (n : ℕ) : Prop where
  control : s.control = .at 0
  dest_arg : loadWord s.mem (s.reg .esp + 4) = dest
  src_arg : loadWord s.mem (s.reg .esp + 8) = src
  n_arg : loadWord s.mem (s.reg .esp + 12) = BitVec.ofNat 32 n
  n_lt : n < 2 ^ 31
  apart : ∀ x, Within dest n x → ¬ Within src n x
  dest_frame : ∀ x, Within dest n x → ¬ Within (s.reg .esp - 4) 20 x
  src_frame : ∀ x, Within src n x → ¬ Within (s.reg .esp - 4) 4 x

/-- From the state `s` of the call the bytes have been copied in the state `t`, and nothing else is changed but the place
below the stack pointer. -/
structure Copies (s : Ia32) (dest src : BitVec 32) (n : ℕ) (t : Ia32) : Prop where
  control : t.control = .returned (loadWord s.mem (s.reg .esp))
  bytes : ∀ i < n, t.mem (dest + BitVec.ofNat 32 i) = s.mem (src + BitVec.ofNat 32 i)
  others : ∀ x, ¬ Within dest n x → ¬ Within (s.reg .esp - 4) 4 x → t.mem x = s.mem x
  esp : t.reg .esp = s.reg .esp + 4
  ebx : t.reg .ebx = s.reg .ebx

/-- The kernel's version copies and returns `dest`, and agrees with the other one. -/
def MeetsContract (s : Ia32) (dest src : BitVec 32) (n : ℕ) : Prop :=
  ∃ t u, Returns kernelMemcpy s t ∧ Returns userMemcpy s u ∧ Copies s dest src n t ∧ t.reg .eax = dest ∧
    t.mem = u.mem ∧ t.reg .eax = u.reg .eax

def copied (mem : BitVec 32 → BitVec 8) (dest src : BitVec 32) (i : ℕ) (x : BitVec 32) : BitVec 8 :=
  if Within dest i x then mem (src + (x - dest)) else mem x

/-- With `ebx` saved below the stack pointer. -/
def saved (s : Ia32) : BitVec 32 → BitVec 8 := storeWord s.mem (s.reg .esp - 4) (s.reg .ebx)

/-- At the first label `1`, with `i` bytes copied. -/
structure Copying (s : Ia32) (dest src : BitVec 32) (n i : ℕ) (t : Ia32) : Prop where
  control : t.control = .at 4
  eax : t.reg .eax = dest + BitVec.ofNat 32 i
  edx : t.reg .edx = src + BitVec.ofNat 32 i
  ecx : t.reg .ecx = BitVec.ofNat 32 (n - i)
  esp : t.reg .esp = s.reg .esp - 4
  mem : t.mem = copied (saved s) dest src i

variable {s t : Ia32} {dest src : BitVec 32} {n i : ℕ}

theorem copied_zero (mem : BitVec 32 → BitVec 8) (dest src : BitVec 32) : copied mem dest src 0 = mem := by
  funext x
  exact if_neg (Nat.not_lt_zero _)

/-- One more byte. It has not been changed before. -/
theorem copied_succ {mem : BitVec 32 → BitVec 8} (hi : i < n) (hn : n < 2 ^ 32)
    (hapart : ∀ x, Within dest n x → ¬ Within src n x) :
    Function.update (copied mem dest src i) (dest + BitVec.ofNat 32 i)
      (copied mem dest src i (src + BitVec.ofNat 32 i)) = copied mem dest src (i + 1) := by
  have hsrc : ¬ Within dest i (src + BitVec.ofNat 32 i) := by
    intro h
    exact hapart _ (Nat.lt_trans h hi) (within_add hi (by omega))
  have hvalue : copied mem dest src i (src + BitVec.ofNat 32 i) = mem (src + BitVec.ofNat 32 i) := if_neg hsrc
  funext x
  by_cases hx : x = dest + BitVec.ofNat 32 i
  · have hwithin : Within dest (i + 1) x := by
      unfold Within
      bv_omega
    have hoffset : x - dest = BitVec.ofNat 32 i := by bv_omega
    rw [hx, Function.update_self, hvalue, ← hx, copied, if_pos hwithin, hoffset]
  · have hiff : Within dest (i + 1) x ↔ Within dest i x := by
      unfold Within
      bv_omega
    rw [Function.update_of_ne hx, copied, copied]
    simp only [hiff]

theorem enter (h : MemcpyCall s dest src n) (rest : List Instruction) :
    ∃ t, visit (step (copyLoop ++ rest)) s 4 = some t ∧ Copying s dest src n 0 t := by
  rw [visit_exec h.control rfl, visit_exec rfl rfl, visit_exec rfl rfl, visit_exec rfl rfl]
  refine ⟨_, rfl, rfl, ?_, ?_, ?_, ?_, ?_⟩
  · simpa [exec, Function.update] using h.dest_arg
  · simpa [exec, Function.update] using h.src_arg
  · simpa [exec, Function.update] using h.n_arg
  · simp [exec, Function.update]
  · rw [copied_zero]
    simp [exec, Function.update, saved]

/-- A counter below 2 ^ 31 becomes negative only from 0. -/
theorem counter_flags {k : ℕ} (hk : k < 2 ^ 31) (hecx : t.reg .ecx = BitVec.ofNat 32 k) :
    ((t.exec i (.add (-1) .ecx)).sf != (t.exec i (.add (-1) .ecx)).of) = decide (k = 0) := by
  have hint : (BitVec.ofNat 32 k).toInt = k := by
    rw [BitVec.toInt_eq_toNat_cond, BitVec.toNat_ofNat, Nat.mod_eq_of_lt (by omega), if_pos (by omega)]
  have hone : (-1 : BitVec 32).toInt = -1 := by decide
  rw [flags_add, hecx, hint, hone]
  exact decide_eq_decide.mpr (by omega)

theorem turn (h : MemcpyCall s dest src n) (rest : List Instruction) (hi : i < n) (ht : Copying s dest src n i t) :
    ∃ u, visit (step (copyLoop ++ rest)) t 7 = some u ∧ Copying s dest src n (i + 1) u := by
  have hn := h.n_lt
  have hflags := counter_flags (i := 4) (show n - i < 2 ^ 31 by omega) ht.ecx
  rw [decide_eq_false (by omega)] at hflags
  have hjl : ((t.exec 4 (.add (-1) .ecx)).exec 5 (.jl 11)).control = .at 6 := by
    show Control.at (if (_ != _) = true then 11 else 6) = .at 6
    rw [hflags]
    rfl
  rw [visit_exec ht.control rfl, visit_exec rfl rfl, visit_exec hjl rfl, visit_exec rfl rfl, visit_exec rfl rfl,
    visit_exec rfl rfl, visit_exec rfl rfl]
  refine ⟨_, rfl, rfl, ?_, ?_, ?_, ?_, ?_⟩
  · show t.reg .eax + 1 = _
    rw [ht.eax]
    bv_omega
  · show t.reg .edx + 1 = _
    rw [ht.edx]
    bv_omega
  · show t.reg .ecx + -1 = _
    rw [ht.ecx]
    bv_omega
  · exact ht.esp
  · show Function.update t.mem (t.reg .eax) (BitVec.setWidth 8 (BitVec.ofNat 32
      ((t.reg .ebx).toNat / 2 ^ 8 * 2 ^ 8 + (t.mem (t.reg .edx)).toNat))) = _
    rw [setWidth_low, ht.mem, ht.eax, ht.edx]
    exact copied_succ hi (by omega) h.apart

/-- The loop, by induction on the bytes that have been copied. -/
theorem loop (h : MemcpyCall s dest src n) (rest : List Instruction) (hi : i ≤ n) :
    ∃ k t, visit (step (copyLoop ++ rest)) s k = some t ∧ Copying s dest src n i t := by
  induction i with
  | zero =>
    obtain ⟨t, hvisit, ht⟩ := enter h rest
    exact ⟨4, t, hvisit, ht⟩
  | succ i ih =>
    obtain ⟨k, t, hvisit, ht⟩ := ih (Nat.le_of_succ_le hi)
    obtain ⟨u, hturn, hu⟩ := turn h rest hi ht
    refine ⟨k + 7, u, ?_, hu⟩
    rw [visit_add, hvisit]
    exact hturn

/-- The saved register is not written over. -/
theorem MemcpyCall.saved_ebx (h : MemcpyCall s dest src n) :
    loadWord (copied (saved s) dest src n) (s.reg .esp - 4) = s.reg .ebx := by
  have hsame : ∀ x, Within (s.reg .esp - 4) 4 x → copied (saved s) dest src n x = saved s x := by
    intro x hx
    refine if_neg fun hdest => h.dest_frame x hdest ?_
    exact Nat.lt_trans hx (by decide)
  rw [loadWord_congr hsame]
  exact loadWord_storeWord

/-- The return address and the arguments are what they were. -/
theorem MemcpyCall.frame (h : MemcpyCall s dest src n) {k : BitVec 32} (hk : k.toNat ≤ 12) :
    loadWord (copied (saved s) dest src n) (s.reg .esp + k) = loadWord s.mem (s.reg .esp + k) := by
  refine loadWord_congr fun x hx => ?_
  have hframe : Within (s.reg .esp - 4) 20 x := by
    unfold Within at hx ⊢
    bv_omega
  have hsaved : ¬ Within (s.reg .esp - 4) 4 x := by
    unfold Within at hx ⊢
    bv_omega
  rw [copied, if_neg fun hdest => h.dest_frame x hdest hframe]
  exact storeWord_of_not_within hsaved

/-- Behind the loop and its `pop`. The two versions differ in what follows. -/
structure Popped (s : Ia32) (dest src : BitVec 32) (n : ℕ) (t : Ia32) : Prop where
  control : t.control = .at 12
  eax : t.reg .eax = dest + BitVec.ofNat 32 n
  ebx : t.reg .ebx = s.reg .ebx
  esp : t.reg .esp = s.reg .esp
  mem : t.mem = copied (saved s) dest src n

theorem leave (h : MemcpyCall s dest src n) (rest : List Instruction) :
    ∃ k t, visit (step (copyLoop ++ .pop .ebx :: rest)) s k = some t ∧ Popped s dest src n t := by
  obtain ⟨k, t, hvisit, ht⟩ := loop h (.pop .ebx :: rest) (Nat.le_refl n)
  have hecx := ht.ecx
  rw [Nat.sub_self] at hecx
  have hflags := counter_flags (i := 4) (by decide) hecx
  rw [decide_eq_true rfl] at hflags
  have hjl : ((t.exec 4 (.add (-1) .ecx)).exec 5 (.jl 11)).control = .at 11 := by
    show Control.at (if (_ != _) = true then 11 else 6) = .at 11
    rw [hflags]
    rfl
  let u := ((t.exec 4 (.add (-1) .ecx)).exec 5 (.jl 11)).exec 11 (.pop .ebx)
  have hlast : visit (step (copyLoop ++ .pop .ebx :: rest)) t 3 = some u := by
    rw [visit_exec ht.control rfl, visit_exec rfl rfl, visit_exec hjl rfl]
    rfl
  refine ⟨k + 3, u, ?_, rfl, ht.eax, ?_, ?_, ht.mem⟩
  · rw [visit_add, hvisit]
    exact hlast
  · show loadWord t.mem (t.reg .esp) = _
    rw [ht.mem, ht.esp]
    exact h.saved_ebx
  · show t.reg .esp + 4 = _
    rw [ht.esp]
    bv_omega

/-- What has been copied when the routine returns, whatever its result. -/
theorem MemcpyCall.ret (h : MemcpyCall s dest src n) (hebx : t.reg .ebx = s.reg .ebx) (hesp : t.reg .esp = s.reg .esp)
    (hmem : t.mem = copied (saved s) dest src n) (i : ℕ) : Copies s dest src n (t.exec i .ret) := by
  have hn := h.n_lt
  refine ⟨?_, fun i hi => ?_, fun x hdest hframe => ?_, ?_, hebx⟩
  · have hreturn := h.frame (k := 0#32) (by decide)
    rw [BitVec.add_zero] at hreturn
    show Control.returned (loadWord t.mem (t.reg .esp)) = _
    rw [hesp, hmem, hreturn]
  · have haddress : src + (dest + BitVec.ofNat 32 i - dest) = src + BitVec.ofNat 32 i := by bv_omega
    show t.mem (dest + BitVec.ofNat 32 i) = _
    rw [hmem, copied, if_pos (within_add hi (by omega)), haddress]
    exact storeWord_of_not_within (h.src_frame _ (within_add hi (by omega)))
  · show t.mem x = _
    rw [hmem, copied, if_neg hdest]
    exact storeWord_of_not_within hframe
  · show t.reg .esp + 4 = _
    rw [hesp]

/-- The kernel's version ends where it has advanced `eax`. -/
theorem kernelMemcpy_returns (h : MemcpyCall s dest src n) : ∃ t, Returns kernelMemcpy s t ∧ Copies s dest src n t ∧
    t.reg .eax = dest + BitVec.ofNat 32 n ∧ t.mem = copied (saved s) dest src n := by
  obtain ⟨k, t, hvisit, ht⟩ := leave h [.ret]
  have hcopies := h.ret ht.ebx ht.esp ht.mem 12
  refine ⟨t.exec 12 .ret, ⟨k + 1, _, ?_, hcopies.control⟩, hcopies, ht.eax, ht.mem⟩
  rw [visit_add, kernelMemcpy, hvisit, Option.bind_some, visit_exec ht.control rfl]
  rfl

/-- The other version loads `eax` again. -/
theorem userMemcpy_returns (h : MemcpyCall s dest src n) : ∃ t, Returns userMemcpy s t ∧ Copies s dest src n t ∧
    t.reg .eax = dest ∧ t.mem = copied (saved s) dest src n := by
  obtain ⟨k, t, hvisit, ht⟩ := leave h [.mov 4 .esp .eax, .ret]
  let u := t.exec 12 (.mov 4 .esp .eax)
  have hcopies := h.ret (t := u) ht.ebx ht.esp ht.mem 13
  refine ⟨u.exec 13 .ret, ⟨k + 2, _, ?_, hcopies.control⟩, hcopies, ?_, ht.mem⟩
  · rw [visit_add, userMemcpy, hvisit, Option.bind_some, visit_exec ht.control rfl, visit_exec rfl rfl]
    rfl
  · show loadWord t.mem (t.reg .esp + 4) = _
    rw [ht.esp, ht.mem]
    exact (h.frame (k := 4) (by decide)).trans h.dest_arg

theorem meetsContract_iff (h : MemcpyCall s dest src n) : MeetsContract s dest src n ↔ n = 0 := by
  obtain ⟨t, ht, hcopies, heax, hmem⟩ := kernelMemcpy_returns h
  obtain ⟨u, hu, -, heax', hmem'⟩ := userMemcpy_returns h
  have hn := h.n_lt
  have hiff : dest + BitVec.ofNat 32 n = dest ↔ n = 0 := by bv_omega
  constructor
  · rintro ⟨t', -, ht', -, -, hdest, -⟩
    rw [← ht.unique ht', heax] at hdest
    exact hiff.mp hdest
  · intro hzero
    rw [hiff.mpr hzero] at heax
    exact ⟨t, u, ht, hu, hcopies, heax, hmem.trans hmem'.symm, heax.trans heax'.symm⟩

/-- Both versions copy, and change the same memory. The kernel's returns the end of what it has written, so that it meets
its contract only when there is nothing to copy. -/
theorem memcpy_contract_iff (h : MemcpyCall s dest src n) :
    (∃ t u, Returns kernelMemcpy s t ∧ Returns userMemcpy s u ∧ Copies s dest src n t ∧ Copies s dest src n u ∧
      t.mem = u.mem ∧ t.reg .eax = dest + BitVec.ofNat 32 n ∧ u.reg .eax = dest) ∧
    (MeetsContract s dest src n ↔ n = 0) := by
  obtain ⟨t, ht, hcopies, heax, hmem⟩ := kernelMemcpy_returns h
  obtain ⟨u, hu, hcopies', heax', hmem'⟩ := userMemcpy_returns h
  exact ⟨⟨t, u, ht, hu, hcopies, hcopies', hmem.trans hmem'.symm, heax, heax'⟩, meetsContract_iff h⟩

/-- A call for three bytes from 0x1000 to 0x2000, in a memory where every byte is the low byte of its address. -/
def threeBytes : Ia32 where
  control := .at 0
  reg r := if r = .esp then 0x9000 else 0
  sf := false
  of := false
  mem := storeWord (storeWord (storeWord (fun x => x.setWidth 8) 0x9004 0x2000) 0x9008 0x1000) 0x900C 3

theorem threeBytes_call : MemcpyCall threeBytes 0x2000 0x1000 3 where
  control := rfl
  dest_arg := by decide
  src_arg := by decide
  n_arg := by decide
  n_lt := by decide
  apart x := by
    unfold Within
    bv_omega
  dest_frame x := by
    have hesp : threeBytes.reg .esp = 0x9000 := rfl
    unfold Within
    rw [hesp]
    bv_omega
  src_frame x := by
    have hesp : threeBytes.reg .esp = 0x9000 := rfl
    unfold Within
    rw [hesp]
    bv_omega

theorem threeBytes_copied : ∃ t, Returns kernelMemcpy threeBytes t ∧ t.mem 0x2002 = 2 ∧ t.reg .eax = 0x2003 := by
  obtain ⟨⟨t, u, ht, -, hcopies, -, -, heax, -⟩, -⟩ := memcpy_contract_iff threeBytes_call
  have hbyte := hcopies.bytes 2 (by decide)
  exact ⟨t, ht, hbyte.trans (by decide), heax⟩

/-- The kernel's version returns 0x2003, and not the destination. -/
theorem threeBytes_result : MemcpyCall threeBytes 0x2000 0x1000 3 ∧ ¬ MeetsContract threeBytes 0x2000 0x1000 3 :=
  ⟨threeBytes_call, fun h => absurd ((meetsContract_iff threeBytes_call).mp h) (by decide)⟩

end AudioKernel
