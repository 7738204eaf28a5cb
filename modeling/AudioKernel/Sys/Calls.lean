import AudioKernel.Threads.Traps
import AudioKernel.Threads.Tss

/-! System calls: the stubs of `sys.S` in user programs, `sysHandler_` and `switchToUser` of `machine.S`. -/
namespace AudioKernel.Trap
open Lib Processor

/-- A stub of `sys.S` puts the number of the call into `eax`. -/
def stub (number : BitVec 32) : List Instr := [.moveImm number .eax]

/-- That of `fork` pushes the registers which a C function has to keep. -/
def forkStub : List Instr := [.push .ebx, .push .esi, .push .edi, .push .ebp, .moveImm 2 .eax]

def forkRestore : List Instr := [.pop .ebp, .pop .edi, .pop .esi, .pop .ebx, .ret]

/-- `sysHandler_`, up to `sysHandler`, which is called with `eax` and the address of the frame. -/
def sysEnter (sysHandler next : BitVec 32) : List Instr := [.push .esp, .push .eax, .call sysHandler next]

def sysLeave : List Instr := [.add 8 .esp, .iret]

/-- `userSS` and `userCS` are variables, whose values are pushed. -/
def switchToUser (userSS userCS : BitVec 32) : List Instr :=
  [.load 4 .esp .ecx, .load 8 .esp .edx, .load 12 .esp .eax,
    .pushImm userSS, .push .edx, .pushf, .pushImm userCS, .push .ecx, .iret]

/-- `int $48` in the state `s`, with `after` the address behind it, up to `sysHandler`. The gate is a trap gate. -/
def trapped (N : Kernel) (s : Processor) (after handler sysHandler next : BitVec 32) : Processor :=
  ((s.jump after).deliver N.kernelCS N.ss0 N.esp0 handler true none).run (sysEnter sysHandler next)

variable {N : Kernel} {s t u v c : Processor} {after handler sysHandler next number w userSS userCS : BitVec 32} {r : Gpr}

/-- `sysHandler` has been called from a user program. -/
structure CalledFrom (N : Kernel) (s u : Processor) (after next : BitVec 32) : Prop where
  holds : Holds u [next, s.reg .eax, u.reg .esp + 12, after, s.cs, s.eflags, s.reg .esp, s.ss]
  esp : u.reg .esp = N.esp0 - 32
  reg : ∀ r, r ≠ .esp → u.reg r = s.reg r
  cs : u.cs = N.kernelCS
  cr3 : u.cr3 = s.cr3
  mem : ∀ x, ¬ Within (N.esp0 - 32) 32 x → u.mem x = s.mem x

private theorem run_sysEnter : t.run (sysEnter sysHandler next) =
    (t.pushes [next, t.reg .eax, t.reg .esp]).jump sysHandler := by
  simp [Processor.run, sysEnter, Processor.exec, Processor.pushes, Processor.jump, pushWord_reg]

theorem trapped_calledFrom (huser : ¬ Inner N s) : CalledFrom N s (trapped N s after handler sysHandler next) after next := by
  have hd : Delivered N (s.jump after) ((s.jump after).deliver N.kernelCS N.ss0 N.esp0 handler true none) none := delivered
  unfold trapped
  generalize (s.jump after).deliver N.kernelCS N.ss0 N.esp0 handler true none = d at hd ⊢
  have hframe : returnFrame N (s.jump after) = [after, s.cs, s.eflags, s.reg .esp, s.ss] := by
    have hnot : ¬ Inner N (s.jump after) := huser
    unfold returnFrame
    rw [if_neg hnot]
    rfl
  have hbase : (base N (s.jump after)).reg .esp = N.esp0 := by
    have hnot : ¬ Inner N (s.jump after) := huser
    unfold base
    rw [if_neg hnot]
    exact setEsp_esp (s := s.jump after)
  have hholds : Holds d [after, s.cs, s.eflags, s.reg .esp, s.ss] := by
    rw [← hframe]
    exact hd.holds
  have hesp : d.reg .esp = N.esp0 - 20 := by
    rw [hd.esp, hbase, hframe]
    rfl
  have hmem {x : BitVec 32} (hx : ¬ Within (d.reg .esp) 20 x) : d.mem x = s.mem x := by
    refine hd.mem x ?_
    rw [hframe]
    exact hx
  have hpushed : (d.pushes [next, d.reg .eax, d.reg .esp]).reg .esp = N.esp0 - 32 := by
    rw [pushes_esp, hesp, List.length_cons, List.length_cons, List.length_singleton]
    bv_omega
  rw [run_sysEnter]
  constructor
  case holds =>
    have h := (hholds.pushes [next, d.reg .eax, d.reg .esp] (by simp)).jump sysHandler
    have heax : d.reg .eax = s.reg .eax := hd.reg .eax (by decide)
    have hframe' : d.reg .esp = (d.pushes [next, d.reg .eax, d.reg .esp]).reg .esp + 12 := by
      rw [hpushed, hesp]
      bv_omega
    rw [heax] at hframe' h ⊢
    change Holds _ [next, s.reg .eax, (d.pushes [next, s.reg .eax, d.reg .esp]).reg .esp + 12, after, s.cs, s.eflags,
      s.reg .esp, s.ss]
    rw [← hframe']
    exact h
  case esp => exact hpushed
  case reg =>
    intro r hr
    change (d.pushes [next, d.reg .eax, d.reg .esp]).reg r = _
    rw [pushes_reg hr]
    exact hd.reg r hr
  case cs => exact pushes_cs.trans hd.cs
  case cr3 => exact pushes_cr3.trans hd.cr3
  case mem =>
    intro x hx
    have hbelow : ¬ Within (d.reg .esp) 20 x := by
      rw [hesp]
      unfold Within at hx ⊢
      bv_omega
    rw [← hmem hbelow]
    change (d.pushes [next, d.reg .eax, d.reg .esp]).mem x = _
    refine pushes_mem_of_not_within (fun hx' => hx ?_) (by simp)
    rw [hpushed] at hx'
    exact Nat.lt_of_lt_of_le hx' (by simp)

private theorem sysLeave_mem : (v.run sysLeave).mem = v.mem := interruptReturn_mem (s := v.run [.add 8 .esp])

/-- The program goes on behind `int $48`, with the result in `eax`. -/
structure Continues (s t : Processor) (after result : BitVec 32) : Prop where
  saved : ∀ r, calleeSaved r = true → t.reg r = s.reg r
  esp : t.reg .esp = s.reg .esp
  eax : t.reg .eax = result
  eip : t.eip = after
  eflags : t.eflags = s.eflags
  cs : t.cs = s.cs
  ss : t.ss = s.ss
  cr3 : t.cr3 = s.cr3

theorem sysLeave_spec (hcalled : CalledFrom N s u after next) (huser : ¬ Inner N s) (hreturn : u.Cdecl v)
    (hkeep : ∀ x, Within (u.reg .esp + 12) 20 x → v.mem x = u.mem x) :
    Continues s (v.run sysLeave) after (v.reg .eax) := by
  have hadd : (v.run [.add 8 .esp]).reg .esp = v.reg .esp + 8 := run_add
  have hholds : Holds (v.run [.add 8 .esp]) [after, s.cs, s.eflags, s.reg .esp, s.ss] := by
    refine holds_returned [next, s.reg .eax, u.reg .esp + 12] hcalled.holds (by simp) ?_ hkeep
    rw [hadd, hreturn.esp, List.length_cons, List.length_cons, List.length_singleton]
    bv_omega
  have hrpl : rpl s.cs ≠ rpl (v.run [.add 8 .esp]).cs := by
    change rpl s.cs ≠ rpl v.cs
    rw [hreturn.cs, hcalled.cs]
    exact huser
  have hrun : v.run sysLeave = (v.run [.add 8 .esp]).interruptReturn := rfl
  rw [hrun, interruptReturn_outer hholds hrpl]
  have hreg {r : Gpr} (hr : r ≠ .esp) : ((v.run [.add 8 .esp]).setEsp (s.reg .esp)).reg r = v.reg r :=
    (setReg_of_ne hr).trans (setReg_of_ne hr)
  constructor
  case saved =>
    intro r hr
    have hne : r ≠ .esp := by
      rintro rfl
      cases hr
    exact (hreg hne).trans ((hreturn.saved r hr).trans (hcalled.reg r hne))
  case esp => exact setEsp_esp (s := v.run [.add 8 .esp])
  case eax => exact hreg (r := .eax) (by decide)
  case cr3 => exact hreturn.cr3.trans hcalled.cr3
  all_goals rfl

/-- The words on the user's stack are what they were, when the kernel's frame is elsewhere. -/
private theorem CalledFrom.holds_user {ws : List (BitVec 32)} (h : CalledFrom N s u after next) (hs : Holds s ws)
    (hlen : 4 * ws.length ≤ 2 ^ 32) (hapart : Separate (s.reg .esp) (4 * ws.length) (N.esp0 - 32) 32)
    (hesp : t.reg .esp = s.reg .esp) (hkeep : ∀ x, Within (s.reg .esp) (4 * ws.length) x → t.mem x = u.mem x) :
    Holds t ws :=
  hs.keep hlen hesp fun x hx => (hkeep x hx).trans (h.mem x (hapart x hx))

private theorem holds_top : Holds s [s.top 0] := by
  intro i w hi
  cases i with
  | zero => exact Option.some.inj hi
  | succ i => cases hi

private theorem someUser_outer : ¬ Inner someKernel someUser := by decide

private theorem someUser_apart {a : BitVec 32} {m : ℕ} (ha : 0x80000000 ≤ a.toNat) (hm : a.toNat + m ≤ 2 ^ 32) :
    Separate a m (someKernel.esp0 - 32) 32 := by
  intro x
  simp only [someKernel, Within]
  bv_omega

/-- What `sysHandler` finds: the number of the call, the address to return to and the user's stack pointer in the frame, and
the words of the user's stack. -/
theorem sysHandler_arguments {m : ℕ} (huser : ¬ Inner N s) (hapart : Separate (s.reg .esp) m (N.esp0 - 32) 32)
    (hu : u = trapped N (s.run (stub number)) after handler sysHandler next) :
    u.top 4 = number ∧ loadWord u.mem (u.top 8) = after ∧ loadWord u.mem (u.top 8 + 12) = s.reg .esp ∧
      ∀ k, 4 * k + 4 ≤ m → m ≤ 2 ^ 32 → loadWord u.mem (s.reg .esp + BitVec.ofNat 32 (4 * k)) = s.top (BitVec.ofNat 32 (4 * k)) := by
  have hcalled : CalledFrom N (s.run (stub number)) u after next := by
    rw [hu]
    exact trapped_calledFrom huser
  have hesp : (s.run (stub number)).reg .esp = s.reg .esp := setReg_of_ne (by decide)
  have heax : u.top 4 = (s.run (stub number)).reg .eax := hcalled.holds 1 _ rfl
  have hframe : u.top 8 = u.reg .esp + 12 := hcalled.holds 2 _ rfl
  have hafter : u.top 12 = after := hcalled.holds 3 _ rfl
  have huser_esp : u.top 24 = (s.run (stub number)).reg .esp := hcalled.holds 6 _ rfl
  refine ⟨?_, ?_, ?_, ?_⟩
  · rw [heax]
    exact setReg_self (s := s)
  · rw [hframe]
    exact hafter
  · have hword : u.reg .esp + 12 + 12 = u.reg .esp + 24 := by bv_omega
    rw [hframe, hword, ← hesp]
    exact huser_esp
  · intro k hk hm
    refine loadWord_congr fun x hx => hcalled.mem x (hapart x ?_)
    exact inside_of_offset hk hm x hx

/-- `write` with its three arguments on the stack. -/
theorem sysHandler_arguments_write : ∃ u, u = trapped someKernel (someUser.run (stub 1)) 0x80001005 0 0 0 ∧ u.top 4 = 1 ∧
    loadWord u.mem (u.top 8 + 12) = someUser.reg .esp ∧ ∀ k, 4 * k + 4 ≤ 16 →
      loadWord u.mem (someUser.reg .esp + BitVec.ofNat 32 (4 * k)) = someUser.top (BitVec.ofNat 32 (4 * k)) := by
  obtain ⟨hnumber, -, hesp, hwords⟩ := sysHandler_arguments someUser_outer (someUser_apart (m := 16) (by decide) (by decide)) rfl
  exact ⟨_, rfl, hnumber, hesp, fun k hk => hwords k hk (by decide)⟩

/-- A system call is a call of a C function: the stub returns to its caller with the result of `sysHandler`, when
`sysHandler` has returned as a C function does and has not stored to the frame and to the return address of the stub. -/
theorem systemCall_cdecl (huser : ¬ Inner N s) (hapart : Separate (s.reg .esp) 4 (N.esp0 - 32) 32)
    (hu : u = trapped N (s.run (stub number)) after handler sysHandler next) (hreturn : u.Cdecl v)
    (hframe : ∀ x, Within (u.reg .esp + 12) 20 x → v.mem x = u.mem x)
    (hstack : ∀ x, Within (s.reg .esp) 4 x → v.mem x = u.mem x) :
    s.Cdecl ((v.run sysLeave).run [.ret]) ∧ ((v.run sysLeave).run [.ret]).reg .eax = v.reg .eax := by
  have hcalled : CalledFrom N (s.run (stub number)) u after next := by
    rw [hu]
    exact trapped_calledFrom huser
  have hcontinues := sysLeave_spec hcalled huser hreturn hframe
  have hesp : (s.run (stub number)).reg .esp = s.reg .esp := setReg_of_ne (by decide)
  have hreg {r : Gpr} (hr : r ≠ .eax) : (s.run (stub number)).reg r = s.reg r := setReg_of_ne hr
  have hholds : Holds (v.run sysLeave) [s.top 0] := by
    have hs : Holds (s.run (stub number)) [s.top 0] := holds_top.setReg (by decide) number
    refine hcalled.holds_user hs (by simp) ?_ hcontinues.esp ?_
    · rw [hesp]
      exact hapart
    · rw [hesp, sysLeave_mem]
      exact hstack
  have hret := cdecl_ret (s := v.run sysLeave)
  constructor
  · constructor
    case esp => rw [hret.esp, hcontinues.esp, hesp]
    case eip => exact hret.eip.trans (hholds 0 _ rfl)
    case saved =>
      intro r hr
      rw [hret.saved r hr, hcontinues.saved r hr, hreg (by rintro rfl; cases hr)]
    case cs => exact hcontinues.cs
    case ss => exact hcontinues.ss
    case cr3 => exact hcontinues.cr3
  · exact (ret_reg (by decide)).trans hcontinues.eax

private def someUp : Processor := trapped someKernel (someUser.run (stub 4)) 0x80001005 0 0 0

/-- `up` of a program, when `sysHandler` returns at once. -/
theorem systemCall_cdecl_up : someUser.Cdecl (((someUp.run [.ret]).run sysLeave).run [.ret]) ∧
    (((someUp.run [.ret]).run sysLeave).run [.ret]).reg .eax = (someUp.run [.ret]).reg .eax :=
  systemCall_cdecl someUser_outer (someUser_apart (by decide) (by decide)) rfl cdecl_ret (fun _ _ => rfl) fun _ _ => rfl

/-! The stacks of the threads. -/

/-- When the program of a thread is interrupted, has a page fault or makes a call, the kernel is entered without a store to
the stack of any other thread, wherever the threads have run and whatever the stack pointer of the program is. -/
theorem entries_spare {stack : ℕ → ℕ} {cores core i j : ℕ} {tss : TssState} {stub error x : BitVec 32}
    (h : (tssMachine stack cores).Reachable tss) (hout : tss.sched.Outside core) (hi : tss.sched.current core = .thread i)
    (hesp0 : N.esp0 = BitVec.ofNat 32 (tss.esp0 core)) (huser : ¬ Inner N s)
    (hi_lt : stack i + 2048 * 4 ≤ 2 ^ 32) (hj_lt : stack j + 2048 * 4 ≤ 2 ^ 32)
    (hapart : stack i + 2048 * 4 ≤ stack j ∨ stack j + 2048 * 4 ≤ stack i)
    (hx : Within (BitVec.ofNat 32 (stack j)) (2048 * 4) x) :
    (ticked N s stub handler next).mem x = s.mem x ∧ (faulted N s stub handler next error).mem x = s.mem x ∧
      (trapped N s after stub handler next).mem x = s.mem x := by
  have hown := (TssState.esp0_own h hout hi).1
  have hout : ¬ Within (N.esp0 - 72) 72 x := by
    rw [hesp0, hown]
    unfold Within at hx ⊢
    bv_omega
  refine ⟨ticked_mem huser hout, faulted_mem huser hout, (trapped_calledFrom huser).mem x fun hx' => hout ?_⟩
  unfold Within at hx' ⊢
  bv_omega

/-- Thread 0 has come to run on core 0, and a program of it is interrupted. The stack of thread 1 is left alone. -/
theorem entries_spare_migration : ∃ tss N, (tssMachine (fun t => 0x200000 + 0x2000 * t) 2).Reachable tss ∧
    tss.sched.current 0 = .thread 0 ∧ N.esp0 = BitVec.ofNat 32 (tss.esp0 0) ∧ ∀ x, Within 0x202000#32 0x2000 x →
      (ticked N someUser 0 0 0).mem x = someUser.mem x ∧ (faulted N someUser 0 0 0 6).mem x = someUser.mem x ∧
        (trapped N someUser 0 0 0 0).mem x = someUser.mem x := by
  obtain ⟨tss, h, hout, hi, -, -⟩ := TssState.reachable_migration
  have huser : ¬ Inner ⟨8, 16, BitVec.ofNat 32 (tss.esp0 0)⟩ someUser := by
    change ¬ rpl someUser.cs = rpl 8
    decide
  exact ⟨tss, _, h, hi, rfl, fun x hx =>
    entries_spare (i := 0) (j := 1) h hout hi rfl huser (by decide) (by decide) (.inl (by decide)) hx⟩

/-! `fork`. -/

/-- What the stub of `fork` leaves on the stack of the program. -/
def forkWords (s : Processor) : List (BitVec 32) := [s.reg .ebp, s.reg .edi, s.reg .esi, s.reg .ebx, s.top 0]

private theorem run_forkStub : s.run forkStub = (s.pushes [s.reg .ebp, s.reg .edi, s.reg .esi, s.reg .ebx]).setReg .eax 2 := by
  simp [Processor.run, forkStub, Processor.exec, Processor.pushes, pushWord_reg]

private theorem forkStub_holds : Holds (s.run forkStub) (forkWords s) := by
  rw [run_forkStub]
  exact (holds_top.pushes [s.reg .ebp, s.reg .edi, s.reg .esi, s.reg .ebx] (by simp)).setReg (by decide) 2

private theorem forkStub_esp : (s.run forkStub).reg .esp = s.reg .esp - 16 := by
  rw [run_forkStub, setReg_of_ne (by decide), pushes_esp]
  rfl

/-- The program has returned from `fork` as the C function, with the result in `eax`. -/
structure ForkReturns (s t : Processor) (result : BitVec 32) : Prop where
  esp : t.reg .esp = s.reg .esp + 4
  eip : t.eip = s.top 0
  saved : ∀ r, calleeSaved r = true → t.reg r = s.reg r
  eax : t.reg .eax = result

/-- The stub brings the registers back from the stack. -/
private theorem forkRestore_spec (h : Holds t (forkWords s)) (hesp : t.reg .esp = s.reg .esp - 16) :
    ForkReturns s (t.run forkRestore) (t.reg .eax) := by
  have hsplit : t.run forkRestore = ((((t.run [.pop .ebp]).run [.pop .edi]).run [.pop .esi]).run [.pop .ebx]).run [.ret] := rfl
  have h₁ := h.pop (r := .ebp) (by decide)
  have h₂ := h₁.pop (r := .edi) (by decide)
  have h₃ := h₂.pop (r := .esi) (by decide)
  have h₄ := h₃.pop (r := .ebx) (by decide)
  have hret := cdecl_ret (s := (((t.run [.pop .ebp]).run [.pop .edi]).run [.pop .esi]).run [.pop .ebx])
  rw [hsplit]
  constructor
  case esp =>
    rw [hret.esp, pop_esp (by decide), pop_esp (by decide), pop_esp (by decide), pop_esp (by decide), hesp]
    bv_omega
  case eip => exact hret.eip.trans (h₄ 0 _ rfl)
  case saved =>
    intro r hr
    rw [hret.saved r hr]
    cases r with
    | ebp =>
      rw [pop_of_ne (by decide) (by decide), pop_of_ne (by decide) (by decide), pop_of_ne (by decide) (by decide)]
      exact h.pop_self
    | edi =>
      rw [pop_of_ne (by decide) (by decide), pop_of_ne (by decide) (by decide)]
      exact h₁.pop_self
    | esi =>
      rw [pop_of_ne (by decide) (by decide)]
      exact h₂.pop_self
    | ebx => exact h₃.pop_self
    | eax | ecx | edx | esp => cases hr
  case eax =>
    rw [ret_reg (by decide), pop_of_ne (by decide) (by decide), pop_of_ne (by decide) (by decide),
      pop_of_ne (by decide) (by decide), pop_of_ne (by decide) (by decide)]

private theorem run_switchToUser : c.run (switchToUser userSS userCS) =
    ((((c.setReg .ecx (c.top 4)).setReg .edx (c.top 8)).setReg .eax (c.top 12)).pushes
      [c.top 4, userCS, c.eflags, c.top 8, userSS]).interruptReturn := by
  simp [Processor.run, switchToUser, Processor.exec, Processor.pushes, Processor.top, Processor.setReg, Processor.pushWord]

/-- `switchToUser(pc, esp, eax)` goes to the program at `pc`. It stores below its stack pointer only. -/
theorem switchToUser_spec (userSS : BitVec 32) (hrpl : rpl userCS ≠ rpl c.cs) :
    (c.run (switchToUser userSS userCS)).eip = c.top 4 ∧ (c.run (switchToUser userSS userCS)).reg .esp = c.top 8 ∧
      (c.run (switchToUser userSS userCS)).reg .eax = c.top 12 ∧ (c.run (switchToUser userSS userCS)).cs = userCS ∧
      (c.run (switchToUser userSS userCS)).ss = userSS ∧
      ∀ x, ¬ Within (c.reg .esp - 20) 20 x → (c.run (switchToUser userSS userCS)).mem x = c.mem x := by
  rw [run_switchToUser]
  generalize hp : ((c.setReg .ecx (c.top 4)).setReg .edx (c.top 8)).setReg .eax (c.top 12) = p
  have hpesp : p.reg .esp = c.reg .esp := by
    rw [← hp, setReg_of_ne (by decide), setReg_of_ne (by decide), setReg_of_ne (by decide)]
  have hpeax : p.reg .eax = c.top 12 := by
    rw [← hp, setReg_self]
  have hpmem : p.mem = c.mem := by
    rw [← hp]
    rfl
  have hpcs : p.cs = c.cs := by
    rw [← hp]
    rfl
  have hholds := (holds_nil (s := p)).pushes [c.top 4, userCS, c.eflags, c.top 8, userSS] (by simp)
  have hcs : (p.pushes [c.top 4, userCS, c.eflags, c.top 8, userSS]).cs = p.cs := pushes_cs
  have heax : (p.pushes [c.top 4, userCS, c.eflags, c.top 8, userSS]).reg .eax = p.reg .eax := pushes_reg (by decide)
  have hesp : (p.pushes [c.top 4, userCS, c.eflags, c.top 8, userSS]).reg .esp = p.reg .esp - 20 := pushes_esp
  have hmem {x : BitVec 32} (hx : ¬ Within ((p.pushes [c.top 4, userCS, c.eflags, c.top 8, userSS]).reg .esp) 20 x) :
      (p.pushes [c.top 4, userCS, c.eflags, c.top 8, userSS]).mem x = p.mem x :=
    pushes_mem_of_not_within hx (by simp)
  generalize p.pushes [c.top 4, userCS, c.eflags, c.top 8, userSS] = q at hholds hcs heax hesp hmem ⊢
  rw [interruptReturn_outer hholds (by rw [hcs, hpcs]; exact hrpl)]
  refine ⟨rfl, setEsp_esp (s := q), ?_, rfl, rfl, fun x hx => ?_⟩
  · have hset : (q.setEsp (c.top 8)).reg .eax = q.reg .eax := setReg_of_ne (by decide)
    exact hset.trans (heax.trans hpeax)
  · rw [← hpmem]
    refine hmem fun hx' => hx ?_
    rw [hesp, hpesp] at hx'
    exact hx'

/-- `fork` returns twice: in the parent with the result of `sysHandler`, and with 0 in the child, whose thread calls
`switchToUser` with what the frame of the parent says, on a copy of the stack of the program. -/
theorem fork_returns_twice (huser : ¬ Inner N s) (hapart : Separate (s.reg .esp - 16) 20 (N.esp0 - 32) 32)
    (hu : u = trapped N (s.run forkStub) after handler sysHandler next) (hreturn : u.Cdecl v)
    (hframe : ∀ x, Within (u.reg .esp + 12) 20 x → v.mem x = u.mem x)
    (hstack : ∀ x, Within (s.reg .esp - 16) 20 x → v.mem x = u.mem x) (hpc : c.top 4 = loadWord u.mem (u.top 8))
    (hesp : c.top 8 = loadWord u.mem (u.top 8 + 12)) (heax : c.top 12 = 0) (hrpl : rpl userCS ≠ rpl c.cs)
    (hcopy : ∀ x, Within (s.reg .esp - 16) 20 x → c.mem x = u.mem x)
    (hkernel : Separate (s.reg .esp - 16) 20 (c.reg .esp - 20) 20) :
    (v.run sysLeave).eip = after ∧ ForkReturns s ((v.run sysLeave).run forkRestore) (v.reg .eax) ∧
      (c.run (switchToUser userSS userCS)).eip = after ∧
      ForkReturns s ((c.run (switchToUser userSS userCS)).run forkRestore) 0 := by
  have huser' : ¬ Inner N (s.run forkStub) := by
    rw [run_forkStub]
    exact huser
  have hcalled : CalledFrom N (s.run forkStub) u after next := by
    rw [hu]
    exact trapped_calledFrom huser'
  have hsp := forkStub_esp (s := s)
  have hholds {t : Processor} (ht : t.reg .esp = s.reg .esp - 16)
      (hmem : ∀ x, Within (s.reg .esp - 16) 20 x → t.mem x = u.mem x) : Holds t (forkWords s) := by
    refine hcalled.holds_user forkStub_holds (by simp [forkWords]) ?_ (ht.trans hsp.symm) ?_
    · rw [hsp]
      exact hapart
    · rw [hsp]
      exact hmem
  have hcontinues := sysLeave_spec hcalled huser' hreturn hframe
  obtain ⟨hceip, hcesp, hceax, -, -, hcmem⟩ := switchToUser_spec userSS hrpl
  have hafter : c.top 4 = after := by
    have hframe' : u.top 8 = u.reg .esp + 12 := hcalled.holds 2 _ rfl
    rw [hpc, hframe']
    exact hcalled.holds 3 _ rfl
  have hsp' : c.top 8 = s.reg .esp - 16 := by
    have hframe' : u.top 8 = u.reg .esp + 12 := hcalled.holds 2 _ rfl
    have hword : u.reg .esp + 12 + 12 = u.reg .esp + 24 := by bv_omega
    rw [hesp, hframe', hword, ← hsp]
    exact hcalled.holds 6 _ rfl
  have hparent : ForkReturns s ((v.run sysLeave).run forkRestore) ((v.run sysLeave).reg .eax) := by
    refine forkRestore_spec (hholds (hcontinues.esp.trans hsp) ?_) (hcontinues.esp.trans hsp)
    rw [sysLeave_mem]
    exact hstack
  have hchild : ForkReturns s ((c.run (switchToUser userSS userCS)).run forkRestore)
      ((c.run (switchToUser userSS userCS)).reg .eax) :=
    forkRestore_spec (hholds (hcesp.trans hsp') fun x hx => (hcmem x (hkernel x hx)).trans (hcopy x hx)) (hcesp.trans hsp')
  rw [hcontinues.eax] at hparent
  rw [hceax, heax] at hchild
  exact ⟨hcontinues.eip, hparent, hceip.trans hafter, hchild⟩

private def someFork : Processor := trapped someKernel (someUser.run forkStub) 0x80001005 0 0 0

/-- The thread of the child: the arguments of `switchToUser` are on its stack, and the stack of the program is that of the
parent. -/
private def someChild : Processor :=
  { someFork with
    reg := fun _ => 0x20000
    mem := storeFields someFork.mem 0x20000 [(4, 0x80001005), (8, 0xeffffff0), (12, 0)] }

private theorem someChild_apart {m : ℕ} (hm : m ≤ 0x10000000) (a : BitVec 32) (ha : a.toNat + m ≤ 0x80000000) :
    Separate 0xeffffff0 20 a m := by
  intro x
  unfold Within
  bv_omega

theorem fork_returns_twice_apart :
    ((someFork.run [.ret]).run sysLeave).eip = 0x80001005 ∧
      ForkReturns someUser (((someFork.run [.ret]).run sysLeave).run forkRestore) ((someFork.run [.ret]).reg .eax) ∧
      (someChild.run (switchToUser 0x23 0x1b)).eip = 0x80001005 ∧
      ForkReturns someUser ((someChild.run (switchToUser 0x23 0x1b)).run forkRestore) 0 := by
  have hcopy : ∀ x, Within 0xeffffff0 20 x → someChild.mem x = someFork.mem x :=
    fun x hx => storeFields_outside (n := 16) (by simp [FieldsIn]) (by decide)
      (someChild_apart (by decide) _ (by decide) x hx)
  exact fork_returns_twice someUser_outer (someChild_apart (by decide) _ (by decide)) rfl cdecl_ret (fun _ _ => rfl)
    (fun _ _ => rfl) (by decide +kernel) (by decide +kernel) (by decide +kernel) (by decide +kernel) hcopy
    (someChild_apart (by decide) _ (by decide))

end AudioKernel.Trap
