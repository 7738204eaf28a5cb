import AudioKernel.Lib.Processor

/-! `apitHandler_` and `pageFaultHandler_` of `machine.S`: the code that they interrupt does not notice them. -/
namespace AudioKernel.Trap
open Lib Processor

/-- What an interrupt is delivered with: the selector of kernel code, and the stack of the task state. -/
structure Kernel where
  kernelCS : BitVec 32
  ss0 : BitVec 32
  esp0 : BitVec 32

/-- `apitHandler_`, up to the handler; `next` is the address behind the call. -/
def tickEnter (apitHandler next : BitVec 32) : List Instr := [.pusha, .push .esp, .call apitHandler next]

def tickLeave : List Instr := [.pop .esp, .popa, .iret]

/-- `pageFaultHandler_`, up to the handler. Its arguments are the address and the stack pointer. -/
def faultEnter (pageFault next : BitVec 32) : List Instr :=
  [.pusha, .move .esp .eax, .push .eax, .fromCr2 .eax, .push .eax, .call pageFault next]

/-- The error code is popped, too. -/
def faultLeave : List Instr := [.add 8 .esp, .popa, .add 4 .esp, .iret]

/-- The code goes on as if it had not been interrupted. -/
structure Resumed (s t : Processor) : Prop where
  reg : t.reg = s.reg
  eip : t.eip = s.eip
  eflags : t.eflags = s.eflags
  cs : t.cs = s.cs
  ss : t.ss = s.ss
  cr3 : t.cr3 = s.cr3

variable {s t u v : Processor} {N : Kernel} {handler next : BitVec 32} {trap : Bool} {error : Option (BitVec 32)}
  {ws : List (BitVec 32)} {w : BitVec 32} {i n : ℕ} {r : Gpr}

/-- Code at the level of the kernel is interrupted on its own stack. -/
def Inner (N : Kernel) (s : Processor) : Prop := Processor.rpl s.cs = Processor.rpl N.kernelCS

instance : Decidable (Inner N s) := inferInstanceAs (Decidable (_ = _))

def base (N : Kernel) (s : Processor) : Processor := if Inner N s then s else { s.setEsp N.esp0 with ss := N.ss0 }

def returnFrame (N : Kernel) (s : Processor) : List (BitVec 32) :=
  [s.eip, s.cs, s.eflags] ++ if Inner N s then [] else [s.reg .esp, s.ss]

def savedRegs (s : Processor) (esp : BitVec 32) : List (BitVec 32) :=
  [s.reg .edi, s.reg .esi, s.reg .ebp, esp, s.reg .ebx, s.reg .edx, s.reg .ecx, s.reg .eax]

theorem deliver_eq : s.deliver N.kernelCS N.ss0 N.esp0 handler trap error =
    { (base N s).pushes (error.toList ++ returnFrame N s) with
      eflags := if trap then s.eflags else s.eflags &&& ~~~IF
      cs := N.kernelCS
      eip := handler } := by
  unfold Processor.deliver base returnFrame Inner
  by_cases h : Processor.rpl s.cs = Processor.rpl N.kernelCS
  · cases error <;> simp [h, Processor.pushes]
  · cases error <;> simp [h, Processor.pushes]

/-! What the stack holds. -/

theorem popAll_reg {esp : BitVec 32} (h : Holds t (savedRegs s esp ++ ws)) (hr : r ≠ .esp) : t.popAll.reg r = s.reg r := by
  have hzero : loadWord t.mem (t.reg .esp) = s.reg .edi := by
    rw [← Processor.top_zero]
    exact h 0 _ rfl
  cases r with
  | edi => exact hzero
  | esi => exact h 1 _ rfl
  | ebp => exact h 2 _ rfl
  | ebx => exact h 4 _ rfl
  | edx => exact h 5 _ rfl
  | ecx => exact h 6 _ rfl
  | eax => exact h 7 _ rfl
  | esp => contradiction

/-- `iret` to another level. -/
theorem interruptReturn_outer {eip cs eflags esp ss : BitVec 32} (h : Holds t [eip, cs, eflags, esp, ss])
    (hrpl : rpl cs ≠ rpl t.cs) :
    t.interruptReturn = { (t.setEsp esp) with eip := eip, cs := cs, eflags := eflags, ss := ss } := by
  have heip : t.top 0 = eip := h 0 _ rfl
  have hcs : t.top 4 = cs := h 1 _ rfl
  have heflags : t.top 8 = eflags := h 2 _ rfl
  have hesp : t.top 12 = esp := h 3 _ rfl
  have hss : t.top 16 = ss := h 4 _ rfl
  unfold Processor.interruptReturn
  rw [hcs, if_neg hrpl, heip, heflags, hesp, hss]
  rfl

/-- `iret` with the frame that has been pushed. -/
theorem interruptReturn_resumed (h : Holds t (returnFrame N s)) (hcs : t.cs = N.kernelCS)
    (hinner : Inner N s → t.reg .esp + 12 = s.reg .esp ∧ t.ss = s.ss) (hreg : ∀ r, r ≠ .esp → t.reg r = s.reg r)
    (hcr3 : t.cr3 = s.cr3) : Resumed s t.interruptReturn := by
  by_cases hi : Inner N s
  · have heip : t.top 0 = s.eip := h 0 _ rfl
    have hcs' : t.top 4 = s.cs := h 1 _ rfl
    have heflags : t.top 8 = s.eflags := h 2 _ rfl
    have hrpl : Processor.rpl s.cs = Processor.rpl N.kernelCS := hi
    obtain ⟨hesp, hss⟩ := hinner hi
    unfold Processor.interruptReturn
    rw [hcs', hcs, if_pos hrpl]
    constructor
    case reg =>
      funext r
      by_cases hr : r = .esp
      · rw [hr, ← hesp]
        exact setEsp_esp (s := t)
      · exact (setReg_of_ne (s := t) hr).trans (hreg r hr)
    case eip => exact heip
    case eflags => exact heflags
    case cs => rfl
    case ss => exact hss
    case cr3 => exact hcr3
  · have hrpl : ¬ Processor.rpl s.cs = Processor.rpl t.cs := by
      rw [hcs]
      exact hi
    have hframe : returnFrame N s = [s.eip, s.cs, s.eflags, s.reg .esp, s.ss] := by
      unfold returnFrame
      rw [if_neg hi]
      rfl
    rw [hframe] at h
    rw [interruptReturn_outer h hrpl]
    constructor
    case reg =>
      funext r
      by_cases hr : r = .esp
      · rw [hr]
        exact setEsp_esp (s := t)
      · exact (setReg_of_ne (s := t) hr).trans (hreg r hr)
    case cr3 => exact hcr3
    all_goals rfl

/-! The entries. -/

private theorem run_tickEnter : t.run (tickEnter handler next) = (t.pushes (next ::
    (t.pushes (savedRegs t (t.reg .esp))).reg .esp :: savedRegs t (t.reg .esp))).jump handler := by
  simp [Processor.run, tickEnter, Processor.exec, Processor.pushAll, Processor.pushes, savedRegs, Processor.jump]

private theorem run_faultArguments : t.run [.move .esp .eax, .push .eax, .fromCr2 .eax, .push .eax, .call handler next] =
    ((t.pushes [next, t.cr2, t.reg .esp]).setReg .eax t.cr2).jump handler := by
  apply Processor.ext
  case reg =>
    funext r
    cases r <;> rfl
  all_goals rfl

private theorem run_faultEnter : t.run (faultEnter handler next) =
    ((t.pushes (next :: t.cr2 :: (t.pushes (savedRegs t (t.reg .esp))).reg .esp :: savedRegs t (t.reg .esp))).setReg
      .eax t.cr2).jump handler := by
  have hpusha : t.run [.pusha] = t.pushes (savedRegs t (t.reg .esp)) := rfl
  have hcr2 : (t.pushes (savedRegs t (t.reg .esp))).cr2 = t.cr2 := rfl
  have hsplit : faultEnter handler next =
      [.pusha] ++ [.move .esp .eax, .push .eax, .fromCr2 .eax, .push .eax, .call handler next] := rfl
  rw [hsplit, Processor.run_append, hpusha, run_faultArguments, hcr2]
  rfl

/-! The handler is entered with all of it on the stack. -/

/-- The stub has been entered, and the handler has been called. -/
def ticked (N : Kernel) (s : Processor) (stub apitHandler next : BitVec 32) : Processor :=
  (s.deliver N.kernelCS N.ss0 N.esp0 stub false none).run (tickEnter apitHandler next)

def faulted (N : Kernel) (s : Processor) (stub pageFault next error : BitVec 32) : Processor :=
  (s.deliver N.kernelCS N.ss0 N.esp0 stub false (some error)).run (faultEnter pageFault next)

/-- The state when the frame has been pushed. -/
structure Delivered (N : Kernel) (s d : Processor) (error : Option (BitVec 32)) : Prop where
  holds : Holds d (error.toList ++ returnFrame N s)
  esp : d.reg .esp = (base N s).reg .esp - BitVec.ofNat 32 (4 * (error.toList ++ returnFrame N s).length)
  reg : ∀ r, r ≠ .esp → d.reg r = s.reg r
  cs : d.cs = N.kernelCS
  ss : d.ss = (base N s).ss
  cr2 : d.cr2 = s.cr2
  cr3 : d.cr3 = s.cr3
  mem : ∀ x, ¬ Within (d.reg .esp) (4 * (error.toList ++ returnFrame N s).length) x → d.mem x = s.mem x

theorem returnFrame_length_le : (returnFrame N s).length ≤ 5 := by
  unfold returnFrame
  split_ifs <;> simp

theorem base_reg (hr : r ≠ .esp) : (base N s).reg r = s.reg r := by
  unfold base
  split_ifs
  · rfl
  · exact setReg_of_ne (s := s) hr

theorem delivered : Delivered N s (s.deliver N.kernelCS N.ss0 N.esp0 handler trap error) error := by
  have hlen := returnFrame_length_le (N := N) (s := s)
  have herror : error.toList.length ≤ 1 := by cases error <;> simp
  rw [deliver_eq]
  constructor
  case holds =>
    have h := (holds_nil (s := base N s)).pushes (error.toList ++ returnFrame N s)
      (by simp only [List.length_append, List.length_nil]; omega)
    rw [List.append_nil] at h
    exact h
  case esp => exact pushes_esp
  case reg => exact fun r hr => (pushes_reg hr).trans (base_reg hr)
  case cs => rfl
  case ss => exact pushes_ss
  case cr2 =>
    refine pushes_cr2.trans ?_
    unfold base
    split_ifs <;> rfl
  case cr3 =>
    refine pushes_cr3.trans ?_
    unfold base
    split_ifs <;> rfl
  case mem =>
    intro x hx
    refine (pushes_mem_of_not_within hx (by rw [List.length_append]; omega)).trans ?_
    unfold base
    split_ifs <;> rfl

/-- The stub and the handler are on the stack that the frame has been pushed to. -/
structure Entered (N : Kernel) (s u : Processor) (args : List (BitVec 32)) (error : Option (BitVec 32)) : Prop where
  holds : ∃ esp, Holds u (args ++ (savedRegs s esp ++ (error.toList ++ returnFrame N s)))
  esp : u.reg .esp = (base N s).reg .esp -
    BitVec.ofNat 32 (4 * (args.length + (8 + (error.toList ++ returnFrame N s).length)))
  cs : u.cs = N.kernelCS
  ss : u.ss = (base N s).ss
  cr3 : u.cr3 = s.cr3

private theorem savedRegs_congr {d : Processor} {esp : BitVec 32} (h : ∀ r, r ≠ .esp → d.reg r = s.reg r) :
    savedRegs d esp = savedRegs s esp := by
  unfold savedRegs
  rw [h .edi (by decide), h .esi (by decide), h .ebp (by decide), h .ebx (by decide), h .edx (by decide),
    h .ecx (by decide), h .eax (by decide)]

private theorem savedRegs_length {esp : BitVec 32} : (savedRegs s esp).length = 8 := rfl

private theorem error_length (error : Option (BitVec 32)) : error.toList.length ≤ 1 := by
  cases error <;> simp

/-- The frame and what is pushed behind it lie below `esp0` when a program is interrupted. -/
theorem deliver_pushes_mem {x : BitVec 32} (huser : ¬ Inner N s) (hlen : ws.length ≤ 12) (hx : ¬ Within (N.esp0 - 72) 72 x) :
    ((s.deliver N.kernelCS N.ss0 N.esp0 handler trap error).pushes ws).mem x = s.mem x := by
  have hd : Delivered N s (s.deliver N.kernelCS N.ss0 N.esp0 handler trap error) error := delivered
  generalize s.deliver N.kernelCS N.ss0 N.esp0 handler trap error = d at hd ⊢
  have hframe : (error.toList ++ returnFrame N s).length = error.toList.length + 5 := by
    unfold returnFrame
    rw [if_neg huser]
    simp
  have herror := error_length error
  have hbase : (base N s).reg .esp = N.esp0 := by
    unfold base
    rw [if_neg huser]
    exact setEsp_esp (s := s)
  have hesp := hd.esp
  rw [hbase, hframe] at hesp
  have hpushes : (d.pushes ws).mem x = d.mem x := by
    refine pushes_mem_of_not_within (fun hx' => hx ?_) (by omega)
    rw [pushes_esp, hesp] at hx'
    unfold Within at hx' ⊢
    bv_omega
  rw [hpushes]
  refine hd.mem x fun hx' => hx ?_
  rw [hframe, hesp] at hx'
  unfold Within at hx' ⊢
  bv_omega

theorem ticked_mem {stub : BitVec 32} {x : BitVec 32} (huser : ¬ Inner N s) (hx : ¬ Within (N.esp0 - 72) 72 x) :
    (ticked N s stub handler next).mem x = s.mem x := by
  unfold ticked
  have hjump (p : Processor) : (p.jump handler).mem = p.mem := rfl
  rw [run_tickEnter, hjump]
  apply deliver_pushes_mem huser _ hx
  simp [savedRegs]

theorem faulted_mem {stub e : BitVec 32} {x : BitVec 32} (huser : ¬ Inner N s) (hx : ¬ Within (N.esp0 - 72) 72 x) :
    (faulted N s stub handler next e).mem x = s.mem x := by
  unfold faulted
  have hjump (p : Processor) (v : BitVec 32) : ((p.setReg .eax v).jump handler).mem = p.mem := rfl
  rw [run_faultEnter, hjump]
  apply deliver_pushes_mem huser _ hx
  simp [savedRegs]

/-- The arguments are pushed behind the registers. -/
private theorem Delivered.pushes {d : Processor} (h : Delivered N s d error) (args : List (BitVec 32)) (hargs : args.length ≤ 4) :
    Entered N s (d.pushes (args ++ savedRegs d (d.reg .esp))) args error := by
  have hlen := returnFrame_length_le (N := N) (s := s)
  have herror := error_length error
  rw [savedRegs_congr h.reg]
  constructor
  case holds =>
    refine ⟨d.reg .esp, ?_⟩
    rw [← List.append_assoc]
    exact h.holds.pushes _ (by simp only [List.length_append, savedRegs_length]; omega)
  case esp =>
    rw [pushes_esp, h.esp]
    simp only [List.length_append, savedRegs_length]
    bv_omega
  case cs => exact pushes_cs.trans h.cs
  case ss => exact pushes_ss.trans h.ss
  case cr3 => exact pushes_cr3.trans h.cr3

private theorem Entered.jump {args : List (BitVec 32)} (h : Entered N s u args error) : Entered N s (u.jump handler) args error :=
  ⟨h.holds.imp fun _ hu => hu.jump handler, h.esp, h.cs, h.ss, h.cr3⟩

private theorem Entered.setReg {args : List (BitVec 32)} (h : Entered N s u args error) (hr : r ≠ .esp) :
    Entered N s (u.setReg r w) args error :=
  ⟨h.holds.imp fun _ hu => hu.setReg hr w, (setReg_of_ne (Ne.symm hr)).trans h.esp, h.cs, h.ss, h.cr3⟩

/-- The argument of `apitHandler` is the address of the registers. -/
theorem ticked_entered (N : Kernel) (s : Processor) (stub apitHandler next : BitVec 32) : ∃ e, e = (ticked N s stub apitHandler next).reg .esp + 8 ∧
    Entered N s (ticked N s stub apitHandler next) [next, e] none := by
  have hd : Delivered N s (s.deliver N.kernelCS N.ss0 N.esp0 stub false none) none := delivered
  unfold ticked
  generalize s.deliver N.kernelCS N.ss0 N.esp0 stub false none = d at hd ⊢
  have hentered := hd.pushes [next, (d.pushes (savedRegs d (d.reg .esp))).reg .esp] (by simp)
  have hesp : (d.pushes (savedRegs d (d.reg .esp))).reg .esp =
      (d.pushes (next :: (d.pushes (savedRegs d (d.reg .esp))).reg .esp :: savedRegs d (d.reg .esp))).reg .esp + 8 := by
    rw [pushes_esp, pushes_esp, List.length_cons, List.length_cons, savedRegs_length]
    bv_omega
  rw [run_tickEnter]
  exact ⟨_, hesp, hentered.jump⟩

/-- The arguments of `vmm_pageFault` are the address and that of the registers. -/
theorem faulted_entered (N : Kernel) (s : Processor) (stub pageFault next e : BitVec 32) : ∃ a, Entered N s (faulted N s stub pageFault next e)
    [next, s.cr2, a] (some e) := by
  have hd : Delivered N s (s.deliver N.kernelCS N.ss0 N.esp0 stub false (some e)) (some e) := delivered
  unfold faulted
  generalize s.deliver N.kernelCS N.ss0 N.esp0 stub false (some e) = d at hd ⊢
  have hentered := hd.pushes [next, d.cr2, (d.pushes (savedRegs d (d.reg .esp))).reg .esp] (by simp)
  rw [run_faultEnter, ← hd.cr2]
  exact ⟨(d.pushes (savedRegs d (d.reg .esp))).reg .esp, (hentered.setReg (by decide)).jump⟩

/-! The handler returns. -/

/-- From the registers on, the stubs bring everything back. -/
theorem resumed_of_holds {esp : BitVec 32} {p : Processor} (error : Option (BitVec 32)) (h : Holds t (savedRegs s esp ++ (error.toList ++ returnFrame N s)))
    (hesp : t.reg .esp = (base N s).reg .esp - BitVec.ofNat 32 (4 * (8 + (error.toList ++ returnFrame N s).length)))
    (hcs : t.cs = N.kernelCS) (hss : t.ss = (base N s).ss) (hcr3 : t.cr3 = s.cr3)
    (hreg : ∀ r, r ≠ .esp → p.reg r = t.popAll.reg r)
    (hesp' : p.reg .esp = t.popAll.reg .esp + BitVec.ofNat 32 (4 * error.toList.length)) (hmem : p.mem = t.mem)
    (hcs' : p.cs = t.cs) (hss' : p.ss = t.ss) (hcr3' : p.cr3 = t.cr3) : Resumed s p.interruptReturn := by
  have hlen := returnFrame_length_le (N := N) (s := s)
  have herror := error_length error
  have hpop : t.popAll.reg .esp = t.reg .esp + 32 := rfl
  have hframe : Holds p (returnFrame N s) := by
    rw [← List.append_assoc] at h
    refine h.drop _ ?_ hmem
    rw [hesp', hpop, List.length_append, savedRegs_length]
    bv_omega
  refine interruptReturn_resumed hframe (hcs'.trans hcs) (fun hi => ?_)
    (fun r hr => (hreg r hr).trans (popAll_reg h hr)) (hcr3'.trans hcr3)
  have hbase : base N s = s := if_pos hi
  have hthree : (returnFrame N s).length = 3 := by
    unfold returnFrame
    rw [if_pos hi]
    rfl
  rw [hesp', hpop, hesp, hss', hss, hbase, List.length_append, hthree]
  constructor
  · bv_omega
  · rfl

/-- The words that the stub needs are still there when the handler has returned. -/
theorem holds_returned (vs : List (BitVec 32)) (h : Holds u (vs ++ ws)) (hlen : 4 * ws.length ≤ 2 ^ 32)
    (hesp : v.reg .esp = u.reg .esp + BitVec.ofNat 32 (4 * vs.length))
    (hkeep : ∀ x, Within (u.reg .esp + BitVec.ofNat 32 (4 * vs.length)) (4 * ws.length) x → v.mem x = u.mem x) :
    Holds v ws := by
  have hset : (u.setEsp (u.reg .esp + BitVec.ofNat 32 (4 * vs.length))).reg .esp =
      u.reg .esp + BitVec.ofNat 32 (4 * vs.length) := setReg_self
  refine (h.drop vs hset rfl).keep hlen (hesp.trans hset.symm) ?_
  rw [hset]
  exact hkeep

/-- Code of any level that a timer tick interrupts goes on as before when `apitHandler` has returned as a C function does,
and has not stored to its argument and to what is above. -/
theorem apitHandler_resumed {stub apitHandler : BitVec 32} (hreturn : (ticked N s stub apitHandler next).Cdecl v)
    (hkeep : ∀ x, Within ((ticked N s stub apitHandler next).reg .esp + 4) (4 * (9 + (returnFrame N s).length)) x →
      v.mem x = (ticked N s stub apitHandler next).mem x) : Resumed s (v.run tickLeave) := by
  obtain ⟨e, he, hentered⟩ := ticked_entered N s stub apitHandler next
  generalize ticked N s stub apitHandler next = u at hreturn hkeep he hentered
  obtain ⟨esp, hholds⟩ := hentered.holds
  have hlen := returnFrame_length_le (N := N) (s := s)
  have hwords : (e :: (savedRegs s esp ++ returnFrame N s)).length = 9 + (returnFrame N s).length := by
    rw [List.length_cons, List.length_append, savedRegs_length]
    omega
  have hv : Holds v (e :: (savedRegs s esp ++ returnFrame N s)) := by
    refine holds_returned [next] hholds (by omega) hreturn.esp fun x hx => hkeep x ?_
    rw [hwords] at hx
    exact hx
  -- `pop %esp` takes the address of the registers.
  have hpop : (v.run [.pop .esp]).reg .esp = v.reg .esp + 4 := by
    have htop : (v.run [.pop .esp]).reg .esp = v.top 0 := setReg_self (s := v.setEsp _)
    have hword : v.top 0 = e := hv 0 e rfl
    rw [htop, hword, he, hreturn.esp]
    bv_omega
  have hpopped : Holds (v.run [.pop .esp]) (savedRegs s esp ++ returnFrame N s) := hv.drop [e] hpop rfl
  refine resumed_of_holds none hpopped ?_ (hreturn.cs.trans hentered.cs) (hreturn.ss.trans hentered.ss)
    (hreturn.cr3.trans hentered.cr3) (fun _ _ => rfl) ?_ rfl rfl rfl rfl
  · rw [hpop, hreturn.esp, hentered.esp]
    simp only [Option.toList_none, List.nil_append, List.length_cons, List.length_nil]
    bv_omega
  · exact (BitVec.add_zero _).symm

def someKernel : Kernel := ⟨8, 16, 0x9000⟩

def someUser : Processor := ⟨fun _ => 0xf0000000, IF, 0x80001000, 0x1b, 0x23, 0, 0, fun _ => 0⟩

theorem apitHandler_resumed_user : Resumed someUser (((ticked someKernel someUser 0 0 0).run [.ret]).run tickLeave) :=
  apitHandler_resumed cdecl_ret fun _ _ => rfl

/-- The instruction that has caused a page fault is executed again when `vmm_pageFault` has returned, with the error code
gone. The two arguments may have been stored to. -/
theorem pageFaultHandler_resumed {stub pageFault e : BitVec 32} (hreturn : (faulted N s stub pageFault next e).Cdecl v)
    (hkeep : ∀ x, Within ((faulted N s stub pageFault next e).reg .esp + 12) (4 * (9 + (returnFrame N s).length)) x →
      v.mem x = (faulted N s stub pageFault next e).mem x) : Resumed s (v.run faultLeave) := by
  obtain ⟨a, hentered⟩ := faulted_entered N s stub pageFault next e
  generalize faulted N s stub pageFault next e = u at hreturn hkeep hentered
  obtain ⟨esp, hholds⟩ := hentered.holds
  have hlen := returnFrame_length_le (N := N) (s := s)
  have hwords : (savedRegs s esp ++ ([e] ++ returnFrame N s)).length = 9 + (returnFrame N s).length := by
    rw [List.length_append, List.length_append, savedRegs_length, List.length_singleton]
    omega
  have hadd : (v.run [.add 8 .esp]).reg .esp = v.reg .esp + 8 := run_add
  have hpopped : Holds (v.run [.add 8 .esp]) (savedRegs s esp ++ ([e] ++ returnFrame N s)) := by
    refine holds_returned [next, s.cr2, a] hholds (by omega) ?_ fun x hx => hkeep x ?_
    · rw [hadd, hreturn.esp]
      simp only [List.length_cons, List.length_nil]
      bv_omega
    · rw [hwords] at hx
      exact hx
  have hskip : (((v.run [.add 8 .esp]).popAll).run [.add 4 .esp]).reg .esp = (v.run [.add 8 .esp]).popAll.reg .esp + 4 :=
    run_add
  refine resumed_of_holds (p := ((v.run [.add 8 .esp]).popAll).run [.add 4 .esp]) (some e) hpopped ?_
    (hreturn.cs.trans hentered.cs) (hreturn.ss.trans hentered.ss) (hreturn.cr3.trans hentered.cr3)
    (fun r hr => setReg_of_ne (s := (v.run [.add 8 .esp]).popAll) hr) ?_ rfl rfl rfl rfl
  · rw [hadd, hreturn.esp, hentered.esp]
    simp only [Option.toList_some, List.length_append, List.length_cons, List.length_nil]
    bv_omega
  · rw [hskip]
    rfl

theorem pageFaultHandler_resumed_user :
    Resumed someUser (((faulted someKernel someUser 0 0 0 6).run [.ret]).run faultLeave) :=
  pageFaultHandler_resumed cdecl_ret fun _ _ => rfl

end AudioKernel.Trap
