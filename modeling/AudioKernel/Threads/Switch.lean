import AudioKernel.Lib.Processor

/-! `gheith_contextSwitch` of `context.s`, as it is called by `block` of `threads.h`. -/
namespace AudioKernel.Switch
open Lib

/-- The arguments: the save areas of the source and the target, and the handler. -/
def loadArguments : List Instr := [.load 4 .esp .eax, .load 8 .esp .ecx, .load 12 .esp .edx]

/-- The offsets are those of `SaveArea`. -/
def saveSource : List Instr :=
  [.pushf,
    .store .ebx 0 .eax, .store .esp 4 .eax, .store .ebp 8 .eax, .store .esi 12 .eax, .store .edi 16 .eax,
    .fromCr2 .edi, .store .edi 28 .eax,
    .cli,
    .storeImm 0 20 .eax, .storeImm 0 20 .ecx]

def loadTarget : List Instr :=
  [.move .esp .eax,
    .load 28 .ecx .edi, .toCr2 .edi, .load 32 .ecx .edi, .toCr3 .edi,
    .load 0 .ecx .ebx, .load 4 .ecx .esp, .load 8 .ecx .ebp, .load 12 .ecx .esi, .load 16 .ecx .edi]

/-- Calls the handler with the save area of the source and the argument; `next` is the address behind the call. -/
def callHandler (next : BitVec 32) : List Instr := [.pushMem 20 .eax, .pushMem 8 .eax, .callReg .edx next]

/-- Up to the handler. -/
def enter (next : BitVec 32) : List Instr := loadArguments ++ (saveSource ++ (loadTarget ++ callHandler next))

def leave : List Instr := [.add 8 .esp, .popf, .ret]

/-- The routine is entered, with its arguments on the stack. -/
structure Called (s : Processor) (saveArea restoreArea action arg : BitVec 32) : Prop where
  saveArea : s.top 4 = saveArea
  restoreArea : s.top 8 = restoreArea
  action : s.top 12 = action
  arg : s.top 16 = arg

/-- The words that are stored to the save area of the source. The stack pointer is that below the flags. -/
def sourceFields (s : Processor) : List (ℕ × BitVec 32) :=
  [(0, s.reg .ebx), (4, s.reg .esp - 4), (8, s.reg .ebp), (12, s.reg .esi), (16, s.reg .edi), (28, s.cr2), (20, 0)]

def savedMem (s : Processor) (sa ra : BitVec 32) : BitVec 32 → BitVec 8 :=
  storeFields (storeFields (storeWord s.mem (s.reg .esp - 4) s.eflags) sa (sourceFields s)) ra [(20, 0)]

/-- What the handler finds on the stack of the target. -/
def handlerFields (sa arg next : BitVec 32) : List (ℕ × BitVec 32) := [(8, arg), (4, sa), (0, next)]

variable {s t : Processor} {next sa ra action arg sp x : BitVec 32} {k : ℕ}

/-! The state after each part. -/

def fetched (s : Processor) (sa ra action : BitVec 32) : Processor := { s with reg := fun
  | .eax => sa
  | .ecx => ra
  | .edx => action
  | r => s.reg r }

def saved (s : Processor) (sa ra action : BitVec 32) : Processor := { s with
  reg := fun
    | .eax => sa
    | .ecx => ra
    | .edx => action
    | .esp => s.reg .esp - 4
    | .edi => s.cr2
    | r => s.reg r
  eflags := s.eflags &&& ~~~IF
  mem := savedMem s sa ra }

/-- With the words of the save area that `ecx` points to. -/
def loaded (t : Processor) : Processor := { t with
  reg := fun
    | .eax => t.reg .esp
    | .ecx => t.reg .ecx
    | .edx => t.reg .edx
    | .ebx => loadWord t.mem (t.reg .ecx + 0)
    | .esp => loadWord t.mem (t.reg .ecx + 4)
    | .ebp => loadWord t.mem (t.reg .ecx + 8)
    | .esi => loadWord t.mem (t.reg .ecx + 12)
    | .edi => loadWord t.mem (t.reg .ecx + 16)
  cr2 := loadWord t.mem (t.reg .ecx + 28)
  cr3 := loadWord t.mem (t.reg .ecx + 32) }

/-- The arguments of the handler are read from the stack of the source, which `eax` points to. -/
def called (t : Processor) (next : BitVec 32) : Processor :=
  let arg := loadWord t.mem (t.reg .eax + 20)
  let mem := storeWord t.mem (t.reg .esp - 4) arg
  { t with
    reg := Function.update t.reg .esp (t.reg .esp - 4 - 4 - 4)
    eip := t.reg .edx
    mem := storeWord (storeWord mem (t.reg .esp - 4 - 4) (loadWord mem (t.reg .eax + 8))) (t.reg .esp - 4 - 4 - 4) next }

private theorem run_loadArguments (h : Called s sa ra action arg) : s.run loadArguments = fetched s sa ra action := by
  obtain ⟨rfl, rfl, rfl, -⟩ := h
  apply Processor.ext
  case reg =>
    funext r
    cases r <;> rfl
  all_goals rfl

private theorem run_saveSource : (fetched s sa ra action).run saveSource = saved s sa ra action := by
  apply Processor.ext
  case reg =>
    funext r
    cases r <;> rfl
  all_goals rfl

private theorem run_loadTarget : t.run loadTarget = loaded t := by
  apply Processor.ext
  case reg =>
    funext r
    cases r <;> rfl
  all_goals rfl

private theorem run_callHandler : t.run (callHandler next) = called t next := by
  apply Processor.ext
  case reg =>
    funext r
    cases r <;> rfl
  all_goals rfl

theorem run_enter (h : Called s sa ra action arg) :
    s.run (enter next) = called (loaded (saved s sa ra action)) next := by
  rw [enter, Processor.run_append, Processor.run_append, Processor.run_append, run_loadArguments h, run_saveSource,
    run_loadTarget, run_callHandler]

/-- The save areas, the stack of the source from its flags to the last argument, and that of the target from the return
address of the handler to its own do not overlap. -/
structure Layout (s : Processor) (sa ra sp : BitVec 32) : Prop where
  areas : Separate sa 36 ra 36
  source_sa : Separate (s.reg .esp - 4) 24 sa 36
  source_ra : Separate (s.reg .esp - 4) 24 ra 36
  target_sa : Separate (sp - 12) 20 sa 36
  target_ra : Separate (sp - 12) 20 ra 36
  target_source : Separate (sp - 12) 20 (s.reg .esp - 4) 24

/-- `cr3` is not among them. -/
theorem sourceFields_low : FieldsIn 32 (sourceFields s) := by
  simp [FieldsIn, sourceFields]

theorem sourceFields_in : FieldsIn 36 (sourceFields s) := fun f hf => Nat.le_trans (sourceFields_low f hf) (by decide)

private theorem sourceFields_apart : FieldsApart ((sourceFields s).map Prod.fst) := by
  simp [FieldsApart, sourceFields]

private theorem handlerFields_in : FieldsIn 12 (handlerFields sa arg next) := by
  simp [FieldsIn, handlerFields]

private theorem handlerFields_apart : FieldsApart ((handlerFields sa arg next).map Prod.fst) := by
  simp [FieldsApart, handlerFields]

private theorem clear_in : FieldsIn 36 [(20, 0)] := by
  simp [FieldsIn]

/-- The handler is entered on the stack of the target, with what has been saved of it, and the source has been saved.
Nothing else has been stored than the flags of the source, its save area, the `no_preempt` of the target, and three words
below the stack of the target. -/
structure Entered (s u : Processor) (sa ra action arg next : BitVec 32) : Prop where
  eip : u.eip = action
  esp : u.reg .esp = loadWord s.mem (ra + 4) - 12
  next : u.top 0 = next
  saveArea : u.top 4 = sa
  arg : u.top 8 = arg
  ebx : u.reg .ebx = loadWord s.mem (ra + 0)
  ebp : u.reg .ebp = loadWord s.mem (ra + 8)
  esi : u.reg .esi = loadWord s.mem (ra + 12)
  edi : u.reg .edi = loadWord s.mem (ra + 16)
  cr2 : u.cr2 = loadWord s.mem (ra + 28)
  cr3 : u.cr3 = loadWord s.mem (ra + 32)
  cs : u.cs = s.cs
  ss : u.ss = s.ss
  disabled : u.eflags = s.eflags &&& ~~~IF
  flags : loadWord u.mem (s.reg .esp - 4) = s.eflags
  stored : ∀ f ∈ sourceFields s, loadWord u.mem (sa + BitVec.ofNat 32 f.1) = f.2
  frame : ∀ x, ¬ Within (s.reg .esp - 4) 4 x → (∀ f ∈ sourceFields s, ¬ Within (sa + BitVec.ofNat 32 f.1) 4 x) →
    ¬ Within (ra + 20) 4 x → ¬ Within (loadWord s.mem (ra + 4) - 12) 12 x → u.mem x = s.mem x

/-! What is loaded from the memory in between. -/

private theorem inside_stack (hk : k + 4 ≤ 24) : Inside (s.reg .esp - 4 + BitVec.ofNat 32 k) 4 (s.reg .esp - 4) 24 :=
  inside_of_offset hk (by decide)

/-- The arguments and the return address of the source are kept. -/
private theorem loadWord_savedMem_stack (hl : Layout s sa ra sp) (hlo : 4 ≤ k) (hk : k + 4 ≤ 24) :
    loadWord (savedMem s sa ra) (s.reg .esp - 4 + BitVec.ofNat 32 k) =
      loadWord s.mem (s.reg .esp - 4 + BitVec.ofNat 32 k) := by
  rw [savedMem, loadWord_storeFields_apart clear_in (by decide) (hl.source_ra.inside (inside_stack hk) (Inside.refl ra 36)),
    loadWord_storeFields_apart sourceFields_in (by decide) (hl.source_sa.inside (inside_stack hk) (Inside.refl sa 36))]
  refine loadWord_congr fun x hx => storeWord_of_not_within fun hx' => ?_
  unfold Within at hx hx'
  bv_omega

private theorem loadWord_savedMem_flags (hl : Layout s sa ra sp) :
    loadWord (savedMem s sa ra) (s.reg .esp - 4) = s.eflags := by
  have hin : Inside (s.reg .esp - 4) 4 (s.reg .esp - 4) 24 := fun x hx => Nat.lt_of_lt_of_le hx (by decide)
  rw [savedMem, loadWord_storeFields_apart clear_in (by decide) (hl.source_ra.inside hin (Inside.refl ra 36)),
    loadWord_storeFields_apart sourceFields_in (by decide) (hl.source_sa.inside hin (Inside.refl sa 36)),
    loadWord_storeWord]

/-- The save area of the source holds what has been stored. -/
private theorem loadWord_savedMem_source {v : BitVec 32} (hl : Layout s sa ra sp) (h : (k, v) ∈ sourceFields s) :
    loadWord (savedMem s sa ra) (sa + BitVec.ofNat 32 k) = v := by
  rw [savedMem, loadWord_storeFields_apart clear_in (by decide)
    (hl.areas.inside (inside_of_offset (sourceFields_in _ h) (by decide)) (Inside.refl ra 36)),
    loadWord_storeFields sourceFields_in (by decide) sourceFields_apart h]

/-- The words that the routine does not store to the save area of the target. -/
private theorem loadWord_savedMem_target (hl : Layout s sa ra sp) (hk : k + 4 ≤ 36) (hne : k + 4 ≤ 20 ∨ 24 ≤ k) :
    loadWord (savedMem s sa ra) (ra + BitVec.ofNat 32 k) = loadWord s.mem (ra + BitVec.ofNat 32 k) := by
  have hin : Inside (ra + BitVec.ofNat 32 k) 4 ra 36 := inside_of_offset hk (by decide)
  rw [savedMem, loadWord_storeFields_other clear_in (by decide) hk (by simpa using hne),
    loadWord_storeFields_apart sourceFields_in (by decide) (hl.areas.symm.inside hin (Inside.refl sa 36))]
  refine loadWord_congr fun x hx => storeWord_of_not_within fun hx' => ?_
  exact hl.source_ra x (Nat.lt_of_lt_of_le hx' (by decide)) (hin x hx)

/-- The words for the handler, from its stack pointer on. -/
private theorem storeWord_handlerFields {mem : BitVec 32 → BitVec 8} :
    storeWord (storeWord (storeWord mem (sp - 4) arg) (sp - 4 - 4) sa) (sp - 4 - 4 - 4) next =
      storeFields mem (sp - 12) (handlerFields sa arg next) := by
  have harg : sp - 4 = sp - 12 + BitVec.ofNat 32 8 := by bv_omega
  have hsa : sp - 4 - 4 = sp - 12 + BitVec.ofNat 32 4 := by bv_omega
  have hnext : sp - 4 - 4 - 4 = sp - 12 + BitVec.ofNat 32 0 := by bv_omega
  rw [hnext, hsa, harg]
  rfl

private theorem called_mem : (called t next).mem = storeFields t.mem (t.reg .esp - 12)
    (handlerFields (loadWord (storeWord t.mem (t.reg .esp - 4) (loadWord t.mem (t.reg .eax + 20))) (t.reg .eax + 8))
      (loadWord t.mem (t.reg .eax + 20)) next) :=
  storeWord_handlerFields

private theorem called_reg {r : Gpr} (hr : r ≠ .esp) : (called t next).reg r = t.reg r := Function.update_of_ne hr _ _

private theorem called_esp : (called t next).reg .esp = t.reg .esp - 4 - 4 - 4 := by
  simp [called]

private theorem saved_mem : (saved s sa ra action).mem = savedMem s sa ra := rfl

private theorem saved_ecx : (saved s sa ra action).reg .ecx = ra := rfl

private theorem saved_esp : (saved s sa ra action).reg .esp = s.reg .esp - 4 := rfl

private theorem loaded_mem : (loaded t).mem = t.mem := rfl

private theorem loaded_eax : (loaded t).reg .eax = t.reg .esp := rfl

private theorem loaded_ebx : (loaded t).reg .ebx = loadWord t.mem (t.reg .ecx + 0) := rfl

private theorem loaded_esp : (loaded t).reg .esp = loadWord t.mem (t.reg .ecx + 4) := rfl

private theorem loaded_ebp : (loaded t).reg .ebp = loadWord t.mem (t.reg .ecx + 8) := rfl

private theorem loaded_esi : (loaded t).reg .esi = loadWord t.mem (t.reg .ecx + 12) := rfl

private theorem loaded_edi : (loaded t).reg .edi = loadWord t.mem (t.reg .ecx + 16) := rfl

private theorem loaded_cr2 : (loaded t).cr2 = loadWord t.mem (t.reg .ecx + 28) := rfl

private theorem loaded_cr3 : (loaded t).cr3 = loadWord t.mem (t.reg .ecx + 32) := rfl

/-- An argument of the source, from its flags on. -/
private theorem loadWord_savedMem_argument (hl : Layout s sa ra sp) (hlo : 4 ≤ k) (hk : k + 4 ≤ 24) :
    loadWord (savedMem s sa ra) (s.reg .esp - 4 + BitVec.ofNat 32 k) = s.top (BitVec.ofNat 32 (k - 4)) := by
  rw [loadWord_savedMem_stack hl hlo hk, Processor.top]
  congr 1
  bv_omega

/-- Memory when the handler is entered. -/
private theorem called_loaded_mem (h : Called s sa ra action arg) (hl : Layout s sa ra (loadWord s.mem (ra + 4))) :
    (called (loaded (saved s sa ra action)) next).mem =
      storeFields (savedMem s sa ra) (loadWord s.mem (ra + 4) - 12) (handlerFields sa arg next) := by
  have hesp : loadWord (savedMem s sa ra) (ra + 4) = loadWord s.mem (ra + 4) :=
    loadWord_savedMem_target hl (by decide) (by decide)
  have harg : loadWord (savedMem s sa ra) (s.reg .esp - 4 + 20) = arg :=
    (loadWord_savedMem_argument hl (by decide) (by decide)).trans h.arg
  have hkept : loadWord (savedMem s sa ra) (s.reg .esp - 4 + 8) = sa :=
    (loadWord_savedMem_argument hl (by decide) (by decide)).trans h.saveArea
  have hsa : loadWord (storeWord (savedMem s sa ra) (loadWord s.mem (ra + 4) - 4) arg) (s.reg .esp - 4 + 8) = sa := by
    rw [loadWord_congr (fun x hx => storeWord_of_not_within fun hx' => ?_), hkept]
    refine hl.target_source x ?_ (inside_stack (by decide) x hx)
    unfold Within at hx' ⊢
    bv_omega
  rw [called_mem, loaded_mem, loaded_eax, loaded_esp, saved_mem, saved_ecx, saved_esp, hesp, harg, hsa]

private theorem called_loaded_esp (hl : Layout s sa ra (loadWord s.mem (ra + 4))) :
    (called (loaded (saved s sa ra action)) next).reg .esp = loadWord s.mem (ra + 4) - 12 := by
  have hesp : loadWord (savedMem s sa ra) (ra + 4) = loadWord s.mem (ra + 4) :=
    loadWord_savedMem_target hl (by decide) (by decide)
  rw [called_esp, loaded_esp, saved_mem, saved_ecx, hesp]
  bv_omega

private theorem called_loaded_top {v : BitVec 32} (h : Called s sa ra action arg)
    (hl : Layout s sa ra (loadWord s.mem (ra + 4))) (hv : (k, v) ∈ handlerFields sa arg next) :
    (called (loaded (saved s sa ra action)) next).top (BitVec.ofNat 32 k) = v := by
  rw [Processor.top, called_loaded_mem h hl, called_loaded_esp hl]
  exact loadWord_storeFields handlerFields_in (by decide) handlerFields_apart hv

/-- The words of the handler are in the window of the target. -/
private theorem loadWord_called_loaded {a : BitVec 32} (h : Called s sa ra action arg)
    (hl : Layout s sa ra (loadWord s.mem (ra + 4))) (ha : Separate (loadWord s.mem (ra + 4) - 12) 20 a 4) :
    loadWord (called (loaded (saved s sa ra action)) next).mem a = loadWord (savedMem s sa ra) a := by
  rw [called_loaded_mem h hl]
  exact loadWord_storeFields_apart handlerFields_in (by decide)
    (ha.symm.inside (Inside.refl a 4) fun x hx => Nat.lt_of_lt_of_le hx (by decide))

/-- What the routine does up to the handler. -/
theorem enter_spec (h : Called s sa ra action arg) (hl : Layout s sa ra (loadWord s.mem (ra + 4))) :
    Entered s (s.run (enter next)) sa ra action arg next := by
  rw [run_enter h]
  have hword (k : ℕ) (hk : k + 4 ≤ 36) (hne : k + 4 ≤ 20 ∨ 24 ≤ k) :
      loadWord (savedMem s sa ra) (ra + BitVec.ofNat 32 k) = loadWord s.mem (ra + BitVec.ofNat 32 k) :=
    loadWord_savedMem_target hl hk hne
  exact {
    eip := rfl
    esp := called_loaded_esp hl
    next := called_loaded_top (k := 0) h hl (by simp [handlerFields])
    saveArea := called_loaded_top (k := 4) h hl (by simp [handlerFields])
    arg := called_loaded_top (k := 8) h hl (by simp [handlerFields])
    ebx := by
      rw [called_reg (by decide), loaded_ebx, saved_mem, saved_ecx]
      exact hword 0 (by decide) (by decide)
    ebp := by
      rw [called_reg (by decide), loaded_ebp, saved_mem, saved_ecx]
      exact hword 8 (by decide) (by decide)
    esi := by
      rw [called_reg (by decide), loaded_esi, saved_mem, saved_ecx]
      exact hword 12 (by decide) (by decide)
    edi := by
      rw [called_reg (by decide), loaded_edi, saved_mem, saved_ecx]
      exact hword 16 (by decide) (by decide)
    cr2 := by
      change (loaded (saved s sa ra action)).cr2 = _
      rw [loaded_cr2, saved_mem, saved_ecx]
      exact hword 28 (by decide) (by decide)
    cr3 := by
      change (loaded (saved s sa ra action)).cr3 = _
      rw [loaded_cr3, saved_mem, saved_ecx]
      exact hword 32 (by decide) (by decide)
    cs := rfl
    ss := rfl
    disabled := rfl
    flags := by
      rw [loadWord_called_loaded h hl, loadWord_savedMem_flags hl]
      exact hl.target_source.inside (Inside.refl _ 20) fun x hx => Nat.lt_of_lt_of_le hx (by decide)
    stored := by
      intro f hf
      rw [loadWord_called_loaded h hl
        (hl.target_sa.inside (Inside.refl _ 20) (inside_of_offset (sourceFields_in f hf) (by decide)))]
      exact loadWord_savedMem_source hl hf
    frame := by
      intro x hflags hsource hclear hhandler
      rw [called_loaded_mem h hl, storeFields_outside handlerFields_in (by decide) hhandler, savedMem,
        storeFields_of_not_within (by simpa using hclear), storeFields_of_not_within hsource,
        storeWord_of_not_within hflags] }

/-- When the handler has returned, the routine returns on the stack of the target. -/
theorem leave_spec : (t.run leave).reg .esp = t.reg .esp + 16 ∧ (t.run leave).eflags = t.top 8 ∧
    (t.run leave).eip = t.top 12 ∧ (∀ r, r ≠ .esp → (t.run leave).reg r = t.reg r) ∧ (t.run leave).cr2 = t.cr2 ∧
    (t.run leave).cr3 = t.cr3 ∧ (t.run leave).cs = t.cs ∧ (t.run leave).ss = t.ss ∧ (t.run leave).mem = t.mem := by
  have hesp : (t.run leave).reg .esp = t.reg .esp + 8 + 4 + 4 := rfl
  have heip : (t.run leave).eip = loadWord t.mem (t.reg .esp + 8 + 4 + 0) := rfl
  have hflags : (t.run leave).eflags = loadWord t.mem (t.reg .esp + 8 + 0) := rfl
  refine ⟨?_, ?_, ?_, ?_, rfl, rfl, rfl, rfl, rfl⟩
  · rw [hesp]
    bv_omega
  · rw [hflags, Processor.top]
    congr 1
    bv_omega
  · rw [heip, Processor.top]
    congr 1
    bv_omega
  · intro r hr
    cases r <;> first | rfl | contradiction

end AudioKernel.Switch
