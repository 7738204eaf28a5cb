import AudioKernel.Lib.Machine
import AudioKernel.Threads.Switch

/-! The contexts of threads over whole runs: the cores switch between threads with `gheith_contextSwitch`, and in between
run code that stores anywhere but to what is kept of a thread that does not run. -/
namespace AudioKernel.Switch
open Lib

/-- Where the TCBs have their parts. `entry` is the function in which new threads start. -/
structure Places (T : Type*) where
  tcb : T → BitVec 32
  saveArea : T → BitVec 32
  stack : T → BitVec 32
  bytes : T → ℕ
  pd : T → BitVec 32
  entry : BitVec 32
  bytes_lt : ∀ t, bytes t < 2 ^ 32

/-- How a thread goes on when it is switched to. -/
structure Context where
  reg : Gpr → BitVec 32
  eip : BitVec 32
  eflags : BitVec 32
  cr2 : BitVec 32
  mem : BitVec 32 → BitVec 8

/-- The call of `gheith_contextSwitch` is to return. -/
def returning (s : Processor) : Context where
  reg := Function.update s.reg .esp (s.reg .esp + 4)
  eip := s.top 0
  eflags := s.eflags
  cr2 := s.cr2
  mem := s.mem

@[simp]
theorem returning_esp (s : Processor) : (returning s).reg .esp = s.reg .esp + 4 := by
  simp [returning]

theorem returning_reg {s : Processor} {r : Gpr} (hr : r ≠ .esp) : (returning s).reg r = s.reg r :=
  Function.update_of_ne hr _ _

inductive Status
  | absent
  | running
  | suspended (κ : Context)

/-- What a core does: it runs a thread, or the handler of a switch, on the stack of the target. -/
inductive Phase (T : Type*)
  | thread (t : T)
  | handler (source target : T) (entered : Processor) (κ : Context)

def Phase.on {T : Type*} : Phase T → T
  | thread t => t
  | handler _ target _ _ => target

/-- The cores share the memory `mem`. -/
structure Cores (C T : Type*) where
  mem : BitVec 32 → BitVec 8
  core : C → Processor
  phase : C → Phase T
  status : T → Status

/-- `compute c p` is any code of core `c` that ends in the state `p`. `call` enters `gheith_contextSwitch` and comes to the
handler, which returns to `next`; `leave` goes on from there. -/
inductive Act (C T : Type*)
  | compute (c : C) (p : Processor)
  | call (c : C) (target : T) (next : BitVec 32)
  | leave (c : C)
  | create (t : T)
  | delete (t : T)

variable {C T : Type*}

namespace Places

variable (P : Places T)

/-- How far an address is above the start of the stack. -/
def offset (t : T) (x : BitVec 32) : ℕ := (x - P.stack t).toNat

def Own (t : T) (x : BitVec 32) : Prop := Within (P.saveArea t) 36 x ∨ Within (P.stack t) (P.bytes t) x

/-- What is on the stack from `sp` on. -/
def From (t : T) (sp x : BitVec 32) : Prop := Within (P.stack t) (P.bytes t) x ∧ P.offset t sp ≤ P.offset t x

/-- The words that the constructors of `TCB` and `TCBWithStack` store. -/
def constructed (t : T) (mem : BitVec 32 → BitVec 8) : BitVec 32 → BitVec 8 :=
  let mem := storeFields mem (P.saveArea t) [(24, P.tcb t), (32, P.pd t)]
  let mem := storeFields mem (P.stack t) [(8184, 0x200), (8188, P.entry)]
  storeFields mem (P.saveArea t) [(20, 0), (4, P.stack t + 8184)]

/-- A new thread starts at `entry`. Its other registers are what the memory holds. -/
def initial (t : T) (mem : BitVec 32 → BitVec 8) : Context where
  reg := fun
    | .ebx => loadWord mem (P.saveArea t + 0)
    | .ebp => loadWord mem (P.saveArea t + 8)
    | .esi => loadWord mem (P.saveArea t + 12)
    | .edi => loadWord mem (P.saveArea t + 16)
    | _ => P.stack t + 8192
  eip := P.entry
  eflags := IF
  cr2 := loadWord mem (P.saveArea t + 28)
  mem := P.constructed t mem

end Places

namespace Cores

variable (K : Cores C T)

def at' (c : C) : Processor := (K.core c).setMem K.mem

def put [DecidableEq C] (c : C) (p : Processor) (phase : Phase T) : Cores C T :=
  { K with mem := p.mem, core := Function.update K.core c p, phase := Function.update K.phase c phase }

def Live (t : T) : Prop := K.status t ≠ .absent

/-- The bytes that code which runs elsewhere keeps: the `cr3` of every TCB, the save area of a thread that does not run but
for its `no_preempt`, and its stack from the flags on, also while the handler of the switch to it runs. -/
inductive Protected (P : Places T) (K : Cores C T) (x : BitVec 32) : Prop
  | cr3 (t : T) : K.Live t → Within (P.saveArea t + 32) 4 x → Protected P K x
  | low (t : T) (κ : Context) : K.status t = .suspended κ → Within (P.saveArea t) 20 x → Protected P K x
  | cr2 (t : T) (κ : Context) : K.status t = .suspended κ → Within (P.saveArea t + 28) 4 x → Protected P K x
  | stack (t : T) (κ : Context) : K.status t = .suspended κ → P.From t (κ.reg .esp - 8) x → Protected P K x
  | handler (c : C) (source target : T) (u : Processor) (κ : Context) :
      K.phase c = .handler source target u κ → P.From target (κ.reg .esp - 8) x → Protected P K x

end Cores

/-- The cores run their idle threads, and there are no others. The constructor of `TCB` has stored their `cr3`. -/
structure Initial (P : Places T) (idle : C → T) (K : Cores C T) : Prop where
  injective : Function.Injective idle
  phase : ∀ c, K.phase c = .thread (idle c)
  running : ∀ c, K.status (idle c) = .running
  absent : ∀ t, (∀ c, t ≠ idle c) → K.status t = .absent
  own : ∀ c, Separate (P.saveArea (idle c)) 36 (P.stack (idle c)) (P.bytes (idle c))
  others : ∀ c c', c ≠ c' → ∀ x, P.Own (idle c) x → ¬ P.Own (idle c') x
  cr3 : ∀ c, loadWord K.mem (P.saveArea (idle c) + 32) = P.pd (idle c)

/-- Core `c` runs the thread `t` and calls `gheith_contextSwitch` with a target that is suspended. There is room for what is
pushed. -/
structure Calls (P : Places T) (K : Cores C T) (c : C) (t target : T) (κ : Context) : Prop where
  phase : K.phase c = .thread t
  status : K.status target = .suspended κ
  saveArea : (K.at' c).top 4 = P.saveArea t
  restoreArea : (K.at' c).top 8 = P.saveArea target
  room : 16 ≤ P.offset t ((K.at' c).reg .esp)
  fits : P.offset t ((K.at' c).reg .esp) + 20 ≤ P.bytes t

section
variable [DecidableEq C] [DecidableEq T]

/-- A new thread has memory that no other TCB has. -/
def enabled (P : Places T) (K : Cores C T) : Act C T → Prop
  | .compute _ p => ∀ x, K.Protected P x → p.mem x = K.mem x
  | .call c target _ => ∃ t κ, Calls P K c t target κ
  | .leave c => ∃ source target u κ, K.phase c = .handler source target u κ ∧ (u.Cdecl (K.at' c)) ∧ (K.at' c).cr2 = u.cr2
  | .create t => K.status t = .absent ∧ P.bytes t = 8192 ∧ Separate (P.saveArea t) 36 (P.stack t) (P.bytes t) ∧
      ∀ t', K.Live t' → ∀ x, P.Own t x → ¬ P.Own t' x
  | .delete t => ∃ κ, K.status t = .suspended κ

def next (P : Places T) (K : Cores C T) : Act C T → Cores C T
  | .compute c p => K.put c p (K.phase c)
  | .call c target next =>
    match K.status target with
    | .suspended κ =>
      let u := (K.at' c).run (enter next)
      { K.put c u (.handler (K.phase c).on target u κ) with
        status := Function.update (Function.update K.status (K.phase c).on (.suspended (returning (K.at' c)))) target .running }
    | _ => K
  | .leave c => K.put c ((K.at' c).run leave) (.thread (K.phase c).on)
  | .create t => { K with
      mem := P.constructed t K.mem
      status := Function.update K.status t (.suspended (P.initial t K.mem)) }
  | .delete t => { K with status := Function.update K.status t .absent }

def machine (P : Places T) (idle : C → T) : Machine (Cores C T) (Act C T) where
  init := Initial P idle
  enabled := enabled P
  next := next P

end

/-- What the stack of a thread that is switched to holds: the flags, the address to return to, and above them all that was
there. -/
structure Held (P : Places T) (mem : BitVec 32 → BitVec 8) (t : T) (κ : Context) : Prop where
  room : 20 ≤ P.offset t (κ.reg .esp)
  fits : P.offset t (κ.reg .esp) ≤ P.bytes t
  flags : loadWord mem (κ.reg .esp - 8) = κ.eflags
  eip : loadWord mem (κ.reg .esp - 4) = κ.eip
  stack : ∀ x, P.From t (κ.reg .esp) x → mem x = κ.mem x

/-- A thread that does not run has its registers in its save area. -/
structure Stored (P : Places T) (mem : BitVec 32 → BitVec 8) (t : T) (κ : Context) : Prop extends Held P mem t κ where
  ebx : loadWord mem (P.saveArea t + 0) = κ.reg .ebx
  esp : loadWord mem (P.saveArea t + 4) = κ.reg .esp - 8
  ebp : loadWord mem (P.saveArea t + 8) = κ.reg .ebp
  esi : loadWord mem (P.saveArea t + 12) = κ.reg .esi
  edi : loadWord mem (P.saveArea t + 16) = κ.reg .edi
  cr2 : loadWord mem (P.saveArea t + 28) = κ.cr2

/-- The handler has been entered below that, with the registers of the target. -/
structure Entering (P : Places T) (mem : BitVec 32 → BitVec 8) (t : T) (u : Processor) (κ : Context) : Prop
    extends Held P mem t κ where
  esp : u.reg .esp = κ.reg .esp - 20
  saved : ∀ r, Processor.calleeSaved r = true → u.reg r = κ.reg r
  cr2 : u.cr2 = κ.cr2
  cr3 : u.cr3 = P.pd t

/-- What holds in every state. -/
structure Sound (P : Places T) (K : Cores C T) : Prop where
  own : ∀ t, K.Live t → Separate (P.saveArea t) 36 (P.stack t) (P.bytes t)
  others : ∀ t t', K.Live t → K.Live t' → t ≠ t' → ∀ x, P.Own t x → ¬ P.Own t' x
  cr3 : ∀ t, K.Live t → loadWord K.mem (P.saveArea t + 32) = P.pd t
  stored : ∀ t κ, K.status t = .suspended κ → Stored P K.mem t κ
  running : ∀ c, K.status (K.phase c).on = .running
  one : ∀ c c', (K.phase c).on = (K.phase c').on → c = c'
  entering : ∀ c source target u κ, K.phase c = .handler source target u κ → Entering P K.mem target u κ

/-- The thread goes on in the state `v` as its context says. -/
structure Resumes (P : Places T) (t : T) (κ : Context) (v : Processor) : Prop where
  esp : v.reg .esp = κ.reg .esp
  eip : v.eip = κ.eip
  eflags : v.eflags = κ.eflags
  saved : ∀ r, Processor.calleeSaved r = true → v.reg r = κ.reg r
  cr2 : v.cr2 = κ.cr2
  cr3 : v.cr3 = P.pd t
  stack : ∀ x, P.From t (κ.reg .esp) x → v.mem x = κ.mem x

variable {P : Places T} {K : Cores C T} {t target : T} {κ : Context} {mem mem' : BitVec 32 → BitVec 8} {x a sp : BitVec 32}
  {k n : ℕ} {u : Processor} {c : C}

/-! What a context depends on. -/

/-- A word of the stack that is not below `sp`. -/
theorem from_word (h : P.offset t sp ≤ P.offset t a) (hfits : P.offset t a + 4 ≤ P.bytes t) (hx : Within a 4 x) :
    P.From t sp x := by
  have hlt := P.bytes_lt t
  unfold Places.From Places.offset Within at *
  constructor <;> bv_omega

theorem Held.offset (h : Held P mem t κ) {d : BitVec 32} (hd : d.toNat ≤ 20) :
    P.offset t (κ.reg .esp - d) = P.offset t (κ.reg .esp) - d.toNat := by
  have hroom := h.room
  unfold Places.offset at *
  bv_omega

theorem Held.congr (h : Held P mem t κ) (hmem : ∀ x, P.From t (κ.reg .esp - 8) x → mem' x = mem x) : Held P mem' t κ := by
  have h8 : P.offset t (κ.reg .esp - 8) = P.offset t (κ.reg .esp) - 8 := h.offset (by decide)
  have h4 : P.offset t (κ.reg .esp - 4) = P.offset t (κ.reg .esp) - 4 := h.offset (by decide)
  have hroom := h.room
  have hfits := h.fits
  constructor
  case room => exact hroom
  case fits => exact hfits
  case flags =>
    rw [← h.flags]
    exact loadWord_congr fun x hx => hmem x (from_word (Nat.le_refl _) (by omega) hx)
  case eip =>
    rw [← h.eip]
    exact loadWord_congr fun x hx => hmem x (from_word (by omega) (by omega) hx)
  case stack =>
    intro x hx
    rw [hmem x ⟨hx.1, Nat.le_trans (by omega) hx.2⟩]
    exact h.stack x hx

/-- A register of the save area. -/
private theorem loadWord_low (hmem : ∀ x, Within a 20 x → mem' x = mem x) (hk : k + 4 ≤ 20) :
    loadWord mem' (a + BitVec.ofNat 32 k) = loadWord mem (a + BitVec.ofNat 32 k) :=
  loadWord_congr fun x hx => hmem x (inside_of_offset hk (by decide) x hx)

theorem Stored.congr (h : Stored P mem t κ) (hlow : ∀ x, Within (P.saveArea t) 20 x → mem' x = mem x)
    (hcr2 : ∀ x, Within (P.saveArea t + 28) 4 x → mem' x = mem x)
    (hstack : ∀ x, P.From t (κ.reg .esp - 8) x → mem' x = mem x) : Stored P mem' t κ where
  toHeld := h.toHeld.congr hstack
  ebx := (loadWord_low (k := 0) hlow (by decide)).trans h.ebx
  esp := (loadWord_low (k := 4) hlow (by decide)).trans h.esp
  ebp := (loadWord_low (k := 8) hlow (by decide)).trans h.ebp
  esi := (loadWord_low (k := 12) hlow (by decide)).trans h.esi
  edi := (loadWord_low (k := 16) hlow (by decide)).trans h.edi
  cr2 := (loadWord_congr hcr2).trans h.cr2

theorem Entering.congr (h : Entering P mem t u κ) (hmem : ∀ x, P.From t (κ.reg .esp - 8) x → mem' x = mem x) :
    Entering P mem' t u κ :=
  { h with toHeld := h.toHeld.congr hmem }

/-- When the handler has returned as a C function does, the thread resumes. -/
theorem Entering.resumes {s : Processor} (h : Entering P s.mem t u κ) (hreturn : u.Cdecl s) (hcr2 : s.cr2 = u.cr2) :
    Resumes P t κ (s.run leave) := by
  obtain ⟨hesp, heflags, heip, hreg, hcr2', hcr3, -, -, hmem⟩ := leave_spec (t := s)
  have hsp : s.reg .esp = κ.reg .esp - 16 := by
    rw [hreturn.esp, h.esp]
    bv_omega
  constructor
  case esp =>
    rw [hesp, hsp]
    bv_omega
  case eip =>
    rw [heip, ← h.eip, Processor.top, hsp]
    congr 1
    bv_omega
  case eflags =>
    rw [heflags, ← h.flags, Processor.top, hsp]
    congr 1
    bv_omega
  case saved =>
    intro r hr
    rw [hreg r (by rintro rfl; contradiction), hreturn.saved r hr, h.saved r hr]
  case cr2 => rw [hcr2', hcr2, h.cr2]
  case cr3 => rw [hcr3, hreturn.cr3, h.cr3]
  case stack =>
    intro x hx
    rw [hmem]
    exact h.stack x hx

/-! What is kept lies in the memory of its TCB. -/

private theorem within_area {a : BitVec 32} (hk : k + n ≤ 36) (hx : Within (a + BitVec.ofNat 32 k) n x) : Within a 36 x :=
  inside_of_offset hk (by decide) x hx

theorem Sound.live (h : Sound P K) (c : C) : K.Live (K.phase c).on := by
  unfold Cores.Live
  rw [h.running]
  exact Status.noConfusion

theorem Sound.protected_own (h : Sound P K) (hx : K.Protected P x) : ∃ t, K.Live t ∧ P.Own t x := by
  have hlive {t : T} {κ : Context} (hstatus : K.status t = .suspended κ) : K.Live t := by
    unfold Cores.Live
    rw [hstatus]
    exact Status.noConfusion
  cases hx with
  | cr3 t ht hx => exact ⟨t, ht, Or.inl (within_area (k := 32) (by decide) hx)⟩
  | low t κ ht hx => exact ⟨t, hlive ht, Or.inl (Nat.lt_of_lt_of_le hx (by decide))⟩
  | cr2 t κ ht hx => exact ⟨t, hlive ht, Or.inl (within_area (k := 28) (by decide) hx)⟩
  | stack t κ ht hx => exact ⟨t, hlive ht, Or.inr hx.1⟩
  | handler c source target u κ hphase hx =>
    have hon := h.live c
    rw [hphase] at hon
    exact ⟨target, hon, Or.inr hx.1⟩

/-- Code that keeps what is protected keeps the contexts. -/
theorem Sound.keep (h : Sound P K) {core' : C → Processor} (hmem : ∀ x, K.Protected P x → mem' x = K.mem x) :
    Sound P { K with mem := mem', core := core' } where
  own := h.own
  others := h.others
  cr3 t ht := (loadWord_congr fun x hx => hmem x (.cr3 t ht hx)).trans (h.cr3 t ht)
  stored t κ ht := (h.stored t κ ht).congr (fun x hx => hmem x (.low t κ ht hx)) (fun x hx => hmem x (.cr2 t κ ht hx))
    fun x hx => hmem x (.stack t κ ht hx)
  running := h.running
  one := h.one
  entering c source target u κ hphase :=
    (h.entering c source target u κ hphase).congr fun x hx => hmem x (.handler c source target u κ hphase hx)

/-! New threads. -/

private theorem loadWord_constructed_esp : loadWord (P.constructed t mem) (P.saveArea t + 4) = P.stack t + 8184 :=
  loadWord_storeFields (k := 4) (n := 36) (by simp [FieldsIn]) (by decide) (by simp [FieldsApart]) (by simp)

section
variable (hbytes : P.bytes t = 8192) (hown : Separate (P.saveArea t) 36 (P.stack t) (P.bytes t))
include hbytes

theorem constructed_outside (hx : ¬ P.Own t x) : P.constructed t mem x = mem x := by
  unfold Places.Own at hx
  rw [not_or, hbytes] at hx
  rw [Places.constructed, storeFields_outside (by simp [FieldsIn]) (by decide) hx.1,
    storeFields_outside (by simp [FieldsIn]) (by decide) hx.2, storeFields_outside (by simp [FieldsIn]) (by decide) hx.1]

include hown

/-- The words of the save area that the constructors do not store. -/
private theorem loadWord_constructed_other (hk : k + 4 ≤ 36) (h : k + 4 ≤ 4 ∨ 8 ≤ k ∧ k + 4 ≤ 20 ∨ k = 28) :
    loadWord (P.constructed t mem) (P.saveArea t + BitVec.ofNat 32 k) = loadWord mem (P.saveArea t + BitVec.ofNat 32 k) := by
  have hapart : Separate (P.saveArea t + BitVec.ofNat 32 k) 4 (P.stack t) 8192 := by
    rw [hbytes] at hown
    exact hown.inside (inside_of_offset hk (by decide)) (Inside.refl _ _)
  rw [Places.constructed, loadWord_storeFields_other (n := 36) (by simp [FieldsIn]) (by decide) hk (by simp; omega),
    loadWord_storeFields_apart (by simp [FieldsIn]) (by decide) hapart,
    loadWord_storeFields_other (n := 36) (by simp [FieldsIn]) (by decide) hk (by simp; omega)]

theorem loadWord_constructed_cr3 : loadWord (P.constructed t mem) (P.saveArea t + 32) = P.pd t := by
  have hapart : Separate (P.saveArea t + BitVec.ofNat 32 32) 4 (P.stack t) 8192 := by
    rw [hbytes] at hown
    exact hown.inside (inside_of_offset (by decide) (by decide)) (Inside.refl _ _)
  change loadWord (P.constructed t mem) (P.saveArea t + BitVec.ofNat 32 32) = _
  rw [Places.constructed, loadWord_storeFields_other (n := 36) (by simp [FieldsIn]) (by decide) (by decide) (by simp),
    loadWord_storeFields_apart (by simp [FieldsIn]) (by decide) hapart,
    loadWord_storeFields (v := P.pd t) (n := 36) (by simp [FieldsIn]) (by decide) (by simp [FieldsApart]) (by simp)]

/-- The two words at the end of the stack. -/
private theorem loadWord_constructed_stack {v : BitVec 32} (h : (k, v) ∈ [(8184, (0x200 : BitVec 32)), (8188, P.entry)]) :
    loadWord (P.constructed t mem) (P.stack t + BitVec.ofNat 32 k) = v := by
  have hin : FieldsIn 8192 [(8184, (0x200 : BitVec 32)), (8188, P.entry)] := by simp [FieldsIn]
  have hapart : Separate (P.stack t + BitVec.ofNat 32 k) 4 (P.saveArea t) 36 := by
    rw [hbytes] at hown
    exact hown.symm.inside (inside_of_offset (hin _ h) (by decide)) (Inside.refl _ _)
  rw [Places.constructed, loadWord_storeFields_apart (by simp [FieldsIn]) (by decide) hapart,
    loadWord_storeFields hin (by decide) (by simp [FieldsApart]) h]

/-- A new thread is stored as one that starts at `entry`. -/
theorem stored_initial : Stored P (P.constructed t mem) t (P.initial t mem) where
  room := by
    change 20 ≤ P.offset t (P.stack t + 8192)
    unfold Places.offset
    bv_omega
  fits := by
    change P.offset t (P.stack t + 8192) ≤ _
    rw [hbytes]
    unfold Places.offset
    bv_omega
  flags := by
    change loadWord _ (P.stack t + 8192 - 8) = IF
    rw [show P.stack t + 8192 - 8 = P.stack t + BitVec.ofNat 32 8184 by bv_omega]
    exact loadWord_constructed_stack hbytes hown (by simp [IF])
  eip := by
    change loadWord _ (P.stack t + 8192 - 4) = P.entry
    rw [show P.stack t + 8192 - 4 = P.stack t + BitVec.ofNat 32 8188 by bv_omega]
    exact loadWord_constructed_stack hbytes hown (by simp)
  stack := fun _ _ => rfl
  ebx := loadWord_constructed_other (k := 0) hbytes hown (by decide) (by decide)
  esp := by
    rw [loadWord_constructed_esp]
    change _ = P.stack t + 8192 - 8
    bv_omega
  ebp := loadWord_constructed_other (k := 8) hbytes hown (by decide) (by decide)
  esi := loadWord_constructed_other (k := 12) hbytes hown (by decide) (by decide)
  edi := loadWord_constructed_other (k := 16) hbytes hown (by decide) (by decide)
  cr2 := loadWord_constructed_other (k := 28) hbytes hown (by decide) (by decide)

end

/-! The switch itself. -/

variable {next' : BitVec 32}

theorem Calls.on (hc : Calls P K c t target κ) : (K.phase c).on = t := by
  rw [hc.phase]
  rfl

theorem Calls.running (h : Sound P K) (hc : Calls P K c t target κ) : K.status t = .running := by
  rw [← hc.on]
  exact h.running c

theorem Calls.ne (h : Sound P K) (hc : Calls P K c t target κ) : t ≠ target := by
  rintro rfl
  have hstatus := hc.status
  rw [hc.running h] at hstatus
  cases hstatus

theorem Calls.live (h : Sound P K) (hc : Calls P K c t target κ) : K.Live t ∧ K.Live target := by
  unfold Cores.Live
  rw [hc.running h, hc.status]
  exact ⟨Status.noConfusion, Status.noConfusion⟩

/-- The flags and the arguments of the source are on its stack. -/
theorem Calls.inside_source (hc : Calls P K c t target κ) :
    Inside ((K.at' c).reg .esp - 4) 24 (P.stack t) (P.bytes t) := by
  have hroom := hc.room
  have hfits := hc.fits
  have hlt := P.bytes_lt t
  intro x hx
  unfold Places.offset at *
  unfold Within at *
  bv_omega

/-- The words for the handler are on the stack of the target. -/
theorem Held.inside (h : Held P mem t κ) : Inside (κ.reg .esp - 8 - 12) 20 (P.stack t) (P.bytes t) := by
  have hroom := h.room
  have hfits := h.fits
  have hlt := P.bytes_lt t
  intro x hx
  unfold Places.offset at *
  unfold Within at *
  bv_omega

theorem Calls.esp (h : Sound P K) (hc : Calls P K c t target κ) :
    loadWord (K.at' c).mem (P.saveArea target + 4) = κ.reg .esp - 8 := (h.stored target κ hc.status).esp

/-- Two TCBs have nothing in common. -/
theorem Sound.apart (h : Sound P K) {t t' : T} (ht : K.Live t) (ht' : K.Live t') (hne : t ≠ t')
    {a b : BitVec 32} {m n : ℕ} (ha : ∀ x, Within a m x → P.Own t x) (hb : ∀ x, Within b n x → P.Own t' x) :
    Separate a m b n :=
  fun x hx hx' => h.others t t' ht ht' hne x (ha x hx) (hb x hx')

private theorem Calls.layout (h : Sound P K) (hc : Calls P K c t target κ) :
    Layout (K.at' c) (P.saveArea t) (P.saveArea target) (loadWord (K.at' c).mem (P.saveArea target + 4)) := by
  obtain ⟨ht, htarget⟩ := hc.live h
  have hne := hc.ne h
  have hsource := hc.inside_source
  have hstack := (h.stored target κ hc.status).inside
  rw [hc.esp h]
  constructor
  case areas => exact h.apart ht htarget hne (fun x => Or.inl) (fun x => Or.inl)
  case source_sa => exact (h.own t ht).symm.inside hsource (Inside.refl _ _)
  case source_ra => exact h.apart ht htarget hne (fun x hx => Or.inr (hsource x hx)) (fun x => Or.inl)
  case target_sa => exact h.apart htarget ht hne.symm (fun x hx => Or.inr (hstack x hx)) (fun x => Or.inl)
  case target_ra => exact (h.own target htarget).symm.inside hstack (Inside.refl _ _)
  case target_source =>
    exact h.apart htarget ht hne.symm (fun x hx => Or.inr (hstack x hx)) (fun x hx => Or.inr (hsource x hx))

theorem Calls.entered (h : Sound P K) (hc : Calls P K c t target κ) (next' : BitVec 32) :
    Entered (K.at' c) ((K.at' c).run (enter next')) (P.saveArea t) (P.saveArea target) ((K.at' c).top 12) ((K.at' c).top 16)
      next' :=
  enter_spec ⟨hc.saveArea, hc.restoreArea, rfl, rfl⟩ (hc.layout h)

/-- A byte is kept when it is neither on the stack of the source below the return address, nor in what is stored of the
save areas, nor on the stack of the target below its flags. -/
theorem Calls.frame (h : Sound P K) (hc : Calls P K c t target κ)
    (hsource : ¬ Within ((K.at' c).reg .esp - 4) 4 x) (hfields : ∀ f ∈ sourceFields (K.at' c),
      ¬ Within (P.saveArea t + BitVec.ofNat 32 f.1) 4 x) (hclear : ¬ Within (P.saveArea target + 20) 4 x)
    (hstack : ¬ Within (κ.reg .esp - 8 - 12) 12 x) : ((K.at' c).run (enter next')).mem x = K.mem x := by
  refine (hc.entered h next').frame x hsource hfields hclear ?_
  rw [hc.esp h]
  exact hstack

end AudioKernel.Switch
