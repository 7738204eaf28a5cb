import AudioKernel.Lib.Traced
import AudioKernel.Sys.Isolation

/-! Which slots of the PCB's tables the system calls on descriptors index, which handles they go through, and which of
these calls check their descriptor. -/
namespace AudioKernel
open Lib

/-- The tables of a PCB. -/
inductive Table
  | fd
  | sp
  | cp

/-- What a call does with a slot: it loads or stores it, or goes through the handle that it has found in it. -/
inductive Touch
  | index (t : Table) (i : ℕ)
  | deref (t : Table) (i : ℕ) (handle : Option ℕ)

/-- One of the ten slots, and a handle that is bound. -/
def Touch.Valid : Touch → Prop
  | .index _ i => i < 10
  | .deref _ i handle => i < 10 ∧ handle.isSome = true

/-- The system calls that take a descriptor. `stop` is what becomes of `play` in `init_dev`, which waits for the device or
faults, and never returns. -/
inductive DescriptorCall
  | write (fnum buffer nbyte : ℕ) (beyond : Bool)
  | up (id : ℕ)
  | down (id : ℕ)
  | close (num : ℕ)
  | wait (id status : ℕ) (rc : Option ℕ)
  | len (fnum : ℕ)
  | read (fnum buffer nbyte : ℕ)
  | seek (fnum off : ℕ)
  | play (fd : ℕ) (beyond : Bool) (stop : Stop)

namespace DescriptorCall

/-- The slot that the descriptor stands for, when it is in the class of the call. -/
def slot? : DescriptorCall → Option (Table × ℕ)
  | .write i _ _ _ | .len i | .read i _ _ | .seek i _ | .play i _ _ => if i < 10 then some (.fd, i) else none
  | .up i | .down i => if 10 ≤ i ∧ i < 20 then some (.sp, i - 10) else none
  | .wait i _ _ => if 20 ≤ i ∧ i < 30 then some (.cp, i - 20) else none
  | .close i =>
    if i < 10 then some (.fd, i)
    else if i < 20 then some (.sp, i - 10)
    else if i < 30 then some (.cp, i - 20)
    else none

/-- All but `play` are among the calls that have been modelled without their touches. -/
def toSyscall? : DescriptorCall → Option Syscall
  | .write fnum buffer nbyte beyond => some (.write fnum buffer nbyte beyond)
  | .up id => some (.up id)
  | .down id => some (.down id)
  | .close num => some (.close num)
  | .wait id status rc => some (.wait id status rc)
  | .len fnum => some (.len fnum)
  | .read fnum buffer nbyte => some (.read fnum buffer nbyte)
  | .seek fnum off => some (.seek fnum off)
  | .play _ _ _ => none

end DescriptorCall

namespace World

/-- A system call that records what it does with the slots. -/
abbrev Call := Traced Touch Stop

variable (cfg : Config) (w : World) (p : ℕ)

def handleAt : Table → ℕ → Option ℕ
  | .fd, i => w.fdAt p i
  | .sp, i => w.spAt p i
  | .cp, i => w.cpAt p i

/-- The slot of a table, as in a comparison with `nullptr`. -/
def load (t : Table) (i : ℕ) : Call (Option ℕ) := do
  Traced.note (.index t i)
  return w.handleAt p t i

/-- `->` on a slot. -/
def arrow (t : Table) (i : ℕ) : Call (Option ℕ) := do
  let handle ← w.load p t i
  Traced.note (.deref t i handle)
  return handle

/-- A handle that is copied or overwritten counts its object, if it has one. -/
def count (t : Table) (i : ℕ) : Call (Option ℕ) := do
  match ← w.load p t i with
  | none => return none
  | some k =>
    Traced.note (.deref t i (some k))
    return some k

/-- `fnum < 3 && !fd[fnum]->reserved`. -/
def closedReserved (fnum : ℕ) : Call Bool :=
  if fnum < 3 then do
    let handle ← w.arrow p .fd fnum
    return handle.any fun k => !(w.desc k).reserved
  else return false

def writeCall (fnum buffer nbyte : ℕ) (beyond : Bool) : Call Outcome := do
  let _ ← w.load p .fd fnum
  if w.wordAt p fnum beyond = false then return w.fail
  else if ← w.closedReserved p fnum then return w.fail
  else if badBuffer cfg buffer then return w.fail
  else return ⟨nbyte, w, (List.range nbyte).map fun i => (buffer + i) % 2 ^ 32, []⟩

def upDownCall (id : ℕ) : Call Outcome := do
  if id > 19 ∨ id < 10 then return w.fail
  else match ← w.load p .sp (id - 10) with
    | none => return w.fail
    | some _ =>
      let _ ← w.arrow p .sp (id - 10)
      return w.succeed 0

def closeCall (num : ℕ) : Call Outcome := do
  if num > 29 then return w.fail
  else if num < 10 then
    match ← w.load p .fd num with
    | none => return w.fail
    | some k =>
      let _ ← w.arrow p .fd num
      if num < 3 then
        let _ ← w.arrow p .fd num
      let _ ← w.count p .fd num
      return (w.closeFd p num k).succeed 0
  else if num < 20 then
    match ← w.load p .sp (num - 10) with
    | none => return w.fail
    | some _ =>
      let _ ← w.count p .sp (num - 10)
      return (w.setSp p (num - 10) none).succeed 0
  else
    match ← w.load p .cp (num - 20) with
    | none => return w.fail
    | some _ =>
      let _ ← w.count p .cp (num - 20)
      return (w.setCp p (num - 20) none).succeed 0

/-- `get` is called on the slot whatever is in it. -/
def waitCall (id status : ℕ) (rc : Option ℕ) : Call Outcome := do
  if badBuffer cfg status then return w.fail
  else if id < 20 ∨ id > 29 then return w.fail
  else
    let _ ← w.arrow p .cp (id - 20)
    match rc with
    | none => Traced.lift (.error .diverge)
    | some rc => return ⟨0, w, [], Stores.consecutive status (byteOf rc) 4⟩

def lenCall (fnum : ℕ) : Call Outcome := do
  if fnum > 9 then return w.fail
  else match ← w.load p .fd fnum with
    | none => return w.fail
    | some k =>
      let _ ← w.arrow p .fd fnum
      if (w.desc k).reserved then return w.succeed 0
      else
        let _ ← w.arrow p .fd fnum
        match (w.desc k).file with
        | none => Traced.lift (.error .wild)
        | some f => return w.succeed (w.node f).sizeInBytes

/-- The handle is copied once, and the rest goes through the copy. -/
def readCall (fnum buffer nbyte : ℕ) : Call Outcome := do
  if fnum > 9 then return w.fail
  else match ← w.count p .fd fnum with
    | none => return w.fail
    | some k =>
      Traced.note (.deref .fd fnum (some k))
      let d := w.desc k
      if d.reserved then return w.fail
      else if badBuffer cfg buffer then return w.fail
      else match d.file with
        | none => Traced.lift (.error .wild)
        | some f =>
          let n := clamp cfg (w.node f).sizeInBytes d.offset buffer nbyte
          let r ← Traced.lift ((w.node f).readAll d.offset n buffer)
          let bytesRead := (r.count % 2 ^ 32).toNat
          return ⟨bytesRead, w.setDesc k (d.setOffset (d.offset + bytesRead)), [], r.stores⟩

def seekCall (fnum off : ℕ) : Call Outcome := do
  if fnum > 9 then return w.fail
  else match ← w.load p .fd fnum with
    | none => return w.fail
    | some k =>
      let _ ← w.arrow p .fd fnum
      if (w.desc k).reserved then return w.fail
      else
        let _ ← w.arrow p .fd fnum
        return (w.setDesc k ((w.desc k).setOffset off)).succeed off

/-- `play` copies the handle, whatever `fd` is, and starts the device. It does not get to the default case. -/
def playCall (fd : ℕ) (beyond : Bool) (stop : Stop) : Call Outcome := do
  let _ ← w.load p .fd fd
  if w.wordAt p fd beyond then
    Traced.note (.deref .fd fd (w.fdAt p fd))
  Traced.lift (.error stop)

def call : DescriptorCall → Call Outcome
  | .write fnum buffer nbyte beyond => w.writeCall cfg p fnum buffer nbyte beyond
  | .up id | .down id => w.upDownCall p id
  | .close num => w.closeCall p num
  | .wait id status rc => w.waitCall cfg p id status rc
  | .len fnum => w.lenCall p fnum
  | .read fnum buffer nbyte => w.readCall cfg p fnum buffer nbyte
  | .seek fnum off => w.seekCall p fnum off
  | .play fd beyond stop => w.playCall p fd beyond stop

/-- The descriptor is in the class of the call, and its slot is bound. -/
def Names (c : DescriptorCall) : Prop := ∃ t i k, c.slot? = some (t, i) ∧ w.handleAt p t i = some k

/-- The call indexes its table within the ten slots and goes through bound handles only, and with a descriptor that
names nothing it returns `-1` and leaves the PCB and its descriptors as they were. -/
def Validates (c : DescriptorCall) : Prop :=
  (w.call cfg p c).All Touch.Valid ∧
    (¬ w.Names p c → ∃ o, (w.call cfg p c).result = .ok o ∧ o.ret = minusOne ∧
      o.world.pcb p = w.pcb p ∧ o.world.desc = w.desc)

/-- `write` is called with a file, `play` with an open one, and `wait` with a child unless another check fails first. -/
def Checked : DescriptorCall → Prop
  | .write fnum _ _ _ => fnum < 10
  | .play fd _ _ => fd < 10 ∧ w.fdAt p fd ≠ none
  | .wait id status _ => badBuffer cfg status = true ∨ id < 20 ∨ id > 29 ∨ w.cpAt p (id - 20) ≠ none
  | _ => True

variable {cfg : Config} {w : World} {p : ℕ} {t : Table} {i fnum : ℕ}

section touches

@[simp] theorem result_load : (w.load p t i).result = .ok (w.handleAt p t i) := by
  simp [load, Except.bind]

@[simp] theorem result_arrow : (w.arrow p t i).result = .ok (w.handleAt p t i) := by
  simp [arrow, Except.bind]

@[simp] theorem result_count : (w.count p t i).result = .ok (w.handleAt p t i) := by
  unfold count
  cases h : w.handleAt p t i <;> simp [h, Except.bind]

@[simp] theorem result_closedReserved : (w.closedReserved p fnum).result =
    .ok (decide (fnum < 3) && (w.fdAt p fnum).any fun k => !(w.desc k).reserved) := by
  unfold closedReserved
  split_ifs with h <;> simp [h, Except.bind, handleAt]

@[simp] theorem load_valid : (w.load p t i).All Touch.Valid ↔ i < 10 := by
  simp [load, Touch.Valid]

@[simp] theorem arrow_valid : (w.arrow p t i).All Touch.Valid ↔ i < 10 ∧ (w.handleAt p t i).isSome = true := by
  simp [arrow, Touch.Valid]

@[simp] theorem count_valid : (w.count p t i).All Touch.Valid ↔ i < 10 := by
  unfold count
  cases h : w.handleAt p t i <;> simp +contextual [h, Touch.Valid]

end touches

/-! The calls do what they do when their touches are not recorded. -/

section results

open Traced

variable {buffer nbyte id num status off : ℕ} {beyond : Bool} {rc : Option ℕ}

theorem writeCall_result : (w.writeCall cfg p fnum buffer nbyte beyond).result =
    .ok (w.write cfg p fnum buffer nbyte beyond) := by
  unfold writeCall write
  by_cases hnull : w.wordAt p fnum beyond = false
  · simp [hnull, Except.bind]
  · simp only [hnull, Except.bind, result_bind, result_load, result_closedReserved, result_ite, result_pure,
      Bool.and_eq_true, decide_eq_true_eq]
    split_ifs <;> rfl

theorem upDownCall_result : (w.upDownCall p id).result = .ok (w.upDown p id) := by
  unfold upDownCall upDown
  split_ifs with hrange hnone
  · rfl
  · simp [Except.bind, handleAt, hnone]
  · obtain ⟨k, hk⟩ := Option.ne_none_iff_exists'.mp hnone
    simp [Except.bind, handleAt, hk]

theorem closeCall_result : (w.closeCall p num).result = .ok (w.close p num) := by
  unfold closeCall close
  by_cases hrange : num > 29
  · simp [hrange]
  simp only [hrange, if_false]
  by_cases hfd : num < 10
  · cases hk : w.fdAt p num with
    | none => simp [hfd, Except.bind, handleAt, hk]
    | some k => by_cases hnum : num < 3 <;> simp [hfd, hnum, Except.bind, handleAt, hk]
  by_cases hsp : num < 20
  · cases hk : w.spAt p (num - 10) <;> simp [hfd, hsp, Except.bind, handleAt, hk]
  · cases hk : w.cpAt p (num - 20) <;> simp [hfd, hsp, Except.bind, handleAt, hk]

theorem waitCall_result : (w.waitCall cfg p id status rc).result = w.wait cfg id status rc := by
  unfold waitCall wait
  split_ifs with hstatus hid
  · rfl
  · rfl
  · cases rc <;> simp [Except.bind]

theorem lenCall_result : (w.lenCall p fnum).result = w.len p fnum := by
  unfold lenCall len
  split_ifs with hrange
  · rfl
  · cases hk : w.fdAt p fnum with
    | none => simp [Except.bind, handleAt, hk]
    | some k => cases hf : (w.desc k).file <;> simp [Except.bind, handleAt, hk, hf]

theorem readCall_result : (w.readCall cfg p fnum buffer nbyte).result = w.read cfg p fnum buffer nbyte := by
  unfold readCall read
  by_cases hrange : fnum > 9
  · simp [hrange]
  · cases hk : w.fdAt p fnum with
    | none => simp [hrange, Except.bind, handleAt, hk]
    | some k =>
      simp only [hrange, Except.bind, handleAt, hk, result_bind, result_count, result_note, result_ite, result_pure,
        if_false]
      cases hf : (w.desc k).file with
      | none => rfl
      | some f =>
        simp only [result_bind, result_lift]
        rfl

theorem seekCall_result : (w.seekCall p fnum off).result = .ok (w.seek p fnum off) := by
  unfold seekCall seek
  split_ifs with hrange
  · rfl
  · cases hk : w.fdAt p fnum with
    | none => simp [Except.bind, handleAt, hk]
    | some k => 
      simp only [Except.bind, handleAt, hk, result_bind, result_load, result_arrow, result_ite, result_pure]
      split_ifs <;> rfl

end results

/-- The calls do what they do when their touches are not recorded. -/
theorem call_result {c : DescriptorCall} {c' : Syscall} (hc : c.toSyscall? = some c') :
    (w.call cfg p c).result = w.sysHandler cfg p c' := by
  cases c with
  | play => cases hc
  | write =>
    obtain rfl := Option.some.inj hc
    exact writeCall_result
  | up | down =>
    obtain rfl := Option.some.inj hc
    exact upDownCall_result
  | close =>
    obtain rfl := Option.some.inj hc
    exact closeCall_result
  | wait =>
    obtain rfl := Option.some.inj hc
    exact waitCall_result
  | len =>
    obtain rfl := Option.some.inj hc
    exact lenCall_result
  | read =>
    obtain rfl := Option.some.inj hc
    exact readCall_result
  | seek =>
    obtain rfl := Option.some.inj hc
    exact seekCall_result

theorem validates_of_fail {c : DescriptorCall} (hall : (w.call cfg p c).All Touch.Valid)
    (hfail : ¬ w.Names p c → (w.call cfg p c).result = .ok w.fail) : w.Validates cfg p c :=
  ⟨hall, fun hnone => ⟨w.fail, hfail hnone, rfl, rfl, rfl⟩⟩

theorem unbound_of_not_names {c : DescriptorCall} (hnone : ¬ w.Names p c) (hc : c.slot? = some (t, i)) :
    w.handleAt p t i = none := by
  by_contra hk
  obtain ⟨k, hk⟩ := Option.ne_none_iff_exists'.mp hk
  exact hnone ⟨t, i, k, hc, hk⟩

section validity

open Traced

variable {buffer nbyte id num status off fd : ℕ} {beyond : Bool} {rc : Option ℕ} {stop : Stop}

theorem writeCall_valid : (w.writeCall cfg p fnum buffer nbyte beyond).All Touch.Valid ↔ fnum < 10 := by
  unfold writeCall
  rw [all_bind, load_valid]
  refine ⟨And.left, fun hfnum => ⟨hfnum, fun handle _ => ?_⟩⟩
  rw [all_ite]
  refine ⟨fun _ => all_pure _, fun hnull => ?_⟩
  have hbound : (w.fdAt p fnum).isSome = true := by
    simpa [wordAt, hfnum, Option.isSome_iff_ne_none] using hnull
  have hclosed : (w.closedReserved p fnum).All Touch.Valid := by
    unfold closedReserved
    simp [handleAt, hfnum, hbound]
  simp [hclosed]

theorem upDownCall_valid : (w.upDownCall p id).All Touch.Valid := by
  unfold upDownCall
  rw [all_ite]
  refine ⟨fun _ => all_pure _, fun hrange => ?_⟩
  have hslot : id - 10 < 10 := by omega
  cases hk : w.spAt p (id - 10) <;> simp [hslot, handleAt, hk]

theorem closeCall_valid : (w.closeCall p num).All Touch.Valid := by
  unfold closeCall
  by_cases hrange : num > 29
  · simp [hrange]
  by_cases hfd : num < 10
  · cases hk : w.fdAt p num with
    | none => simp [hrange, hfd, handleAt, hk]
    | some k => by_cases hnum : num < 3 <;> simp [hrange, hfd, hnum, handleAt, hk]
  by_cases hsp : num < 20
  · have hslot : num - 10 < 10 := by omega
    cases hk : w.spAt p (num - 10) <;> simp [hrange, hfd, hsp, hslot, handleAt, hk]
  · have hslot : num - 20 < 10 := by omega
    cases hk : w.cpAt p (num - 20) <;> simp [hrange, hfd, hsp, hslot, handleAt, hk]

theorem waitCall_valid : (w.waitCall cfg p id status rc).All Touch.Valid ↔
    w.Checked cfg p (.wait id status rc) := by
  unfold waitCall Checked
  by_cases hstatus : badBuffer cfg status = true
  · simp [hstatus]
  by_cases hid : id < 20 ∨ id > 29
  · rcases hid with hid | hid <;> simp [hstatus, hid]
  · have hslot : id - 20 < 10 := by omega
    have hclass : ¬ id < 20 ∧ ¬ id > 29 := by omega
    cases hk : w.cpAt p (id - 20) <;> cases rc <;> simp [hstatus, hclass, hslot, handleAt, hk]

theorem lenCall_valid : (w.lenCall p fnum).All Touch.Valid := by
  unfold lenCall
  rw [all_ite]
  refine ⟨fun _ => all_pure _, fun hrange => ?_⟩
  have hslot : fnum < 10 := by omega
  cases hk : w.fdAt p fnum with
  | none => simp [hslot, handleAt, hk]
  | some k => cases hf : (w.desc k).file <;> simp [hslot, handleAt, hk, hf]

theorem readCall_valid : (w.readCall cfg p fnum buffer nbyte).All Touch.Valid := by
  unfold readCall
  rw [all_ite]
  refine ⟨fun _ => all_pure _, fun hrange => ?_⟩
  have hslot : fnum < 10 := by omega
  cases hk : w.fdAt p fnum with
  | none => simp [hslot, handleAt, hk]
  | some k => cases hf : (w.desc k).file <;> simp [hslot, handleAt, hk, hf, Touch.Valid]

theorem seekCall_valid : (w.seekCall p fnum off).All Touch.Valid := by
  unfold seekCall
  rw [all_ite]
  refine ⟨fun _ => all_pure _, fun hrange => ?_⟩
  have hslot : fnum < 10 := by omega
  cases hk : w.fdAt p fnum <;> simp [hslot, handleAt, hk]

theorem playCall_valid : (w.playCall p fd beyond stop).All Touch.Valid ↔ fd < 10 := by
  unfold playCall
  rw [all_bind, load_valid]
  refine ⟨And.left, fun hfd => ⟨hfd, fun handle _ => ?_⟩⟩
  cases hk : w.fdAt p fd <;> simp [wordAt, hfd, hk, Touch.Valid]

theorem playCall_result : (w.playCall p fd beyond stop).result = .error stop := by
  unfold playCall
  by_cases hword : w.wordAt p fd beyond = true <;> simp [hword, Except.bind]

end validity

/-- With a descriptor that names nothing, the calls of the first model fail. -/
theorem fail_of_not_names {c : DescriptorCall} (hnone : ¬ w.Names p c)
    (hc : (∀ i status rc, c ≠ .wait i status rc) ∧ ∀ fd beyond stop, c ≠ .play fd beyond stop)
    (hclass : ∀ i buffer nbyte beyond, c = .write i buffer nbyte beyond → i < 10) :
    (w.call cfg p c).result = .ok w.fail := by
  have hslot : ∀ t i, c.slot? = some (t, i) → w.handleAt p t i = none := fun t i => unbound_of_not_names hnone
  cases c with
  | wait i status rc => exact absurd rfl (hc.1 i status rc)
  | play fd beyond stop => exact absurd rfl (hc.2 fd beyond stop)
  | write fnum buffer nbyte beyond =>
    have hfnum : fnum < 10 := hclass fnum buffer nbyte beyond rfl
    have hk : w.fdAt p fnum = none := hslot .fd fnum (if_pos hfnum)
    refine writeCall_result.trans ?_
    simp [write, wordAt, hfnum, hk]
  | up id | down id =>
    refine upDownCall_result.trans ?_
    unfold upDown
    split_ifs with hrange hk
    · rfl
    · rfl
    · exact absurd (hslot .sp (id - 10) (if_pos (by omega))) hk
  | close num =>
    refine closeCall_result.trans ?_
    unfold close
    split_ifs with hrange hfd hsp hk hk
    · rfl
    · have hk : w.fdAt p num = none := hslot .fd num (if_pos hfd)
      rw [hk]
    · rfl
    · have hslot? : (DescriptorCall.close num).slot? = some (.sp, num - 10) := by
        simp [DescriptorCall.slot?, hfd, hsp]
      exact absurd (hslot .sp (num - 10) hslot?) hk
    · rfl
    · have hslot? : (DescriptorCall.close num).slot? = some (.cp, num - 20) := by
        simp [DescriptorCall.slot?, hfd, hsp]
        omega
      exact absurd (hslot .cp (num - 20) hslot?) hk
  | len fnum =>
    refine lenCall_result.trans ?_
    unfold len
    split_ifs with hrange
    · rfl
    · have hk : w.fdAt p fnum = none := hslot .fd fnum (if_pos (by omega))
      rw [hk]
  | read fnum buffer nbyte =>
    refine readCall_result.trans ?_
    unfold read
    by_cases hrange : fnum > 9
    · exact if_pos hrange
    · have hk : w.fdAt p fnum = none := hslot .fd fnum (if_pos (by omega))
      rw [if_neg hrange, hk]
  | seek fnum off =>
    refine seekCall_result.trans ?_
    unfold seek
    split_ifs with hrange
    · rfl
    · have hk : w.fdAt p fnum = none := hslot .fd fnum (if_pos (by omega))
      rw [hk]

theorem validates_of_valid {c : DescriptorCall} (hall : (w.call cfg p c).All Touch.Valid)
    (hc : (∀ i status rc, c ≠ .wait i status rc) ∧ ∀ fd beyond stop, c ≠ .play fd beyond stop)
    (hclass : ∀ i buffer nbyte beyond, c = .write i buffer nbyte beyond → i < 10) : w.Validates cfg p c :=
  validates_of_fail hall fun hnone => fail_of_not_names hnone hc hclass

/-- A call of `play` with a slot that is not bound does not return `-1`, for it does not return. -/
theorem play_validates_iff {fd : ℕ} {beyond : Bool} {stop : Stop} :
    w.Validates cfg p (.play fd beyond stop) ↔ w.Checked cfg p (.play fd beyond stop) := by
  have hvalid : (w.call cfg p (.play fd beyond stop)).All Touch.Valid ↔ fd < 10 := playCall_valid
  have hresult : (w.call cfg p (.play fd beyond stop)).result = .error stop := playCall_result
  unfold Validates Checked
  rw [hvalid, hresult]
  refine and_congr_right fun hfd => ?_
  constructor
  · intro hfails hnone
    obtain ⟨o, ho, -⟩ := hfails fun hnames => by
      obtain ⟨t, i, k, hc, hk⟩ := hnames
      obtain ⟨rfl, rfl⟩ := Prod.ext_iff.mp (Option.some.inj ((if_pos hfd).symm.trans hc))
      rw [show w.fdAt p fd = some k from hk] at hnone
      cases hnone
    cases ho
  · intro hbound hnames
    obtain ⟨k, hk⟩ := Option.ne_none_iff_exists'.mp hbound
    exact absurd ⟨.fd, fd, k, if_pos hfd, hk⟩ hnames

theorem wait_validates_iff {id status : ℕ} {rc : Option ℕ} :
    w.Validates cfg p (.wait id status rc) ↔ w.Checked cfg p (.wait id status rc) := by
  refine ⟨fun h => waitCall_valid.mp h.1, fun h => validates_of_fail (waitCall_valid.mpr h) fun hnone => ?_⟩
  refine waitCall_result.trans ?_
  unfold wait
  split_ifs with hstatus hid
  · rfl
  · rfl
  · have hslot? : (DescriptorCall.wait id status rc).slot? = some (.cp, id - 20) := if_pos (by omega)
    have hk : w.cpAt p (id - 20) = none := unbound_of_not_names hnone hslot?
    rcases h with h | h | h | h
    · exact absurd h hstatus
    · exact absurd (.inl h) hid
    · exact absurd (.inr h) hid
    · exact absurd hk h

/-- All calls but `write`, `wait` and `play` check their descriptor; these three do it just in part. -/
theorem validates_iff (cfg : Config) (w : World) (p : ℕ) (c : DescriptorCall) :
    w.Validates cfg p c ↔ w.Checked cfg p c := by
  cases c with
  | write fnum buffer nbyte beyond =>
    refine ⟨fun h => writeCall_valid.mp h.1, fun h => validates_of_valid (writeCall_valid.mpr h) (by simp) ?_⟩
    intro i b n beyond' hc
    cases hc
    exact h
  | wait id status rc => exact wait_validates_iff
  | play fd beyond stop => exact play_validates_iff
  | up id | down id => exact iff_of_true (validates_of_valid upDownCall_valid (by simp) (by simp)) trivial
  | close num => exact iff_of_true (validates_of_valid closeCall_valid (by simp) (by simp)) trivial
  | len fnum => exact iff_of_true (validates_of_valid lenCall_valid (by simp) (by simp)) trivial
  | read fnum buffer nbyte => exact iff_of_true (validates_of_valid readCall_valid (by simp) (by simp)) trivial
  | seek fnum off => exact iff_of_true (validates_of_valid seekCall_valid (by simp) (by simp)) trivial

/-- In a process that has done nothing yet, word 30 of the PCB is the future: `write` takes it for a file and prints,
`play` goes through it, and `wait` goes through a null slot. With a slot that is free `play` does not return. -/
theorem unchecked_descriptors : (sysMachine pcConfig).Reachable oneFile ∧
    (∃ o, (oneFile.call pcConfig 0 (.write 30 0x80000000 4 false)).result = .ok o ∧ o.ret = 4) ∧
    ¬ oneFile.Validates pcConfig 0 (.write 30 0x80000000 4 false) ∧
    ¬ oneFile.Validates pcConfig 0 (.play 30 false .diverge) ∧
    (∀ stop, ¬ oneFile.Validates pcConfig 0 (.play 9 false stop)) ∧
    .deref .cp 0 none ∈ (oneFile.call pcConfig 0 (.wait 20 0x80000000 none)).events ∧
    ¬ oneFile.Validates pcConfig 0 (.wait 20 0x80000000 none) := by
  have hwait : .deref .cp 0 none ∈ (oneFile.call pcConfig 0 (.wait 20 0x80000000 none)).events :=
    .tail _ (.head _)
  refine ⟨.init ⟨_, rfl⟩, ⟨_, rfl, rfl⟩, fun h => ?_, fun h => ?_, fun stop h => ?_, hwait, fun h => ?_⟩
  · exact absurd (writeCall_valid.mp h.1) (by decide)
  · exact absurd (playCall_valid.mp h.1) (by decide)
  · exact (play_validates_iff.mp h).2 rfl
  · exact absurd (h.1 _ hwait).2 (by decide)

end World
end AudioKernel
