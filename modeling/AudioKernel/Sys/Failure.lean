import AudioKernel.Sync.AtomicCalls
import AudioKernel.Sys.SharedOffset

/-! The system calls with the semaphores that they use, and which calls that report a failure have changed something. -/
namespace AudioKernel
open Lib

/-- The tables of the processes, the semaphores that the handles in `sp` stand for, and which processes sleep in one. -/
structure KernelState where
  world : World
  sem : ℕ → Semaphore ℕ
  asleep : ℕ → Bool

/-- What a call leads to. It has not returned while its process sleeps. -/
structure Reply where
  ret : Option ℕ
  state : KernelState

namespace KernelState

variable (s : KernelState)

def fail : Reply := ⟨some World.minusOne, s⟩

/-- `sem`, with the new `Semaphore(initial)` under the handle that it takes. -/
def newSem (p initial : ℕ) : Reply :=
  let o := s.world.sem p
  ⟨some o.ret, { s with
    world := o.world
    sem := fun k => if s.world.fresh ≤ k ∧ k < o.world.fresh then ⟨initial, false, []⟩ else s.sem k }⟩

def up (p id : ℕ) : Reply :=
  if id > 19 ∨ id < 10 then s.fail
  else match s.world.spAt p (id - 10) with
    | none => s.fail
    | some k =>
      match (s.sem k).handOver with
      | (none, x) => ⟨some 0, { s with sem := Function.update s.sem k x }⟩
      | (some next, x) =>
        ⟨some 0, { s with sem := Function.update s.sem k x, asleep := Function.update s.asleep next false }⟩

def down (p id : ℕ) : Reply :=
  if id > 19 ∨ id < 10 then s.fail
  else match s.world.spAt p (id - 10) with
    | none => s.fail
    | some k =>
      match (s.sem k).down p with
      | (true, x) => ⟨some 0, { s with sem := Function.update s.sem k x }⟩
      | (false, x) =>
        ⟨none, { s with sem := Function.update s.sem k x, asleep := Function.update s.asleep p true }⟩

/-- The other calls leave the semaphores alone. -/
def onTables (o : Outcome) : Reply := ⟨some o.ret, { s with world := o.world }⟩

def sysHandler (cfg : Config) (p : ℕ) : Syscall → Except Stop Reply
  | .sem initial => .ok (s.newSem p initial)
  | .up id => .ok (s.up p id)
  | .down id => .ok (s.down p id)
  | .write fnum buffer nbyte beyond => .ok (s.onTables (s.world.write cfg p fnum buffer nbyte beyond))
  | .fork => .ok (s.onTables (s.world.fork p))
  | .close num => .ok (s.onTables (s.world.close p num))
  | .wait id status rc => (s.world.wait cfg id status rc).map s.onTables
  | .openFile filename file => .ok (s.onTables (s.world.openFile p filename file))
  | .len fnum => (s.world.len p fnum).map s.onTables
  | .read fnum buffer nbyte => (s.world.read cfg p fnum buffer nbyte).map s.onTables
  | .seek fnum off => .ok (s.onTables (s.world.seek p fnum off))

def boot (node : ℕ → BlockIO) : KernelState := ⟨World.boot node, fun _ => ⟨0, false, []⟩, fun _ => false⟩

end KernelState

/-- The processes that do not sleep make system calls in any order. -/
def kernelMachine (cfg : Config) : Machine KernelState (ℕ × Syscall) where
  init s := ∃ node, s = KernelState.boot node
  enabled s c := c.1 < s.world.processes ∧ s.asleep c.1 = false
  next s c :=
    match s.sysHandler cfg c.1 c.2 with
    | .ok r => r.state
    | .error _ => s

instance (cfg : Config) (s : KernelState) (c : ℕ × Syscall) : Decidable ((kernelMachine cfg).enabled s c) :=
  inferInstanceAs (Decidable (_ ∧ _))

namespace KernelState

variable {cfg : Config} {s : KernelState} {p : ℕ}

/-- `up` passes the checks that `down` makes too, or fails. -/
theorem up_cases (s : KernelState) (p id : ℕ) : (s.world.upDown p id = s.world.fail ∧ s.up p id = s.fail) ∨
    ∃ x asleep, s.world.upDown p id = s.world.succeed 0 ∧ s.up p id = ⟨some 0, ⟨s.world, x, asleep⟩⟩ := by
  unfold World.upDown up
  split_ifs with hrange hnone
  · exact .inl ⟨rfl, rfl⟩
  · rw [hnone]
    exact .inl ⟨rfl, rfl⟩
  · obtain ⟨k, hk⟩ := Option.ne_none_iff_exists'.mp hnone
    right
    rw [hk]
    dsimp only
    obtain ⟨next, x⟩ := (s.sem k).handOver
    cases next with
    | none => exact ⟨_, _, rfl, rfl⟩
    | some next => exact ⟨_, _, rfl, rfl⟩

theorem down_cases (s : KernelState) (p id : ℕ) : (s.world.upDown p id = s.world.fail ∧ s.down p id = s.fail) ∨
    ∃ x asleep, s.world.upDown p id = s.world.succeed 0 ∧ (s.down p id = ⟨some 0, ⟨s.world, x, asleep⟩⟩ ∨
      s.down p id = ⟨none, ⟨s.world, x, asleep⟩⟩) := by
  unfold World.upDown down
  split_ifs with hrange hnone
  · exact .inl ⟨rfl, rfl⟩
  · rw [hnone]
    exact .inl ⟨rfl, rfl⟩
  · obtain ⟨k, hk⟩ := Option.ne_none_iff_exists'.mp hnone
    right
    rw [hk]
    dsimp only
    obtain ⟨got, x⟩ := (s.sem k).down p
    cases got with
    | true => exact ⟨_, _, rfl, .inl rfl⟩
    | false => exact ⟨_, _, rfl, .inr rfl⟩

/-- A call does to the tables what it does without the semaphores. -/
theorem sysHandler_world {c : Syscall} {r : Reply} (h : s.sysHandler cfg p c = .ok r) :
    ∃ o, s.world.sysHandler cfg p c = .ok o ∧ o.world = r.state.world ∧ ∀ v, r.ret = some v → o.ret = v := by
  have hmap : ∀ e : Except Stop Outcome, e.map s.onTables = .ok r →
      ∃ o, e = .ok o ∧ o.world = r.state.world ∧ ∀ v, r.ret = some v → o.ret = v := by
    intro e he
    cases e with
    | error stop => cases he
    | ok o =>
      obtain rfl : s.onTables o = r := Except.ok.inj he
      exact ⟨o, rfl, rfl, fun v hv => Option.some.inj hv⟩
  cases c with
  | sem initial =>
    obtain rfl : s.newSem p initial = r := Except.ok.inj h
    exact ⟨s.world.sem p, rfl, rfl, fun v hv => Option.some.inj hv⟩
  | up id =>
    obtain rfl : s.up p id = r := Except.ok.inj h
    refine ⟨s.world.upDown p id, rfl, ?_⟩
    rcases s.up_cases p id with ⟨hworld, hup⟩ | ⟨x, asleep, hworld, hup⟩ <;> rw [hup, hworld] <;>
      exact ⟨rfl, fun v hv => Option.some.inj hv⟩
  | down id =>
    obtain rfl : s.down p id = r := Except.ok.inj h
    refine ⟨s.world.upDown p id, rfl, ?_⟩
    rcases s.down_cases p id with ⟨hworld, hdown⟩ | ⟨x, asleep, hworld, hdown | hdown⟩ <;> rw [hdown, hworld]
    · exact ⟨rfl, fun v hv => Option.some.inj hv⟩
    · exact ⟨rfl, fun v hv => Option.some.inj hv⟩
    · exact ⟨rfl, fun v hv => by cases hv⟩
  | write fnum buffer nbyte beyond => exact hmap (.ok _) h
  | fork => exact hmap (.ok _) h
  | close num => exact hmap (.ok _) h
  | openFile filename file => exact hmap (.ok _) h
  | seek fnum off => exact hmap (.ok _) h
  | wait id status rc => exact hmap _ h
  | len fnum => exact hmap _ h
  | read fnum buffer nbyte => exact hmap _ h

/-- The tables, the descriptors and the counts are as before. -/
def Unchanged (s t : KernelState) : Prop :=
  t.world.pcb = s.world.pcb ∧ t.world.desc = s.world.desc ∧ ∀ k, (t.sem k).count = (s.sem k).count

/-- A return value that the process reads as negative. -/
def Negative (v : ℕ) : Prop := 2 ^ 31 ≤ v

/-- If the call returns a negative value, it has changed nothing. -/
def FailsClean (cfg : Config) (s : KernelState) (p : ℕ) (c : Syscall) : Prop :=
  ∀ r v, s.sysHandler cfg p c = .ok r → r.ret = some v → Negative v → s.Unchanged r.state

/-- These calls leave the tables alone, whatever they return. -/
theorem quiet_tables {w : World} {c : Syscall} {o : Outcome} (h : w.sysHandler cfg p c = .ok o)
    (hc : (∃ fnum buffer nbyte beyond, c = .write fnum buffer nbyte beyond) ∨ (∃ id, c = .up id) ∨ (∃ id, c = .down id) ∨
      (∃ id status rc, c = .wait id status rc) ∨ ∃ fnum, c = .len fnum) : o.world = w := by
  rcases hc with ⟨fnum, buffer, nbyte, beyond, rfl⟩ | ⟨id, rfl⟩ | ⟨id, rfl⟩ | ⟨id, status, rc, rfl⟩ | ⟨fnum, rfl⟩
  · obtain rfl : w.write cfg p fnum buffer nbyte beyond = o := Except.ok.inj h
    unfold World.write
    split_ifs <;> rfl
  · obtain rfl : w.upDown p id = o := Except.ok.inj h
    unfold World.upDown
    split_ifs <;> rfl
  · obtain rfl : w.upDown p id = o := Except.ok.inj h
    unfold World.upDown
    split_ifs <;> rfl
  · change w.wait cfg id status rc = .ok o at h
    unfold World.wait at h
    split_ifs at h
    · obtain rfl : w.fail = o := Except.ok.inj h
      rfl
    · obtain rfl : w.fail = o := Except.ok.inj h
      rfl
    · cases rc with
      | none => cases h
      | some rc =>
        obtain rfl := Except.ok.inj h
        rfl
  · change w.len p fnum = .ok o at h
    unfold World.len at h
    split_ifs at h
    · obtain rfl : w.fail = o := Except.ok.inj h
      rfl
    · cases hk : w.fdAt p fnum with
      | none =>
        rw [hk] at h
        obtain rfl : w.fail = o := Except.ok.inj h
        rfl
      | some k =>
        rw [hk] at h
        dsimp only at h
        split_ifs at h
        · obtain rfl := Except.ok.inj h
          rfl
        · cases hf : (w.desc k).file with
          | none =>
            rw [hf] at h
            cases h
          | some f =>
            rw [hf] at h
            obtain rfl := Except.ok.inj h
            rfl

section offset
variable {w : World} {k : ℕ}

variable {fnum buffer nbyte off f : ℕ} {o : Outcome}

theorem read_of_not_reaches (h : ∀ k f, ¬ World.ReadReaches cfg w p fnum buffer k f)
    (ho : w.read cfg p fnum buffer nbyte = .ok o) : o.world = w := by
  have hfail : (.ok w.fail : Except Stop Outcome) = .ok o → o.world = w := by
    intro hfail
    obtain rfl : w.fail = o := Except.ok.inj hfail
    rfl
  unfold World.read at ho
  by_cases hfnum : fnum > 9
  · rw [if_pos hfnum] at ho
    exact hfail ho
  rw [if_neg hfnum] at ho
  cases hk : w.fdAt p fnum with
  | none =>
    rw [hk] at ho
    exact hfail ho
  | some k =>
    rw [hk] at ho
    dsimp only at ho
    split_ifs at ho with hres hbuf
    · exact hfail ho
    · exact hfail ho
    · cases hf : (w.desc k).file with
      | none =>
        rw [hf] at ho
        cases ho
      | some f => exact absurd ⟨by omega, hk, by simpa using hres, by simpa using hbuf, hf⟩ (h k f)

theorem seek_cases : (w.seek p fnum off = w.fail ∧ ∀ k, fnum ≤ 9 → w.fdAt p fnum = some k → (w.desc k).reserved = true) ∨
    ∃ k, fnum ≤ 9 ∧ w.fdAt p fnum = some k ∧ (w.desc k).reserved = false ∧
      w.seek p fnum off = (w.setDesc k ((w.desc k).setOffset off)).succeed off := by
  unfold World.seek
  split_ifs with hfnum
  · exact .inl ⟨rfl, fun k hle => absurd hfnum (Nat.not_lt_of_le hle)⟩
  · cases hk : w.fdAt p fnum with
    | none => exact .inl ⟨rfl, fun k _ hk' => by cases hk'⟩
    | some k =>
      dsimp only
      split_ifs with hres
      · refine .inl ⟨rfl, fun k' _ hk' => ?_⟩
        obtain rfl : k = k' := Option.some.inj hk'
        exact hres
      · exact .inr ⟨k, Nat.le_of_not_lt hfnum, rfl, by simpa using hres, rfl⟩

end offset

def oneFile : KernelState := boot fun _ => BlockIO.tenBytes

end KernelState
end AudioKernel
