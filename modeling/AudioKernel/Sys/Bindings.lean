import AudioKernel.Sys.Failure
import Mathlib.Data.List.Find
import Mathlib.Order.Bounds.Basic

/-! The numbers of a process from its new PCB on: which number a call binds, to what, and how long it stays bound. -/
namespace AudioKernel
open Lib

namespace World

/-- What a number is bound to: files have 0 to 9, semaphores 10 to 19, and children 20 to 29. -/
def bound (w : World) (p n : ℕ) : Option ℕ :=
  if n < 10 then w.fdAt p n
  else if n < 20 then w.spAt p (n - 10)
  else w.cpAt p (n - 20)

/-- Handles that a process holds are in use. -/
def Known (w : World) : Prop := ∀ p n k, w.bound p n = some k → k < w.fresh

def spawn (w : World) : World :=
  let (pcb, w') := w.newPCB
  { w'.setPcb w.processes pcb with processes := w.processes + 1 }

end World

/-- The system calls of all processes after process `p` has been given a new PCB. -/
def bindingMachine (cfg : Config) (p : ℕ) : Machine KernelState (ℕ × Syscall) :=
  { kernelMachine cfg with
    init := fun s => ∃ s₀ : KernelState, s₀.world.Known ∧ s₀.world.processes = p ∧ s = { s₀ with world := s₀.world.spawn } }

namespace KernelState

variable (s : KernelState) (p lo : ℕ) (r : Reply)

/-- All ten numbers of the class that begins at `lo` are bound. -/
def Full : Prop := ∀ n, lo ≤ n → n < lo + 10 → s.world.bound p n ≠ none

/-- The smallest unbound number of a class is returned and bound, it alone, to an object that nothing was bound to. -/
def Binds (k : ℕ) : Prop :=
  (∃ n, r.ret = some n ∧ IsLeast {m | lo ≤ m ∧ m < lo + 10 ∧ s.world.bound p m = none} n ∧
    r.state.world.bound p = Function.update (s.world.bound p) n (some k)) ∧ ∀ q m, s.world.bound q m ≠ some k

/-- The call fails just when it is not `ok` or the class is full; else it binds an object with the property `made`. -/
structure Creates (ok : Prop) (made : ℕ → Prop) : Prop where
  fails : r.ret = some World.minusOne ↔ ¬ ok ∨ s.Full p lo
  kept : r.ret = some World.minusOne → r.state.world.bound p = s.world.bound p
  binds : r.ret ≠ some World.minusOne → ∃ k, s.Binds p lo r k ∧ made k

/-- What the calls of process `p` do to its numbers. -/
def Lawful : Syscall → Prop
  | .openFile filename file => s.Creates p 0 r (0x80000000 ≤ filename ∧ file ≠ none) fun k =>
    ∃ f, file = some f ∧ r.state.world.desc k = .new (some f) false
  | .sem initial => s.Creates p 10 r True fun k => r.state.sem k = ⟨initial, false, []⟩
  | .fork => s.Creates p 20 r True fun k => k = (r.state.world.pcb s.world.processes).future
  | .close n => (r.ret = some World.minusOne ↔ s.world.bound p n = none) ∧
    r.state.world.bound p = Function.update (s.world.bound p) n none
  | _ => r.state.world.bound p = s.world.bound p

end KernelState

namespace World

variable {cfg : Config} {w w' : World} {p q n i k : ℕ} {h : Option ℕ}

theorem bound_congr (hpcb : w'.pcb p = w.pcb p) : w'.bound p = w.bound p := by
  funext n
  unfold bound fdAt spAt cpAt
  rw [hpcb]

/-- A store of a handle to number `n` of `p`. -/
structure Stored (w w' : World) (p n : ℕ) (h : Option ℕ) : Prop extends Tables w w' p where
  bound : w'.bound p = Function.update (w.bound p) n h

/-- The numbers of a process are the slots of its three tables. -/
theorem Tables.stored (ht : Tables w w' p) (hfd : ∀ m, m < 10 → w'.fdAt p m = if m = n then h else w.fdAt p m)
    (hsp : ∀ m, m < 10 → w'.spAt p m = if 10 + m = n then h else w.spAt p m)
    (hcp : ∀ m, w'.cpAt p m = if 20 + m = n then h else w.cpAt p m) : Stored w w' p n h := by
  refine ⟨ht, ?_⟩
  funext m
  rw [Function.update_apply]
  unfold bound
  by_cases hlt : m < 10
  · rw [if_pos hlt, if_pos hlt]
    exact hfd m hlt
  by_cases hmid : m < 20
  · rw [if_neg hlt, if_pos hmid, if_neg hlt, if_pos hmid, hsp _ (by omega), Nat.add_sub_cancel' (by omega)]
  · rw [if_neg hlt, if_neg hmid, if_neg hlt, if_neg hmid, hcp, Nat.add_sub_cancel' (by omega)]

theorem stored_setFd (hi : i < 10) : Stored w (w.setFd p i h) p i h := by
  refine (tables_setFd w p i h).stored (fun m hm => ?_) (fun m hm => ?_) fun m => ?_
  · simp [setFd, hi, setPcb, fdAt, hm, Function.update_apply]
  · rw [if_neg (by omega)]
    simp [setFd, hi, setPcb, spAt]
  · rw [if_neg (by omega)]
    simp [setFd, hi, setPcb, cpAt]

theorem stored_setSp (hi : i < 10) : Stored w (w.setSp p i h) p (10 + i) h := by
  refine (tables_setSp w p i h).stored (fun m hm => ?_) (fun m hm => ?_) fun m => ?_
  · rw [if_neg (by omega)]
    simp [setSp, hi, setPcb, fdAt]
  · simp [setSp, hi, setPcb, spAt, hm, Function.update_apply]
  · rw [if_neg (by omega)]
    simp [setSp, hi, setPcb, cpAt]

theorem stored_setCp (hi : i < 10) : Stored w (w.setCp p i h) p (20 + i) h := by
  refine (tables_setCp w p i h).stored (fun m hm => ?_) (fun m hm => ?_) fun m => ?_
  · rw [if_neg (by omega)]
    simp [setCp, hi, setPcb, fdAt]
  · rw [if_neg (by omega)]
    simp [setCp, hi, setPcb, spAt]
  · by_cases hm : m < 10
    · simp [setCp, hi, setPcb, cpAt, hm, Function.update_apply]
    · rw [if_neg (by omega)]
      simp [cpAt, hm]

def scan (w : World) (p lo : ℕ) : Option ℕ := (List.range 10).find? fun i => (w.bound p (lo + i)).isNone

theorem bound_fd (hi : i < 10) : w.bound p i = w.fdAt p i := if_pos hi

theorem bound_sp (hi : i < 10) : w.bound p (10 + i) = w.spAt p i := by
  unfold bound
  rw [if_neg (by omega), if_pos (by omega), Nat.add_sub_cancel_left]

theorem bound_cp : w.bound p (20 + i) = w.cpAt p i := by
  unfold bound
  rw [if_neg (by omega), if_neg (by omega), Nat.add_sub_cancel_left]

theorem scan_fd : ((List.range 10).find? fun i => (w.fdAt p i).isNone) = w.scan p 0 := by
  apply List.find?_congr
  intro i hi
  rw [Nat.zero_add, bound_fd (List.mem_range.mp hi)]

theorem scan_sp : ((List.range 10).find? fun i => (w.spAt p i).isNone) = w.scan p 10 := by
  apply List.find?_congr
  intro i hi
  rw [bound_sp (List.mem_range.mp hi)]

/-- The scan of `fork` looks at one slot too many, and finds the future there. -/
theorem scan_cp : w.freeChild p = w.scan p 20 := by
  have hfuture : List.find? (fun i => decide (w.wordAt p (20 + i) true = false)) [10] = none := by
    simp [wordAt]
  unfold freeChild scan
  rw [List.range_succ, List.find?_append, hfuture, Option.or_none]
  apply List.find?_congr
  intro i hi
  have hlt : i < 10 := List.mem_range.mp hi
  have hword : w.wordAt p (20 + i) true = (w.cpAt p i).isSome := by
    unfold wordAt
    rw [if_neg (by omega), if_neg (by omega), if_pos (by omega), Nat.add_sub_cancel_left]
  rw [bound_cp, hword]
  cases w.cpAt p i <;> rfl

theorem scan_some {lo : ℕ} (hscan : w.scan p lo = some i) :
    i < 10 ∧ IsLeast {m | lo ≤ m ∧ m < lo + 10 ∧ w.bound p m = none} (lo + i) := by
  obtain ⟨hnone, hmem, hbefore⟩ := List.find?_range_eq_some.mp hscan
  have hlt : i < 10 := List.mem_range.mp hmem
  refine ⟨hlt, ⟨by omega, by omega, by simpa using hnone⟩, ?_⟩
  rintro m ⟨hlo, hhi, hm⟩
  by_contra hm'
  have := hbefore (m - lo) (by omega)
  rw [show lo + (m - lo) = m by omega, hm] at this
  cases this

theorem scan_none {lo : ℕ} : w.scan p lo = none ↔ ∀ n, lo ≤ n → n < lo + 10 → w.bound p n ≠ none := by
  unfold scan
  rw [List.find?_range_eq_none]
  constructor
  · intro hfull n hlo hhi hn
    have := hfull (n - lo) (by omega)
    rw [show lo + (n - lo) = n by omega, hn] at this
    cases this
  · intro hfull i hi
    simpa [Option.isSome_iff_ne_none] using hfull (lo + i) (by omega) (by omega)

/-- What every call of process `p` keeps to. -/
structure Step (w w' : World) (p : ℕ) : Prop where
  fresh_le : w.fresh ≤ w'.fresh
  processes_le : w.processes ≤ w'.processes
  other : ∀ q, q ≠ p → q < w.processes → w'.pcb q = w.pcb q
  known : ∀ q n k, w'.bound q n = some k → k < w'.fresh ∨ ∃ q', w.bound q' n = some k
  file : ∀ k, k < w.fresh → (w'.desc k).file = (w.desc k).file

/-- A call that changes descriptors only, and not their files. -/
theorem Step.of_desc (desc : ℕ → FileDescriptor) (hfile : ∀ k, (desc k).file = (w.desc k).file) :
    Step w { w with desc := desc } p where
  fresh_le := le_rfl
  processes_le := le_rfl
  other _ _ _ := rfl
  known q _ _ hk := .inr ⟨q, hk⟩
  file k _ := hfile k

theorem Step.refl (w : World) (p : ℕ) : Step w w p := .of_desc w.desc fun _ => rfl

/-- A call that gives one number of `p` a new object, or none. -/
theorem Step.of_bound (hpcb : ∀ q, q ≠ p → w'.pcb q = w.pcb q)
    (hbound : w'.bound p = Function.update (w.bound p) n h) (hnew : ∀ k, h = some k → k < w'.fresh)
    (hfresh : w.fresh ≤ w'.fresh) (hprocesses : w'.processes = w.processes)
    (hfile : ∀ k, k < w.fresh → (w'.desc k).file = (w.desc k).file) : Step w w' p where
  fresh_le := hfresh
  processes_le := hprocesses.ge
  other q hq _ := hpcb q hq
  known q m k hk := by
    by_cases hq : q = p
    · subst hq
      rw [hbound, Function.update_apply] at hk
      split_ifs at hk
      · exact .inl (hnew k hk)
      · exact .inr ⟨q, hk⟩
    · rw [bound_congr (hpcb q hq)] at hk
      exact .inr ⟨q, hk⟩
  file := hfile

theorem Stored.unbinds (hs : Stored w w' p n none) : Step w w' p :=
  .of_bound hs.other hs.bound nofun hs.fresh.ge hs.processes fun k _ => congrArg FileDescriptor.file (congrFun hs.desc k)

theorem setDesc_file (d : FileDescriptor) (hd : d.file = (w.desc k).file) (j : ℕ) :
    ((w.setDesc k d).desc j).file = (w.desc j).file := by
  show (Function.update w.desc k d j).file = _
  by_cases hj : j = k
  · subst hj
    rw [Function.update_self, hd]
  · rw [Function.update_of_ne hj]

theorem setDesc_step (d : FileDescriptor) (hd : d.file = (w.desc k).file) : Step w (w.setDesc k d) p :=
  .of_desc _ (setDesc_file d hd)

/-- What `open` does when it finds a slot. -/
theorem openFile_some {filename f : ℕ} (hname : 0x80000000 ≤ filename) (hscan : w.scan p 0 = some i) :
    let o := w.openFile p filename (some f)
    o.ret = i ∧ o.world.bound p = Function.update (w.bound p) i (some w.fresh) ∧
      o.world.desc w.fresh = .new (some f) false ∧ Step w o.world p := by
  have hi : i < 10 := (scan_some hscan).1
  have ho : w.openFile p filename (some f) =
      ({ (w.setDesc w.fresh (.new (some f) false)).setFd p i (some w.fresh) with fresh := w.fresh + 1 } : World).succeed i := by
    unfold openFile
    rw [if_neg (by omega), scan_fd, hscan]
  have hstored := stored_setFd (w := w.setDesc w.fresh (.new (some f) false)) (p := p) (h := some w.fresh) hi
  have hdesc : ((w.setDesc w.fresh (.new (some f) false)).setFd p i (some w.fresh)).desc =
      Function.update w.desc w.fresh (.new (some f) false) := hstored.desc
  rw [ho]
  refine ⟨rfl, hstored.bound, ?_, ?_⟩
  · show ((w.setDesc w.fresh (.new (some f) false)).setFd p i (some w.fresh)).desc w.fresh = _
    rw [hdesc, Function.update_self]
  · refine .of_bound hstored.other hstored.bound ?_ (Nat.le_succ _) hstored.processes ?_
    · intro k hk
      obtain rfl : w.fresh = k := Option.some.inj hk
      exact Nat.lt_succ_self _
    · intro k hk
      show (((w.setDesc w.fresh (.new (some f) false)).setFd p i (some w.fresh)).desc k).file = _
      rw [hdesc, Function.update_of_ne (Nat.ne_of_lt hk)]

theorem openFile_fail {filename : ℕ} {file : Option ℕ} (hfail : filename < 0x80000000 ∨ file = none ∨ w.scan p 0 = none) :
    w.openFile p filename file = w.fail := by
  unfold openFile
  rw [scan_fd]
  split_ifs with hname
  · rfl
  · cases file with
    | none => rfl
    | some f =>
      rcases hfail with h | h | h
      · exact absurd h hname
      · cases h
      · rw [h]

theorem sem_some (hscan : w.scan p 10 = some i) :
    (w.sem p).ret = 10 + i ∧ (w.sem p).world.bound p = Function.update (w.bound p) (10 + i) (some w.fresh) ∧
      (w.sem p).world.fresh = w.fresh + 1 ∧ Step w (w.sem p).world p := by
  have hi : i < 10 := (scan_some hscan).1
  have ho : w.sem p = ({ w.setSp p i (some w.fresh) with fresh := w.fresh + 1 } : World).succeed (i + 10) := by
    unfold sem
    rw [scan_sp, hscan]
  have hstored := stored_setSp (w := w) (p := p) (h := some w.fresh) hi
  rw [ho]
  refine ⟨Nat.add_comm i 10, hstored.bound, rfl, ?_⟩
  refine .of_bound hstored.other hstored.bound ?_ (Nat.le_succ _) hstored.processes ?_
  · intro k hk
    obtain rfl : w.fresh = k := Option.some.inj hk
    exact Nat.lt_succ_self _
  · exact fun k _ => congrArg FileDescriptor.file (congrFun hstored.desc k)

theorem sem_fail (hscan : w.scan p 10 = none) : w.sem p = w.fail := by
  unfold sem
  rw [scan_sp, hscan]

/-- A new process that shares the files and the semaphores of `p`. -/
def withChild (w : World) (p : ℕ) : World :=
  let (child, w₁) := w.newPCB
  { w₁.setPcb w.processes { child with fd := (w.pcb p).fd, sp := (w.pcb p).sp } with processes := w.processes + 1 }

theorem withChild_bound (hk : (w.withChild p).bound w.processes n = some k) : w.bound p n = some k := by
  unfold bound at hk ⊢
  split_ifs at hk ⊢ with hfd hsp
  · simpa [withChild, newPCB, setPcb, fdAt] using hk
  · simpa [withChild, newPCB, setPcb, spAt] using hk
  · simp [withChild, newPCB, setPcb, cpAt] at hk

theorem fork_some (hp : p < w.processes) (hscan : w.scan p 20 = some i) :
    let o := w.fork p
    o.ret = 20 + i ∧ o.world.bound p = Function.update (w.bound p) (20 + i) (some (w.fresh + 3)) ∧
      (o.world.pcb w.processes).future = w.fresh + 3 ∧ Step w o.world p := by
  have hi : i < 10 := (scan_some hscan).1
  have hne : p ≠ w.processes := Nat.ne_of_lt hp
  have ho : w.fork p = ((w.withChild p).setCp p i (some (w.fresh + 3))).succeed (i + 20) := by
    unfold fork
    rw [scan_cp, hscan]
    rfl
  have hparent : ∀ q, q ≠ w.processes → (w.withChild p).pcb q = w.pcb q := fun q hq => Function.update_of_ne hq ..
  have hstored := stored_setCp (w := w.withChild p) (p := p) (h := some (w.fresh + 3)) hi
  have hbound : ((w.withChild p).setCp p i (some (w.fresh + 3))).bound p =
      Function.update (w.bound p) (20 + i) (some (w.fresh + 3)) := by
    rw [hstored.bound, bound_congr (hparent p hne)]
  have hfresh : ((w.withChild p).setCp p i (some (w.fresh + 3))).fresh = w.fresh + 4 := hstored.fresh
  have hprocesses : ((w.withChild p).setCp p i (some (w.fresh + 3))).processes = w.processes + 1 := hstored.processes
  rw [ho]
  refine ⟨Nat.add_comm i 20, hbound, ?_, ?_⟩
  · show (((w.withChild p).setCp p i (some (w.fresh + 3))).pcb w.processes).future = w.fresh + 3
    rw [hstored.other _ hne.symm]
    simp [withChild, newPCB, setPcb]
  · constructor
    · exact (Nat.le_add_right _ 4).trans hfresh.ge
    · exact (Nat.le_succ _).trans hprocesses.ge
    · intro q hq hlt
      exact (hstored.other q hq).trans (hparent q (Nat.ne_of_lt hlt))
    · intro q n k hk
      change ((w.withChild p).setCp p i (some (w.fresh + 3))).bound q n = some k at hk
      by_cases hq : q = p
      · subst hq
        rw [hbound, Function.update_apply] at hk
        split_ifs at hk
        · left
          show k < ((w.withChild q).setCp q i (some (w.fresh + 3))).fresh
          have : w.fresh + 3 = k := Option.some.inj hk
          omega
        · exact .inr ⟨q, hk⟩
      · rw [bound_congr (hstored.other q hq)] at hk
        by_cases hchild : q = w.processes
        · subst hchild
          exact .inr ⟨p, withChild_bound hk⟩
        · rw [bound_congr (hparent q hchild)] at hk
          exact .inr ⟨q, hk⟩
    · intro k hk
      show (((w.withChild p).setCp p i (some (w.fresh + 3))).desc k).file = _
      rw [hstored.desc]
      show (if w.fresh ≤ k ∧ k < w.fresh + 3 then FileDescriptor.new none true else w.desc k).file = _
      rw [if_neg (by omega)]

theorem fork_fail (hscan : w.scan p 20 = none) : w.fork p = w.fail := by
  unfold fork
  rw [scan_cp, hscan]

theorem closeFd_step (hi : i < 10) (k : ℕ) : Step w (w.closeFd p i k) p ∧
    (w.closeFd p i k).bound p = Function.update (w.bound p) i none := by
  unfold closeFd
  have hfile : (w.closed i k).file = (w.desc k).file := by
    unfold closed
    dsimp only
    split_ifs <;> rfl
  have hstored := stored_setFd (w := w.setDesc k (w.closed i k)) (p := p) (h := none) hi
  refine ⟨.of_bound hstored.other hstored.bound nofun hstored.fresh.ge hstored.processes fun j _ => ?_, hstored.bound⟩
  exact (congrArg FileDescriptor.file (congrFun hstored.desc j)).trans (setDesc_file _ hfile j)

/-- The outcome of a `close`: the number is unbound, and that it was bound is reported. -/
structure Closes (w : World) (p n : ℕ) (o : Outcome) : Prop where
  step : Step w o.world p
  bound : o.world.bound p = Function.update (w.bound p) n none
  fails : o.ret = minusOne ↔ w.bound p n = none

theorem Closes.fail (hnone : w.bound p n = none) : Closes w p n w.fail where
  step := Step.refl w p
  bound := by
    rw [← hnone, Function.update_eq_self]
    rfl
  fails := iff_of_true rfl hnone

theorem Closes.succeed (hsome : w.bound p n ≠ none) (hstep : Step w w' p)
    (hbound : w'.bound p = Function.update (w.bound p) n none) : Closes w p n (w'.succeed 0) where
  step := hstep
  bound := hbound
  fails := iff_of_false (by simp [World.succeed, minusOne]) hsome

/-- The class that a number belongs to. -/
theorem number_cases (n : ℕ) : (∃ i, i < 10 ∧ (n = i ∨ n = 10 + i ∨ n = 20 + i)) ∨ n > 29 := by
  by_cases hfd : n < 10
  · exact .inl ⟨n, hfd, .inl rfl⟩
  by_cases hsp : n < 20
  · exact .inl ⟨n - 10, by omega⟩
  by_cases hcp : n < 30
  · exact .inl ⟨n - 20, by omega⟩
  · exact .inr (by omega)

theorem close_spec (w : World) (p n : ℕ) : Closes w p n (w.close p n) := by
  unfold close
  rcases number_cases n with ⟨i, hi, rfl | rfl | rfl⟩ | hrange
  · rw [if_neg (by omega), if_pos hi]
    cases hk : w.fdAt p n with
    | none => exact .fail ((bound_fd hi).trans hk)
    | some k =>
      obtain ⟨hstep, hbound⟩ := closeFd_step (w := w) (p := p) hi k
      exact .succeed (by rw [bound_fd hi, hk]; simp) hstep hbound
  · rw [if_neg (by omega), if_neg (by omega), if_pos (by omega), Nat.add_sub_cancel_left]
    split_ifs with hk
    · exact .fail ((bound_sp hi).trans hk)
    · have hstored := stored_setSp (w := w) (p := p) (h := none) hi
      exact .succeed (by rwa [bound_sp hi]) hstored.unbinds hstored.bound
  · rw [if_neg (by omega), if_neg (by omega), if_neg (by omega), Nat.add_sub_cancel_left]
    split_ifs with hk
    · exact .fail (bound_cp.trans hk)
    · have hstored := stored_setCp (w := w) (p := p) (h := none) hi
      exact .succeed (by rwa [bound_cp]) hstored.unbinds hstored.bound
  · rw [if_pos hrange]
    apply Closes.fail
    unfold World.bound cpAt
    rw [if_neg (by omega), if_neg (by omega), dif_neg (by omega)]

/-- The calls that only use a number change one offset at most. -/
theorem use_world {c : Syscall} {o : Outcome} (ho : w.sysHandler cfg p c = .ok o)
    (hc : (∀ filename file, c ≠ .openFile filename file) ∧ (∀ initial, c ≠ .sem initial) ∧ c ≠ .fork ∧ ∀ n, c ≠ .close n) :
    o.world = w ∨ ∃ k x, (∃ num, w.fdAt p num = some k) ∧ o.world = w.setDesc k ((w.desc k).setOffset x) := by
  cases c with
  | openFile filename file => exact absurd rfl (hc.1 filename file)
  | sem initial => exact absurd rfl (hc.2.1 initial)
  | fork => exact absurd rfl hc.2.2.1
  | close n => exact absurd rfl (hc.2.2.2 n)
  | write | up | down | wait | len => exact .inl (KernelState.quiet_tables ho (by simp))
  | read fnum buffer nbyte =>
    by_cases hreach : ∃ k f, ReadReaches cfg w p fnum buffer k f
    · obtain ⟨k, f, hfnum, hk, hres, hbuf, hf⟩ := hreach
      right
      change w.read cfg p fnum buffer nbyte = .ok o at ho
      unfold read at ho
      rw [if_neg (by omega), hk] at ho
      simp only [hres, hbuf, hf, Bool.false_eq_true, if_false] at ho
      cases hr : (w.node f).readAll (w.desc k).offset
          (clamp cfg (w.node f).sizeInBytes (w.desc k).offset buffer nbyte) buffer with
      | error stop =>
        rw [hr] at ho
        cases ho
      | ok r =>
        rw [hr] at ho
        obtain rfl := Except.ok.inj ho
        exact ⟨k, _, ⟨fnum, hk⟩, rfl⟩
    · left
      exact KernelState.read_of_not_reaches (fun k f h => hreach ⟨k, f, h⟩) ho
  | seek fnum off =>
    obtain rfl : w.seek p fnum off = o := Except.ok.inj ho
    rcases KernelState.seek_cases (w := w) (p := p) with ⟨hseek, -⟩ | ⟨k, -, hk, -, hseek⟩
    · rw [hseek]
      exact .inl rfl
    · rw [hseek]
      exact .inr ⟨k, off, ⟨fnum, hk⟩, rfl⟩

theorem use_step {c : Syscall} {o : Outcome} (ho : w.sysHandler cfg p c = .ok o)
    (hc : (∀ filename file, c ≠ .openFile filename file) ∧ (∀ initial, c ≠ .sem initial) ∧ c ≠ .fork ∧ ∀ n, c ≠ .close n) :
    Step w o.world p ∧ o.world.pcb = w.pcb := by
  rcases use_world ho hc with hsame | ⟨k, x, -, hset⟩
  · rw [hsame]
    exact ⟨Step.refl w p, rfl⟩
  · rw [hset]
    exact ⟨setDesc_step _ rfl, rfl⟩

theorem sysHandler_step {c : Syscall} {o : Outcome} (hp : p < w.processes) (ho : w.sysHandler cfg p c = .ok o) :
    Step w o.world p := by
  cases c with
  | openFile filename file =>
    obtain rfl : w.openFile p filename file = o := Except.ok.inj ho
    by_cases hfail : filename < 0x80000000 ∨ file = none ∨ w.scan p 0 = none
    · rw [openFile_fail hfail]
      exact Step.refl w p
    · push Not at hfail
      obtain ⟨hname, hfile, hscan⟩ := hfail
      obtain ⟨f, rfl⟩ := Option.ne_none_iff_exists'.mp hfile
      obtain ⟨i, hi⟩ := Option.ne_none_iff_exists'.mp hscan
      exact (openFile_some hname hi).2.2.2
  | sem initial =>
    obtain rfl : w.sem p = o := Except.ok.inj ho
    cases hscan : w.scan p 10 with
    | none =>
      rw [sem_fail hscan]
      exact Step.refl w p
    | some i => exact (sem_some hscan).2.2.2
  | fork =>
    obtain rfl : w.fork p = o := Except.ok.inj ho
    cases hscan : w.scan p 20 with
    | none =>
      rw [fork_fail hscan]
      exact Step.refl w p
    | some i => exact (fork_some hp hscan).2.2.2
  | close n =>
    obtain rfl : w.close p n = o := Except.ok.inj ho
    exact (close_spec w p n).step
  | write | up | down | wait | len | read | seek => exact (use_step ho (by simp)).1

end World

namespace KernelState

open World

variable {cfg : Config} {s : KernelState} {p lo : ℕ} {r : Reply} {ok : Prop} {made : ℕ → Prop}

theorem Creates.of_fail (hfail : ¬ ok ∨ s.world.scan p lo = none) (hret : r.ret = some minusOne)
    (hkept : r.state.world.bound p = s.world.bound p) : s.Creates p lo r ok made where
  fails := iff_of_true hret (hfail.imp_right scan_none.mp)
  kept _ := hkept
  binds hne := absurd hret hne

theorem Creates.of_some {i k : ℕ} (hlo : lo ≤ 20) (hok : ok) (hscan : s.world.scan p lo = some i)
    (hret : r.ret = some (lo + i)) (hbound : r.state.world.bound p = Function.update (s.world.bound p) (lo + i) (some k))
    (hknown : s.world.Known) (hnew : s.world.fresh ≤ k) (hmade : made k) : s.Creates p lo r ok made := by
  obtain ⟨hi, hleast⟩ := scan_some hscan
  have hne : r.ret ≠ some minusOne := by
    rw [hret]
    intro h
    have : lo + i = 2 ^ 32 - 1 := Option.some.inj h
    omega
  refine ⟨iff_of_false hne ?_, fun h => absurd h hne, fun _ => ⟨k, ⟨⟨lo + i, hret, hleast, hbound⟩, ?_⟩, hmade⟩⟩
  · rintro (h | h)
    · exact h hok
    · rw [scan_none.mpr h] at hscan
      cases hscan
  · intro q m hk
    exact absurd (hknown q m k hk) (Nat.not_lt_of_le hnew)

theorem lawful (hknown : s.world.Known) (hp : p < s.world.processes) {c : Syscall}
    (h : s.sysHandler cfg p c = .ok r) : s.Lawful p r c := by
  cases c with
  | openFile filename file =>
    obtain rfl : s.onTables (s.world.openFile p filename file) = r := Except.ok.inj h
    by_cases hfail : filename < 0x80000000 ∨ file = none ∨ s.world.scan p 0 = none
    · have ho := openFile_fail hfail
      refine .of_fail ?_ ?_ ?_
      · rcases hfail with h | h | h
        · exact .inl fun hok => absurd hok.1 (Nat.not_le_of_lt h)
        · exact .inl fun hok => hok.2 h
        · exact .inr h
      · rw [ho]
        rfl
      · rw [ho]
        rfl
    · push Not at hfail
      obtain ⟨hname, hfile, hscan⟩ := hfail
      obtain ⟨f, rfl⟩ := Option.ne_none_iff_exists'.mp hfile
      obtain ⟨i, hi⟩ := Option.ne_none_iff_exists'.mp hscan
      obtain ⟨hret, hbound, hdesc, -⟩ := openFile_some (w := s.world) (f := f) hname hi
      refine .of_some (k := s.world.fresh) (by decide) ⟨hname, hfile⟩ hi ?_ ?_ hknown le_rfl ⟨f, rfl, hdesc⟩
      · rw [Nat.zero_add]
        exact congrArg some hret
      · rw [Nat.zero_add]
        exact hbound
  | sem initial =>
    obtain rfl : s.newSem p initial = r := Except.ok.inj h
    cases hscan : s.world.scan p 10 with
    | none =>
      have ho := sem_fail hscan
      refine .of_fail (.inr hscan) ?_ ?_
      · exact congrArg (fun o : Outcome => some o.ret) ho
      · exact congrArg (fun o : Outcome => o.world.bound p) ho
    | some i =>
      obtain ⟨hret, hbound, hfresh, -⟩ := sem_some hscan
      refine .of_some (k := s.world.fresh) (by decide) trivial hscan (congrArg some hret) hbound hknown le_rfl ?_
      show (if s.world.fresh ≤ s.world.fresh ∧ s.world.fresh < (s.world.sem p).world.fresh then ⟨initial, false, []⟩
        else s.sem s.world.fresh) = (⟨initial, false, []⟩ : Semaphore ℕ)
      rw [hfresh, if_pos ⟨le_rfl, Nat.lt_succ_self _⟩]
  | fork =>
    obtain rfl : s.onTables (s.world.fork p) = r := Except.ok.inj h
    cases hscan : s.world.scan p 20 with
    | none =>
      have ho := fork_fail hscan
      refine .of_fail (.inr hscan) ?_ ?_
      · rw [ho]
        rfl
      · rw [ho]
        rfl
    | some i =>
      obtain ⟨hret, hbound, hfuture, -⟩ := fork_some hp hscan
      exact .of_some (by decide) trivial hscan (congrArg some hret) hbound hknown (Nat.le_add_right _ 3) hfuture.symm
  | close n =>
    obtain rfl : s.onTables (s.world.close p n) = r := Except.ok.inj h
    obtain ⟨-, hbound, hfails⟩ := close_spec s.world p n
    exact ⟨Option.some_inj.trans hfails, hbound⟩
  | write | up | down | wait | len | read | seek =>
    obtain ⟨o, ho, hworld, -⟩ := sysHandler_world h
    show r.state.world.bound p = s.world.bound p
    rw [← hworld]
    exact bound_congr (congrFun (use_step ho (by simp)).2 p)

theorem step {c : Syscall} (hp : p < s.world.processes) (h : s.sysHandler cfg p c = .ok r) :
    Step s.world r.state.world p := by
  obtain ⟨o, ho, hworld, -⟩ := sysHandler_world h
  rw [← hworld]
  exact sysHandler_step hp ho

theorem bound_other {q : ℕ} {c : Syscall} (hp : p < s.world.processes) (hq : q < s.world.processes) (hne : q ≠ p)
    (h : s.sysHandler cfg q c = .ok r) : r.state.world.bound p = s.world.bound p :=
  bound_congr ((step hq h).other p hne.symm hp)

theorem known_step {c : Syscall} (hp : p < s.world.processes) (hknown : s.world.Known)
    (h : s.sysHandler cfg p c = .ok r) : r.state.world.Known := by
  intro q n k hk
  have hstep := step hp h
  rcases hstep.known q n k hk with hlt | ⟨q', hk'⟩
  · exact hlt
  · exact (hknown q' n k hk').trans_le hstep.fresh_le

/-- A bound number stays bound to its object if it is not closed. -/
theorem bound_kept {n k : ℕ} {c : Syscall} (hp : p < s.world.processes) (hknown : s.world.Known)
    (h : s.sysHandler cfg p c = .ok r) (hk : s.world.bound p n = some k) (hc : c ≠ .close n) :
    r.state.world.bound p n = some k := by
  have hcreates : ∀ {lo ok made}, s.Creates p lo r ok made → r.state.world.bound p n = some k := by
    intro lo ok made hcreates
    by_cases hret : r.ret = some minusOne
    · rw [hcreates.kept hret, hk]
    · obtain ⟨k', ⟨⟨m, -, hleast, hbound⟩, -⟩, -⟩ := hcreates.binds hret
      have hne : n ≠ m := by
        rintro rfl
        rw [hleast.1.2.2] at hk
        cases hk
      rw [hbound, Function.update_of_ne hne, hk]
  have hlawful := lawful hknown hp h
  cases c with
  | openFile filename file => exact hcreates hlawful
  | sem initial => exact hcreates hlawful
  | fork => exact hcreates hlawful
  | close m =>
    have hne : n ≠ m := fun he => hc (congrArg Syscall.close he.symm)
    rw [hlawful.2, Function.update_of_ne hne, hk]
  | write | up | down | wait | len | read | seek =>
    change r.state.world.bound p = s.world.bound p at hlawful
    rw [hlawful, hk]

/-- What holds from the new PCB on. -/
structure Numbered (s : KernelState) (p : ℕ) : Prop where
  known : s.world.Known
  lt : p < s.world.processes

theorem spawn_known {w : World} (hw : w.Known) : w.spawn.Known := by
  intro q n k hk
  show k < w.fresh + 4
  by_cases hq : q = w.processes
  · subst hq
    unfold World.bound at hk
    split_ifs at hk with hfd hsp
    · simp [spawn, newPCB, setPcb, fdAt] at hk
      omega
    · simp [spawn, newPCB, setPcb, spAt] at hk
    · simp [spawn, newPCB, setPcb, cpAt] at hk
  · have hsame : w.spawn.bound q = w.bound q := bound_congr (Function.update_of_ne hq ..)
    rw [hsame] at hk
    exact Nat.lt_add_right 4 (hw q n k hk)

/-- A call that stops leaves the state as it is. -/
theorem next_cases (s : KernelState) (a : ℕ × Syscall) :
    (∃ r, s.sysHandler cfg a.1 a.2 = .ok r ∧ (bindingMachine cfg p).next s a = r.state) ∨
      (bindingMachine cfg p).next s a = s := by
  simp only [bindingMachine, kernelMachine]
  cases s.sysHandler cfg a.1 a.2 with
  | error stop => exact .inr rfl
  | ok r => exact .inl ⟨r, rfl, rfl⟩

theorem Numbered.next {a : ℕ × Syscall} (hs : Numbered s p) (ha : (bindingMachine cfg p).enabled s a) :
    Numbered ((bindingMachine cfg p).next s a) p := by
  rcases next_cases s a with ⟨r, hr, hnext⟩ | hnext
  · rw [hnext]
    exact ⟨known_step ha.1 hs.known hr, hs.lt.trans_le (step ha.1 hr).processes_le⟩
  · rw [hnext]
    exact hs

theorem Numbered.reachable (hs : (bindingMachine cfg p).Reachable s) : Numbered s p := by
  apply hs.invariant (I := fun s => Numbered s p)
  · rintro s ⟨s₀, hknown, rfl, rfl⟩
    exact ⟨spawn_known hknown, Nat.lt_succ_self _⟩
  · intro s a hs ha
    exact hs.next ha

/-- A binding and the file behind it outlast every run without a `close` of the number. -/
theorem Numbered.run {n k : ℕ} {as : List (ℕ × Syscall)} {t : KernelState} (hrun : (bindingMachine cfg p).Run s as t)
    (hs : Numbered s p) (hk : s.world.bound p n = some k) (hclose : (p, Syscall.close n) ∉ as) :
    t.world.bound p n = some k ∧ (t.world.desc k).file = (s.world.desc k).file := by
  induction hrun with
  | nil => exact ⟨hk, rfl⟩
  | @cons s t a as ha hrun ih =>
    rw [List.mem_cons, not_or] at hclose
    have hkept : ((bindingMachine cfg p).next s a).world.bound p n = some k ∧
        (((bindingMachine cfg p).next s a).world.desc k).file = (s.world.desc k).file := by
      rcases next_cases s a with ⟨r, hr, hnext⟩ | hnext
      · rw [hnext]
        refine ⟨?_, (step ha.1 hr).file k (hs.known p n k hk)⟩
        by_cases hq : a.1 = p
        · have hne : a.2 ≠ .close n := fun he => hclose.1 (Prod.ext hq.symm he.symm)
          rw [hq] at hr
          exact bound_kept hs.lt hs.known hr hk hne
        · rw [bound_other hs.lt ha.1 hq hr, hk]
      · rw [hnext]
        exact ⟨hk, rfl⟩
    obtain ⟨hbound, hfile⟩ := ih (hs.next ha) hkept.1 hclose.2
    exact ⟨hbound, hfile.trans hkept.2⟩

instance (cfg : Config) (p : ℕ) (s : KernelState) (a : ℕ × Syscall) :
    Decidable ((bindingMachine cfg p).enabled s a) :=
  inferInstanceAs (Decidable ((kernelMachine cfg).enabled s a))

end KernelState
end AudioKernel
