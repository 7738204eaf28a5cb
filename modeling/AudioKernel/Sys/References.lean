import AudioKernel.Lib.Counting
import AudioKernel.Sys.Bindings

/-! The references that processes hold to descriptors, semaphores and futures, from call to call: `Shared<T>` counts
them, and deletes an object with its last one. The step by step behaviour of the handles is modelled elsewhere. -/
namespace AudioKernel
open Lib

/-- The counts of the objects, and which objects have been created and not deleted. The heap has no room for so many
handles that a count would overflow. -/
structure RefCounts where
  count : ℕ → ℤ
  live : ℕ → Bool

namespace RefCounts

variable (r : RefCounts)

def add : Option ℕ → RefCounts
  | none => r
  | some k => { r with count := Function.update r.count k (r.count k + 1) }

def drop : Option ℕ → RefCounts
  | none => r
  | some k =>
    let new_count := r.count k - 1
    ⟨Function.update r.count k new_count, if new_count = 0 then Function.update r.live k false else r.live⟩

/-- `ptr = rhs`, for a raw pointer or another handle. -/
def assign (ptr rhs : Option ℕ) : RefCounts := if ptr ≠ rhs then (r.drop ptr).add rhs else r

def create (k : ℕ) : RefCounts := ⟨Function.update r.count k 0, Function.update r.live k true⟩

def assignNew (ptr : Option ℕ) (k : ℕ) : RefCounts := (r.create k).assign ptr (some k)

/-- `PCB()`: the three descriptors, and the future whose handle comes from `make`. -/
def newPCB (k : ℕ) : RefCounts :=
  (((r.assignNew none k).assignNew none (k + 1)).assignNew none (k + 2)).assignNew none (k + 3)

end RefCounts

/-- The tables, the references, and which processes have called `exit` and have been reaped. -/
structure RefState where
  world : World
  refs : RefCounts
  exited : ℕ → Bool
  reaped : ℕ → Bool

/-- A system call of a process, its last one, or the deletion of its thread by `delete_zombies`. -/
inductive RefAct
  | call (p : ℕ) (c : Syscall)
  | exit (p : ℕ)
  | reap (p : ℕ)

namespace RefState

variable (s : RefState)

/-- The loop of `fork` over the first slots of the two tables: those of the new PCB are overwritten. -/
def copyHandles (p : ℕ) : ℕ → RefCounts → RefCounts
  | 0, r => r
  | m + 1, r =>
    let child := s.world.processes
    let r := copyHandles p m r
    (r.assign (s.world.spawn.fdAt child m) (s.world.fdAt p m)).assign (s.world.spawn.spAt child m) (s.world.spAt p m)

/-- The references after a call that returns. Handles that a call has only while it runs are dropped at its end. -/
def refsAfter (p : ℕ) : Syscall → RefCounts
  | .openFile filename file =>
    if (s.world.openFile p filename file).ret = World.minusOne then s.refs else s.refs.assignNew none s.world.fresh
  | .sem _ => if (s.world.sem p).ret = World.minusOne then s.refs else s.refs.assignNew none s.world.fresh
  | .close num => s.refs.assign (s.world.bound p num) none
  | .fork =>
    match s.world.freeChild p with
    | none => s.refs
    | some i =>
      let r := s.copyHandles p 10 (s.refs.newPCB s.world.fresh)
      r.assign (s.world.cpAt p i) (some (s.world.spawn.pcb s.world.processes).future)
  | _ => s.refs

/-- `~TCB` deletes the page directory. Nothing deletes the PCB. -/
def next (cfg : Config) : RefAct → RefState
  | .call p c =>
    match s.world.sysHandler cfg p c with
    | .ok o => { s with world := o.world, refs := s.refsAfter p c }
    | .error _ => s
  | .exit p => { s with exited := Function.update s.exited p true }
  | .reap p => { s with reaped := Function.update s.reaped p true }

def enabled : RefAct → Prop
  | .call p _ | .exit p => p < s.world.processes ∧ s.exited p = false
  | .reap p => s.exited p = true ∧ s.reaped p = false

def boot (node : ℕ → BlockIO) : RefState where
  world := World.boot node
  refs := (⟨fun _ => 0, fun _ => false⟩ : RefCounts).newPCB 0
  exited _ := false
  reaped _ := false

instance : (a : RefAct) → Decidable (s.enabled a)
  | .call _ _ => inferInstanceAs (Decidable (_ ∧ _))
  | .exit _ => inferInstanceAs (Decidable (_ ∧ _))
  | .reap _ => inferInstanceAs (Decidable (_ ∧ _))

end RefState

def refMachine (cfg : Config) : Machine RefState RefAct where
  init s := ∃ node, s = RefState.boot node
  enabled s a := s.enabled a
  next s a := s.next cfg a

instance (cfg : Config) (s : RefState) (a : RefAct) : Decidable ((refMachine cfg).enabled s a) :=
  inferInstanceAs (Decidable (s.enabled a))

namespace World

/-- The slots of all processes: number 30 of each is its own future. -/
def places (w : World) : Finset (ℕ × ℕ) := Finset.range w.processes ×ˢ Finset.range 31

def held (w : World) (x : ℕ × ℕ) : Option ℕ :=
  if x.1 < w.processes then if x.2 = 30 then some (w.pcb x.1).future else w.bound x.1 x.2 else none

end World

namespace RefState

/-- The slots that hold an object in processes that have not been reaped. -/
def remaining (s : RefState) (k : ℕ) : ℕ :=
  tally (s.world.places.filter fun x => s.reaped x.1 = false) s.world.held k

/-- Every object that there has been is counted for its slots in these processes, and is there as long as one has it. -/
def Counted (s : RefState) : Prop :=
  ∀ k, k < s.world.fresh → s.refs.count k = s.remaining k ∧ (s.refs.live k = true ↔ s.remaining k ≠ 0)

end RefState

/-- The counts and the objects are those that some places call for, and the places hold objects below `fresh`. -/
structure RefCounts.Fits (r : RefCounts) (s : Finset (ℕ × ℕ)) (held : ℕ × ℕ → Option ℕ) (fresh : ℕ) : Prop where
  count : ∀ k, r.count k = tally s held k
  live : ∀ k, r.live k = true ↔ tally s held k ≠ 0
  known : ∀ x k, held x = some k → k < fresh

namespace RefCounts

variable {r : RefCounts} {s : Finset (ℕ × ℕ)} {held : ℕ × ℕ → Option ℕ} {x : ℕ × ℕ} {ptr rhs : Option ℕ}
  {k fresh : ℕ}

theorem count_add (r : RefCounts) (rhs : Option ℕ) (k : ℕ) :
    (r.add rhs).count k = r.count k + if rhs = some k then 1 else 0 := by
  cases rhs with
  | none => simp [add]
  | some j =>
    simp only [add, Function.update_apply, Option.some.injEq, eq_comm (a := k)]
    split_ifs with hj
    · rw [hj]
    · rw [Int.add_zero]

theorem live_add (r : RefCounts) (rhs : Option ℕ) : (r.add rhs).live = r.live := by
  cases rhs <;> rfl

theorem count_drop (r : RefCounts) (ptr : Option ℕ) (k : ℕ) :
    (r.drop ptr).count k = r.count k - if ptr = some k then 1 else 0 := by
  cases ptr with
  | none => simp [drop]
  | some j =>
    simp only [drop, Function.update_apply, Option.some.injEq, eq_comm (a := k)]
    split_ifs with hj
    · rw [hj]
    · rw [Int.sub_zero]

theorem live_drop (r : RefCounts) (ptr : Option ℕ) (k : ℕ) :
    (r.drop ptr).live k = true ↔ r.live k = true ∧ ¬ (ptr = some k ∧ r.count k = 1) := by
  cases ptr with
  | none => simp [drop]
  | some j =>
    by_cases hj : j = k
    · subst hj
      simp only [drop]
      split_ifs with hzero
      · simp [Function.update_self, show r.count j = 1 by omega]
      · simp [show r.count j ≠ 1 by omega]
    · have hlive : (r.drop (some j)).live k = r.live k := by
        simp only [drop]
        split_ifs
        · exact Function.update_of_ne (Ne.symm hj) ..
        · rfl
      simp [hlive, hj]

/-- The rule for an assignment to a place: the object that it brings is live, even if nothing has it yet. -/
theorem assign_fits (hcount : ∀ k, r.count k = tally s held k)
    (hlive : ∀ k, rhs ≠ some k → (r.live k = true ↔ tally s held k ≠ 0)) (hrhs : ∀ k, rhs = some k → r.live k = true)
    (hx : x ∈ s) (hknown : ∀ x k, held x = some k → k < fresh) (hfresh : ∀ k, rhs = some k → k < fresh) :
    (r.assign (held x) rhs).Fits s (Function.update held x rhs) fresh := by
  have hknown' : ∀ y k, Function.update held x rhs y = some k → k < fresh := by
    intro y k hk
    rw [Function.update_apply] at hk
    split_ifs at hk
    · exact hfresh k hk
    · exact hknown y k hk
  unfold assign
  split_ifs with hne
  · refine ⟨?_, ?_, hknown'⟩
    · intro k
      have htally := tally_update held hx rhs k
      rw [count_add, count_drop, hcount]
      split_ifs at htally ⊢ <;> omega
    · intro k
      have htally := tally_update held hx rhs k
      rw [live_add, live_drop, hcount]
      by_cases hnew : rhs = some k
      · have hold : held x ≠ some k := fun hold => hne (hold.trans hnew.symm)
        rw [if_neg hold, if_pos hnew] at htally
        exact iff_of_true ⟨hrhs k hnew, fun h => hold h.1⟩ (by omega)
      · rw [hlive k hnew]
        rw [if_neg hnew] at htally
        by_cases hold : held x = some k
        · rw [if_pos hold] at htally
          simp only [hold, true_and]
          omega
        · rw [if_neg hold] at htally
          simp only [hold, false_and, not_false_eq_true, and_true]
          omega
  · have hsame : held x = rhs := not_not.mp hne
    rw [← hsame, Function.update_eq_self]
    refine ⟨hcount, ?_, hknown⟩
    intro k
    by_cases hk : rhs = some k
    · exact iff_of_true (hrhs k hk) (tally_ne_zero_iff.mpr ⟨x, hx, hsame.trans hk⟩)
    · exact hlive k hk

namespace Fits

/-- A copy of a handle that some place has. -/
theorem assign (h : r.Fits s held fresh) (hx : x ∈ s) (hrhs : ∀ k, rhs = some k → ∃ y ∈ s, held y = some k) :
    (r.assign (held x) rhs).Fits s (Function.update held x rhs) fresh := by
  refine assign_fits h.count (fun k _ => h.live k) ?_ hx h.known ?_
  · intro k hk
    exact (h.live k).mpr (tally_ne_zero_iff.mpr (hrhs k hk))
  · intro k hk
    obtain ⟨y, -, hy⟩ := hrhs k hk
    exact h.known y k hy

/-- A new object. -/
theorem assignNew (h : r.Fits s held fresh) (hx : x ∈ s) :
    (r.assignNew (held x) fresh).Fits s (Function.update held x (some fresh)) (fresh + 1) := by
  have hzero : tally s held fresh = 0 := by
    by_contra hne
    obtain ⟨y, -, hy⟩ := tally_ne_zero_iff.mp hne
    exact Nat.lt_irrefl _ (h.known y fresh hy)
  refine assign_fits ?_ ?_ ?_ hx (fun y k hk => Nat.lt_succ_of_lt (h.known y k hk)) ?_
  · intro j
    simp only [create, Function.update_apply]
    split_ifs with hj
    · rw [hj, hzero]
      rfl
    · exact h.count j
  · intro j hj
    have hne : j ≠ fresh := fun he => hj (congrArg some he.symm)
    simp only [create, Function.update_of_ne hne]
    exact h.live j
  · intro j hj
    obtain rfl := Option.some.inj hj
    exact Function.update_self ..
  · intro j hj
    obtain rfl := Option.some.inj hj
    exact Nat.lt_succ_self _

/-- Places that hold nothing make no difference. -/
theorem extend {s' : Finset (ℕ × ℕ)} (h : r.Fits s held fresh) (hsub : s ⊆ s')
    (hnone : ∀ x ∈ s', x ∉ s → held x = none) : r.Fits s' held fresh where
  count k := by rw [h.count, tally_extend hsub hnone]
  live k := by rw [h.live, tally_extend hsub hnone]
  known := h.known

end Fits
end RefCounts

namespace World

variable {cfg : Config} {w w' : World} {p n i k : ℕ} {h : Option ℕ} {x : ℕ × ℕ}

theorem mem_places : x ∈ w.places ↔ x.1 < w.processes ∧ x.2 < 31 := by
  rw [places, Finset.mem_product, Finset.mem_range, Finset.mem_range]

theorem slot_mem_places (hp : p < w.processes) (hn : n < 31) : (p, n) ∈ w.places := mem_places.mpr ⟨hp, hn⟩

theorem held_bound (hp : p < w.processes) (hn : n < 30) : w.held (p, n) = w.bound p n := by
  rw [held, if_pos hp, if_neg (Nat.ne_of_lt hn)]

theorem bound_of_ge (hn : 30 ≤ n) : w.bound p n = none := by
  unfold bound cpAt
  rw [if_neg (by omega), if_neg (by omega), dif_neg (by omega)]

/-- Only slots that there are hold anything. -/
theorem mem_places_of_held (hk : w.held x = some k) : x ∈ w.places := by
  rw [mem_places]
  unfold held at hk
  split_ifs at hk with hp hn
  · exact ⟨hp, by omega⟩
  · refine ⟨hp, ?_⟩
    by_contra hge
    rw [bound_of_ge (by omega)] at hk
    cases hk

theorem held_congr (hpcb : w'.pcb = w.pcb) (hprocesses : w'.processes = w.processes) : w'.held = w.held := by
  funext x
  unfold held
  rw [hpcb, hprocesses, bound_congr (congrFun hpcb x.1)]

theorem Stored.held (hs : Stored w w' p n h) (hp : p < w.processes) (hn : n < 30) :
    w'.held = Function.update w.held (p, n) h := by
  funext x
  by_cases hx : x = (p, n)
  · rw [hx, Function.update_self, World.held, hs.processes, if_pos hp, if_neg (Nat.ne_of_lt hn), hs.bound,
      Function.update_self]
  · obtain ⟨q, m⟩ := x
    rw [Function.update_of_ne hx]
    unfold World.held
    dsimp only
    rw [hs.processes]
    by_cases hq : q = p
    · subst hq
      have hm : m ≠ n := by
        rintro rfl
        exact hx rfl
      rw [hs.bound, hs.future, Function.update_of_ne hm]
    · rw [hs.other q hq, bound_congr (hs.other q hq)]

/-- A call that gives a slot, which was empty, a new object: the object is known from then on. -/
structure Creates (w w' : World) (p n : ℕ) : Prop where
  empty : w.held (p, n) = none
  held : w'.held = Function.update w.held (p, n) (some w.fresh)
  processes : w'.processes = w.processes
  fresh : w'.fresh = w.fresh + 1

theorem openFile_creates (hp : p < w.processes) (filename : ℕ) (file : Option ℕ) :
    (w.openFile p filename file).world = w ∧ (w.openFile p filename file).ret = minusOne ∨
      (w.openFile p filename file).ret ≠ minusOne ∧
        ∃ n, n < 30 ∧ Creates w (w.openFile p filename file).world p n := by
  by_cases hfail : filename < 0x80000000 ∨ file = none ∨ w.scan p 0 = none
  · left
    rw [openFile_fail hfail]
    exact ⟨rfl, rfl⟩
  push Not at hfail
  obtain ⟨hname, hfile, hscan⟩ := hfail
  obtain ⟨f, rfl⟩ := Option.ne_none_iff_exists'.mp hfile
  obtain ⟨i, hscan⟩ := Option.ne_none_iff_exists'.mp hscan
  obtain ⟨hi, ⟨-, -, hnone⟩, -⟩ := scan_some hscan
  have ho : w.openFile p filename (some f) =
      ({ (w.setDesc w.fresh (.new (some f) false)).setFd p i (some w.fresh) with
        fresh := w.fresh + 1 } : World).succeed i := by
    unfold openFile
    rw [if_neg (by omega), scan_fd, hscan]
  have hstored := stored_setFd (w := w.setDesc w.fresh (.new (some f) false)) (p := p) (h := some w.fresh) hi
  right
  rw [ho]
  refine ⟨?_, i, by omega, ?_, ?_, hstored.processes, rfl⟩
  · show i ≠ 2 ^ 32 - 1
    omega
  · rw [held_bound hp (by omega), ← hnone, Nat.zero_add]
  · exact (held_congr rfl rfl).trans (hstored.held hp (by omega))

theorem sem_creates (hp : p < w.processes) : (w.sem p).world = w ∧ (w.sem p).ret = minusOne ∨
    (w.sem p).ret ≠ minusOne ∧ ∃ n, n < 30 ∧ Creates w (w.sem p).world p n := by
  cases hscan : w.scan p 10 with
  | none =>
    left
    rw [sem_fail hscan]
    exact ⟨rfl, rfl⟩
  | some i =>
    obtain ⟨hi, ⟨-, -, hnone⟩, -⟩ := scan_some hscan
    have ho : w.sem p = ({ w.setSp p i (some w.fresh) with fresh := w.fresh + 1 } : World).succeed (i + 10) := by
      unfold sem
      rw [scan_sp, hscan]
    have hstored := stored_setSp (w := w) (p := p) (h := some w.fresh) hi
    right
    rw [ho]
    refine ⟨?_, 10 + i, by omega, ?_, ?_, hstored.processes, rfl⟩
    · show i + 10 ≠ 2 ^ 32 - 1
      omega
    · rw [held_bound hp (by omega), ← hnone]
    · exact (held_congr rfl rfl).trans (hstored.held hp (by omega))

/-- The slot is empty after a `close`, also when it has been before. -/
structure Empties (w w' : World) (p n : ℕ) : Prop where
  held : w'.held = Function.update w.held (p, n) none
  processes : w'.processes = w.processes
  fresh : w'.fresh = w.fresh

theorem Empties.refl (hnone : w.held (p, n) = none) : Empties w w p n where
  held := by rw [← hnone, Function.update_eq_self]
  processes := rfl
  fresh := rfl

theorem Stored.empties (hs : Stored w w' p n none) (hp : p < w.processes) (hn : n < 30) : Empties w w' p n :=
  ⟨hs.held hp hn, hs.processes, hs.fresh⟩

theorem close_empties (hp : p < w.processes) (hn : n < 30) : Empties w (w.close p n).world p n := by
  unfold close
  rcases number_cases n with ⟨i, hi, rfl | rfl | rfl⟩ | hrange
  · rw [if_neg (by omega), if_pos hi]
    cases hk : w.fdAt p n with
    | none => exact .refl (by rw [held_bound hp (by omega), bound_fd hi, hk])
    | some k =>
      have hempty : Empties (w.setDesc k (w.closed n k)) _ p n := (stored_setFd hi).empties hp hn
      exact ⟨hempty.held, hempty.processes, hempty.fresh⟩
  · rw [if_neg (by omega), if_neg (by omega), if_pos (by omega), Nat.add_sub_cancel_left]
    split_ifs with hk
    · exact .refl (by rw [held_bound hp (by omega), bound_sp hi, hk])
    · exact (stored_setSp hi).empties hp hn
  · rw [if_neg (by omega), if_neg (by omega), if_neg (by omega), Nat.add_sub_cancel_left]
    split_ifs with hk
    · exact .refl (by rw [held_bound hp (by omega), bound_cp, hk])
    · exact (stored_setCp hi).empties hp hn
  · omega

/-- The slots while `fork` copies the handles: the child has its PCB, and the first `m` slots of its tables have been
overwritten. -/
def childHeld (w : World) (p m : ℕ) (x : ℕ × ℕ) : Option ℕ :=
  if x.1 = w.processes then
    if x.2 < 10 then if x.2 < m then w.bound p x.2 else if x.2 < 3 then some (w.fresh + x.2) else none
    else if x.2 < 20 then if x.2 < 10 + m then w.bound p x.2 else none
    else if x.2 = 30 then some (w.fresh + 3) else none
  else w.held x

theorem held_of_ge (hq : w.processes ≤ x.1) : w.held x = none := if_neg (Nat.not_lt_of_le hq)

theorem childHeld_other {m : ℕ} (hq : x.1 ≠ w.processes) : w.childHeld p m x = w.held x := if_neg hq

/-- A new process changes nothing for the others. -/
theorem held_other (hprocesses : w'.processes = w.processes + 1) (hpcb : w'.pcb x.1 = w.pcb x.1)
    (hq : x.1 ≠ w.processes) : w'.held x = w.held x := by
  have hlt : x.1 < w.processes + 1 ↔ x.1 < w.processes := by omega
  unfold held
  simp only [hprocesses, hpcb, bound_congr hpcb, hlt]

theorem childHeld_zero (w : World) (p : ℕ) :
    Function.update (Function.update (Function.update (Function.update w.held (w.processes, 0) (some w.fresh))
      (w.processes, 1) (some (w.fresh + 1))) (w.processes, 2) (some (w.fresh + 2))) (w.processes, 30)
      (some (w.fresh + 3)) = w.childHeld p 0 := by
  funext x
  obtain ⟨q, n⟩ := x
  by_cases hq : q = w.processes
  · subst hq
    have hnone : w.held (w.processes, n) = none := held_of_ge (Nat.le_refl _)
    simp only [Function.update_apply, Prod.mk.injEq, true_and, childHeld, if_true, hnone, Nat.not_lt_zero, if_false]
    split_ifs <;> first | rfl | omega | (subst n; rfl)
  · simp only [Function.update_apply, Prod.mk.injEq, hq, false_and, if_false, childHeld]

/-- One round of the loop. -/
theorem childHeld_succ (w : World) (p : ℕ) {m : ℕ} (hm : m < 10) :
    Function.update (Function.update (w.childHeld p m) (w.processes, m) (w.bound p m)) (w.processes, 10 + m)
      (w.bound p (10 + m)) = w.childHeld p (m + 1) := by
  funext x
  obtain ⟨q, n⟩ := x
  by_cases hq : q = w.processes
  · subst hq
    simp only [Function.update_apply, Prod.mk.injEq, true_and, childHeld, if_true]
    split_ifs <;> first | rfl | omega | (subst n; rfl)
  · simp only [Function.update_apply, Prod.mk.injEq, hq, false_and, if_false, childHeld]

/-- A child whose tables are as the loop has left them. -/
theorem held_eq_childHeld {m : ℕ} (hprocesses : w'.processes = w.processes + 1)
    (hpcb : ∀ q, q ≠ w.processes → w'.pcb q = w.pcb q)
    (hfd : ∀ i, i < 10 → w'.fdAt w.processes i = w.childHeld p m (w.processes, i))
    (hsp : ∀ i, i < 10 → w'.spAt w.processes i = w.childHeld p m (w.processes, 10 + i))
    (hcp : ∀ i, w'.cpAt w.processes i = none) (hfuture : (w'.pcb w.processes).future = w.fresh + 3) :
    w'.held = w.childHeld p m := by
  funext x
  obtain ⟨q, n⟩ := x
  by_cases hq : q = w.processes
  · subst hq
    rw [held, hprocesses, if_pos (Nat.lt_succ_self _), hfuture]
    rcases number_cases n with ⟨i, hi, rfl | rfl | rfl⟩ | hrange
    · rw [if_neg (by omega), bound_fd hi, hfd n hi]
    · rw [if_neg (by omega), bound_sp hi, hsp i hi]
    · rw [if_neg (by omega), bound_cp, hcp, childHeld, if_pos rfl, if_neg (by omega), if_neg (by omega),
        if_neg (by omega)]
    · have hfd : ¬ n < 10 := by omega
      have hsp : ¬ n < 20 := by omega
      simp only [childHeld, if_true, if_neg hfd, if_neg hsp, bound_of_ge (show 30 ≤ n by omega)]
  · exact (held_other hprocesses (hpcb q hq) hq).trans (childHeld_other hq).symm

theorem spawn_held (w : World) (p : ℕ) : w.spawn.held = w.childHeld p 0 := by
  apply held_eq_childHeld rfl (fun q hq => Function.update_of_ne hq ..)
  · intro i hi
    simp only [spawn, newPCB, setPcb, fdAt, Function.update_self, dif_pos hi, childHeld, if_true, if_pos hi,
      Nat.not_lt_zero, if_false]
  · intro i hi
    rw [childHeld, if_pos rfl, if_neg (by omega), if_pos (by omega), if_neg (by omega)]
    simp [spawn, newPCB, setPcb, spAt]
  · intro i
    simp [spawn, newPCB, setPcb, cpAt]
  · simp [spawn, newPCB, setPcb]

theorem withChild_held (w : World) (p : ℕ) : (w.withChild p).held = w.childHeld p 10 := by
  apply held_eq_childHeld rfl (fun q hq => Function.update_of_ne hq ..)
  · intro i hi
    rw [childHeld, if_pos rfl, if_pos hi, if_pos hi, bound_fd hi]
    simp [withChild, newPCB, setPcb, fdAt]
  · intro i hi
    rw [childHeld, if_pos rfl, if_neg (by omega), if_pos (by omega), if_pos (by omega), bound_sp hi]
    simp [withChild, newPCB, setPcb, spAt]
  · intro i
    simp [withChild, newPCB, setPcb, cpAt]
  · simp [withChild, newPCB, setPcb]

/-- What the loop of `fork` finds in the child: its PCB as it was made, or as the rounds before have left it. -/
theorem childHeld_slots (w : World) (p : ℕ) {m : ℕ} (hm : m < 10) :
    w.childHeld p m (w.processes, m) = w.spawn.fdAt w.processes m ∧
      w.childHeld p m (w.processes, 10 + m) = w.spawn.spAt w.processes m := by
  constructor
  · rw [childHeld, if_pos rfl, if_pos hm, if_neg (Nat.lt_irrefl _)]
    simp [spawn, newPCB, setPcb, fdAt, hm]
  · rw [childHeld, if_pos rfl, if_neg (by omega), if_pos (by omega), if_neg (by omega)]
    simp [spawn, newPCB, setPcb, spAt]

theorem fork_held (hp : p < w.processes) {i : ℕ} (hscan : w.freeChild p = some i) : i < 10 ∧ w.cpAt p i = none ∧
    (w.fork p).world.held = Function.update (w.childHeld p 10) (p, 20 + i) (some (w.fresh + 3)) ∧
    (w.fork p).world.processes = w.processes + 1 ∧ (w.fork p).world.fresh = w.fresh + 4 := by
  rw [scan_cp] at hscan
  obtain ⟨hi, ⟨-, -, hnone⟩, -⟩ := scan_some hscan
  have ho : w.fork p = ((w.withChild p).setCp p i (some (w.fresh + 3))).succeed (i + 20) := by
    unfold fork
    rw [scan_cp, hscan]
    rfl
  have hstored := stored_setCp (w := w.withChild p) (p := p) (h := some (w.fresh + 3)) hi
  rw [ho, ← withChild_held]
  exact ⟨hi, by rw [← bound_cp, hnone], hstored.held (Nat.lt_succ_of_lt hp) (by omega), hstored.processes, hstored.fresh⟩

end World

namespace RefState

variable {cfg : Config} {s : RefState} {p : ℕ}

theorem newPCB_fits {w : World} {r : RefCounts} (h : r.Fits w.places w.held w.fresh) (p : ℕ) :
    (r.newPCB w.fresh).Fits (Finset.range (w.processes + 1) ×ˢ Finset.range 31) (w.childHeld p 0) (w.fresh + 4) := by
  have hmem : ∀ n, n < 31 → (w.processes, n) ∈ Finset.range (w.processes + 1) ×ˢ Finset.range 31 := by
    intro n hn
    exact Finset.mem_product.mpr ⟨Finset.self_mem_range_succ _, Finset.mem_range.mpr hn⟩
  have hnone : ∀ n, w.held (w.processes, n) = none := fun n => World.held_of_ge (Nat.le_refl _)
  have hsub : w.places ⊆ Finset.range (w.processes + 1) ×ˢ Finset.range 31 :=
    Finset.product_subset_product (Finset.range_mono (Nat.le_succ _)) (Finset.Subset.refl _)
  have hnew := h.extend hsub fun x _ hx => by
    by_contra hne
    obtain ⟨k, hk⟩ := Option.ne_none_iff_exists'.mp hne
    exact hx (World.mem_places_of_held hk)
  have h₀ := hnew.assignNew (hmem 0 (by decide))
  rw [hnone] at h₀
  have h₁ := h₀.assignNew (hmem 1 (by decide))
  rw [Function.update_of_ne (by simp), hnone] at h₁
  have h₂ := h₁.assignNew (hmem 2 (by decide))
  rw [Function.update_of_ne (by simp), Function.update_of_ne (by simp), hnone] at h₂
  have h₃ := h₂.assignNew (hmem 30 (by decide))
  rw [Function.update_of_ne (by simp), Function.update_of_ne (by simp), Function.update_of_ne (by simp), hnone] at h₃
  rw [← w.childHeld_zero p]
  exact h₃

/-- The loop of `fork`, by induction on its rounds. -/
theorem copyHandles_fits (hp : p < s.world.processes) {m : ℕ} (hm : m ≤ 10) {r : RefCounts}
    (h : r.Fits (Finset.range (s.world.processes + 1) ×ˢ Finset.range 31) (s.world.childHeld p 0) (s.world.fresh + 4)) :
    (s.copyHandles p m r).Fits (Finset.range (s.world.processes + 1) ×ˢ Finset.range 31) (s.world.childHeld p m)
      (s.world.fresh + 4) := by
  induction m with
  | zero => exact h
  | succ m ih =>
    have hmem : ∀ q n, q ≤ s.world.processes → n < 31 →
        (q, n) ∈ Finset.range (s.world.processes + 1) ×ˢ Finset.range 31 := by
      intro q n hq hn
      exact Finset.mem_product.mpr ⟨Finset.mem_range.mpr (Nat.lt_succ_of_le hq), Finset.mem_range.mpr hn⟩
    have hne : p ≠ s.world.processes := Nat.ne_of_lt hp
    have hparent : ∀ n, n < 30 → s.world.childHeld p m (p, n) = s.world.bound p n := by
      intro n hn
      rw [World.childHeld_other hne, World.held_bound hp hn]
    obtain ⟨hfd, hsp⟩ := s.world.childHeld_slots p (m := m) hm
    have hcopied : ∀ k, s.world.bound p m = some k →
        ∃ y ∈ Finset.range (s.world.processes + 1) ×ˢ Finset.range 31, s.world.childHeld p m y = some k :=
      fun k hk => ⟨(p, m), hmem p m hp.le (by omega), (hparent m (by omega)).trans hk⟩
    have h₁ := (ih (Nat.le_of_succ_le hm)).assign (hmem s.world.processes m le_rfl (by omega)) hcopied
    have hcopied' : ∀ k, s.world.bound p (10 + m) = some k →
        ∃ y ∈ Finset.range (s.world.processes + 1) ×ˢ Finset.range 31,
          Function.update (s.world.childHeld p m) (s.world.processes, m) (s.world.bound p m) y = some k := by
      intro k hk
      refine ⟨(p, 10 + m), hmem p (10 + m) hp.le (by omega), ?_⟩
      rw [Function.update_of_ne (by simp [hne]), hparent _ (by omega), hk]
    have h₂ := h₁.assign (hmem s.world.processes (10 + m) le_rfl (by omega)) hcopied'
    rw [Function.update_of_ne (by simp), hfd, hsp, World.childHeld_succ _ _ hm, World.bound_fd hm,
      World.bound_sp hm] at h₂
    exact h₂

/-- What holds while no process is reaped. -/
structure Inv (s : RefState) : Prop where
  unreaped : ∀ p, s.reaped p = false
  exited : ∀ p, s.exited p = true → p < s.world.processes
  fits : s.refs.Fits s.world.places s.world.held s.world.fresh

/-- A call that may have created an object. -/
theorem fits_of_creates {w' : World} {ret : ℕ} (h : s.refs.Fits s.world.places s.world.held s.world.fresh)
    (hp : p < s.world.processes) (hcall : w' = s.world ∧ ret = World.minusOne ∨
      ret ≠ World.minusOne ∧ ∃ n, n < 30 ∧ World.Creates s.world w' p n) :
    (if ret = World.minusOne then s.refs else s.refs.assignNew none s.world.fresh).Fits w'.places w'.held w'.fresh := by
  rcases hcall with ⟨rfl, hret⟩ | ⟨hret, n, hn, hempty, hheld, hprocesses, hfresh⟩
  · rw [if_pos hret]
    exact h
  · have hplaces : w'.places = s.world.places := by rw [World.places, World.places, hprocesses]
    have hnew := h.assignNew (World.slot_mem_places hp (Nat.lt_succ_of_lt hn))
    rw [hempty] at hnew
    rw [if_neg hret, hplaces, hheld, hfresh]
    exact hnew

theorem fork_fits (h : s.refs.Fits s.world.places s.world.held s.world.fresh) (hp : p < s.world.processes) :
    (s.refsAfter p .fork).Fits (s.world.fork p).world.places (s.world.fork p).world.held
      (s.world.fork p).world.fresh := by
  cases hscan : s.world.freeChild p with
  | none =>
    have hfail : s.world.fork p = s.world.fail := by rw [World.fork, hscan]
    rw [refsAfter, hscan, hfail]
    exact h
  | some i =>
    obtain ⟨hi, hnone, hheld, hprocesses, hfresh⟩ := World.fork_held hp hscan
    have hne : p ≠ s.world.processes := Nat.ne_of_lt hp
    have hcopied := copyHandles_fits hp (Nat.le_refl 10) (newPCB_fits h p)
    have hmem : ∀ q n, q ≤ s.world.processes → n < 31 →
        (q, n) ∈ Finset.range (s.world.processes + 1) ×ˢ Finset.range 31 := by
      intro q n hq hn
      exact Finset.mem_product.mpr ⟨Finset.mem_range.mpr (Nat.lt_succ_of_le hq), Finset.mem_range.mpr hn⟩
    have hfuture : (s.world.spawn.pcb s.world.processes).future = s.world.fresh + 3 := by
      simp [World.spawn, World.newPCB, World.setPcb]
    have hshared : ∀ k, some (s.world.fresh + 3) = some k →
        ∃ y ∈ Finset.range (s.world.processes + 1) ×ˢ Finset.range 31, s.world.childHeld p 10 y = some k :=
      fun k hk => ⟨(s.world.processes, 30), hmem _ 30 le_rfl (by decide), by
        rw [← hk, World.childHeld, if_pos rfl]
        rfl⟩
    have hparent := hcopied.assign (hmem p (20 + i) hp.le (by omega)) hshared
    have hslot : s.world.childHeld p 10 (p, 20 + i) = s.world.cpAt p i := by
      rw [World.childHeld_other hne, World.held_bound hp (by omega), World.bound_cp]
    rw [refsAfter, hscan, World.places, hheld, hprocesses, hfresh]
    dsimp only
    rw [hfuture, ← hslot]
    exact hparent

theorem close_fits (h : s.refs.Fits s.world.places s.world.held s.world.fresh) (hp : p < s.world.processes) (n : ℕ) :
    (s.refsAfter p (.close n)).Fits (s.world.close p n).world.places (s.world.close p n).world.held
      (s.world.close p n).world.fresh := by
  by_cases hn : n < 30
  · obtain ⟨hheld, hprocesses, hfresh⟩ := World.close_empties hp hn
    have hnone : ∀ k, none = some k → ∃ y ∈ s.world.places, s.world.held y = some k := fun k hk => by cases hk
    have hdropped := h.assign (World.slot_mem_places hp (Nat.lt_succ_of_lt hn)) hnone
    rw [World.held_bound hp hn] at hdropped
    rw [refsAfter, World.places, hheld, hprocesses, hfresh]
    exact hdropped
  · have hfail : s.world.close p n = s.world.fail := by
      unfold World.close
      rw [if_pos (by omega)]
    rw [refsAfter, hfail, World.bound_of_ge (by omega)]
    exact h

theorem call_fits {c : Syscall} {o : Outcome} (h : s.refs.Fits s.world.places s.world.held s.world.fresh)
    (hp : p < s.world.processes) (ho : s.world.sysHandler cfg p c = .ok o) :
    (s.refsAfter p c).Fits o.world.places o.world.held o.world.fresh ∧ s.world.processes ≤ o.world.processes := by
  refine ⟨?_, (World.sysHandler_step hp ho).processes_le⟩
  cases c with
  | openFile filename file =>
    obtain rfl : s.world.openFile p filename file = o := Except.ok.inj ho
    exact fits_of_creates h hp (World.openFile_creates hp filename file)
  | sem initial =>
    obtain rfl : s.world.sem p = o := Except.ok.inj ho
    exact fits_of_creates h hp (World.sem_creates hp)
  | fork =>
    obtain rfl : s.world.fork p = o := Except.ok.inj ho
    exact fork_fits h hp
  | close n =>
    obtain rfl : s.world.close p n = o := Except.ok.inj ho
    exact close_fits h hp n
  | write | up | down | wait | len | read | seek =>
    rcases World.use_world ho (by simp) with hsame | ⟨j, x, -, hset⟩
    · rw [hsame]
      exact h
    · rw [hset]
      exact h

/-- Every action but the deletion of a thread keeps the counts right. -/
theorem Inv.next {a : RefAct} (h : s.Inv) (ha : s.enabled a) (hreap : ∀ p, a ≠ .reap p) : (s.next cfg a).Inv := by
  cases a with
  | call p c =>
    cases ho : s.world.sysHandler cfg p c with
    | error stop =>
      have hnext : s.next cfg (.call p c) = s := by simp only [RefState.next, ho]
      rw [hnext]
      exact h
    | ok o =>
      have hnext : s.next cfg (.call p c) = { s with world := o.world, refs := s.refsAfter p c } := by
        simp only [RefState.next, ho]
      obtain ⟨hfits, hle⟩ := call_fits h.fits ha.1 ho
      rw [hnext]
      exact ⟨h.unreaped, fun q hq => (h.exited q hq).trans_le hle, hfits⟩
  | exit p =>
    refine ⟨h.unreaped, ?_, h.fits⟩
    intro q hq
    change Function.update s.exited p true q = true at hq
    rw [Function.update_apply] at hq
    split_ifs at hq with hqp
    · rw [hqp]
      exact ha.1
    · exact h.exited q hq
  | reap p => exact absurd rfl (hreap p)

theorem Inv.boot (node : ℕ → BlockIO) : (RefState.boot node).Inv := by
  obtain ⟨w, hw, hprocesses, hfresh⟩ : ∃ w : World, w.spawn = World.boot node ∧ w.processes = 0 ∧ w.fresh = 0 :=
    ⟨_, rfl, rfl, rfl⟩
  have hnone : ∀ x, w.held x = none := fun x => World.held_of_ge (by omega)
  have hempty : (⟨fun _ => 0, fun _ => false⟩ : RefCounts).Fits w.places w.held w.fresh := by
    have hzero : ∀ k, tally w.places w.held k = 0 := by
      intro k
      by_contra hne
      obtain ⟨x, -, hx⟩ := tally_ne_zero_iff.mp hne
      rw [hnone] at hx
      cases hx
    refine ⟨?_, ?_, ?_⟩
    · intro k
      rw [hzero]
      rfl
    · intro k
      rw [hzero]
      exact iff_of_false Bool.false_ne_true (fun h => h rfl)
    · intro x k hk
      rw [hnone] at hk
      cases hk
  have hfits := newPCB_fits hempty 0
  rw [← World.spawn_held, hfresh] at hfits
  have hplaces : (World.boot node).places = Finset.range (w.processes + 1) ×ˢ Finset.range 31 := by
    rw [← hw]
    rfl
  refine ⟨fun _ => rfl, fun _ hq => (by cases hq), ?_⟩
  show RefCounts.Fits _ (World.boot node).places (World.boot node).held 4
  rw [hplaces, ← hw]
  exact hfits

theorem Inv.counted (h : s.Inv) : s.Counted := by
  intro k _
  have hall : (s.world.places.filter fun x => s.reaped x.1 = false) = s.world.places :=
    Finset.filter_true_of_mem fun x _ => h.unreaped x.1
  rw [remaining, hall]
  exact ⟨h.fits.count k, h.fits.live k⟩

/-- The future of a process that is reaped still counts for the slot in its PCB. -/
theorem Inv.not_counted_of_reap (h : s.Inv) (cfg : Config) (ha : s.enabled (.reap p)) :
    ¬ (s.next cfg (.reap p)).Counted := by
  intro hcounted
  have hp := h.exited p ha.1
  have hheld : s.world.held (p, 30) = some (s.world.pcb p).future := by
    rw [World.held, if_pos hp, if_pos rfl]
  have hlt : (s.next cfg (.reap p)).remaining (s.world.pcb p).future < tally s.world.places s.world.held _ :=
    tally_filter_lt (World.mem_places_of_held hheld) (by simp [RefState.next]) hheld
  have hcount := (hcounted _ (h.fits.known _ _ hheld)).1
  have hold : s.refs.count (s.world.pcb p).future = (s.next cfg (.reap p)).remaining (s.world.pcb p).future := hcount
  rw [h.fits.count] at hold
  omega

/-- The references are right all along a run just when no process is reaped in it. -/
theorem references_right_iff (cfg : Config) (node : ℕ → BlockIO) (acts : List RefAct) (t : RefState)
    (hrun : (refMachine cfg).Run (RefState.boot node) acts t) :
    (refMachine cfg).Along Counted (RefState.boot node) acts ↔ ∀ a ∈ acts, ∀ p, a ≠ .reap p := by
  rw [← hrun.restrict_iff]
  apply hrun.along_iff (I := Inv) (fun s hs => hs.counted)
  · intro s a hs ha hok
    exact hs.next ha hok
  · intro s a hs ha hnot
    push Not at hnot
    obtain ⟨p, rfl⟩ := hnot
    exact hs.not_counted_of_reap cfg ha
  · exact Inv.boot node

def idle : RefState := boot fun _ => BlockIO.tenBytes

/-- A process with a file and a semaphore forks, and closes the child when that has ended. -/
def forkAndClose : List RefAct :=
  [.call 0 (.openFile 0x80000000 (some 0)), .call 0 (.sem 1), .call 0 .fork, .exit 1, .call 0 (.close 20)]

theorem forkAndClose_right : (refMachine World.pcConfig).Along Counted idle forkAndClose := by
  have hrun : ∃ t, (refMachine World.pcConfig).Run idle forkAndClose t ∧ (fun _ => true) t = true :=
    Machine.exists_run_of_replay (by decide +kernel)
  obtain ⟨t, ht, -⟩ := hrun
  refine (references_right_iff _ _ _ t ht).mpr ?_
  simp [forkAndClose]

/-- The child has been reaped, and its parent has closed it: nobody has the future any more, and it is still there. -/
theorem future_leaks : ∃ t, (refMachine World.pcConfig).Run idle
    [.call 0 .fork, .exit 1, .reap 1, .call 0 (.close 20)] t ∧
      t.remaining 7 = 0 ∧ t.refs.count 7 = 1 ∧ t.refs.live 7 = true ∧ ¬ t.Counted := by
  have hrun : ∃ t, (refMachine World.pcConfig).Run idle [.call 0 .fork, .exit 1, .reap 1, .call 0 (.close 20)] t ∧
      decide (7 < t.world.fresh ∧ t.remaining 7 = 0 ∧ t.refs.count 7 = 1 ∧ t.refs.live 7 = true) = true :=
    Machine.exists_run_of_replay (by decide +kernel)
  obtain ⟨t, ht, hcheck⟩ := hrun
  obtain ⟨hfresh, hnone, hcount, hlive⟩ := of_decide_eq_true hcheck
  refine ⟨t, ht, hnone, hcount, hlive, ?_⟩
  intro hcounted
  have hright := (hcounted 7 hfresh).1
  rw [hnone, hcount] at hright
  cases hright

end RefState
end AudioKernel
