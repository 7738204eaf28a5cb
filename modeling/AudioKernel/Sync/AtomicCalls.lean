import AudioKernel.Lib.Counting
import AudioKernel.Sync.BlockingLock

/-! Programs over semaphores, with every call of `down` and `up` as a single step: what the step by step model of a
semaphore refines, and how a program accounts for the permits. -/
namespace AudioKernel
open Lib

variable {T : Type}

namespace Semaphore

/-- `down` as a single step, with whether it returns at once. Else the caller waits to be handed a permit. -/
def down (x : Semaphore T) (me : T) : Bool × Semaphore T :=
  match x.tryDown with
  | some y => (true, y)
  | none => (false, x.enqueue me)

def settled (x : Semaphore T) : Semaphore T := { x with taken := false }

theorem tryDown_some {x y : Semaphore T} (h : x.tryDown = some y) :
    y.count + 1 = x.count ∧ y.waiting = x.waiting ∧ y.taken = x.taken := by
  unfold tryDown at h
  split_ifs at h with hpos
  cases h
  exact ⟨Nat.sub_add_cancel hpos, rfl, rfl⟩

theorem tryDown_settled (x : Semaphore T) : x.settled.tryDown = x.tryDown.map settled := by
  unfold tryDown settled
  split_ifs <;> rfl

theorem handOver_settled (x : Semaphore T) : x.settled.handOver.2 = x.handOver.2.settled := by
  cases hw : x.waiting with
  | nil => rw [handOver_nil hw, handOver_nil (s := x.settled) hw]; rfl
  | cons next rest => rw [handOver_cons hw, handOver_cons (s := x.settled) hw]; rfl

end Semaphore

/-- The calls on a semaphore, each as a single step. -/
inductive CallAct (T : Type)
  | down (t : T)
  | up (t : T)

/-- The semaphore alone, whose calls are single steps. -/
def callMachine (T : Type) (n : ℕ) : Machine (Semaphore T) (CallAct T) where
  init x := x = ⟨n, false, []⟩
  enabled x a :=
    match a with
    | .down t => t ∉ x.waiting
    | .up _ => True
  next x a :=
    match a with
    | .down t => (x.down t).2
    | .up _ => x.handOver.2

namespace SemState

variable [DecidableEq T] {n : ℕ} {s : SemState T}

/-- A step inside a call changes the count and the queue as the call as a whole does, or not at all. -/
theorem step_settled (h : Inv n s) {a : SemAct T} (he : s.enabled a = true) :
    (s.next a).sem.settled = s.sem.settled ∨ ∃ b, (callMachine T n).enabled s.sem.settled b ∧
      (s.next a).sem.settled = (callMachine T n).next s.sem.settled b := by
  cases a with
  | down t => exact .inl rfl
  | up t => exact .inl rfl
  | step t =>
    change (s.stepThread t).sem.settled = _ ∨ ∃ b, _ ∧ (s.stepThread t).sem.settled = _
    cases ht : s.pc t with
    | out | asleep => simp [enabled, canStep, ht] at he
    | downLock | downUnlock | downRelease | upLock | upSchedule next =>
      left
      simp only [stepThread, ht]
      rfl
    | upUnlock next =>
      left
      cases next <;> simp only [stepThread, ht] <;> rfl
    | downTest =>
      cases hx : s.sem.tryDown with
      | none =>
        left
        simp only [stepThread, ht, hx]
        rfl
      | some x =>
        have hnot : t ∉ s.sem.waiting := by
          intro hmem
          have hwaits := h.queue.waits_of_mem hmem
          rw [ht] at hwaits
          cases hwaits
        refine .inr ⟨.down t, hnot, ?_⟩
        simp only [stepThread, ht, hx, callMachine, Semaphore.down, Semaphore.tryDown_settled, Option.map_some]
    | downBlock =>
      have hnot : t ∉ s.sem.waiting := by
        intro hmem
        have hwaits := h.queue.waits_of_mem hmem
        rw [ht] at hwaits
        cases hwaits
      -- nobody has changed the count since it was found to be 0
      have hnone : s.sem.tryDown = none := by simp [Semaphore.tryDown, h.blocked t ht]
      refine .inr ⟨.down t, hnot, ?_⟩
      simp only [stepThread, ht, callMachine, Semaphore.down, Semaphore.tryDown_settled, hnone, Option.map_none]
      rfl
    | upTake =>
      refine .inr ⟨.up t, trivial, ?_⟩
      have hup : (s.stepThread t).sem = s.sem.handOver.2 := by
        simp only [stepThread, ht]
        cases hw : s.sem.waiting with
        | nil => rw [Semaphore.handOver_nil hw]
        | cons next rest => rw [Semaphore.handOver_cons hw]
      rw [hup]
      exact (Semaphore.handOver_settled _).symm

/-- The step by step model of a semaphore refines the one with single calls. -/
theorem refines_calls (h : (semMachine T n).Reachable s) : (callMachine T n).Reachable s.sem.settled := by
  apply h.refines (fun s => s.sem.settled) fun s hs => reachable_inv hs
  · intro s hs
    change s = .new n at hs
    rw [hs]
    rfl
  · exact fun s a hi he => step_settled hi he

end SemState

/-- Threads at program points and the semaphores that they call. -/
structure SemProgram (K T P : Type) where
  sem : K → Semaphore T
  pc : T → P

namespace SemProgram

variable {K P : Type} [DecidableEq K] [DecidableEq T]

section calls
variable (s : SemProgram K T P)

def setPc (t : T) (q : P) : SemProgram K T P := { s with pc := Function.update s.pc t q }

/-- The thread calls `down`, and is then at `got`, or asleep at `blocked`. -/
def down (k : K) (t : T) (got blocked : P) : SemProgram K T P :=
  match (s.sem k).down t with
  | (true, x) => ⟨Function.update s.sem k x, Function.update s.pc t got⟩
  | (false, x) => ⟨Function.update s.sem k x, Function.update s.pc t blocked⟩

/-- The thread calls `up`, and is then at `q`; the thread that it hands the permit to goes on at `wake`. -/
def up (k : K) (t : T) (q : P) (wake : P → P) : SemProgram K T P :=
  match (s.sem k).handOver with
  | (none, x) => ⟨Function.update s.sem k x, Function.update s.pc t q⟩
  | (some u, x) => ⟨Function.update s.sem k x, Function.update (Function.update s.pc t q) u (wake (s.pc u))⟩

end calls

section cases
variable (s : SemProgram K T P) (k : K) (t : T) (got blocked q : P) (wake : P → P)

theorem down_cases :
    (∃ x, (s.sem k).tryDown = some x ∧
      s.down k t got blocked = ⟨Function.update s.sem k x, Function.update s.pc t got⟩) ∨
    ((s.sem k).tryDown = none ∧ s.down k t got blocked =
      ⟨Function.update s.sem k ((s.sem k).enqueue t), Function.update s.pc t blocked⟩) := by
  unfold down Semaphore.down
  cases hx : (s.sem k).tryDown with
  | none => exact .inr ⟨rfl, rfl⟩
  | some x => exact .inl ⟨x, rfl, rfl⟩

theorem up_cases :
    ((s.sem k).waiting = [] ∧ s.up k t q wake =
      ⟨Function.update s.sem k { s.sem k with count := ((s.sem k).count + 1) % 2 ^ 64 }, Function.update s.pc t q⟩) ∨
    ∃ u rest, (s.sem k).waiting = u :: rest ∧ s.up k t q wake =
      ⟨Function.update s.sem k { s.sem k with waiting := rest },
        Function.update (Function.update s.pc t q) u (wake (s.pc u))⟩ := by
  unfold up
  cases hw : (s.sem k).waiting with
  | nil => exact .inl ⟨rfl, by rw [Semaphore.handOver_nil hw]⟩
  | cons u rest => exact .inr ⟨u, rest, rfl, by rw [Semaphore.handOver_cons hw]⟩

end cases

/-- The queues hold the threads that are asleep, and no thread twice. -/
structure Queued (asleep? : P → Option K) (s : SemProgram K T P) : Prop where
  nodup : ∀ k, (s.sem k).waiting.Nodup
  mem_iff : ∀ k t, t ∈ (s.sem k).waiting ↔ asleep? (s.pc t) = some k

namespace Queued

variable {asleep? : P → Option K} {s : SemProgram K T P} {k : K} {t : T} {got blocked q : P} {wake : P → P}

omit [DecidableEq K] in
theorem setPc (h : Queued asleep? s) (ht : asleep? (s.pc t) = none) (hq : asleep? q = none) :
    Queued asleep? (s.setPc t q) := by
  refine ⟨h.nodup, fun j u => ?_⟩
  show u ∈ (s.sem j).waiting ↔ asleep? (Function.update s.pc t q u) = some j
  by_cases hu : u = t
  · rw [h.mem_iff, hu, Function.update_self, ht, hq]
  · rw [h.mem_iff, Function.update_of_ne hu]

theorem down (h : Queued asleep? s) (ht : asleep? (s.pc t) = none) (hgot : asleep? got = none)
    (hblocked : asleep? blocked = some k) : Queued asleep? (s.down k t got blocked) := by
  have hnot : ∀ j, t ∉ (s.sem j).waiting := by
    intro j hmem
    rw [h.mem_iff, ht] at hmem
    cases hmem
  rcases down_cases s k t got blocked with ⟨x, hx, hdown⟩ | ⟨-, hdown⟩
  · have hsame : ∀ j, (Function.update s.sem k x j).waiting = (s.sem j).waiting := by
      intro j
      by_cases hj : j = k
      · rw [hj, Function.update_self, (Semaphore.tryDown_some hx).2.1]
      · rw [Function.update_of_ne hj]
    have hpc := h.setPc ht hgot
    rw [hdown]
    constructor
    · intro j
      show (Function.update s.sem k x j).waiting.Nodup
      rw [hsame]
      exact h.nodup j
    · intro j u
      show u ∈ (Function.update s.sem k x j).waiting ↔ asleep? (Function.update s.pc t got u) = some j
      rw [hsame]
      exact hpc.mem_iff j u
  · rw [hdown]
    constructor
    · intro j
      show (Function.update s.sem k ((s.sem k).enqueue t) j).waiting.Nodup
      by_cases hj : j = k
      · rw [hj, Function.update_self]
        exact List.nodup_append.mpr ⟨h.nodup k, List.nodup_singleton t, by
          intro u hu v hv huv
          rw [List.mem_singleton] at hv
          rw [huv, hv] at hu
          exact hnot k hu⟩
      · rw [Function.update_of_ne hj]
        exact h.nodup j
    · intro j u
      show u ∈ (Function.update s.sem k ((s.sem k).enqueue t) j).waiting ↔
        asleep? (Function.update s.pc t blocked u) = some j
      by_cases hu : u = t
      · rw [hu, Function.update_self, hblocked]
        by_cases hj : j = k
        · simp [hj, Semaphore.enqueue]
        · rw [Function.update_of_ne hj]
          simp [hnot j, Ne.symm hj]
      · rw [Function.update_of_ne hu, ← h.mem_iff]
        by_cases hj : j = k
        · simp [hj, Semaphore.enqueue, hu]
        · rw [Function.update_of_ne hj]

theorem up (h : Queued asleep? s) (ht : asleep? (s.pc t) = none) (hq : asleep? q = none)
    (hwake : ∀ p, asleep? p = some k → asleep? (wake p) = none) : Queued asleep? (s.up k t q wake) := by
  have hpc := h.setPc ht hq
  rcases up_cases s k t q wake with ⟨-, hup⟩ | ⟨u, rest, hw, hup⟩
  · have hsame : ∀ j, (Function.update s.sem k { s.sem k with count := ((s.sem k).count + 1) % 2 ^ 64 } j).waiting =
        (s.sem j).waiting := by
      intro j
      by_cases hj : j = k
      · rw [hj, Function.update_self]
      · rw [Function.update_of_ne hj]
    rw [hup]
    constructor
    · intro j
      show (Function.update s.sem k _ j).waiting.Nodup
      rw [hsame]
      exact h.nodup j
    · intro j v
      show v ∈ (Function.update s.sem k _ j).waiting ↔ asleep? (Function.update s.pc t q v) = some j
      rw [hsame]
      exact hpc.mem_iff j v
  · have hnodup := h.nodup k
    rw [hw] at hnodup
    have hu : asleep? (s.pc u) = some k := (h.mem_iff k u).mp (by rw [hw]; exact List.mem_cons_self)
    rw [hup]
    constructor
    · intro j
      show (Function.update s.sem k { s.sem k with waiting := rest } j).waiting.Nodup
      by_cases hj : j = k
      · rw [hj, Function.update_self]
        exact (List.nodup_cons.mp hnodup).2
      · rw [Function.update_of_ne hj]
        exact h.nodup j
    · intro j v
      show v ∈ (Function.update s.sem k { s.sem k with waiting := rest } j).waiting ↔
        asleep? (Function.update (Function.update s.pc t q) u (wake (s.pc u)) v) = some j
      have hold : v ∈ (s.sem j).waiting ↔ asleep? (Function.update s.pc t q v) = some j := hpc.mem_iff j v
      by_cases hv : v = u
      · rw [hv, Function.update_self, hwake _ hu]
        by_cases hj : j = k
        · rw [hj, Function.update_self]
          simp [(List.nodup_cons.mp hnodup).1]
        · rw [Function.update_of_ne hj, h.mem_iff, hu]
          simp [Ne.symm hj]
      · rw [Function.update_of_ne hv, ← hold]
        by_cases hj : j = k
        · rw [hj, Function.update_self, hw]
          simp [hv]
        · rw [Function.update_of_ne hj]

theorem up_self (h : Queued asleep? s) (ht : asleep? (s.pc t) = none) : (s.up k t q wake).pc t = q := by
  rcases up_cases s k t q wake with ⟨-, hup⟩ | ⟨u, rest, hw, hup⟩
  · rw [hup]
    exact Function.update_self ..
  · have hu : asleep? (s.pc u) = some k := (h.mem_iff k u).mp (by rw [hw]; exact List.mem_cons_self)
    have htu : t ≠ u := by
      intro htu
      rw [← htu, ht] at hu
      cases hu
    rw [hup]
    exact (Function.update_of_ne htu ..).trans (Function.update_self ..)

/-- A call of `up` wakes a thread that sleeps on the semaphore, or lets the others be. -/
theorem up_other (h : Queued asleep? s) (wake : P → P) {u : T} (hu : u ≠ t) : (s.up k t q wake).pc u = s.pc u ∨
    asleep? (s.pc u) = some k ∧ (s.up k t q wake).pc u = wake (s.pc u) := by
  rcases up_cases s k t q wake with ⟨-, hup⟩ | ⟨x, rest, hw, hup⟩
  · rw [hup]
    exact .inl (Function.update_of_ne hu ..)
  · rw [hup]
    by_cases hux : u = x
    · rw [hux]
      exact .inr ⟨(h.mem_iff k x).mp (by rw [hw]; exact List.mem_cons_self), Function.update_self ..⟩
    · exact .inl ((Function.update_of_ne hux ..).trans (Function.update_of_ne hu ..))

end Queued

section down
variable (s : SemProgram K T P) (k : K) (t : T) (got blocked : P)

/-- A thread gets a permit at once when there is one. -/
theorem down_self : 0 < (s.sem k).count ∧ (s.down k t got blocked).pc t = got ∨
    (s.sem k).count = 0 ∧ (s.down k t got blocked).pc t = blocked := by
  rcases down_cases s k t got blocked with ⟨x, hx, hdown⟩ | ⟨hx, hdown⟩
  · have hcount := (Semaphore.tryDown_some hx).1
    rw [hdown]
    exact .inl ⟨by omega, Function.update_self ..⟩
  · have hzero : (s.sem k).count = 0 := by
      unfold Semaphore.tryDown at hx
      split_ifs at hx with hpos
      omega
    rw [hdown]
    exact .inr ⟨hzero, Function.update_self ..⟩

theorem down_other {s : SemProgram K T P} {k : K} {t : T} {got blocked : P} {u : T} (hu : u ≠ t) :
    (s.down k t got blocked).pc u = s.pc u := by
  rcases down_cases s k t got blocked with ⟨x, -, hdown⟩ | ⟨-, hdown⟩ <;>
    rw [hdown] <;> exact Function.update_of_ne hu ..

end down

/-- The permits of a semaphore, when a thread at program point `p` has `w k p` of them. -/
def total [Fintype T] (w : K → P → ℕ) (k : K) (s : SemProgram K T P) : ℕ := (s.sem k).count + ∑ t, w k (s.pc t)

section total
variable [Fintype T] {w : K → P → ℕ} {asleep? : P → Option K} {s : SemProgram K T P} {j k : K} {t : T}
  {got blocked q : P} {wake : P → P}

omit [DecidableEq K] in
theorem total_setPc : (s.setPc t q).total w j + w j (s.pc t) = s.total w j + w j q := by
  have hsum := sum_update (w j) s.pc t q
  show (s.sem j).count + ∑ u, w j (Function.update s.pc t q u) + w j (s.pc t) = _
  unfold total
  omega

omit [DecidableEq K] [DecidableEq T] in
theorem le_total : w j (s.pc t) ≤ s.total w j :=
  le_sum.trans (Nat.le_add_left ..)

omit [DecidableEq K] in
theorem pair_le_total {u : T} (htu : t ≠ u) : w j (s.pc t) + w j (s.pc u) ≤ s.total w j :=
  (pair_le_sum htu).trans (Nat.le_add_left ..)

theorem total_down (hgot : ∀ j, w j got = w j (s.pc t) + if j = k then 1 else 0)
    (hblocked : ∀ j, w j blocked = w j (s.pc t)) : (s.down k t got blocked).total w j = s.total w j := by
  rcases down_cases s k t got blocked with ⟨x, hx, hdown⟩ | ⟨-, hdown⟩
  · have hsum := sum_update (w j) s.pc t got
    have hcount := (Semaphore.tryDown_some hx).1
    rw [hgot] at hsum
    rw [hdown]
    show (Function.update s.sem k x j).count + ∑ u, w j (Function.update s.pc t got u) = (s.sem j).count + _
    by_cases hj : j = k
    · subst hj
      rw [Function.update_self]
      rw [if_pos rfl] at hsum
      omega
    · rw [Function.update_of_ne hj]
      rw [if_neg hj] at hsum
      omega
  · have hsum := sum_update (w j) s.pc t blocked
    rw [hblocked] at hsum
    have hcount : (Function.update s.sem k ((s.sem k).enqueue t) j).count = (s.sem j).count := by
      by_cases hj : j = k
      · rw [hj, Function.update_self]
        rfl
      · rw [Function.update_of_ne hj]
    rw [hdown]
    show (Function.update s.sem k _ j).count + ∑ u, w j (Function.update s.pc t blocked u) = (s.sem j).count + _
    rw [hcount]
    omega

theorem total_up (h : Queued asleep? s) (ht : asleep? (s.pc t) = none)
    (hq : ∀ j, w j (s.pc t) = w j q + if j = k then 1 else 0)
    (hwake : ∀ p, asleep? p = some k → ∀ j, w j (wake p) = w j p + if j = k then 1 else 0)
    (hcount : (s.sem k).count + 1 < 2 ^ 64) : (s.up k t q wake).total w j = s.total w j := by
  have hsum := sum_update (w j) s.pc t q
  rw [hq] at hsum
  rcases up_cases s k t q wake with ⟨-, hup⟩ | ⟨u, rest, hw, hup⟩
  · rw [hup]
    show (Function.update s.sem k { s.sem k with count := ((s.sem k).count + 1) % 2 ^ 64 } j).count +
      ∑ v, w j (Function.update s.pc t q v) = (s.sem j).count + _
    by_cases hj : j = k
    · subst hj
      rw [Function.update_self]
      show ((s.sem j).count + 1) % 2 ^ 64 + _ = _
      rw [Nat.mod_eq_of_lt hcount]
      rw [if_pos rfl] at hsum
      omega
    · rw [Function.update_of_ne hj]
      rw [if_neg hj] at hsum
      omega
  · have hu : asleep? (s.pc u) = some k := (h.mem_iff k u).mp (by rw [hw]; exact List.mem_cons_self)
    have hut : u ≠ t := by
      intro hut
      rw [hut, ht] at hu
      cases hu
    have hsum' := sum_update (w j) (Function.update s.pc t q) u (wake (s.pc u))
    rw [Function.update_of_ne hut, hwake _ hu] at hsum'
    have hsame : (Function.update s.sem k { s.sem k with waiting := rest } j).count = (s.sem j).count := by
      by_cases hj : j = k
      · rw [hj, Function.update_self]
      · rw [Function.update_of_ne hj]
    rw [hup]
    show (Function.update s.sem k { s.sem k with waiting := rest } j).count +
      ∑ v, w j (Function.update (Function.update s.pc t q) u (wake (s.pc u)) v) = (s.sem j).count + _
    rw [hsame]
    omega

end total
end SemProgram
end AudioKernel
