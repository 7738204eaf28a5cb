import AudioKernel.Sys.Bindings

/-! Parents and children: `fork`, `exit` and `wait` of `sys.cc` by any number of processes. That the future of a process
gives its value to all who ask is shown elsewhere; here `get` is one step, which can be taken when the value is there. -/
namespace AudioKernel
open Lib

/-- A `wait` that has returned: which process had been forked into the slot, and what has been stored to the user. -/
structure Delivery where
  parent : ℕ
  id : ℕ
  child : Option ℕ
  status : ℕ
  rc : ℕ
  stores : Stores

/-- The tables of the processes, the values of the futures, and who is in `get`. Recorded are the exit codes, the process
that has been forked into a number of a process, the calls of `wait` that have returned, and whether the `ASSERT` of
`Future::set` has failed. -/
structure Family where
  world : World
  value : ℕ → Option ℕ
  waiting : ℕ → Option (ℕ × ℕ)
  exited : ℕ → Option ℕ
  child : ℕ → ℕ → Option ℕ
  delivered : List Delivery
  failed : Bool

/-- A process makes a call other than these, exits, calls `get` in `wait`, or comes back from there. -/
inductive FamilyAct
  | call (p : ℕ) (c : Syscall)
  | exit (p rc : ℕ)
  | wait (p id status : ℕ)
  | wake (p : ℕ)

namespace Family

variable (cfg : Config) (s : Family)

/-- The process is there, and not in a call. -/
def Runs (p : ℕ) : Prop := p < s.world.processes ∧ s.exited p = none ∧ s.waiting p = none

/-- A `wait` that fails is one of the other calls. The handle of an unbound number would be null: it is not called. -/
def enabled : FamilyAct → Prop
  | .call p c => s.Runs p ∧ ∀ id status rc, c = .wait id status rc → World.badBuffer cfg status = true ∨ id < 20 ∨ id > 29
  | .exit p _ => s.Runs p
  | .wait p id status =>
    s.Runs p ∧ World.badBuffer cfg status = false ∧ 20 ≤ id ∧ id ≤ 29 ∧ s.world.cpAt p (id - 20) ≠ none
  | .wake p => ∃ id status k rc, s.waiting p = some (id, status) ∧ s.world.cpAt p (id - 20) = some k ∧ s.value k = some rc

def childAfter (p : ℕ) (c : Syscall) (o : Outcome) : ℕ → ℕ → Option ℕ :=
  match c with
  | .fork =>
    if o.ret = World.minusOne then s.child
    else Function.update s.child p (Function.update (s.child p) o.ret (some s.world.processes))
  | .close n => Function.update s.child p (Function.update (s.child p) n none)
  | _ => s.child

def next : FamilyAct → Family
  | .call p c =>
    match s.world.sysHandler cfg p c with
    | .ok o => { s with world := o.world, child := s.childAfter p c o }
    | .error _ => s
  | .exit p rc =>
    let k := (s.world.pcb p).future
    { s with
      value := Function.update s.value k (some rc)
      exited := Function.update s.exited p (some rc)
      failed := s.failed || (s.value k).isSome }
  | .wait p id status => { s with waiting := Function.update s.waiting p (some (id, status)) }
  | .wake p =>
    match s.waiting p with
    | none => s
    | some (id, status) =>
      match (s.world.cpAt p (id - 20)).bind s.value with
      | none => s
      | some rc =>
        match s.world.wait cfg id status (some rc) with
        | .error _ => s
        | .ok o => { s with
          waiting := Function.update s.waiting p none
          delivered := s.delivered ++ [⟨p, id, s.child p id, status, rc, o.stores⟩] }

def boot (node : ℕ → BlockIO) : Family where
  world := World.boot node
  value _ := none
  waiting _ := none
  exited _ := none
  child _ _ := none
  delivered := []
  failed := false

end Family

def familyMachine (cfg : Config) : Machine Family FamilyAct where
  init s := ∃ node, s = Family.boot node
  enabled s a := s.enabled cfg a
  next s a := s.next cfg a

namespace World

variable {cfg : Config} {w : World} {p q n i : ℕ} {h : Option ℕ}

/-- What a call of `p` other than `fork` leaves of the families: who is there, with which futures, and the children that
are not closed. -/
structure Keeps (w w' : World) (p : ℕ) (closed : ℕ → Prop) : Prop where
  processes : w'.processes = w.processes
  future : ∀ q, (w'.pcb q).future = (w.pcb q).future
  child : ∀ n, 20 ≤ n → ¬ closed n → w'.bound p n = w.bound p n

theorem Keeps.refl (w : World) (p : ℕ) (closed : ℕ → Prop) : Keeps w w p closed := ⟨rfl, fun _ => rfl, fun _ _ _ => rfl⟩

theorem Stored.keeps {w' : World} {closed : ℕ → Prop} (hs : Stored w w' p n h) (hn : n < 20 ∨ closed n) :
    Keeps w w' p closed where
  processes := hs.processes
  future := hs.future
  child m hm hopen := by
    have hne : m ≠ n := by
      rintro rfl
      exact hn.elim (Nat.not_lt_of_le hm) hopen
    rw [hs.bound, Function.update_of_ne hne]

/-- The slots of the tables that `find?` finds. -/
theorem find_lt {f : ℕ → Bool} (hf : (List.range 10).find? f = some i) : i < 10 :=
  List.mem_range.mp (List.mem_of_find?_eq_some hf)

theorem openFile_keeps (filename : ℕ) (file : Option ℕ) (closed : ℕ → Prop) :
    Keeps w (w.openFile p filename file).world p closed := by
  unfold openFile
  split_ifs
  · exact .refl ..
  · cases file with
    | none => exact .refl ..
    | some f =>
      cases hscan : (List.range 10).find? fun i => (w.fdAt p i).isNone with
      | none => exact .refl ..
      | some i =>
        have hi : i < 10 := find_lt hscan
        have hkeeps : Keeps (w.setDesc w.fresh (.new (some f) false)) _ p closed :=
          (stored_setFd (h := some w.fresh) hi).keeps (.inl (by omega))
        exact ⟨hkeeps.processes, hkeeps.future, hkeeps.child⟩

theorem sem_keeps (closed : ℕ → Prop) : Keeps w (w.sem p).world p closed := by
  unfold sem
  cases hscan : (List.range 10).find? fun i => (w.spAt p i).isNone with
  | none => exact .refl ..
  | some i =>
    have hi : i < 10 := find_lt hscan
    have hkeeps : Keeps w _ p closed := (stored_setSp (h := some w.fresh) hi).keeps (.inl (by omega))
    exact ⟨hkeeps.processes, hkeeps.future, hkeeps.child⟩

theorem close_keeps (num : ℕ) : Keeps w (w.close p num).world p (fun n => Syscall.close num = .close n) := by
  unfold close
  split_ifs with hrange hfd hsp
  · exact .refl ..
  · cases hk : w.fdAt p num with
    | none => exact .refl ..
    | some k =>
      have hkeeps : Keeps (w.setDesc k (w.closed num k)) _ p (fun n => Syscall.close num = .close n) :=
        (stored_setFd (h := none) hfd).keeps (.inr rfl)
      exact ⟨hkeeps.processes, hkeeps.future, hkeeps.child⟩
  · exact .refl ..
  · exact (stored_setSp (h := none) (by omega)).keeps (.inl (by omega))
  · exact .refl ..
  · refine (stored_setCp (h := none) (by omega)).keeps (.inr ?_)
    rw [Nat.add_sub_cancel' (by omega)]

theorem call_keeps {c : Syscall} {o : Outcome} (ho : w.sysHandler cfg p c = .ok o) (hfork : c ≠ .fork) :
    Keeps w o.world p (fun n => c = .close n) := by
  cases c with
  | fork => exact absurd rfl hfork
  | openFile filename file =>
    obtain rfl := Except.ok.inj ho
    exact openFile_keeps ..
  | sem initial =>
    obtain rfl := Except.ok.inj ho
    exact sem_keeps ..
  | close num =>
    obtain rfl := Except.ok.inj ho
    exact close_keeps num
  | write | up | down | wait | len | read | seek =>
    rcases use_world ho (by simp) with hsame | ⟨k, x, -, hset⟩
    · rw [hsame]
      exact .refl ..
    · rw [hset]
      exact ⟨rfl, fun _ => rfl, fun _ _ _ => rfl⟩

/-- What a `fork` that finds a slot does to the families. -/
structure Forks (w : World) (p i : ℕ) (o : Outcome) : Prop where
  ret : o.ret = 20 + i
  slot_lt : i < 10
  processes : o.world.processes = w.processes + 1
  fresh : o.world.fresh = w.fresh + 4
  future : (o.world.pcb w.processes).future = w.fresh + 3
  future_other : ∀ q, q ≠ w.processes → (o.world.pcb q).future = (w.pcb q).future
  bound : o.world.bound p = Function.update (w.bound p) (20 + i) (some (w.fresh + 3))
  bound_other : ∀ q, q ≠ p → q ≠ w.processes → o.world.bound q = w.bound q
  bound_child : ∀ n, 20 ≤ n → o.world.bound w.processes n = none

/-- The processes that were there keep their futures, and one has come. -/
theorem Forks.cases {o : Outcome} (h : Forks w p i o) (hq : q < o.world.processes) :
    q < w.processes ∧ (o.world.pcb q).future = (w.pcb q).future ∨
      q = w.processes ∧ (o.world.pcb q).future = w.fresh + 3 := by
  rw [h.processes] at hq
  by_cases hnew : q = w.processes
  · exact .inr ⟨hnew, by rw [hnew, h.future]⟩
  · exact .inl ⟨by omega, h.future_other q hnew⟩

theorem Forks.bound_old {o : Outcome} (h : Forks w p i o) (hq : q < w.processes) (hother : ¬ (q = p ∧ n = 20 + i)) :
    o.world.bound q n = w.bound q n := by
  by_cases hqp : q = p
  · subst hqp
    rw [h.bound, Function.update_of_ne fun hn => hother ⟨rfl, hn⟩]
  · rw [h.bound_other q hqp (Nat.ne_of_lt hq)]

theorem fork_forks (hp : p < w.processes) (hscan : w.scan p 20 = some i) : Forks w p i (w.fork p) := by
  have hi : i < 10 := (scan_some hscan).1
  have hne : p ≠ w.processes := Nat.ne_of_lt hp
  obtain ⟨hret, hbound, hfuture, -⟩ := fork_some hp hscan
  have ho : w.fork p = ((w.withChild p).setCp p i (some (w.fresh + 3))).succeed (i + 20) := by
    unfold fork
    rw [scan_cp, hscan]
    rfl
  have hstored := stored_setCp (w := w.withChild p) (p := p) (h := some (w.fresh + 3)) hi
  have hothers : ∀ q, q ≠ w.processes → (w.withChild p).pcb q = w.pcb q := fun q hq => Function.update_of_ne hq ..
  constructor
  case ret => exact hret
  case slot_lt => exact hi
  case processes =>
    rw [ho]
    exact hstored.processes
  case fresh =>
    rw [ho]
    exact hstored.fresh
  case future => exact hfuture
  case future_other =>
    intro q hq
    rw [ho]
    exact (hstored.future q).trans (congrArg PCB.future (hothers q hq))
  case bound => exact hbound
  case bound_other =>
    intro q hqp hq
    rw [ho]
    exact (bound_congr (hstored.other q hqp)).trans (bound_congr (hothers q hq))
  case bound_child =>
    intro n hn
    have hchild : (w.withChild p).bound w.processes n = none := by
      unfold World.bound
      rw [if_neg (by omega), if_neg (by omega)]
      simp [withChild, newPCB, setPcb, cpAt]
    rw [ho]
    exact (congrFun (bound_congr (hstored.other _ hne.symm)) n).trans hchild

end World

namespace Family

/-- The number of a child is bound to its future, and a future has a value when its process has exited, with that value. -/
structure Inv (cfg : Config) (s : Family) : Prop where
  future_lt : ∀ p, p < s.world.processes → (s.world.pcb p).future < s.world.fresh
  future_inj : ∀ p q, p < s.world.processes → q < s.world.processes →
    (s.world.pcb p).future = (s.world.pcb q).future → p = q
  value : ∀ p, p < s.world.processes → s.value (s.world.pcb p).future = s.exited p
  value_fresh : ∀ k, s.world.fresh ≤ k → s.value k = none
  exited : ∀ p, s.world.processes ≤ p → s.exited p = none
  child : ∀ p n, p < s.world.processes → 20 ≤ n →
    s.world.bound p n = (s.child p n).map fun c => (s.world.pcb c).future
  child_lt : ∀ p n c, s.child p n = some c → p < c ∧ c < s.world.processes
  waiting : ∀ p id status, s.waiting p = some (id, status) → p < s.world.processes ∧ s.exited p = none ∧
    World.badBuffer cfg status = false ∧ 20 ≤ id ∧ id ≤ 29 ∧ s.child p id ≠ none
  delivered : ∀ d ∈ s.delivered, ∃ c, d.child = some c ∧ s.exited c = some d.rc ∧
    d.stores = Stores.consecutive d.status (World.byteOf d.rc) 4
  unfailed : s.failed = false

variable {cfg : Config} {s : Family} {p : ℕ}

theorem Inv.boot (node : ℕ → BlockIO) : Inv cfg (boot node) := by
  have hprocesses : (World.boot node).processes = 1 := rfl
  constructor
  case future_lt =>
    intro p hp
    obtain rfl : p = 0 := by
      change p < 1 at hp
      omega
    exact (by decide : 3 < 4)
  case future_inj =>
    intro p q hp hq _
    change p < 1 at hp
    change q < 1 at hq
    omega
  case value => exact fun _ _ => rfl
  case value_fresh => exact fun _ _ => rfl
  case exited => exact fun _ _ => rfl
  case child =>
    intro p n hp hn
    obtain rfl : p = 0 := by
      change p < 1 at hp
      omega
    unfold World.bound
    rw [if_neg (by omega), if_neg (by omega)]
    simp [Family.boot, World.boot, World.newPCB, World.setPcb, World.cpAt]
  case child_lt =>
    intro p n c hc
    cases hc
  case waiting =>
    intro p id status hwaiting
    cases hwaiting
  case delivered => exact fun d hd => absurd hd List.not_mem_nil
  case unfailed => rfl

/-- A call that makes no process leaves the children of all numbers but the one that it closes. -/
theorem childAfter_of_ne (s : Family) (p : ℕ) {c : Syscall} (o : Outcome) (hfork : c ≠ .fork) (q n : ℕ) :
    (q = p ∧ c = .close n) ∧ s.childAfter p c o q n = none ∨
      ¬ (q = p ∧ c = .close n) ∧ s.childAfter p c o q n = s.child q n := by
  cases c with
  | fork => exact absurd rfl hfork
  | close m =>
    have hafter : s.childAfter p (.close m) o = Function.update s.child p (Function.update (s.child p) m none) := rfl
    rw [hafter]
    by_cases hq : q = p
    · by_cases hn : n = m
      · left
        rw [hq, hn, Function.update_self, Function.update_self]
        exact ⟨⟨rfl, rfl⟩, rfl⟩
      · right
        rw [hq, Function.update_self, Function.update_of_ne hn]
        refine ⟨?_, rfl⟩
        rintro ⟨-, hclose⟩
        injection hclose with hclose
        exact hn hclose.symm
    · right
      rw [Function.update_of_ne hq]
      exact ⟨fun h => hq h.1, rfl⟩
  | _ =>
    right
    refine ⟨?_, rfl⟩
    rintro ⟨-, hclose⟩
    cases hclose

/-- The calls that make no process. -/
theorem Inv.keeps {c : Syscall} {o : Outcome} (h : Inv cfg s) (hp : s.Runs p) (ho : s.world.sysHandler cfg p c = .ok o)
    (hfork : c ≠ .fork) : Inv cfg { s with world := o.world, child := s.childAfter p c o } := by
  have hkeeps := World.call_keeps ho hfork
  have hstep := World.sysHandler_step hp.1 ho
  have hchild := childAfter_of_ne s p o hfork
  constructor
  case future_lt =>
    intro q hq
    change q < o.world.processes at hq
    change (o.world.pcb q).future < o.world.fresh
    rw [hkeeps.processes] at hq
    rw [hkeeps.future]
    exact (h.future_lt q hq).trans_le hstep.fresh_le
  case future_inj =>
    intro q r hq hr heq
    change q < o.world.processes at hq
    change r < o.world.processes at hr
    change (o.world.pcb q).future = (o.world.pcb r).future at heq
    rw [hkeeps.processes] at hq hr
    rw [hkeeps.future, hkeeps.future] at heq
    exact h.future_inj q r hq hr heq
  case value =>
    intro q hq
    change q < o.world.processes at hq
    change s.value (o.world.pcb q).future = s.exited q
    rw [hkeeps.processes] at hq
    rw [hkeeps.future]
    exact h.value q hq
  case value_fresh => exact fun k hk => h.value_fresh k (hstep.fresh_le.trans hk)
  case exited =>
    intro q hq
    change o.world.processes ≤ q at hq
    rw [hkeeps.processes] at hq
    exact h.exited q hq
  case child =>
    intro q n hq hn
    change q < o.world.processes at hq
    change o.world.bound q n = (s.childAfter p c o q n).map fun c => (o.world.pcb c).future
    rw [hkeeps.processes] at hq
    rcases hchild q n with ⟨⟨rfl, rfl⟩, hnone⟩ | ⟨hother, hsame⟩
    · obtain rfl : s.world.close q n = o := Except.ok.inj ho
      rw [hnone, (World.close_spec s.world q n).bound, Function.update_self]
      rfl
    · have hbound : o.world.bound q n = s.world.bound q n := by
        by_cases hqp : q = p
        · subst hqp
          exact hkeeps.child n hn fun hclose => hother ⟨rfl, hclose⟩
        · rw [World.bound_congr (hstep.other q hqp hq)]
      rw [hsame, hbound, h.child q n hq hn]
      simp only [hkeeps.future]
  case child_lt =>
    intro q n d hd
    change s.childAfter p c o q n = some d at hd
    change q < d ∧ d < o.world.processes
    rw [hkeeps.processes]
    rcases hchild q n with ⟨-, hnone⟩ | ⟨-, hsame⟩
    · rw [hnone] at hd
      cases hd
    · rw [hsame] at hd
      exact h.child_lt q n d hd
  case waiting =>
    intro q id status hwaiting
    change s.waiting q = some (id, status) at hwaiting
    obtain ⟨hq, hexited, hbuffer, hlo, hhi, hsome⟩ := h.waiting q id status hwaiting
    have hqp : q ≠ p := by
      rintro rfl
      rw [hp.2.2] at hwaiting
      cases hwaiting
    refine ⟨hq.trans_eq hkeeps.processes.symm, hexited, hbuffer, hlo, hhi, ?_⟩
    change s.childAfter p c o q id ≠ none
    rcases hchild q id with ⟨⟨heq, -⟩, -⟩ | ⟨-, hsame⟩
    · exact absurd heq hqp
    · rw [hsame]
      exact hsome
  case delivered => exact h.delivered
  case unfailed => exact h.unfailed

/-- The slot that `fork` has found leads to the new process, and the others to those that they did. -/
theorem childAfter_fork {i : ℕ} {o : Outcome} (ho : World.Forks s.world p i o) (q n : ℕ) :
    (q = p ∧ n = 20 + i) ∧ s.childAfter p .fork o q n = some s.world.processes ∨
      ¬ (q = p ∧ n = 20 + i) ∧ s.childAfter p .fork o q n = s.child q n := by
  have hslot := ho.slot_lt
  have hret : ¬ 20 + i = World.minusOne := by
    change ¬ 20 + i = 2 ^ 32 - 1
    omega
  have hnew : s.childAfter p .fork o =
      Function.update s.child p (Function.update (s.child p) (20 + i) (some s.world.processes)) := by
    unfold childAfter
    rw [ho.ret, if_neg hret]
  rw [hnew]
  by_cases hq : q = p
  · by_cases hn : n = 20 + i
    · rw [hq, hn, Function.update_self, Function.update_self]
      exact .inl ⟨⟨rfl, rfl⟩, rfl⟩
    · rw [hq, Function.update_self, Function.update_of_ne hn]
      exact .inr ⟨fun h => hn h.2, rfl⟩
  · rw [Function.update_of_ne hq]
    exact .inr ⟨fun h => hq h.1, rfl⟩

/-- A `fork` that finds a slot. -/
theorem Inv.fork {i : ℕ} {o : Outcome} (h : Inv cfg s) (hp : s.Runs p) (ho : World.Forks s.world p i o) :
    Inv cfg { s with world := o.world, child := s.childAfter p .fork o } := by
  constructor
  case future_lt =>
    intro q hq
    change (o.world.pcb q).future < o.world.fresh
    rw [ho.fresh]
    rcases ho.cases hq with ⟨hq, hold⟩ | ⟨-, hnew⟩
    · rw [hold]
      exact Nat.lt_add_right 4 (h.future_lt q hq)
    · rw [hnew]
      exact Nat.add_lt_add_left (by decide) _
  case future_inj =>
    intro q r hq hr heq
    change (o.world.pcb q).future = (o.world.pcb r).future at heq
    rcases ho.cases hq with ⟨hq, hold⟩ | ⟨hq, hnew⟩
    · have hlt := h.future_lt q hq
      rcases ho.cases hr with ⟨hr, hold'⟩ | ⟨-, hnew'⟩
      · exact h.future_inj q r hq hr ((hold.symm.trans heq).trans hold')
      · omega
    · rcases ho.cases hr with ⟨hr, hold'⟩ | ⟨hr, -⟩
      · have hlt := h.future_lt r hr
        omega
      · rw [hq, hr]
  case value =>
    intro q hq
    change s.value (o.world.pcb q).future = s.exited q
    rcases ho.cases hq with ⟨hq, hold⟩ | ⟨rfl, hnew⟩
    · rw [hold]
      exact h.value q hq
    · rw [hnew, h.value_fresh _ (by omega), h.exited _ (Nat.le_refl _)]
  case value_fresh =>
    intro k hk
    change o.world.fresh ≤ k at hk
    rw [ho.fresh] at hk
    exact h.value_fresh k (by omega)
  case exited =>
    intro q hq
    change o.world.processes ≤ q at hq
    rw [ho.processes] at hq
    exact h.exited q (by omega)
  case child =>
    intro q n hq hn
    change o.world.bound q n = (s.childAfter p .fork o q n).map fun c => (o.world.pcb c).future
    rcases childAfter_fork ho q n with ⟨⟨rfl, rfl⟩, hsome⟩ | ⟨hother, hsame⟩
    · rw [hsome, ho.bound, Function.update_self, Option.map_some, ho.future]
    · rw [hsame]
      rcases ho.cases hq with ⟨hlt, -⟩ | ⟨rfl, -⟩
      · rw [ho.bound_old hlt hother, h.child q n hlt hn]
        cases hc : s.child q n with
        | none => rfl
        | some c =>
          rw [Option.map_some, Option.map_some, ho.future_other c (Nat.ne_of_lt (h.child_lt q n c hc).2)]
      · rw [ho.bound_child n hn]
        cases hc : s.child s.world.processes n with
        | none => rfl
        | some c =>
          have hlt := h.child_lt _ n c hc
          omega
  case child_lt =>
    intro q n d hd
    change s.childAfter p .fork o q n = some d at hd
    change q < d ∧ d < o.world.processes
    rw [ho.processes]
    rcases childAfter_fork ho q n with ⟨⟨rfl, -⟩, hsome⟩ | ⟨-, hsame⟩
    · rw [hsome] at hd
      obtain rfl := Option.some.inj hd
      exact ⟨hp.1, Nat.lt_succ_self _⟩
    · rw [hsame] at hd
      have hlt := h.child_lt q n d hd
      exact ⟨hlt.1, Nat.lt_succ_of_lt hlt.2⟩
  case waiting =>
    intro q id status hwaiting
    change s.waiting q = some (id, status) at hwaiting
    obtain ⟨hq, hexited, hbuffer, hlo, hhi, hsome⟩ := h.waiting q id status hwaiting
    have hqp : q ≠ p := by
      rintro rfl
      rw [hp.2.2] at hwaiting
      cases hwaiting
    refine ⟨(Nat.lt_succ_of_lt hq).trans_eq ho.processes.symm, hexited, hbuffer, hlo, hhi, ?_⟩
    change s.childAfter p .fork o q id ≠ none
    rcases childAfter_fork ho q id with ⟨⟨heq, -⟩, -⟩ | ⟨-, hsame⟩
    · exact absurd heq hqp
    · rw [hsame]
      exact hsome
  case delivered => exact h.delivered
  case unfailed => exact h.unfailed

theorem Inv.exit {rc : ℕ} (h : Inv cfg s) (hp : s.Runs p) : Inv cfg (s.next cfg (.exit p rc)) := by
  have hvalue : s.value (s.world.pcb p).future = none := by rw [h.value p hp.1, hp.2.1]
  constructor
  case future_lt => exact h.future_lt
  case future_inj => exact h.future_inj
  case value =>
    intro q hq
    change Function.update s.value _ (some rc) (s.world.pcb q).future = Function.update s.exited p (some rc) q
    by_cases hqp : q = p
    · rw [hqp, Function.update_self, Function.update_self]
    · have hne : (s.world.pcb q).future ≠ (s.world.pcb p).future := fun heq => hqp (h.future_inj q p hq hp.1 heq)
      rw [Function.update_of_ne hne, Function.update_of_ne hqp]
      exact h.value q hq
  case value_fresh =>
    intro k hk
    change s.world.fresh ≤ k at hk
    change Function.update s.value _ (some rc) k = none
    have hlt := h.future_lt p hp.1
    rw [Function.update_of_ne (by omega)]
    exact h.value_fresh k hk
  case exited =>
    intro q hq
    change s.world.processes ≤ q at hq
    have hlt := hp.1
    change Function.update s.exited p (some rc) q = none
    rw [Function.update_of_ne (by omega)]
    exact h.exited q hq
  case child => exact h.child
  case child_lt => exact h.child_lt
  case waiting =>
    intro q id status hwaiting
    obtain ⟨hq, hexited, hrest⟩ := h.waiting q id status hwaiting
    have hqp : q ≠ p := by
      rintro rfl
      change s.waiting q = some (id, status) at hwaiting
      rw [hp.2.2] at hwaiting
      cases hwaiting
    refine ⟨hq, ?_, hrest⟩
    change Function.update s.exited p (some rc) q = none
    rw [Function.update_of_ne hqp]
    exact hexited
  case delivered =>
    intro d hd
    obtain ⟨c, hc, hexited, hstores⟩ := h.delivered d hd
    have hcp : c ≠ p := by
      rintro rfl
      rw [hp.2.1] at hexited
      cases hexited
    refine ⟨c, hc, ?_, hstores⟩
    change Function.update s.exited p (some rc) c = some d.rc
    rw [Function.update_of_ne hcp]
    exact hexited
  case unfailed =>
    change (s.failed || (s.value (s.world.pcb p).future).isSome) = false
    rw [h.unfailed, hvalue]
    rfl

theorem Inv.wait {id status : ℕ} (h : Inv cfg s) (he : s.enabled cfg (.wait p id status)) :
    Inv cfg (s.next cfg (.wait p id status)) := by
  obtain ⟨hp, hbuffer, hlo, hhi, hbound⟩ := he
  have hwaiting : ∀ q id' status', (s.next cfg (.wait p id status)).waiting q = some (id', status') →
      q < s.world.processes ∧ s.exited q = none ∧ World.badBuffer cfg status' = false ∧ 20 ≤ id' ∧ id' ≤ 29 ∧
        s.child q id' ≠ none := by
    intro q id' status' hq
    change Function.update s.waiting p (some (id, status)) q = some (id', status') at hq
    by_cases hqp : q = p
    · subst hqp
      rw [Function.update_self] at hq
      injection hq with hq
      injection hq with hid hstatus
      subst hid hstatus
      refine ⟨hp.1, hp.2.1, hbuffer, hlo, hhi, ?_⟩
      intro hnone
      have hchild := h.child q id hp.1 hlo
      rw [hnone] at hchild
      unfold World.bound at hchild
      rw [if_neg (by omega), if_neg (by omega)] at hchild
      exact hbound hchild
    · rw [Function.update_of_ne hqp] at hq
      exact h.waiting q id' status' hq
  exact ⟨h.future_lt, h.future_inj, h.value, h.value_fresh, h.exited, h.child, h.child_lt, hwaiting, h.delivered, h.unfailed⟩

/-- The handle of a number from 20 on. -/
theorem Inv.cpAt {id c : ℕ} (h : Inv cfg s) (hp : p < s.world.processes) (hid : 20 ≤ id) (hc : s.child p id = some c) :
    s.world.cpAt p (id - 20) = some (s.world.pcb c).future := by
  have hchild := h.child p id hp hid
  unfold World.bound at hchild
  rw [if_neg (by omega), if_neg (by omega), hc] at hchild
  exact hchild

/-- A process in `get` comes back with the exit code of the child in its number. -/
theorem Inv.wake (h : Inv cfg s) (he : s.enabled cfg (.wake p)) : Inv cfg (s.next cfg (.wake p)) := by
  obtain ⟨id, status, k, rc, hwaiting, hk, hrc⟩ := he
  obtain ⟨hp, hexited, hbuffer, hlo, hhi, hsome⟩ := h.waiting p id status hwaiting
  obtain ⟨c, hc⟩ := Option.ne_none_iff_exists'.mp hsome
  have hfuture := h.cpAt hp hlo hc
  have hout : s.world.wait cfg id status (some rc) =
      .ok ⟨0, s.world, [], Stores.consecutive status (World.byteOf rc) 4⟩ := by
    unfold World.wait
    rw [if_neg (by rw [hbuffer]; exact Bool.false_ne_true), if_neg (by omega)]
  have hnext : s.next cfg (.wake p) = { s with
      waiting := Function.update s.waiting p none
      delivered := s.delivered ++ [⟨p, id, s.child p id, status, rc, Stores.consecutive status (World.byteOf rc) 4⟩] } := by
    simp only [Family.next, hwaiting, hk, Option.bind_some, hrc, hout]
  have hcode : s.exited c = some rc := by
    rw [← h.value c (h.child_lt p id c hc).2]
    obtain rfl : k = (s.world.pcb c).future := Option.some.inj (hk.symm.trans hfuture)
    exact hrc
  rw [hnext]
  refine ⟨h.future_lt, h.future_inj, h.value, h.value_fresh, h.exited, h.child, h.child_lt, ?_, ?_, h.unfailed⟩
  · intro q id' status' hq
    change Function.update s.waiting p none q = some (id', status') at hq
    by_cases hqp : q = p
    · rw [hqp, Function.update_self] at hq
      cases hq
    · rw [Function.update_of_ne hqp] at hq
      exact h.waiting q id' status' hq
  · intro d hd
    rcases List.mem_append.mp hd with hd | hd
    · exact h.delivered d hd
    · rw [List.mem_singleton.mp hd]
      exact ⟨c, hc, hcode, rfl⟩

theorem Inv.call {c : Syscall} (h : Inv cfg s) (hp : s.Runs p) : Inv cfg (s.next cfg (.call p c)) := by
  cases ho : s.world.sysHandler cfg p c with
  | error e =>
    have hsame : s.next cfg (.call p c) = s := by simp only [Family.next, ho]
    rw [hsame]
    exact h
  | ok o =>
    have hnext : s.next cfg (.call p c) = { s with world := o.world, child := s.childAfter p c o } := by
      simp only [Family.next, ho]
    rw [hnext]
    by_cases hfork : c = .fork
    · subst hfork
      obtain rfl : s.world.fork p = o := Except.ok.inj ho
      cases hscan : s.world.scan p 20 with
      | none =>
        have hfail := World.fork_fail hscan
        have hchild : s.childAfter p .fork (s.world.fork p) = s.child := by
          have hret : (s.world.fork p).ret = World.minusOne := by rw [hfail]; rfl
          simp only [childAfter, hret, if_true]
        rw [hchild, hfail]
        exact h
      | some i => exact h.fork hp (World.fork_forks hp.1 hscan)
    · exact h.keeps hp ho hfork

theorem Inv.reachable (hs : (familyMachine cfg).Reachable s) : Inv cfg s := by
  apply hs.invariant
  · rintro s ⟨node, rfl⟩
    exact .boot node
  · intro s a h he
    cases a with
    | call p c => exact h.call he.1
    | exit p rc => exact h.exit he
    | wait p id status => exact h.wait he
    | wake p => exact h.wake he

/-- However the processes are interleaved: a `wait` that returns has stored the code with which the process exited that had
been forked into the number, whatever has become of the other numbers and processes; and no future is set twice. -/
theorem wait_delivers (hs : (familyMachine cfg).Reachable s) :
    (∀ d ∈ s.delivered, ∃ c, d.child = some c ∧ s.exited c = some d.rc ∧
      d.stores = Stores.consecutive d.status (World.byteOf d.rc) 4) ∧ s.failed = false :=
  ⟨(Inv.reachable hs).delivered, (Inv.reachable hs).unfailed⟩

/-- The first process forks and waits, and its child exits with 42. -/
private theorem reachable_family : ∃ s, (familyMachine World.pcConfig).Reachable s ∧ s.world.processes = 2 ∧
    s.waiting 0 = some (20, 0x80000000) ∧ s.exited = Function.update (fun _ => none) 1 (some 42) ∧
    s.world.cpAt 0 0 = some 7 ∧ s.value 7 = some 42 ∧ s.child 0 20 = some 1 ∧ s.delivered = [] := by
  have h₀ : (familyMachine World.pcConfig).Reachable (Family.boot fun _ => BlockIO.tenBytes) := .init ⟨_, rfl⟩
  have h₁ := h₀.step (a := FamilyAct.call 0 .fork) ⟨⟨by decide, rfl, rfl⟩, fun _ _ _ h => by cases h⟩
  have h₂ := h₁.step (a := FamilyAct.wait 0 20 0x80000000) ⟨⟨by decide, rfl, rfl⟩, by decide, by decide, by decide, by decide⟩
  have h₃ := h₂.step (a := FamilyAct.exit 1 42) ⟨by decide, rfl, rfl⟩
  exact ⟨_, h₃, rfl, rfl, rfl, rfl, rfl, rfl, rfl⟩

theorem wait_delivers_first : ∃ s, (familyMachine World.pcConfig).Reachable s ∧ ∃ d ∈ s.delivered, d.child = some 1 ∧
    s.exited 1 = some d.rc := by
  obtain ⟨s, hs, -, hwaiting, -, hk, hrc, hchild, hdelivered⟩ := reachable_family
  have hs' := hs.step (a := FamilyAct.wake 0) ⟨20, 0x80000000, 7, 42, hwaiting, hk, hrc⟩
  have hout : s.world.wait World.pcConfig 20 0x80000000 (some 42) =
      .ok ⟨0, s.world, [], Stores.consecutive 0x80000000 (World.byteOf 42) 4⟩ := rfl
  have hlast : (s.next World.pcConfig (.wake 0)).delivered =
      [⟨0, 20, some 1, 0x80000000, 42, Stores.consecutive 0x80000000 (World.byteOf 42) 4⟩] := by
    simp only [Family.next, hwaiting, hk, Option.bind_some, hrc, hout, hchild, hdelivered, List.nil_append]
  have hmem : _ ∈ (s.next World.pcConfig (.wake 0)).delivered := hlast ▸ List.mem_singleton_self _
  obtain ⟨c, hc, hexited, -⟩ := (wait_delivers hs').1 _ hmem
  obtain rfl := Option.some.inj hc
  exact ⟨_, hs', _, hmem, rfl, hexited⟩

/-- Processes cannot keep one another in `wait`: when all that have not exited are in `get`, one of them can come back.
A process waits for one that is younger than itself, and the youngest waits for one that has exited. -/
theorem wait_ends (hs : (familyMachine cfg).Reachable s) {i : ℕ} (hi : i < s.world.processes) (halive : s.exited i = none)
    (hall : ∀ p, p < s.world.processes → s.exited p = none → s.waiting p ≠ none) : ∃ p, s.enabled cfg (.wake p) := by
  have h := Inv.reachable hs
  by_contra hnone
  -- with none that can come back, behind each process that waits there is a younger one
  have hmore : ∀ n, ∃ p, n ≤ p ∧ p < s.world.processes ∧ s.exited p = none := by
    intro n
    induction n with
    | zero => exact ⟨i, Nat.zero_le _, hi, halive⟩
    | succ n ih =>
      obtain ⟨p, hn, hp, hexited⟩ := ih
      obtain ⟨⟨id, status⟩, hwaiting⟩ := Option.ne_none_iff_exists'.mp (hall p hp hexited)
      obtain ⟨-, -, -, hlo, -, hsome⟩ := h.waiting p id status hwaiting
      obtain ⟨c, hc⟩ := Option.ne_none_iff_exists'.mp hsome
      obtain ⟨hpc, hlt⟩ := h.child_lt p id c hc
      cases hcode : s.exited c with
      | none => exact ⟨c, by omega, hlt, hcode⟩
      | some rc =>
        have hvalue := h.value c hlt
        rw [hcode] at hvalue
        exact absurd ⟨p, id, status, _, rc, hwaiting, h.cpAt hp hlo hc, hvalue⟩ hnone
  obtain ⟨p, hn, hp, -⟩ := hmore s.world.processes
  omega

theorem wait_ends_first : ∃ s, (familyMachine World.pcConfig).Reachable s ∧ s.waiting 0 ≠ none ∧
    ∃ p, s.enabled World.pcConfig (.wake p) := by
  obtain ⟨s, hs, hprocesses, hwaiting, hexited, -⟩ := reachable_family
  have hzero : s.exited 0 = none := by
    rw [hexited]
    rfl
  refine ⟨s, hs, by rw [hwaiting]; exact Option.some_ne_none _, wait_ends hs (i := 0) (by omega) hzero ?_⟩
  intro p hp halive
  have hp' : p = 0 ∨ p = 1 := by omega
  rcases hp' with rfl | rfl
  · rw [hwaiting]
    exact Option.some_ne_none _
  · rw [hexited, Function.update_self] at halive
    cases halive

end Family
end AudioKernel
