import AudioKernel.Sys.Model

/-! What a process sees through its descriptors, and when a `close` of another process changes it. -/
namespace AudioKernel
open Lib

namespace World

variable (cfg : Config) (w : World) (p q num : ℕ)

/-- The descriptor in slot `fnum`: bound or not, its file, its offset and its `reserved` flag. -/
def slot (fnum : ℕ) : Option FileDescriptor := (w.fdAt q fnum).map w.desc

def view (i : Fin 10) : Option FileDescriptor := ((w.pcb q).fd i).map w.desc

/-- What a call returns, and the user memory that it reads and stores. -/
def observe (c : Syscall) : Except Stop (ℕ × List ℕ × Stores) :=
  (w.sysHandler cfg q c).map fun o => (o.ret, o.loads, o.stores)

end World

namespace Syscall

/-- The calls that work on the descriptor in a slot. -/
def OnSlot : Syscall → Prop
  | .write fnum _ _ _ => fnum < 10
  | .read _ _ _ | .len _ | .seek _ _ => True
  | _ => False

end Syscall

namespace World

variable {cfg : Config} {w w' : World} {p q num k : ℕ}

theorem slot_eq_view (fnum : ℕ) : w.slot q fnum = if h : fnum < 10 then w.view q ⟨fnum, h⟩ else none := by
  unfold slot fdAt view
  split_ifs <;> rfl

theorem slot_congr (h : w'.view q = w.view q) (fnum : ℕ) : w'.slot q fnum = w.slot q fnum := by
  rw [slot_eq_view, slot_eq_view, h]

/-- Equal slots are both null or hold descriptors with equal fields. -/
theorem slot_cases {fnum : ℕ} (h : w'.slot q fnum = w.slot q fnum) :
    (w'.fdAt q fnum = none ∧ w.fdAt q fnum = none) ∨
      ∃ k' k, w'.fdAt q fnum = some k' ∧ w.fdAt q fnum = some k ∧ w'.desc k' = w.desc k := by
  unfold slot at h
  cases hk' : w'.fdAt q fnum with
  | none =>
    cases hk : w.fdAt q fnum with
    | none => exact .inl ⟨rfl, rfl⟩
    | some k => simp [hk, hk'] at h
  | some k' =>
    cases hk : w.fdAt q fnum with
    | none => simp [hk, hk'] at h
    | some k =>
      simp only [hk, hk', Option.map_some, Option.some.injEq] at h
      exact .inr ⟨k', k, rfl, rfl, h⟩

/-- The calls on a slot depend on its descriptor and on the files only. -/
theorem observe_congr (hview : w'.view q = w.view q) (hnode : w'.node = w.node) {c : Syscall} (hc : c.OnSlot) :
    w'.observe cfg q c = w.observe cfg q c := by
  cases c with
  | write fnum buffer nbyte beyond =>
    have hfnum : fnum < 10 := hc
    simp only [observe, sysHandler, write, wordAt, if_pos hfnum]
    rcases slot_cases (slot_congr hview fnum) with ⟨h', h⟩ | ⟨k', k, h', h, hd⟩
    · simp [h, h', Except.map, fail]
    · simp only [h, h', hd, Option.isSome_some, Option.any_some]
      split_ifs <;> rfl
  | read fnum buffer nbyte =>
    simp only [observe, sysHandler, read]
    rcases slot_cases (slot_congr hview fnum) with ⟨h', h⟩ | ⟨k', k, h', h, hd⟩
    · simp only [h, h']
      split_ifs <;> rfl
    · simp only [h, h', hd, hnode]
      split_ifs <;> try rfl
      cases (w.desc k).file with
      | none => rfl
      | some f =>
        simp only [bind, Except.bind]
        cases (w.node f).readAll _ _ _ <;> rfl
  | len fnum =>
    simp only [observe, sysHandler, len]
    rcases slot_cases (slot_congr hview fnum) with ⟨h', h⟩ | ⟨k', k, h', h, hd⟩
    · simp only [h, h']
      split_ifs <;> rfl
    · simp only [h, h', hd, hnode]
      split_ifs <;> try rfl
      cases (w.desc k).file <;> rfl
  | seek fnum off =>
    simp only [observe, sysHandler, seek]
    rcases slot_cases (slot_congr hview fnum) with ⟨h', h⟩ | ⟨k', k, h', h, hd⟩
    · simp only [h, h']
      split_ifs <;> rfl
    · simp only [h, h', hd]
      split_ifs <;> rfl
  | fork | sem _ | up _ | down _ | close _ | wait _ _ _ | openFile _ _ => exact hc.elim

/-- `close` goes on to change a descriptor that `q` holds too. -/
def Leaks (w : World) (p q num : ℕ) : Prop :=
  ∃ k, w.fdAt p num = some k ∧ (∃ i, (w.pcb q).fd i = some k) ∧
    ((w.desc k).offset ≠ 0 ∨ (num < 3 ∧ (w.desc k).reserved = true))

theorem fdAt_lt (h : w.fdAt p num = some k) : num < 10 := by
  by_contra hge
  simp [fdAt, hge] at h

/-- The worlds differ in the tables of process `p` only. -/
structure Tables (w w' : World) (p : ℕ) : Prop where
  node : w'.node = w.node
  desc : w'.desc = w.desc
  processes : w'.processes = w.processes
  fresh : w'.fresh = w.fresh
  other : ∀ q, q ≠ p → w'.pcb q = w.pcb q
  future : ∀ q, (w'.pcb q).future = (w.pcb q).future

theorem Tables.refl (w : World) (p : ℕ) : Tables w w p := ⟨rfl, rfl, rfl, rfl, fun _ _ => rfl, fun _ => rfl⟩

theorem tables_setPcb {pcb : PCB} (hfuture : pcb.future = (w.pcb p).future) : Tables w (w.setPcb p pcb) p where
  node := rfl
  desc := rfl
  processes := rfl
  fresh := rfl
  other _ hq := Function.update_of_ne hq ..
  future q := by
    show (Function.update w.pcb p pcb q).future = (w.pcb q).future
    by_cases hq : q = p
    · rw [hq, Function.update_self, hfuture]
    · rw [Function.update_of_ne hq]

theorem tables_setFd (w : World) (p num : ℕ) (h : Option ℕ) : Tables w (w.setFd p num h) p := by
  unfold setFd
  split_ifs
  · exact tables_setPcb rfl
  · exact .refl w p

theorem tables_setSp (w : World) (p num : ℕ) (h : Option ℕ) : Tables w (w.setSp p num h) p := by
  unfold setSp
  split_ifs
  · exact tables_setPcb rfl
  · exact .refl w p

theorem tables_setCp (w : World) (p num : ℕ) (h : Option ℕ) : Tables w (w.setCp p num h) p := by
  unfold setCp
  split_ifs
  · exact tables_setPcb rfl
  · exact .refl w p

theorem Tables.view (ht : Tables w w' p) (hne : p ≠ q) : w'.view q = w.view q := by
  funext i
  unfold World.view
  rw [ht.other q hne.symm, ht.desc]

theorem node_close (w : World) (p num : ℕ) : (w.close p num).world.node = w.node := by
  unfold close
  split_ifs
  · rfl
  · cases w.fdAt p num with
    | none => rfl
    | some k => exact (tables_setFd ..).node
  · rfl
  · exact (tables_setSp ..).node
  · rfl
  · exact (tables_setCp ..).node

def closed (w : World) (num k : ℕ) : FileDescriptor :=
  let d := (w.desc k).setOffset 0
  if num < 3 then d.setReserved false else d

theorem closed_eq_iff : w.closed num k = w.desc k ↔
    ¬ ((w.desc k).offset ≠ 0 ∨ (num < 3 ∧ (w.desc k).reserved = true)) := by
  cases hd : w.desc k with
  | mk file offset reserved hlt =>
    unfold closed
    rw [hd]
    by_cases hnum : num < 3 <;> simp [hnum, FileDescriptor.setOffset, FileDescriptor.setReserved, eq_comm]

/-- Changing one descriptor object changes the views that hold it, unless it stays the same. -/
theorem view_setDesc_iff (d : FileDescriptor) :
    (w.setDesc k d).view q = w.view q ↔ (∃ i, (w.pcb q).fd i = some k) → d = w.desc k := by
  constructor
  · intro hview ⟨i, hi⟩
    have := congrFun hview i
    simpa [view, setDesc, hi] using this
  · intro hsame
    funext i
    cases hi : (w.pcb q).fd i with
    | none => simp [view, setDesc, hi]
    | some j =>
      by_cases hj : j = k
      · subst hj
        simp [view, setDesc, hi, hsame ⟨i, hi⟩]
      · simp [view, setDesc, hi, Function.update_of_ne hj]

theorem view_close_iff (hne : p ≠ q) : (w.close p num).world.view q = w.view q ↔ ¬ w.Leaks p q num := by
  by_cases hnum : num < 10
  · cases hk : w.fdAt p num with
    | none =>
      have hworld : (w.close p num).world = w := by
        unfold close
        rw [if_neg (by omega), if_pos hnum, hk]
        rfl
      simp [hworld, Leaks, hk]
    | some k =>
      have hworld : (w.close p num).world = (w.setDesc k (w.closed num k)).setFd p num none := by
        unfold close
        rw [if_neg (by omega), if_pos hnum, hk]
        rfl
      rw [hworld, (tables_setFd ..).view hne, view_setDesc_iff, closed_eq_iff]
      unfold Leaks
      simp only [hk, Option.some.injEq, exists_eq_left', not_and]
  · have hleak : ¬ w.Leaks p q num := fun ⟨k, hk, _⟩ => hnum (fdAt_lt hk)
    have hview : (w.close p num).world.view q = w.view q := by
      unfold close
      rw [if_neg hnum]
      split_ifs
      · rfl
      · rfl
      · exact (tables_setSp ..).view hne
      · rfl
      · exact (tables_setCp ..).view hne
    simp [hleak, hview]

/-- A `close` by `p` leaves alone what `q` sees and what the calls of `q` on its slots do exactly when
it does not reset a descriptor that `q` shares. -/
theorem close_isolated_iff (cfg : Config) (w : World) (num : ℕ) (hne : p ≠ q) :
    ((w.close p num).world.view q = w.view q ∧
      ∀ c : Syscall, c.OnSlot → (w.close p num).world.observe cfg q c = w.observe cfg q c) ↔ ¬ w.Leaks p q num := by
  rw [← view_close_iff hne]
  constructor
  · intro h
    exact h.1
  · intro h
    exact ⟨h, fun c hc => observe_congr h (node_close w p num) hc⟩

def pcConfig : Config where
  localAPIC := 0xFEE00000
  ioAPIC := 0xFEC00000
  localAPIC_lt := by decide
  ioAPIC_lt := by decide

def oneFile : World := boot fun _ => BlockIO.tenBytes

/-- A process opens a file, seeks in it, and forks. -/
def openSeekFork : List (ℕ × Syscall) := [(0, .openFile 0x80000000 (some 0)), (0, .seek 3 5), (0, .fork)]

instance (cfg : Config) (w : World) (c : ℕ × Syscall) : Decidable ((sysMachine cfg).enabled w c) :=
  inferInstanceAs (Decidable (c.1 < w.processes))

/-- The child closes the descriptor that it has from its parent, which is at the start of its file: the parent does not
see it. -/
theorem oneFile_close_isolated : ∃ w, (sysMachine pcConfig).Reachable w ∧ w.fdAt 1 3 = w.fdAt 0 3 ∧
    (w.slot 0 3).isSome ∧ (w.close 1 3).world.fdAt 1 3 = none ∧ (w.close 1 3).world.view 0 = w.view 0 ∧
    ∀ c : Syscall, c.OnSlot → (w.close 1 3).world.observe pcConfig 0 c = w.observe pcConfig 0 c := by
  have hrun : ∃ w, (sysMachine pcConfig).Run oneFile [(0, .openFile 0x80000000 (some 0)), (0, .fork)] w ∧
      decide (w.fdAt 1 3 = w.fdAt 0 3 ∧ (w.slot 1 3).map (·.offset) = some 0 ∧
        (w.close 1 3).world.fdAt 1 3 = none) = true :=
    Machine.exists_run_of_replay (by decide)
  obtain ⟨w, hw, hcheck⟩ := hrun
  obtain ⟨hshared, hstart, hclosed⟩ := of_decide_eq_true hcheck
  have hsome : (w.slot 0 3).isSome := by
    unfold slot at hstart ⊢
    rw [← hshared]
    cases hk : w.fdAt 1 3 with
    | none =>
      rw [hk] at hstart
      cases hstart
    | some k => rfl
  have hleak : ¬ w.Leaks 1 0 3 := by
    rintro ⟨k, hk, -, hoffset | ⟨hlt, -⟩⟩
    · unfold slot at hstart
      rw [hk] at hstart
      exact hoffset (Option.some.inj hstart)
    · exact absurd hlt (Nat.lt_irrefl 3)
  exact ⟨w, hw.reachable (.init ⟨_, rfl⟩), hshared, hsome, hclosed,
    (close_isolated_iff pcConfig w 3 (by decide)).mpr hleak⟩

/-- The parent closes its descriptor, and the child reads the file from the start again. -/
theorem close_rewinds_child : ∃ w, (sysMachine pcConfig).Reachable w ∧ 1 < w.processes ∧
    (w.slot 1 3).map (·.offset) = some 5 ∧ ((w.close 0 3).world.slot 1 3).map (·.offset) = some 0 ∧
    (w.close 0 3).world.view 1 ≠ w.view 1 := by
  have hrun : ∃ w, (sysMachine pcConfig).Run oneFile openSeekFork w ∧
      decide (1 < w.processes ∧ (w.slot 1 3).map (·.offset) = some 5 ∧
        ((w.close 0 3).world.slot 1 3).map (·.offset) = some 0) = true :=
    Machine.exists_run_of_replay (by decide)
  obtain ⟨w, hw, hcheck⟩ := hrun
  obtain ⟨hprocs, hbefore, hafter⟩ := of_decide_eq_true hcheck
  refine ⟨w, hw.reachable (.init ⟨_, rfl⟩), hprocs, hbefore, hafter, ?_⟩
  intro hview
  rw [slot_congr hview, hbefore] at hafter
  cases hafter

end World
end AudioKernel
