import AudioKernel.Audio.Model

/-! What bringing up the device makes of the block that `malloc` has delivered. -/
namespace AudioKernel.Audio
open Lib Interact

/-- The values that the fields can have. -/
structure HdaDevice.InRange (d : HdaDevice) : Prop where
  corbEntries : d.corbEntries < 2 ^ 32
  rirbEntries : d.rirbEntries < 2 ^ 32
  rirbRp : d.rirbRp < 2 ^ 16

/-- Whatever the block contains, the same controller sees the same accesses. -/
def Oblivious {E : Type} (respond : E → Access → ℕ × E) (e : E) : Prop :=
  ∀ s₁ s₂ : HdaDevice, s₁.InRange → s₂.InRange → ∀ budget,
    (initDev (α := Unit) s₁ respond ⟨e, budget, []⟩).world.log = (initDev (α := Unit) s₂ respond ⟨e, budget, []⟩).world.log

def zeroed : HdaDevice := ⟨none, 0, 0, 0⟩

variable {E α : Type}

def awaitSlot (entries writePointer : ℕ) : Driver E ℕ :=
  poll (do return (← inw .corbrp) % 2 ^ 8) fun readPointer => (writePointer + 1) % entries % 2 ^ 16 = readPointer

/-- `init_dev` up to where it first depends on the block: the number of entries of the CORB, if the controller offers none,
or else the read pointer of the RIRB. -/
def untilStale : Driver E (HdaDevice × ℕ × ℕ) := do
  resetController
  let d ← initCorb zeroed
  let d ← initRirb d
  let stateStatus ← inw .statests
  let writePointer := (← inw .corbwp) % 2 ^ 8
  if d.corbEntries = 0 then return (d, stateStatus, writePointer)
  else do
    let _ ← awaitSlot d.corbEntries writePointer
    return (d, stateStatus, writePointer)

/-- The device where `d` has been written over the block. -/
def HdaDevice.over (stale d : HdaDevice) : HdaDevice := { stale with
  corbEntries := if d.corbEntries = 0 then stale.corbEntries else d.corbEntries
  rirbEntries := if d.rirbEntries = 0 then stale.rirbEntries else d.rirbEntries }

/-- The first verb, to the first codec that is present. -/
def firstVerb (stateStatus : ℕ) (codecs : List ℕ) : ℕ :=
  match codecs.find? stateStatus.testBit with
  | some codec => verb codec 0 (VERB_GET_PARAMETER ||| PARAM_NODE_COUNT)
  | none => verb 0 0 (VERB_SET_STREAM_CHANNEL ||| 0x10)

def discover (stateStatus : ℕ) (codecs : List ℕ) (d : HdaDevice) : Driver E α := do
  let d ← initCodecs stateStatus codecs d
  let _ ← initOutputWidget d
  streamDescriptorInit

theorem built_streamDescriptorInit : Built (streamDescriptorInit : Driver E α) :=
  .bind (built_outb _ _) fun _ => .bind (built_outl _ _) fun _ => .bind (built_outw _ _) fun _ => .bind (.load _) fun _ =>
    .bind (built_outl _ _) fun _ => .bind (built_outl _ _) fun _ => .stop _

theorem discover_eq (stateStatus : ℕ) (codecs : List ℕ) (d : HdaDevice) : ∃ (o : Option Output)
    (rest : ℕ × HdaDevice → Driver E α), (∀ r, Built (rest r)) ∧ discover stateStatus codecs d =
      corbWrite { d with output := o } (firstVerb stateStatus codecs) >>= fun _ =>
        rirbRead { d with output := o } >>= rest := by
  have hfinish (d : HdaDevice) : Built (initOutputWidget d >>= fun _ => streamDescriptorInit : Driver E α) :=
    .bind (built_initOutputWidget d) fun _ => built_streamDescriptorInit
  induction codecs with
  | nil =>
    refine ⟨some Output.new, fun r => outputWidgetConfig { r.2 with
      output := some { Output.new with sampleRate := SR_48_KHZ, numChannels := 2 } } >>= fun _ => streamDescriptorInit,
      fun r => .bind (built_outputWidgetConfig _) fun _ => built_streamDescriptorInit, ?_⟩
    show initOutputWidget d >>= _ = _
    unfold initOutputWidget codecTransmission
    rw [bind_assoc, bind_assoc]
    rfl
  | cons codec codecs ih =>
    unfold discover initCodecs firstVerb
    by_cases hpresent : stateStatus.testBit codec = true
    · obtain ⟨rest, hrest, heq⟩ := codecInitWidgets_eq (E := E) d codec
      rw [if_pos hpresent, List.find?_cons_of_pos hpresent, heq]
      refine ⟨d.output, fun r => rest r >>= fun r => (if r.1 ≠ 0 then pure r.2 else initCodecs stateStatus codecs r.2) >>=
        fun d => initOutputWidget d >>= fun _ => streamDescriptorInit, fun r => .bind (hrest r) fun r' => ?_, ?_⟩
      · exact .bind (.ite _ (.pure _) (built_initCodecs _ _ _)) hfinish
      · unfold codecTransmission
        simp only [bind_assoc]
    · rw [if_neg hpresent, List.find?_cons_of_neg hpresent]
      exact ih

theorem ringSize_ne_zero {reg : ℕ} {size : ℕ × ℕ} (h : ringSize reg = some size) : size.1 ≠ 0 := by
  unfold ringSize at h
  split_ifs at h <;> cases h <;> decide

theorem elim_ringSize (reg n : ℕ) : (ringSize reg).elim n Prod.fst =
    if (ringSize reg).elim 0 Prod.fst = 0 then n else (ringSize reg).elim 0 Prod.fst := by
  cases hsize : ringSize reg with
  | none => rfl
  | some size => exact (if_neg (ringSize_ne_zero hsize)).symm

theorem initRings_eq (s : HdaDevice) : (do initRirb (← initCorb s) : Driver E HdaDevice) =
    do return s.over (← initRirb (← initCorb zeroed)) := by
  unfold initCorb initRirb HdaDevice.over
  simp only [bind_assoc, pure_bind, elim_ringSize _ s.corbEntries, elim_ringSize _ s.rirbEntries]
  rfl

theorem initDev_discover (s : HdaDevice) : initDev s = (do
    resetController
    let d ← initRirb (← initCorb zeroed)
    let stateStatus ← inw .statests
    discover stateStatus (List.range 15) (s.over d) : Driver E α) := by
  unfold initDev audioReset audioInitCodec discover
  have hrings : (initCorb s >>= initRirb : Driver E HdaDevice) =
      initCorb zeroed >>= fun d => initRirb d >>= fun d => pure (s.over d) := initRings_eq s
  simp only [bind_assoc]
  congr 1
  funext _
  rw [← bind_assoc, hrings]
  simp only [bind_assoc, pure_bind]

/-- `init_dev` does not return, and so `play` does not: it gets to the access to address 0 at the latest. -/
theorem initDev_not_done (d : HdaDevice) (respond : E → Access → ℕ × E) (w w' : World Access E) (a : α) :
    initDev d respond w ≠ .done a w' := by
  intro h
  obtain ⟨_, _, -, h⟩ := bind_eq_done h
  obtain ⟨_, _, -, h⟩ := bind_eq_done h
  unfold streamDescriptorInit at h
  obtain ⟨_, _, -, h⟩ := bind_eq_done h
  obtain ⟨_, _, -, h⟩ := bind_eq_done h
  obtain ⟨_, _, -, h⟩ := bind_eq_done h
  obtain ⟨_, _, -, h⟩ := bind_eq_done h
  obtain ⟨_, _, -, h⟩ := bind_eq_done h
  obtain ⟨_, _, -, h⟩ := bind_eq_done h
  cases h

/-- The rest of `corb_write` when `CORBWP` has been read. -/
def store (entries verb writePointer : ℕ) : Driver E Unit := do
  let next := (writePointer + 1) % entries % 2 ^ 16
  let _ ← access (.corb next verb)
  outw .corbwp next

theorem built_store (entries verb writePointer : ℕ) : Built (store entries verb writePointer : Driver E Unit) :=
  .bind (.access _) fun _ => built_outw _ _

theorem corbWrite_eq (d : HdaDevice) (verb : ℕ) : corbWrite d verb = (do
    let writePointer := (← inw .corbwp) % 2 ^ 8
    if d.corbEntries = 0 then stop .wild
    else do
      let _ ← awaitSlot d.corbEntries writePointer
      store d.corbEntries verb writePointer : Driver E Unit) := rfl

/-- What `init_dev` does with the block is to take the number of entries of the CORB from it if the controller offers none, and
the read pointer of the RIRB from it if it does. -/
theorem initDev_eq (s : HdaDevice) : ∃ rest : HdaDevice × ℕ × ℕ → Driver E α, initDev s = untilStale >>= rest ∧
    (∀ d stateStatus writePointer, d.corbEntries ≠ 0 → ∃ o after, (∀ r, Built (after r)) ∧
      rest (d, stateStatus, writePointer) = do
        store d.corbEntries (firstVerb stateStatus (List.range 15)) writePointer
        rirbRead { s.over d with output := o } >>= after) ∧
    ∀ d stateStatus writePointer, d.corbEntries = 0 →
      (s.corbEntries = 0 → rest (d, stateStatus, writePointer) = stop .wild) ∧
        (s.corbEntries ≠ 0 → ∃ after, (∀ a, Built (after a)) ∧
          rest (d, stateStatus, writePointer) = inw .corbrp >>= after) := by
  choose o after hafter heq using fun p : HdaDevice × ℕ =>
    discover_eq (E := E) (α := α) p.2 (List.range 15) (s.over p.1)
  let write (r : HdaDevice × ℕ × ℕ) : Driver E Unit :=
    if r.1.corbEntries = 0 then
      if s.corbEntries = 0 then stop .wild
      else awaitSlot s.corbEntries r.2.2 >>= fun _ => store s.corbEntries (firstVerb r.2.1 (List.range 15)) r.2.2
    else store r.1.corbEntries (firstVerb r.2.1 (List.range 15)) r.2.2
  let rest (r : HdaDevice × ℕ × ℕ) : Driver E α :=
    write r >>= fun _ => rirbRead { s.over r.1 with output := o (r.1, r.2.1) } >>= after (r.1, r.2.1)
  refine ⟨rest, ?_, fun d stateStatus writePointer hset => ?_, fun d stateStatus writePointer hunset => ?_⟩
  · rw [initDev_discover]
    unfold untilStale
    simp only [bind_assoc]
    congr 1
    funext _
    congr 1
    funext _
    congr 1
    funext d
    congr 1
    funext stateStatus
    rw [heq (d, stateStatus), corbWrite_eq, bind_assoc]
    congr 1
    funext w
    by_cases hset : d.corbEntries = 0
    · have hover : (s.over d).corbEntries = s.corbEntries := if_pos hset
      have hwrite : write (d, stateStatus, w % 2 ^ 8) = _ := if_pos hset
      rw [if_pos hset, pure_bind]
      show _ = write (d, stateStatus, w % 2 ^ 8) >>= _
      rw [hwrite, ← hover]
    · have hover : (s.over d).corbEntries = d.corbEntries := if_neg hset
      have hwrite : write (d, stateStatus, w % 2 ^ 8) = _ := if_neg hset
      have hcall : (if (s.over d).corbEntries = 0 then stop .wild
          else awaitSlot (s.over d).corbEntries (w % 2 ^ 8) >>= fun _ =>
            store (s.over d).corbEntries (firstVerb stateStatus (List.range 15)) (w % 2 ^ 8) : Driver E Unit) =
          awaitSlot d.corbEntries (w % 2 ^ 8) >>= fun _ => write (d, stateStatus, w % 2 ^ 8) := by
        rw [hover, if_neg hset, hwrite]
      rw [if_neg hset, bind_assoc]
      refine (congrArg (· >>= _) hcall).trans ?_
      rw [bind_assoc]
      rfl
  · have hwrite : write (d, stateStatus, writePointer) = _ := if_neg hset
    exact ⟨o (d, stateStatus), after (d, stateStatus), hafter _, congrArg (· >>= _) hwrite⟩
  · have hwrite : write (d, stateStatus, writePointer) = _ := if_pos hunset
    show (_ → write (d, stateStatus, writePointer) >>= _ = _) ∧ (_ → ∃ f, _ ∧ write (d, stateStatus, writePointer) >>= _ = _)
    rw [hwrite]
    refine ⟨fun hzero => ?_, fun hzero => ?_⟩
    · rw [if_pos hzero]
      rfl
    · rw [if_neg hzero, awaitSlot, poll_eq (costs_pointer _)]
      simp only [bind_assoc, pure_bind]
      refine ⟨_, fun a => ?_, rfl⟩
      exact .bind (.ite _ (.poll _ (built_pointer _) (costs_pointer _)) (.pure _)) fun _ => .bind (built_store _ _ _) fun _ =>
        .bind (built_rirbRead _) (hafter _)

section Divergence

variable {respond : E → Access → ℕ × E} {e : E} {log : List Access} {d : HdaDevice} {after : ℕ × HdaDevice → Driver E α}

theorem inw_done (reg : Reg) (budget : ℕ) : (inw reg : Driver E ℕ) respond ⟨e, budget + 1, log⟩ =
    .done ((respond e (.inw reg)).1 % 2 ^ 16) ⟨(respond e (.inw reg)).2, budget, log ++ [.inw reg]⟩ := rfl

/-- A read pointer that equals `RIRBWP` has the driver read `RIRBWP` again. -/
theorem rirbRead_again (hafter : ∀ r, Built (after r)) (hsame : (respond e (.inw .rirbwp)).1 % 2 ^ 16 % 2 ^ 8 = d.rirbRp) :
    log ++ [.inw .rirbwp, .inw .rirbwp] <+: ((rirbRead d >>= after) respond ⟨e, 2, log⟩).world.log := by
  unfold rirbRead
  rw [poll_eq (costs_pointer _), bind_assoc, bind_assoc, bind_assoc, bind_done (inw_done _ _), pure_bind,
    if_pos (decide_eq_true hsame), poll_eq (costs_pointer _), bind_assoc, bind_assoc, bind_done (inw_done _ _)]
  have hlog : log ++ [.inw .rirbwp] ++ [.inw .rirbwp] = log ++ [.inw .rirbwp, .inw .rirbwp] := List.append_assoc _ _ _
  rw [← hlog]
  refine Grows.world_log (Built.grows ?_) respond ⟨_, 0, _⟩
  refine .bind (.pure _) fun a => .bind (.ite _ (.poll _ (built_pointer _) (costs_pointer _)) (.pure _)) fun _ => ?_
  refine .bind (.ite _ (.stop _) ?_) hafter
  exact .bind (.load _) fun _ => .bind (built_outb _ _) fun _ => .pure _

/-- Any other read pointer has the driver take a word. -/
theorem rirbRead_leaves (hafter : ∀ r, Built (after r)) (hentries : d.rirbEntries ≠ 0)
    (hother : (respond e (.inw .rirbwp)).1 % 2 ^ 16 % 2 ^ 8 ≠ d.rirbRp) :
    log ++ [.inw .rirbwp, .outb .rirbsts 5] <+: ((rirbRead d >>= after) respond ⟨e, 2, log⟩).world.log := by
  unfold rirbRead
  rw [poll_eq (costs_pointer _), bind_assoc, bind_assoc, bind_assoc, bind_done (inw_done _ _), pure_bind,
    if_neg (by simpa using hother), pure_bind, if_neg hentries]
  have hlog : log ++ [.inw .rirbwp] ++ [.outb .rirbsts 5] = log ++ [.inw .rirbwp, .outb .rirbsts 5] :=
    List.append_assoc _ _ _
  rw [← hlog]
  exact (Built.bind (.pure _) hafter).grows.world_log respond ⟨_, 0, _⟩

variable {e' : E} {stateStatus writePointer : ℕ}

/-- Where the controller offers no CORB, a number of entries of 0 ends in a division by zero, and any other one does not. -/
theorem depends_of_unset (hrun : Completes respond untilStale e [] (d, stateStatus, writePointer) e' log)
    (hunset : d.corbEntries = 0) : ¬ Oblivious respond e := by
  intro hsame
  obtain ⟨n, hn⟩ := hrun
  let s : HdaDevice := ⟨none, 1, 0, 0⟩
  have hlogs := hsame zeroed s ⟨by decide, by decide, by decide⟩ ⟨by decide, by decide, by decide⟩ (n + 1)
  obtain ⟨rest₁, heq₁, -, hunset₁⟩ := initDev_eq (E := E) (α := Unit) zeroed
  obtain ⟨rest₂, heq₂, -, hunset₂⟩ := initDev_eq (E := E) (α := Unit) s
  have hstop := (hunset₁ d stateStatus writePointer hunset).1 rfl
  obtain ⟨after, hafter, hread⟩ := (hunset₂ d stateStatus writePointer hunset).2 Nat.one_ne_zero
  rw [heq₁, heq₂, bind_done (hn 1), bind_done (hn 1), hstop, hread, bind_done (inw_done _ _)] at hlogs
  have hgrows := (hafter ((respond e' (.inw .corbrp)).1 % 2 ^ 16)).grows.world_log respond
    ⟨(respond e' (.inw .corbrp)).2, 0, log ++ [.inw .corbrp]⟩
  rw [← hlogs] at hgrows
  have hlength := hgrows.length_le
  rw [List.length_append] at hlength
  exact absurd hlength (Nat.not_succ_le_self _)

/-- Where it offers one, a read pointer that equals `RIRBWP` keeps the driver waiting, and any other one does not. -/
theorem depends_of_set (hrun : Completes respond untilStale e [] (d, stateStatus, writePointer) e' log)
    (hset : d.corbEntries ≠ 0) : ¬ Oblivious respond e := by
  intro hsame
  obtain ⟨n, hn⟩ := hrun
  obtain ⟨e₁, log₁, m, hm⟩ : ∃ e₁ log₁, Completes respond
      (store d.corbEntries (firstVerb stateStatus (List.range 15)) writePointer) e' log () e₁ log₁ :=
    ⟨_, _, (Completes.access _ _ _).bind (completes_outw _ _ _ _)⟩
  let pointer := (respond e₁ (.inw .rirbwp)).1 % 2 ^ 16 % 2 ^ 8
  have hpointer : pointer < 2 ^ 8 := Nat.mod_lt _ (by decide)
  let s₁ : HdaDevice := ⟨none, 0, 1, pointer⟩
  let s₂ : HdaDevice := ⟨none, 0, 1, pointer + 1⟩
  have hentries : (s₂.over d).rirbEntries ≠ 0 := by
    show (if d.rirbEntries = 0 then 1 else d.rirbEntries) ≠ 0
    split_ifs with hzero
    · exact Nat.one_ne_zero
    · exact hzero
  have hrange {rirbRp : ℕ} (h : rirbRp ≤ 2 ^ 8) : HdaDevice.InRange ⟨none, 0, 1, rirbRp⟩ :=
    ⟨Nat.two_pow_pos 32, Nat.one_lt_two_pow (by decide), Nat.lt_of_le_of_lt h (by decide)⟩
  have hlogs := hsame s₁ s₂ (hrange hpointer.le) (hrange hpointer) (n + (m + 2))
  obtain ⟨rest₁, heq₁, hset₁, -⟩ := initDev_eq (E := E) (α := Unit) s₁
  obtain ⟨rest₂, heq₂, hset₂, -⟩ := initDev_eq (E := E) (α := Unit) s₂
  obtain ⟨o₁, after₁, hafter₁, hread₁⟩ := hset₁ d stateStatus writePointer hset
  obtain ⟨o₂, after₂, hafter₂, hread₂⟩ := hset₂ d stateStatus writePointer hset
  rw [heq₁, heq₂, bind_done (hn _), bind_done (hn _), hread₁, hread₂, bind_done (hm _), bind_done (hm _)] at hlogs
  let again : List Access := [.inw .rirbwp, .inw .rirbwp]
  let taken : List Access := [.inw .rirbwp, .outb .rirbsts 5]
  have hagain : log₁ ++ again <+:
      ((rirbRead { s₁.over d with output := o₁ } >>= after₁) respond ⟨e₁, 2, log₁⟩).world.log := rirbRead_again hafter₁ rfl
  have htaken : log₁ ++ taken <+:
      ((rirbRead { s₂.over d with output := o₂ } >>= after₂) respond ⟨e₁, 2, log₁⟩).world.log :=
    rirbRead_leaves hafter₂ hentries (Nat.succ_ne_self pointer).symm
  rw [hlogs] at hagain
  have hlength : (log₁ ++ again).length = (log₁ ++ taken).length := by
    rw [List.length_append, List.length_append]
    rfl
  have hequal := (List.prefix_of_prefix_length_le hagain htaken hlength.le).eq_of_length hlength
  exact absurd (List.append_cancel_left hequal) (by decide)

end Divergence

theorem built_resetController : Built (resetController : Driver E Unit) := by
  have hsecond : Built (do return (← inl .rirbctl) &&& RIRBCTL_RIRBRUN ≠ 0 : Driver E Bool) :=
    .bind (built_inl _) fun _ => .pure _
  refine .bind (built_outl _ _) fun _ => .bind (built_outl _ _) fun _ => .bind (.poll _ ?_ ?_) fun _ => ?_
  · exact .bind (built_inl _) fun _ => .ite _ (.pure _) hsecond
  · exact .bind (costs_inl _) fun _ => (Built.ite _ (.pure _) hsecond).steady
  refine .bind (built_outl _ _) fun _ => .bind (.poll _ (built_inl _) (costs_inl _)) fun _ => ?_
  refine .bind (built_outl _ _) fun _ => .bind (.poll _ (built_inl _) (costs_inl _)) fun _ => ?_
  exact .bind (built_outw _ _) fun _ => built_outl _ _

theorem built_initCorb (d : HdaDevice) : Built (initCorb d : Driver E HdaDevice) := by
  refine .bind (built_outb _ _) fun _ => .bind (built_inb _) fun _ => .bind (built_outb _ _) fun _ => ?_
  refine .bind (.load _) fun _ => .bind (built_outl _ _) fun _ => .bind (built_outl _ _) fun _ => ?_
  exact .bind (built_outb _ _) fun _ => .pure _

theorem built_initRirb (d : HdaDevice) : Built (initRirb d : Driver E HdaDevice) := by
  refine .bind (built_outb _ _) fun _ => .bind (built_inb _) fun _ => .bind (built_outb _ _) fun _ => ?_
  refine .bind (.load _) fun _ => .bind (built_outl _ _) fun _ => .bind (built_outl _ _) fun _ => ?_
  exact .bind (built_outb _ _) fun _ => .bind (built_outb _ _) fun _ => .pure _

theorem built_untilStale : Built (untilStale : Driver E (HdaDevice × ℕ × ℕ)) := by
  refine .bind built_resetController fun _ => .bind (built_initCorb _) fun d => .bind (built_initRirb d) fun d => ?_
  refine .bind (built_inw _) fun _ => .bind (built_inw _) fun _ => .ite _ (.pure _) ?_
  exact .bind (.poll _ (built_pointer _) (costs_pointer _)) fun _ => .pure _

/-- The accesses depend on the block as soon as the driver gets to what it has not written, and not before. -/
theorem initDev_oblivious_iff (respond : E → Access → ℕ × E) (e : E) :
    Oblivious respond e ↔ ¬ Returns respond untilStale e [] := by
  constructor
  · rintro hsame ⟨⟨d, stateStatus, writePointer⟩, e', log, hrun⟩
    by_cases hset : d.corbEntries = 0
    · exact depends_of_unset hrun hset hsame
    · exact depends_of_set hrun hset hsame
  · intro hstuck s₁ s₂ _ _ budget
    obtain ⟨rest₁, heq₁, -⟩ := initDev_eq (E := E) (α := Unit) s₁
    obtain ⟨rest₂, heq₂, -⟩ := initDev_eq (E := E) (α := Unit) s₂
    rw [heq₁, heq₂]
    cases hrun : (untilStale : Driver E _) respond ⟨e, budget, []⟩ with
    | done r w => exact absurd ⟨r, w.env, w.log, built_untilStale.steady.completes hrun⟩ hstuck
    | paused w => rw [bind_paused hrun, bind_paused hrun]
    | fault s w => rw [bind_fault hrun, bind_fault hrun]

/-- A controller with one codec, which has answered the first verb by the time the driver looks. It remembers `GCTL`. -/
def oneCodec (gctl : ℕ) : Access → ℕ × ℕ
  | .outl .gctl val => (0, val)
  | .inl .gctl => (gctl, gctl)
  | .inb _ => (0x42, gctl)
  | .inw .statests => (1, gctl)
  | .inw .rirbwp => (1, gctl)
  | _ => (0, gctl)

/-- With zeros in the block the driver takes the response, and with a stale read pointer of 1 it waits for another one. -/
theorem stale_rirbRp_waits : ¬ Oblivious oneCodec 0 := by
  intro hsame
  have hlogs := hsame zeroed { zeroed with rirbRp := 1 } ⟨by decide, by decide, by decide⟩ ⟨by decide, by decide, by decide⟩ 32
  have hdiffer : (initDev (α := Unit) zeroed oneCodec ⟨0, 32, []⟩).world.log ≠
      (initDev (α := Unit) { zeroed with rirbRp := 1 } oneCodec ⟨0, 32, []⟩).world.log := by
    decide +kernel
  exact hdiffer hlogs

end AudioKernel.Audio
