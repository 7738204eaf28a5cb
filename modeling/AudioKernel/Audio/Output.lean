import AudioKernel.Audio.Model
import Mathlib.Data.List.Induction
import Mathlib.Data.List.Infix
import Mathlib.Data.List.TakeWhile

/-! The output that discovery has recorded, and what the calls that configure it make of it. -/
namespace AudioKernel.Audio
open Lib Interact

/-- A call that configures the output. A setter has what the stream or device of its caller leads to. -/
inductive Command
  | initOutputWidget
  | setVolume (hda : Target) (volume : ℕ)
  | setSampleRate (hda : Target) (sr : ℤ)
  | setChnlCt (hda : Target) (channels : ℤ)

/-- What the call takes for the driver's device. -/
def Command.target : Command → Target
  | .initOutputWidget => .device
  | .setVolume hda _ => hda
  | .setSampleRate hda _ => hda
  | .setChnlCt hda _ => hda

def Command.run {E : Type} (d : HdaDevice) : Command → Driver E HdaDevice
  | .initOutputWidget => Audio.initOutputWidget d
  | .setVolume hda volume => audioSetVolume d hda volume
  | .setSampleRate hda sr => do
    let (_, d) ← audioSetSampleRate d hda sr
    return d
  | .setChnlCt hda channels => do
    let (_, d) ← audioSetChnlCt d hda channels
    return d

def commands {E : Type} (cmds : List Command) (d : HdaDevice) : Driver E HdaDevice := cmds.foldlM Command.run d

/-- The field of a verb that says to which codec and node it goes. -/
def Output.address (o : Output) : ℕ := o.codec % 2 ^ 4 * 2 ^ 8 + o.nodeId % 2 ^ 8

/-- The volume that a set-gain verb carries. -/
def scale (ampGain volume : ℕ) : ℕ := if volume = 0 then 0x80 else volume * ampGain / 255 % 2 ^ 8

def Command.rate : Command → Option ℕ
  | .initOutputWidget => some SR_48_KHZ
  | .setSampleRate _ sr => some (if sr = 44100 then SR_44_KHZ else SR_48_KHZ)
  | _ => none

def Command.channels : Command → Option ℕ
  | .initOutputWidget => some 2
  | .setChnlCt _ channels => some (if channels < 1 ∨ 2 < channels then 2 else channels).toNat
  | _ => none

def Command.volume : Command → Option ℕ
  | .setVolume _ volume => some volume
  | _ => none

def lastRate (cmds : List Command) : Option ℕ := cmds.reverse.findSome? Command.rate

def lastChannels (cmds : List Command) : Option ℕ := cmds.reverse.findSome? Command.channels

def gains (verbs : List ℕ) : List ℕ := (verbs.filter fun v => v / 2 ^ 16 % 2 ^ 4 = 3).map (· % 2 ^ 8)

/-- Discovery has recorded an output, over rings that have entries. -/
structure Ready (d : HdaDevice) (o : Output) : Prop where
  output : d.output = some o
  corbEntries : d.corbEntries ≠ 0
  rirbEntries : d.rirbEntries ≠ 0

/-- The output survives a sequence of calls: none of them goes astray; every verb goes to its codec and node; and whenever
the first ones of the calls have returned, the volumes were scaled by its gain, and what was set last is kept. -/
structure Survives {E : Type} (respond : E → Access → ℕ × E) (e : E) (d : HdaDevice) (o : Output)
    (cmds : List Command) : Prop where
  proper : ∀ budget s w, commands cmds d respond ⟨e, budget, []⟩ ≠ .fault s w
  addressed : ∀ budget, ∀ v ∈ stored (commands cmds d respond ⟨e, budget, []⟩).world.log, v / 2 ^ 20 = o.address
  scaled : ∀ pre, pre <+: cmds → ∀ budget d' w, commands pre d respond ⟨e, budget, []⟩ = .done d' w →
    gains (stored w.log) = (pre.filterMap Command.volume).map (scale o.ampGain)
  kept : ∀ pre, pre <+: cmds → ∀ budget d' w, commands pre d respond ⟨e, budget, []⟩ = .done d' w →
    ∃ o', d'.output = some o' ∧ (∀ r, lastRate pre = some r → o'.sampleRate = r) ∧
      ∀ n, lastChannels pre = some n → o'.numChannels = n

/-- The calls that replace the output make no difference: it has the address 0 of a new one; and where the volume is set the
gain makes it 0 as well, and nothing was set before but what a new output has. -/
def Harmless (o : Output) (pre : List Command) : Command → Prop
  | .initOutputWidget => o.address = 0
  | .setVolume _ volume => o.address = 0 ∧ (volume ≠ 0 → volume * o.ampGain / 255 % 2 ^ 8 = 0) ∧
      (∀ r, lastRate pre = some r → r = 0) ∧ lastChannels pre = none
  | _ => True

/-- What a call makes of the output. -/
def Command.effect (o : Output) : Command → Output
  | .initOutputWidget => { Output.new with sampleRate := SR_48_KHZ, numChannels := 2 }
  | .setVolume _ _ => Output.new
  | .setSampleRate _ sr => { o with sampleRate := if sr = 44100 then SR_44_KHZ else SR_48_KHZ }
  | .setChnlCt _ channels => { o with numChannels := (if channels < 1 ∨ 2 < channels then 2 else channels).toNat }

def Output.formatVerb (o : Output) : ℕ := verb o.codec o.nodeId (VERB_SET_FORMAT ||| o.format)

def Command.verbs (o : Output) (cmd : Command) : List ℕ :=
  match cmd with
  | .initOutputWidget => [verb 0 0 (VERB_SET_STREAM_CHANNEL ||| 0x10), (cmd.effect o).formatVerb]
  | .setVolume _ volume => [verb 0 0 (VERB_SET_AMP_GAIN_MUTE ||| 0xB000 ||| scale 0 volume)]
  | .setSampleRate _ _ => [(cmd.effect o).formatVerb]
  | .setChnlCt _ _ => [(cmd.effect o).formatVerb]

def verbs (o : Output) : List Command → List ℕ
  | [] => []
  | cmd :: cmds => cmd.verbs o ++ verbs (cmd.effect o) cmds

/-- The verbs so far are `vs` and the first ones of `ws`. -/
def Sent {E : Type} (vs ws : List ℕ) (_ : E) (log : List Access) : Prop := ∃ us, us <+: ws ∧ stored log = vs ++ us

variable {E : Type} {respond : E → Access → ℕ × E} {d : HdaDevice} {vs ws us : List ℕ} {e : E} {log : List Access}
  {o : Output} {cmds : List Command} {cmd : Command}

theorem Sent.none (h : stored log = vs) : Sent vs ws e log := ⟨[], List.nil_prefix, by rw [h, List.append_nil]⟩

theorem Sent.all (h : stored log = vs ++ ws) : Sent vs ws e log := ⟨ws, List.prefix_rfl, h⟩

theorem Sent.mono (h : Sent vs us e log) (hus : us <+: ws) : Sent vs ws e log := by
  obtain ⟨ts, hts, hlog⟩ := h
  exact ⟨ts, hts.trans hus, hlog⟩

theorem Sent.shift (h : Sent (vs ++ us) ws e log) : Sent vs (us ++ ws) e log := by
  obtain ⟨ts, hts, hlog⟩ := h
  exact ⟨us ++ ts, (List.prefix_append_right_inj us).mpr hts, by rw [hlog, List.append_assoc]⟩

theorem stored_quiet (h : stored log = vs) {a : Access} (ha : stored [a] = []) : stored (log ++ [a]) = vs := by
  rw [stored_append, h, ha, List.append_nil]

theorem sends_corbWrite (d : HdaDevice) (v : ℕ) : Triple respond (fun _ log => stored log = vs) (corbWrite d v)
    (fun _ _ log => stored log = vs ++ [v]) (Sent vs [v]) := by
  unfold corbWrite
  refine .bind (Q := fun _ _ log => stored log = vs) ?_ fun w => ?_
  · exact triple_inw (fun _ _ h => .none h) fun _ _ h => stored_quiet h rfl
  by_cases hzero : d.corbEntries = 0
  · rw [if_pos hzero]
    exact .stop _ fun _ _ h => .none h
  rw [if_neg hzero]
  refine .bind (Q := fun _ _ log => stored log = vs) ?_ fun _ => ?_
  · refine .poll (fun _ _ h => .none h) ?_
    refine .bind (Q := fun _ _ log => stored log = vs) ?_ fun a => .pure fun _ _ h => by simpa using h
    exact triple_inw (fun _ _ h => .none h) fun _ _ h => stored_quiet h rfl
  refine .bind (Q := fun _ _ log => stored log = vs ++ [v]) ?_ fun _ => ?_
  · refine .access (fun _ _ h => .none h) fun _ log h => ?_
    rw [stored_append, h]
    rfl
  · exact triple_outw (fun _ _ h => .all h) fun _ _ h => stored_quiet h rfl

theorem sends_rirbRead (d : HdaDevice) {R : E → List Access → Prop} (hR : ∀ e log, stored log = vs → R e log) :
    Triple respond (fun _ log => stored log = vs) (rirbRead d)
      (fun r _ log => stored log = vs ∧ r.2.output = d.output) R := by
  unfold rirbRead
  refine .bind (Q := fun _ _ log => stored log = vs) ?_ fun _ => ?_
  · refine .poll hR ?_
    refine .bind (Q := fun _ _ log => stored log = vs) ?_ fun a => .pure fun _ _ h => by simpa using h
    exact triple_inw hR fun _ _ h => stored_quiet h rfl
  by_cases hzero : d.rirbEntries = 0
  · rw [if_pos hzero]
    exact .stop _ hR
  rw [if_neg hzero]
  refine .bind (Q := fun _ _ log => stored log = vs) (.load fun _ _ h => h) fun _ => ?_
  refine .bind (Q := fun _ _ log => stored log = vs) ?_ fun _ => .pure fun _ _ h => ⟨h, rfl⟩
  exact triple_outb hR fun _ _ h => stored_quiet h rfl

/-- A transmission sends its verb, and leaves the output alone. -/
theorem sends_codecTransmission (d : HdaDevice) (codec widgetId payload : ℕ) :
    Triple respond (fun _ log => stored log = vs) (codecTransmission d codec widgetId payload)
      (fun r _ log => stored log = vs ++ [verb codec widgetId payload] ∧ r.2.output = d.output)
      (Sent vs [verb codec widgetId payload]) :=
  .bind (sends_corbWrite d _) fun _ => sends_rirbRead d fun _ _ h => .all h

theorem sends_outputWidgetConfig (hd : d.output = some o) :
    Triple respond (fun _ log => stored log = vs) (outputWidgetConfig d)
      (fun d' _ log => stored log = vs ++ [o.formatVerb] ∧ d'.output = some o) (Sent vs [o.formatVerb]) := by
  unfold outputWidgetConfig HdaDevice.withOutput
  rw [hd]
  refine .bind (sends_codecTransmission d o.codec o.nodeId _) fun r => ?_
  refine .bind (Q := fun _ _ log => stored log = vs ++ [o.formatVerb] ∧ r.2.output = d.output) ?_ fun _ => ?_
  · exact triple_outl (fun _ _ h => .all h.1) fun _ _ h => ⟨stored_quiet h.1 rfl, h.2⟩
  · exact .pure fun _ _ h => ⟨h.1, h.2.trans hd⟩

theorem sends_initOutputWidget (d : HdaDevice) (o : Output) :
    Triple respond (fun _ log => stored log = vs) (initOutputWidget d)
      (fun d' _ log => stored log = vs ++ Command.verbs o .initOutputWidget ∧
        d'.output = some (Command.effect o .initOutputWidget)) (Sent vs (Command.verbs o .initOutputWidget)) := by
  refine .bind ((sends_codecTransmission _ 0 0 _).interrupted fun _ _ h => h.mono (List.prefix_append _ [_])) fun r => ?_
  let d₁ : HdaDevice := { r.2 with output := some (Command.effect o .initOutputWidget) }
  let first := vs ++ [verb 0 0 (VERB_SET_STREAM_CHANNEL ||| 0x10)]
  let format := (Command.effect o .initOutputWidget).formatVerb
  have hconfig : Triple respond (fun _ log => stored log = first) (outputWidgetConfig d₁)
      (fun d' _ log => stored log = first ++ [format] ∧ d'.output = some (Command.effect o .initOutputWidget))
      (Sent first [format]) := sends_outputWidgetConfig rfl
  refine (hconfig.interrupted fun _ _ h => h.shift).weaken (fun _ _ h => h.1) fun d' _ log h => ⟨?_, h.2⟩
  rw [h.1, List.append_assoc]
  rfl

/-- The setters that change the output in place. -/
theorem sends_inPlace (set : Output → Output) (returned : ℤ) (hd : d.output = some o) :
    Triple respond (fun _ log => stored log = vs)
      (d.withOutput fun o => do
        let d ← outputWidgetConfig { d with output := some (set o) }
        return (returned, d))
      (fun r _ log => stored log = vs ++ [(set o).formatVerb] ∧ r.2.output = some (set o))
      (Sent vs [(set o).formatVerb]) := by
  unfold HdaDevice.withOutput
  rw [hd]
  exact .bind (sends_outputWidgetConfig rfl) fun d' => .pure fun _ _ h => h

/-- What a call sends, and what it makes of the output, does not depend on the controller. -/
theorem sends_run (cmd : Command) (htarget : cmd.target = .device) (hd : d.output = some o) :
    Triple respond (fun _ log => stored log = vs) (cmd.run d)
      (fun d' _ log => stored log = vs ++ cmd.verbs o ∧ d'.output = some (cmd.effect o)) (Sent vs (cmd.verbs o)) := by
  cases cmd with
  | initOutputWidget => exact sends_initOutputWidget d o
  | setVolume target volume =>
    obtain rfl : target = .device := htarget
    exact .bind (sends_codecTransmission _ 0 0 _) fun _ => .pure fun _ _ h => h
  | setSampleRate target sr =>
    obtain rfl : target = .device := htarget
    exact .bind (sends_inPlace (Command.effect · (.setSampleRate .device sr)) _ hd) fun _ => .pure fun _ _ h => h
  | setChnlCt target channels =>
    obtain rfl : target = .device := htarget
    exact .bind (sends_inPlace (Command.effect · (.setChnlCt .device channels)) _ hd) fun _ => .pure fun _ _ h => h

theorem astray_faults {α : Type} (respond : E → Access → ℕ × E) (pointer offset : ℕ) (w : World Access E) :
    ∃ stop, (astray pointer offset : Driver E α) respond w = .fault stop w := by
  unfold astray
  split_ifs
  · exact ⟨_, rfl⟩
  · exact ⟨_, rfl⟩

/-- A call that is led elsewhere does not get far. -/
theorem run_faults (htarget : cmd.target ≠ .device) (respond : E → Access → ℕ × E) (d : HdaDevice) (w : World Access E) :
    ∃ stop, cmd.run d respond w = .fault stop w := by
  have hastray {α : Type} {x : Driver E α} {f : α → Driver E HdaDevice} {pointer offset : ℕ} (hx : x = astray pointer offset) :
      ∃ stop, (x >>= f) respond w = .fault stop w := by
    obtain ⟨stop, hstop⟩ : ∃ stop, (astray pointer offset : Driver E α) respond w = .fault stop w := astray_faults respond pointer offset w
    exact ⟨stop, bind_fault (hx ▸ hstop)⟩
  cases cmd with
  | initOutputWidget => exact absurd rfl htarget
  | setVolume target volume =>
    cases target with
    | device => exact absurd rfl htarget
    | null => exact astray_faults respond 0 4 w
    | other output mmio => exact astray_faults respond mmio 4 w
  | setSampleRate target sr =>
    cases target with
    | device => exact absurd rfl htarget
    | null => exact hastray rfl
    | other output mmio => exact hastray rfl
  | setChnlCt target channels =>
    cases target with
    | device => exact absurd rfl htarget
    | null => exact hastray rfl
    | other output mmio => exact hastray rfl

def effects (o : Output) (cmds : List Command) : Output := cmds.foldl Command.effect o

theorem sends_commands (cmds : List Command) (htargets : ∀ cmd ∈ cmds, cmd.target = .device) (hd : d.output = some o) :
    Triple respond (fun _ log => stored log = vs) (commands cmds d)
      (fun d' _ log => stored log = vs ++ verbs o cmds ∧ d'.output = some (effects o cmds)) (Sent vs (verbs o cmds)) := by
  induction cmds generalizing d o vs with
  | nil => exact .pure fun _ _ h => ⟨h.trans (List.append_nil vs).symm, hd⟩
  | cons cmd cmds ih =>
    rw [List.forall_mem_cons] at htargets
    refine .bind ((sends_run cmd htargets.1 hd).interrupted fun _ _ h => h.mono (List.prefix_append _ _)) fun d' w hw => ?_
    have hrest : Triple respond (fun _ log => stored log = vs ++ cmd.verbs o) (commands cmds d')
        (fun d'' _ log => stored log = vs ++ cmd.verbs o ++ verbs (cmd.effect o) cmds ∧
          d''.output = some (effects (cmd.effect o) cmds)) (Sent (vs ++ cmd.verbs o) (verbs (cmd.effect o) cmds)) :=
      ih htargets.2 hw.2
    refine ((hrest.interrupted fun _ _ h => h.shift).weaken (fun _ _ h => h) fun d'' _ log h => ⟨?_, h.2⟩) w hw.1
    rw [h.1, List.append_assoc]
    rfl

theorem safe_inw (reg : Reg) : Safe (inw reg : Driver E ℕ) fun _ => True := .bind (.access _) fun _ _ => .pure trivial

theorem safe_outb (reg : Reg) (val : ℕ) : Safe (outb reg val : Driver E Unit) fun _ => True :=
  .bind (.access _) fun _ _ => .pure trivial

theorem safe_outw (reg : Reg) (val : ℕ) : Safe (outw reg val : Driver E Unit) fun _ => True :=
  .bind (.access _) fun _ _ => .pure trivial

theorem safe_outl (reg : Reg) (val : ℕ) : Safe (outl reg val : Driver E Unit) fun _ => True :=
  .bind (.access _) fun _ _ => .pure trivial

/-- Over rings that have entries a transmission can only wait. -/
theorem Ready.codecTransmission (h : Ready d o) (codec widgetId payload : ℕ) :
    Safe (codecTransmission d codec widgetId payload : Driver E (ℕ × HdaDevice)) fun r => Ready r.2 o := by
  refine .bind (Q := fun _ => True) ?_ fun _ _ => ?_
  · unfold corbWrite
    refine .bind (safe_inw _) fun w _ => ?_
    rw [if_neg h.corbEntries]
    refine .bind (Q := fun _ => True) (.poll (.bind (safe_inw _) fun _ _ => .pure trivial) _) fun _ _ => ?_
    exact .bind (.access _) fun _ _ => safe_outw _ _
  · unfold rirbRead
    refine .bind (Q := fun _ => True) (.poll (.bind (safe_inw _) fun _ _ => .pure trivial) _) fun _ _ => ?_
    rw [if_neg h.rirbEntries]
    refine .bind (.load _) fun _ _ => .bind (safe_outb _ _) fun _ _ => ?_
    exact .pure ⟨h.output, h.corbEntries, h.rirbEntries⟩

theorem Ready.outputWidgetConfig (h : Ready d o) :
    Safe (outputWidgetConfig d : Driver E HdaDevice) fun d' => Ready d' o := by
  unfold Audio.outputWidgetConfig HdaDevice.withOutput
  rw [h.output]
  exact .bind (h.codecTransmission _ _ _) fun r hr => .bind (safe_outl _ _) fun _ _ => .pure hr

theorem Ready.withOutput (h : Ready d o) (o' : Output) : Ready { d with output := some o' } o' :=
  ⟨rfl, h.corbEntries, h.rirbEntries⟩

theorem Ready.inPlace (h : Ready d o) (set : Output → Output) (returned : ℤ) :
    Safe (d.withOutput fun o => do
      let d ← Audio.outputWidgetConfig { d with output := some (set o) }
      return (returned, d) : Driver E (ℤ × HdaDevice)) fun r => Ready r.2 (set o) := by
  unfold HdaDevice.withOutput
  rw [h.output]
  exact .bind (h.withOutput (set o)).outputWidgetConfig fun d' hd' => .pure hd'

/-- A call that is led to the device does not go astray. -/
theorem Ready.run (h : Ready d o) (htarget : cmd.target = .device) :
    Safe (cmd.run d : Driver E HdaDevice) fun d' => Ready d' (cmd.effect o) := by
  cases cmd with
  | initOutputWidget =>
    refine .bind ((h.withOutput Output.new).codecTransmission _ _ _) fun r hr => ?_
    exact (hr.withOutput _).outputWidgetConfig
  | setVolume target volume =>
    obtain rfl : target = .device := htarget
    exact .bind ((h.withOutput Output.new).codecTransmission _ _ _) fun r hr => .pure hr
  | setSampleRate target sr =>
    obtain rfl : target = .device := htarget
    exact .bind (h.inPlace (Command.effect · (.setSampleRate .device sr)) _) fun _ hr => .pure hr
  | setChnlCt target channels =>
    obtain rfl : target = .device := htarget
    exact .bind (h.inPlace (Command.effect · (.setChnlCt .device channels)) _) fun _ hr => .pure hr

theorem Ready.commands (h : Ready d o) (htargets : ∀ cmd ∈ cmds, cmd.target = .device) :
    Safe (commands cmds d : Driver E HdaDevice) fun d' => Ready d' (effects o cmds) := by
  induction cmds generalizing d o with
  | nil => exact .pure h
  | cons cmd cmds ih =>
    rw [List.forall_mem_cons] at htargets
    exact .bind (h.run htargets.1) fun d' hd' => ih hd' htargets.2

/-- The calls before the first that is led elsewhere. -/
def led (cmds : List Command) : List Command := cmds.takeWhile fun cmd => cmd.target = .device

theorem led_target (cmds : List Command) : ∀ cmd ∈ led cmds, cmd.target = .device := fun _ hcmd => by simpa using List.mem_takeWhile_imp hcmd

/-- When these have returned, the next goes astray. -/
theorem all_led {e' : E} {log' : List Access} {d' : HdaDevice} (hled : Completes respond (commands (led cmds) d) e log d' e' log')
    (hproper : ∀ budget s w, commands cmds d respond ⟨e, budget, log⟩ ≠ .fault s w) : led cmds = cmds := by
  have hsplit : led cmds ++ cmds.dropWhile (fun cmd => cmd.target = .device) = cmds := List.takeWhile_append_dropWhile
  cases hrest : cmds.dropWhile fun cmd => cmd.target = .device with
  | nil => rw [← List.append_nil (led cmds), ← hrest, hsplit]
  | cons cmd rest =>
    obtain ⟨n, hn⟩ := hled
    have htarget : cmd.target ≠ .device := by
      have hhead := List.head?_dropWhile_not (fun cmd : Command => decide (cmd.target = .device)) cmds
      rw [hrest] at hhead
      simpa using hhead
    obtain ⟨s, hs⟩ := run_faults htarget respond d' ⟨e', 0, log'⟩
    have hcommands : commands cmds d = commands (led cmds) d >>= commands (E := E) (cmd :: rest) := by
      rw [← hrest]
      conv_lhs => rw [← hsplit]
      exact List.foldlM_append
    refine absurd ?_ (hproper (n + 0) s ⟨e', 0, log'⟩)
    rw [hcommands, bind_done (hn 0)]
    exact bind_fault hs

theorem verb_div (codec widgetId payload : ℕ) :
    verb codec widgetId payload / 2 ^ 20 = codec % 2 ^ 4 * 2 ^ 8 + widgetId % 2 ^ 8 := by
  unfold verb
  omega

theorem verb_mod (codec widgetId payload : ℕ) : verb codec widgetId payload % 2 ^ 20 = payload % 2 ^ 20 := by
  unfold verb
  omega

theorem payload_or {low : ℕ} (i high : ℕ) (hlow : low < 2 ^ i) : 2 ^ i * high ||| low = 2 ^ i * high + low :=
  (Nat.two_pow_add_eq_or_of_lt hlow high).symm

theorem gains_singleton (v : ℕ) : gains [v] = if v / 2 ^ 16 % 2 ^ 4 = 3 then [v % 2 ^ 8] else [] := by
  unfold gains
  rw [List.filter_cons]
  by_cases hkind : v / 2 ^ 16 % 2 ^ 4 = 3
  · rw [if_pos hkind, if_pos (decide_eq_true hkind)]
    rfl
  · rw [if_neg hkind, if_neg (by simpa using hkind)]
    rfl

/-- A set-format verb goes to the codec and node of the output, and sets no gain. -/
theorem formatVerb_spec (o : Output) : o.formatVerb / 2 ^ 20 = o.address ∧ gains [o.formatVerb] = [] := by
  refine ⟨verb_div _ _ _, ?_⟩
  have hformat : o.format < 2 ^ 16 := Nat.mod_lt _ (by decide)
  have hmod := verb_mod o.codec o.nodeId (VERB_SET_FORMAT ||| o.format)
  rw [show VERB_SET_FORMAT ||| o.format = 2 ^ 16 * 2 + o.format from payload_or 16 2 hformat] at hmod
  have hkind : o.formatVerb / 2 ^ 16 % 2 ^ 4 ≠ 3 := by
    unfold Output.formatVerb
    rw [show VERB_SET_FORMAT ||| o.format = 2 ^ 16 * 2 + o.format from payload_or 16 2 hformat]
    omega
  rw [gains_singleton, if_neg hkind]

theorem scale_lt (ampGain volume : ℕ) : scale ampGain volume < 2 ^ 8 := by
  unfold scale
  split_ifs
  · decide
  · exact Nat.mod_lt _ (by decide)

theorem gainVerb_spec (volume : ℕ) : verb 0 0 (VERB_SET_AMP_GAIN_MUTE ||| 0xB000 ||| scale 0 volume) / 2 ^ 20 = 0 ∧
    gains [verb 0 0 (VERB_SET_AMP_GAIN_MUTE ||| 0xB000 ||| scale 0 volume)] = [scale 0 volume] := by
  have hscale := scale_lt 0 volume
  have hpayload : VERB_SET_AMP_GAIN_MUTE ||| 0xB000 ||| scale 0 volume = 2 ^ 12 * 0x3B + scale 0 volume :=
    payload_or 12 0x3B (by omega)
  rw [hpayload]
  refine ⟨verb_div _ _ _, ?_⟩
  have hmod := verb_mod 0 0 (2 ^ 12 * 0x3B + scale 0 volume)
  have hkind : verb 0 0 (2 ^ 12 * 0x3B + scale 0 volume) / 2 ^ 16 % 2 ^ 4 = 3 := by omega
  have hvalue : verb 0 0 (2 ^ 12 * 0x3B + scale 0 volume) % 2 ^ 8 = scale 0 volume := by omega
  rw [gains_singleton, if_pos hkind, hvalue]

theorem gains_append (vs ws : List ℕ) : gains (vs ++ ws) = gains vs ++ gains ws := by
  rw [gains, List.filter_append, List.map_append]
  rfl

theorem verbs_append (o : Output) (pre post : List Command) :
    verbs o (pre ++ post) = verbs o pre ++ verbs (effects o pre) post := by
  induction pre generalizing o with
  | nil => rfl
  | cons cmd pre ih =>
    show cmd.verbs o ++ verbs (cmd.effect o) (pre ++ post) = cmd.verbs o ++ verbs (cmd.effect o) pre ++ _
    rw [ih, List.append_assoc]
    rfl

theorem verbs_concat (o : Output) (cmds : List Command) (cmd : Command) :
    verbs o (cmds ++ [cmd]) = verbs o cmds ++ cmd.verbs (effects o cmds) := by
  rw [verbs_append]
  exact congrArg _ (List.append_nil _)

theorem effects_concat (o : Output) (cmds : List Command) (cmd : Command) :
    effects o (cmds ++ [cmd]) = cmd.effect (effects o cmds) := by
  unfold effects
  rw [List.foldl_concat]

theorem lastRate_concat (cmds : List Command) (cmd : Command) :
    lastRate (cmds ++ [cmd]) = cmd.rate.or (lastRate cmds) := by
  unfold lastRate
  rw [List.reverse_append, List.reverse_singleton, List.singleton_append, List.findSome?_cons]
  cases cmd.rate <;> rfl

theorem lastChannels_concat (cmds : List Command) (cmd : Command) :
    lastChannels (cmds ++ [cmd]) = cmd.channels.or (lastChannels cmds) := by
  unfold lastChannels
  rw [List.reverse_append, List.reverse_singleton, List.singleton_append, List.findSome?_cons]
  cases cmd.channels <;> rfl

/-- What is to hold when calls have returned, in terms of what they send and make of the output. -/
structure Intact (o : Output) (cmds : List Command) : Prop where
  addressed : ∀ v ∈ verbs o cmds, v / 2 ^ 20 = o.address
  scaled : gains (verbs o cmds) = (cmds.filterMap Command.volume).map (scale o.ampGain)
  rate : ∀ r, lastRate cmds = some r → (effects o cmds).sampleRate = r
  channels : ∀ n, lastChannels cmds = some n → (effects o cmds).numChannels = n

theorem initVerb_spec : verb 0 0 (VERB_SET_STREAM_CHANNEL ||| 0x10) / 2 ^ 20 = 0 ∧
    gains [verb 0 0 (VERB_SET_STREAM_CHANNEL ||| 0x10)] = [] := by
  refine ⟨by decide, ?_⟩
  rw [gains_singleton]
  exact if_neg (by decide)

/-- The gain verbs of a call. -/
theorem gains_verbs (o : Output) (cmd : Command) : gains (cmd.verbs o) = cmd.volume.toList.map (scale 0) := by
  cases cmd with
  | initOutputWidget =>
    show gains ([verb 0 0 (VERB_SET_STREAM_CHANNEL ||| 0x10)] ++ [_]) = []
    rw [gains_append, initVerb_spec.2, (formatVerb_spec _).2]
    rfl
  | setVolume _ volume => exact (gainVerb_spec volume).2
  | setSampleRate _ sr => exact (formatVerb_spec _).2
  | setChnlCt _ channels => exact (formatVerb_spec _).2

theorem address_eq_zero (hcodec : o.codec = 0) (hnode : o.nodeId = 0) : o.address = 0 := by
  rw [Output.address, hcodec, hnode, Nat.zero_mod, Nat.zero_mod, Nat.zero_mul]

/-- Where the verbs of a call go. -/
theorem verbs_address (o : Output) (cmd : Command) : ∀ v ∈ cmd.verbs o, v / 2 ^ 20 = (cmd.effect o).address := by
  cases cmd with
  | initOutputWidget =>
    intro v hv
    rcases List.mem_pair.mp hv with hstream | hformat
    · rw [hstream, initVerb_spec.1, address_eq_zero rfl rfl]
    · rw [hformat]
      exact (formatVerb_spec _).1
  | setVolume _ volume =>
    intro v hv
    rw [List.mem_singleton.mp hv, (gainVerb_spec volume).1, address_eq_zero rfl rfl]
  | setSampleRate _ sr =>
    intro v hv
    rw [List.mem_singleton.mp hv]
    exact (formatVerb_spec _).1
  | setChnlCt _ channels =>
    intro v hv
    rw [List.mem_singleton.mp hv]
    exact (formatVerb_spec _).1

theorem verbs_ne_nil (o : Output) (cmd : Command) : cmd.verbs o ≠ [] := by
  cases cmd <;> exact List.cons_ne_nil _ _

theorem volumes_concat (cmds : List Command) (cmd : Command) :
    (cmds ++ [cmd]).filterMap Command.volume = cmds.filterMap Command.volume ++ cmd.volume.toList := by
  rw [List.filterMap_append]
  cases hvolume : cmd.volume <;> simp [hvolume]

/-- After one more call the output is intact just when the call goes to its address, scales with its gain, and keeps what was
set before. -/
theorem intact_concat_iff (h : Intact o cmds) : Intact o (cmds ++ [cmd]) ↔
    (cmd.effect (effects o cmds)).address = o.address ∧
      (∀ volume, cmd.volume = some volume → scale 0 volume = scale o.ampGain volume) ∧
      (∀ r, cmd.rate.or (lastRate cmds) = some r → (cmd.effect (effects o cmds)).sampleRate = r) ∧
      ∀ n, cmd.channels.or (lastChannels cmds) = some n → (cmd.effect (effects o cmds)).numChannels = n := by
  have hgains : gains (verbs o (cmds ++ [cmd])) =
      ((cmds ++ [cmd]).filterMap Command.volume).map (scale o.ampGain) ↔
        ∀ volume, cmd.volume = some volume → scale 0 volume = scale o.ampGain volume := by
    rw [verbs_concat, gains_append, h.scaled, gains_verbs, volumes_concat, List.map_append, List.append_cancel_left_eq]
    cases cmd.volume <;> simp
  constructor
  · intro h'
    obtain ⟨v, hv⟩ := List.exists_mem_of_ne_nil _ (verbs_ne_nil (effects o cmds) cmd)
    have haddress := h'.addressed v (by rw [verbs_concat]; exact List.mem_append_right _ hv)
    refine ⟨(verbs_address _ _ v hv).symm.trans haddress, hgains.mp h'.scaled, ?_, ?_⟩
    · rw [← lastRate_concat, ← effects_concat]
      exact h'.rate
    · rw [← lastChannels_concat, ← effects_concat]
      exact h'.channels
  · rintro ⟨haddress, hscale, hrate, hchannels⟩
    refine ⟨?_, hgains.mpr hscale, ?_, ?_⟩
    · intro v hv
      rw [verbs_concat] at hv
      rcases List.mem_append.mp hv with hold | hnew
      · exact h.addressed v hold
      · exact (verbs_address _ _ v hnew).trans haddress
    · rw [lastRate_concat, effects_concat]
      exact hrate
    · rw [lastChannels_concat, effects_concat]
      exact hchannels

theorem lastChannels_ne_zero (cmds : List Command) : lastChannels cmds ≠ some 0 := by
  intro hlast
  obtain ⟨cmd, -, hcmd⟩ := List.exists_of_findSome?_eq_some hlast
  cases cmd with
  | initOutputWidget => cases hcmd
  | setVolume _ volume => cases hcmd
  | setSampleRate _ sr => cases hcmd
  | setChnlCt _ channels =>
    have hzero : (if channels < 1 ∨ 2 < channels then 2 else channels).toNat = 0 := Option.some.inj hcmd
    split_ifs at hzero
    · cases hzero
    · omega

theorem scale_eq_iff (volume : ℕ) :
    scale 0 volume = scale o.ampGain volume ↔ (volume ≠ 0 → volume * o.ampGain / 255 % 2 ^ 8 = 0) := by
  unfold scale
  by_cases hvolume : volume = 0
  · rw [if_pos hvolume, if_pos hvolume]
    exact iff_of_true rfl fun hne => absurd hvolume hne
  · rw [if_neg hvolume, if_neg hvolume, Nat.mul_zero, Nat.zero_div, Nat.zero_mod]
    exact ⟨fun h _ => h.symm, fun h => (h hvolume).symm⟩

/-- The output stays intact just when the call is harmless. -/
theorem harmless_iff (h : Intact o cmds) (haddress : (effects o cmds).address = o.address) :
    Intact o (cmds ++ [cmd]) ↔ Harmless o cmds cmd := by
  rw [intact_concat_iff h]
  cases cmd with
  | initOutputWidget =>
    rw [address_eq_zero (o := Command.effect _ .initOutputWidget) rfl rfl]
    constructor
    · exact fun h => h.1.symm
    · intro h
      exact ⟨h.symm, (fun _ hv => nomatch hv), fun r hr => Option.some.inj hr, fun n hn => Option.some.inj hn⟩
  | setVolume _ volume =>
    rw [address_eq_zero (o := Command.effect _ (.setVolume _ volume)) rfl rfl]
    have hscale : (∀ v, some volume = some v → scale 0 v = scale o.ampGain v) ↔
        (volume ≠ 0 → volume * o.ampGain / 255 % 2 ^ 8 = 0) := by
      rw [← scale_eq_iff]
      exact ⟨fun h => h volume rfl, fun h v hv => Option.some.inj hv ▸ h⟩
    have hchannels : (∀ n, lastChannels cmds = some n → 0 = n) ↔ lastChannels cmds = none := by
      constructor
      · intro h
        exact Option.eq_none_iff_forall_ne_some.mpr fun n hn => lastChannels_ne_zero cmds (h n hn ▸ hn)
      · intro h n hn
        rw [h] at hn
        cases hn
    exact and_congr eq_comm (and_congr hscale (and_congr (forall₂_congr fun _ _ => eq_comm) hchannels))
  | setSampleRate _ sr =>
    exact iff_of_true ⟨haddress, (fun _ hv => nomatch hv), fun r hr => Option.some.inj hr, h.channels⟩ trivial
  | setChnlCt _ channels =>
    exact iff_of_true ⟨haddress, (fun _ hv => nomatch hv), h.rate, fun n hn => Option.some.inj hn⟩ trivial

/-- The output stays intact as long as every call is harmless, and no longer. -/
theorem intact_iff (o : Output) (cmds : List Command) :
    (∀ pre, pre <+: cmds → Intact o pre) ↔ ∀ pre cmd, pre ++ [cmd] <+: cmds → Harmless o pre cmd := by
  constructor
  · intro h pre cmd hpre
    have haddress : (effects o pre).address = o.address := by
      rcases List.eq_nil_or_concat pre with rfl | ⟨pre, last, rfl⟩
      · rfl
      · rw [List.concat_eq_append] at hpre ⊢
        have hlast : pre ++ [last] <+: cmds := (List.prefix_append _ _).trans hpre
        rw [effects_concat]
        exact ((intact_concat_iff (h pre ((List.prefix_append _ _).trans hlast))).mp (h _ hlast)).1
    exact (harmless_iff (h pre ((List.prefix_append _ _).trans hpre)) haddress).mp (h _ hpre)
  · intro h pre hpre
    have hboth : Intact o pre ∧ (effects o pre).address = o.address := by
      induction pre using List.reverseRecOn with
      | nil => exact ⟨⟨(fun _ hv => nomatch hv), rfl, (fun _ hr => nomatch hr), fun _ hn => nomatch hn⟩, rfl⟩
      | append_singleton pre cmd ih =>
        obtain ⟨hintact, haddress⟩ := ih ((List.prefix_append _ _).trans hpre)
        have hnext := (harmless_iff hintact haddress).mpr (h pre cmd hpre)
        rw [effects_concat]
        exact ⟨hnext, ((intact_concat_iff hintact).mp hnext).1⟩
    exact hboth.1

/-- What is sent from the beginning. -/
theorem commands_sat (htargets : ∀ cmd ∈ cmds, cmd.target = .device) (hout : d.output = some o)
    (respond : E → Access → ℕ × E) (e : E) (budget : ℕ) : Outcome.Sat (commands cmds d respond ⟨e, budget, []⟩)
      (fun d' _ log => stored log = verbs o cmds ∧ d'.output = some (effects o cmds)) (Sent [] (verbs o cmds)) :=
  sends_commands cmds htargets hout ⟨e, budget, []⟩ rfl

theorem commands_done {w : World Access E} {d' : HdaDevice} {budget : ℕ} (htargets : ∀ cmd ∈ cmds, cmd.target = .device)
    (hout : d.output = some o) (h : commands cmds d respond ⟨e, budget, []⟩ = .done d' w) :
    stored w.log = verbs o cmds ∧ d'.output = some (effects o cmds) := by
  have hsat := commands_sat htargets hout respond e budget
  rw [h] at hsat
  exact hsat

theorem commands_stored (htargets : ∀ cmd ∈ cmds, cmd.target = .device) (hout : d.output = some o)
    (respond : E → Access → ℕ × E) (e : E) (budget : ℕ) :
    stored (commands cmds d respond ⟨e, budget, []⟩).world.log <+: verbs o cmds := by
  have hsat := commands_sat htargets hout respond e budget
  cases h : commands cmds d respond ⟨e, budget, []⟩ with
  | done d' w =>
    rw [h] at hsat
    show stored w.log <+: _
    rw [hsat.1]
  | paused w =>
    rw [h] at hsat
    obtain ⟨us, hus, hlog⟩ := hsat
    show stored w.log <+: _
    rwa [hlog]
  | fault s w =>
    rw [h] at hsat
    obtain ⟨us, hus, hlog⟩ := hsat
    show stored w.log <+: _
    rwa [hlog]

/-- What the calls that are led to the device make of the output. -/
theorem survives_of_intact (hd : Ready d o) (htargets : ∀ cmd ∈ cmds, cmd.target = .device)
    (h : ∀ pre, pre <+: cmds → Intact o pre) (respond : E → Access → ℕ × E) (e : E) : Survives respond e d o cmds := by
  have hpart {pre : List Command} (hpre : pre <+: cmds) : ∀ cmd ∈ pre, cmd.target = .device :=
    fun cmd hcmd => htargets cmd (hpre.subset hcmd)
  refine ⟨fun budget s w => (hd.commands htargets).not_fault s w, fun budget v hv => ?_, ?_, ?_⟩
  · exact (h cmds List.prefix_rfl).addressed v ((commands_stored htargets hd.output respond e budget).subset hv)
  · intro pre hpre budget d' w hdone
    rw [(commands_done (hpart hpre) hd.output hdone).1]
    exact (h pre hpre).scaled
  · intro pre hpre budget d' w hdone
    exact ⟨_, (commands_done (hpart hpre) hd.output hdone).2, (h pre hpre).rate, (h pre hpre).channels⟩

theorem Survives.intact (h : Survives respond e d o cmds) (hd : Ready d o) (htargets : ∀ cmd ∈ cmds, cmd.target = .device)
    (hreturns : Returns respond (commands cmds d) e []) {pre : List Command} (hpre : pre <+: cmds) : Intact o pre := by
  obtain ⟨d', e', log', n, hn⟩ := hreturns
  have hdone := hn 0
  have hstored := (commands_done htargets hd.output hdone).1
  obtain ⟨post, rfl⟩ := hpre
  have hsplit : commands (E := E) (pre ++ post) d = commands pre d >>= commands post := List.foldlM_append
  have hfirst := hdone
  rw [hsplit] at hfirst
  obtain ⟨d₁, w₁, hrun, -⟩ := bind_eq_done hfirst
  have hpart : pre <+: pre ++ post := List.prefix_append _ _
  obtain ⟨hpreStored, hpreOutput⟩ := commands_done (fun cmd hcmd => htargets cmd (hpart.subset hcmd)) hd.output hrun
  obtain ⟨o', ho', hrate, hchannels⟩ := h.kept pre hpart _ _ _ hrun
  obtain rfl : effects o pre = o' := Option.some.inj (hpreOutput.symm.trans ho')
  refine ⟨fun v hv => ?_, ?_, hrate, hchannels⟩
  · refine h.addressed (n + 0) v ?_
    rw [hdone]
    show v ∈ stored log'
    rw [hstored, verbs_append]
    exact List.mem_append_left _ hv
  · rw [← hpreStored]
    exact h.scaled pre hpart _ _ _ hrun

/-- The output survives if every call is led to the device and harmless, and only then, provided that the calls that are led
to the device return. -/
theorem output_survives_iff (hd : Ready d o) (respond : E → Access → ℕ × E) (e : E) (cmds : List Command) :
    ((∀ pre cmd, pre ++ [cmd] <+: cmds → cmd.target = .device ∧ Harmless o pre cmd) → Survives respond e d o cmds) ∧
      (Returns respond (commands (led cmds) d) e [] → Survives respond e d o cmds →
        ∀ pre cmd, pre ++ [cmd] <+: cmds → cmd.target = .device ∧ Harmless o pre cmd) := by
  constructor
  · intro h
    refine survives_of_intact hd ?_ ((intact_iff o cmds).mpr fun pre cmd hpre => (h pre cmd hpre).2) respond e
    intro cmd hcmd
    obtain ⟨pre, post, rfl⟩ := List.append_of_mem hcmd
    exact (h pre cmd ⟨post, by rw [List.append_assoc, List.singleton_append]⟩).1
  · intro hreturns h pre cmd hpre
    obtain ⟨d', e', log', hcompletes⟩ := hreturns
    have hled : led cmds = cmds := all_led hcompletes h.proper
    have htargets : ∀ cmd ∈ cmds, cmd.target = .device := hled ▸ led_target cmds
    rw [hled] at hcompletes
    refine ⟨htargets cmd (hpre.subset (List.mem_append_right _ (List.mem_singleton_self cmd))), ?_⟩
    exact (intact_iff o cmds).mp (fun pre hpre => h.intact hd htargets ⟨d', e', log', hcompletes⟩ hpre) pre cmd hpre

/-- Every answer is the number of accesses so far. -/
def counting (n : ℕ) (_ : Access) : ℕ × ℕ := (n, n + 1)

/-- An output widget of codec 0 that discovery has recorded. -/
def frontOutput : Output := ⟨0, 2, SR_48_KHZ, 127, 2⟩

theorem setters_survive : frontOutput.address = 2 ∧
    (commands [.setSampleRate .device 44100, .setChnlCt .device 1] ⟨some frontOutput, 16, 16, 0⟩ counting
      ⟨0, 30, []⟩).result.isSome ∧
    Survives counting 0 ⟨some frontOutput, 16, 16, 0⟩ frontOutput [.setSampleRate .device 44100, .setChnlCt .device 1] := by
  have hready : Ready ⟨some frontOutput, 16, 16, 0⟩ frontOutput := ⟨rfl, by decide, by decide⟩
  refine ⟨by decide, by decide +kernel, (output_survives_iff hready counting 0 _).1 fun pre cmd hpre => ?_⟩
  have hmem : cmd ∈ [Command.setSampleRate .device 44100, .setChnlCt .device 1] :=
    hpre.subset (List.mem_append_right _ (List.mem_singleton_self cmd))
  rcases List.mem_pair.mp hmem with rfl | rfl <;> exact ⟨rfl, trivial⟩

/-- The output that discovery has recorded is replaced, so that the stream is set at node 0; and a setter that is given a
stream of the driver's own stores the rate through a null pointer. -/
theorem initOutputWidget_forgets :
    ¬ Survives counting 0 ⟨some frontOutput, 16, 16, 0⟩ frontOutput [.initOutputWidget] ∧
      ¬ Survives counting 0 ⟨some frontOutput, 16, 16, 0⟩ frontOutput [.setSampleRate AudioDevice.new.target 44100] := by
  constructor
  · intro h
    have hsent : 0x70610 ∈
        stored (commands [.initOutputWidget] ⟨some frontOutput, 16, 16, 0⟩ counting ⟨0, 6, []⟩).world.log := by
      decide +kernel
    exact absurd (h.addressed 6 _ hsent) (by decide)
  · exact fun h => h.proper 0 _ _ rfl

end AudioKernel.Audio
