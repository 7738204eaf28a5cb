import AudioKernel.Debug
import AudioKernel.Lib.Interaction
import Mathlib.Data.Nat.Bitwise

/-! The driver for Intel High Definition Audio, `audio.cc`: its rings, the discovery of widgets, and the output. -/
namespace AudioKernel.Audio
open Lib Interact

inductive Reg
  | gctl | wakeen | statests | intctl
  | corblbase | corbubase | corbwp | corbrp | corbctl | corbsize
  | rirblbase | rirbubase | rirbwp | rintcnt | rirbctl | rirbsts | rirbsize
  | o0ctlu | o0cbl | o0stlvi | o0fmt | o0bdlpl | o0bdlpu
  deriving DecidableEq

/-- Accesses to the registers and to the memory that the driver shares with the controller: a verb is stored to the CORB,
and words are loaded from the RIRB and from `rings->pa`. -/
inductive Access
  | inb (reg : Reg)
  | inw (reg : Reg)
  | inl (reg : Reg)
  | outb (reg : Reg) (val : ℕ)
  | outw (reg : Reg) (val : ℕ)
  | outl (reg : Reg) (val : ℕ)
  | corb (index verb : ℕ)
  | rirb (index : ℕ)
  | ringsPa
  deriving DecidableEq

structure Output where
  codec : ℕ
  nodeId : ℕ
  sampleRate : ℕ
  ampGain : ℕ
  numChannels : ℕ
  deriving DecidableEq

def Output.new : Output := ⟨0, 0, 0, 0, 0⟩

/-- The fields that the driver reads before or after it has written them. `output` is what the pointer leads to, if that
is an output. -/
structure HdaDevice where
  output : Option Output
  corbEntries : ℕ
  rirbEntries : ℕ
  rirbRp : ℕ
  deriving DecidableEq

abbrev Driver (E α : Type) := Interact Access E Stop α

def GCTL_RESET : ℕ := 2 ^ 0
def CORBCTL_CORBRUN : ℕ := 2 ^ 1
def RIRBCTL_RIRBRUN : ℕ := 2 ^ 1

def VERB_GET_PARAMETER : ℕ := 0xf0000
def VERB_SET_STREAM_CHANNEL : ℕ := 0x70600
def VERB_SET_FORMAT : ℕ := 0x20000
def VERB_GET_AMP_GAIN_MUTE : ℕ := 0xb0000
def VERB_SET_AMP_GAIN_MUTE : ℕ := 0x30000
def VERB_GET_CONN_LIST : ℕ := 0xf0200
def VERB_GET_CONN_SELECT : ℕ := 0xf0100
def VERB_GET_PIN_CONTROL : ℕ := 0xf0700
def VERB_SET_PIN_CONTROL : ℕ := 0x70700
def VERB_GET_EAPD_BTL : ℕ := 0xf0c00
def VERB_SET_EAPD_BTL : ℕ := 0x70c00
def VERB_SET_POWER_STATE : ℕ := 0x70500

def PARAM_NODE_COUNT : ℕ := 0x04
def PARAM_FN_GROUP_TYPE : ℕ := 0x05
def PARAM_AUDIO_WID_CAP : ℕ := 0x09
def PARAM_PIN_CAP : ℕ := 0x0c
def PARAM_CONN_LIST_LEN : ℕ := 0x0e
def PARAM_OUT_AMP_CAP : ℕ := 0x12

def GROUP_AUDIO : ℕ := 0x01

def WIDGET_OUTPUT : ℕ := 0x0
def WIDGET_PIN : ℕ := 0x4

def WIDGET_CAP_POWER_CNTRL : ℕ := 2 ^ 10
def WIDGET_CAP_TYPE_SHIFT : ℕ := 20
def WIDGET_CAP_TYPE_MASK : ℕ := 0xf <<< 20

def PIN_CAP_OUTPUT : ℕ := 2 ^ 4
def PIN_CTL_ENABLE_OUTPUT : ℕ := 2 ^ 6

def SR_48_KHZ : ℕ := 0
def SR_44_KHZ : ℕ := 2 ^ 14
def BITS_16 : ℕ := 2 ^ 4

def BDL_SIZE : ℕ := 4
def BUFFER_SIZE : ℕ := 0x10000

variable {E : Type}

def inb (reg : Reg) : Driver E ℕ := do return (← access (.inb reg)) % 2 ^ 8
def inw (reg : Reg) : Driver E ℕ := do return (← access (.inw reg)) % 2 ^ 16
def inl (reg : Reg) : Driver E ℕ := do return (← access (.inl reg)) % 2 ^ 32
def outb (reg : Reg) (val : ℕ) : Driver E Unit := do let _ ← access (.outb reg val)
def outw (reg : Reg) (val : ℕ) : Driver E Unit := do let _ ← access (.outw reg val)
def outl (reg : Reg) (val : ℕ) : Driver E Unit := do let _ ← access (.outl reg val)

/-- The largest of the sizes that a size register offers, and the bits that select it. -/
def ringSize (reg : ℕ) : Option (ℕ × ℕ) :=
  if reg.testBit 6 then some (256, 2)
  else if reg.testBit 5 then some (16, 1)
  else if reg.testBit 4 then some (2, 0)
  else none

def initCorb (d : HdaDevice) : Driver E HdaDevice := do
  outb .corbsize 255
  let reg ← inb .corbsize
  let corbEntries := (ringSize reg).elim d.corbEntries Prod.fst
  outb .corbsize (reg ||| (ringSize reg).elim 0 Prod.snd)
  let corbBaseAddr ← load .ringsPa
  outl .corblbase (corbBaseAddr % 2 ^ 32)
  outl .corbubase 0
  outb .corbctl 2
  return { d with corbEntries }

def initRirb (d : HdaDevice) : Driver E HdaDevice := do
  outb .rirbsize 255
  let reg ← inb .rirbsize
  let rirbEntries := (ringSize reg).elim d.rirbEntries Prod.fst
  outb .rirbsize (reg ||| (ringSize reg).elim 0 Prod.snd)
  let ringsPa ← load .ringsPa
  outl .rirblbase ((ringsPa + 1024) % 2 ^ 32)
  outl .rirbubase 0
  outb .rintcnt 0x42
  outb .rirbctl 2
  return { d with rirbEntries }

/-- The kernel has no handler for a division by zero. -/
def corbWrite (d : HdaDevice) (verb : ℕ) : Driver E Unit := do
  let writePointer := (← inw .corbwp) % 2 ^ 8
  if d.corbEntries = 0 then stop .wild
  else do
    let next := (writePointer + 1) % d.corbEntries % 2 ^ 16
    let _ ← poll (do return (← inw .corbrp) % 2 ^ 8) fun readPointer => next = readPointer
    let _ ← access (.corb next verb)
    outw .corbwp next

def rirbRead (d : HdaDevice) : Driver E (ℕ × HdaDevice) := do
  let _ ← poll (do return (← inw .rirbwp) % 2 ^ 8) fun writePointer => writePointer = d.rirbRp
  if d.rirbEntries = 0 then stop .wild
  else do
    let readPointer := (d.rirbRp + 1) % d.rirbEntries % 2 ^ 16
    let read ← load (.rirb readPointer)
    outb .rirbsts 5
    return (read % 2 ^ 32, { d with rirbRp := readPointer })

def verb (codec widgetId payload : ℕ) : ℕ := codec % 2 ^ 4 * 2 ^ 28 + widgetId % 2 ^ 8 * 2 ^ 20 + payload % 2 ^ 20

def codecTransmission (d : HdaDevice) (codec widgetId payload : ℕ) : Driver E (ℕ × HdaDevice) := do
  corbWrite d (verb codec widgetId payload)
  rirbRead d

/-- An access through `device->output`. -/
def HdaDevice.withOutput {α : Type} (d : HdaDevice) (f : Output → Driver E α) : Driver E α :=
  match d.output with
  | some o => f o
  | none => stop .wild

/-- The number of channels is a signed number of 32 bits. -/
def Output.format (o : Output) : ℕ := (BITS_16 ||| o.sampleRate ||| (o.numChannels + 2 ^ 32 - 1) % 2 ^ 32) % 2 ^ 16

def outputWidgetConfig (d : HdaDevice) : Driver E HdaDevice :=
  d.withOutput fun o => do
    let (_, d) ← codecTransmission d o.codec o.nodeId (VERB_SET_FORMAT ||| o.format)
    outl .o0fmt o.format
    return d

/-- The stream of the output is left out. -/
def initOutputWidget (d : HdaDevice) : Driver E HdaDevice := do
  let o := Output.new
  let (_, d) ← codecTransmission { d with output := some o } o.codec o.nodeId (VERB_SET_STREAM_CHANNEL ||| 0x10)
  outputWidgetConfig { d with output := some { o with sampleRate := SR_48_KHZ, numChannels := 2 } }

/-- What is printed of the connections is left out. -/
def debugWidgetConnections (d : HdaDevice) (codec nodeId : ℕ) : Driver E HdaDevice := do
  let (numConnections, d) ← codecTransmission d codec nodeId (VERB_GET_PARAMETER ||| PARAM_CONN_LIST_LEN)
  if numConnections = 0 then return d
  else do
    let d ← (List.range (numConnections % 2 ^ 7)).foldlM (fun d i => do
      let index := if numConnections.testBit 7 then i / 4 * 4 else i / 2 * 2
      let (_, d) ← codecTransmission d codec nodeId (VERB_GET_CONN_LIST ||| index)
      return d) d
    let (_, d) ← codecTransmission d codec nodeId VERB_GET_CONN_SELECT
    return d

def initWidget (d : HdaDevice) (codec nodeId : ℕ) : Driver E HdaDevice := do
  let (widgetCapability, d) ← codecTransmission d codec nodeId (VERB_GET_PARAMETER ||| PARAM_AUDIO_WID_CAP)
  if widgetCapability = 0 then return d
  else do
    let type := (widgetCapability &&& WIDGET_CAP_TYPE_MASK) >>> WIDGET_CAP_TYPE_SHIFT
    let (ampCapability, d) ← codecTransmission d codec nodeId (VERB_GET_PARAMETER ||| PARAM_OUT_AMP_CAP)
    let (eapdCapability, d) ← codecTransmission d codec nodeId VERB_GET_EAPD_BTL
    let (_, d) ← codecTransmission d codec nodeId (VERB_GET_AMP_GAIN_MUTE ||| 0x8000)
    let (_, d) ← codecTransmission d codec nodeId (VERB_GET_AMP_GAIN_MUTE ||| 0xA000)
    let d ← debugWidgetConnections d codec nodeId
    let powerControl (d : HdaDevice) : Driver E HdaDevice := do
      if widgetCapability &&& WIDGET_CAP_POWER_CNTRL ≠ 0 then do
        let (_, d) ← codecTransmission d codec nodeId VERB_SET_POWER_STATE
        return d
      else return d
    if type = WIDGET_OUTPUT then do
      let d ← d.withOutput fun o =>
        if o.nodeId = 0 then
          return { d with output := some { o with
            codec := codec % 2 ^ 8, nodeId := nodeId % 2 ^ 16, ampGain := ampCapability / 2 ^ 8 % 2 ^ 7 } }
        else return d
      let (_, d) ← codecTransmission d codec nodeId (VERB_SET_EAPD_BTL ||| eapdCapability ||| 2)
      powerControl d
    else if type = WIDGET_PIN then do
      let (pinCapability, d) ← codecTransmission d codec nodeId (VERB_GET_PARAMETER ||| PARAM_PIN_CAP)
      if pinCapability &&& PIN_CAP_OUTPUT ≠ 0 then do
        let (control, d) ← codecTransmission d codec nodeId VERB_GET_PIN_CONTROL
        let (_, d) ← codecTransmission d codec nodeId (VERB_SET_PIN_CONTROL ||| (control ||| PIN_CTL_ENABLE_OUTPUT))
        let (_, d) ← codecTransmission d codec nodeId (VERB_SET_EAPD_BTL ||| eapdCapability ||| 2)
        powerControl d
      else return d
    else return d

def codecInitWidgets (d : HdaDevice) (codec : ℕ) : Driver E (ℤ × HdaDevice) := do
  let (parameter, d) ← codecTransmission d codec 0 (VERB_GET_PARAMETER ||| PARAM_NODE_COUNT)
  let numFuncGroups := parameter % 2 ^ 8
  let funcGroupStart := parameter / 2 ^ 16 % 2 ^ 8
  let d ← (List.range numFuncGroups).foldlM (fun d i => do
    let (parameter, d) ← codecTransmission d codec (funcGroupStart + i) (VERB_GET_PARAMETER ||| PARAM_NODE_COUNT)
    let numWidgets := parameter % 2 ^ 8
    let widgetStart := parameter / 2 ^ 16 % 2 ^ 8
    let (parameter, d) ← codecTransmission d codec (funcGroupStart + i) (VERB_GET_PARAMETER ||| PARAM_FN_GROUP_TYPE)
    if parameter % 2 ^ 7 ≠ GROUP_AUDIO then return d
    else do
      let (_, d) ← codecTransmission d codec (funcGroupStart + i) VERB_SET_POWER_STATE
      (List.range numWidgets).foldlM (fun d j => initWidget d codec (widgetStart + j)) d) d
  d.withOutput fun o => return (if o.nodeId ≠ 0 then 0 else -1, d)

def initCodecs (stateStatus : ℕ) : List ℕ → HdaDevice → Driver E HdaDevice
  | [], d => return d
  | i :: codecs, d =>
    if stateStatus.testBit i then do
      let (failed, d) ← codecInitWidgets d i
      if failed ≠ 0 then return d
      else initCodecs stateStatus codecs d
    else initCodecs stateStatus codecs d

def audioInitCodec (d : HdaDevice) : Driver E HdaDevice := do
  let stateStatus ← inw .statests
  initCodecs stateStatus (List.range 15) d

/-- The part of `audio_reset` that stops the rings and takes the controller through a reset. -/
def resetController : Driver E Unit := do
  outl .corbctl 0
  outl .rirbctl 0
  let _ ← poll (do
    if (← inl .corbctl) &&& CORBCTL_CORBRUN ≠ 0 then return true
    else return (← inl .rirbctl) &&& RIRBCTL_RIRBRUN ≠ 0) id
  outl .gctl 0
  let _ ← poll (inl .gctl) fun reg => reg &&& GCTL_RESET ≠ 0
  outl .gctl GCTL_RESET
  let _ ← poll (inl .gctl) fun reg => reg &&& GCTL_RESET = 0
  outw .wakeen 0xFFFF
  outl .intctl 0x800000FF

def audioReset (d : HdaDevice) : Driver E HdaDevice := do
  resetController
  let d ← initCorb d
  let d ← initRirb d
  audioInitCodec d

/-- `completed_buffers->pa` is null, and nothing is mapped there. -/
def streamDescriptorInit {α : Type} : Driver E α := do
  outb .o0ctlu 0x10
  outl .o0cbl (BDL_SIZE * BUFFER_SIZE)
  outw .o0stlvi (BDL_SIZE - 1)
  let ringsPa ← load .ringsPa
  outl .o0bdlpl ((ringsPa + 3072) % 2 ^ 32)
  outl .o0bdlpu 0
  stop (.panic "*** can't handle page fault at 0\n")

/-- `init_dev`, from where `d` is what `malloc` delivers. The rest is not reached. -/
def initDev {α : Type} (d : HdaDevice) : Driver E α := do
  let d ← audioReset d
  let _ ← initOutputWidget d
  streamDescriptorInit

/-- What a pointer leads to that a setter takes for a `hda_audio_device`: the device of the driver; nothing; or another
object, with a word where `output` would be and one where `mmio` would. -/
inductive Target
  | device
  | null
  | other (output mmio : ℕ)
  deriving DecidableEq

/-- The words of an `audio_device` behind the first. -/
structure AudioDevice where
  recorder : ℕ
  streams : ℕ

def AudioDevice.new : AudioDevice := ⟨0, 0⟩

/-- Every stream that the driver makes leads to an `audio_device`. -/
def AudioDevice.target (a : AudioDevice) : Target := .other a.recorder a.streams

/-- An access to a field through a pointer that leads to no object of its type. Nothing is mapped at the null pointer. -/
def astray {α : Type} (pointer offset : ℕ) : Driver E α :=
  if pointer = 0 then
    stop (.panic ("*** can't handle page fault at " ++ String.ofList (Nat.toDigits 16 offset) ++ "\n"))
  else stop .wild

/-- Where the stream leads elsewhere, `hda->output` is stored, and then `mmio->va` is read. -/
def audioSetVolume (d : HdaDevice) (hda : Target) (volume : ℕ) : Driver E HdaDevice :=
  match hda with
  | .device => do
    let o := Output.new
    let volume := if volume = 0 then 0x80 else volume * o.ampGain / 255 % 2 ^ 8
    let (_, d) ← codecTransmission { d with output := some o } o.codec o.nodeId (VERB_SET_AMP_GAIN_MUTE ||| 0xB000 ||| volume)
    return d
  | .null => astray 0 4
  | .other _ mmio => astray mmio 4

/-- Where the stream leads elsewhere, the rate is stored to what `output` would be. -/
def audioSetSampleRate (d : HdaDevice) (hda : Target) (sr : ℤ) : Driver E (ℤ × HdaDevice) :=
  match hda with
  | .device =>
    d.withOutput fun o => do
      let sampleRate := if sr = 44100 then SR_44_KHZ else SR_48_KHZ
      let sr := if sr = 44100 then sr else 48000
      let d ← outputWidgetConfig { d with output := some { o with sampleRate } }
      return (sr, d)
  | .null => astray 0 4
  | .other output _ => astray output 8

/-- `hda` is what `dev->device` leads to. -/
def audioSetChnlCt (d : HdaDevice) (hda : Target) (channels : ℤ) : Driver E (ℤ × HdaDevice) :=
  match hda with
  | .device =>
    d.withOutput fun o => do
      let channels := if channels < 1 ∨ 2 < channels then 2 else channels
      let d ← outputWidgetConfig { d with output := some { o with numChannels := channels.toNat } }
      return (channels, d)
  | .null => astray 0 4
  | .other output _ => astray output 16

def stored (log : List Access) : List ℕ := log.filterMap fun a =>
  match a with
  | .corb _ verb => some verb
  | _ => none

@[simp] theorem stored_append (log log' : List Access) : stored (log ++ log') = stored log ++ stored log' :=
  List.filterMap_append

section Rules

variable {respond : E → Access → ℕ × E} {P R : E → List Access → Prop} {reg : Reg} {val : ℕ}

theorem triple_inw {Q : ℕ → E → List Access → Prop} (hR : ∀ e log, P e log → R e log)
    (hQ : ∀ e log, P e log → Q ((respond e (.inw reg)).1 % 2 ^ 16) (respond e (.inw reg)).2 (log ++ [.inw reg])) :
    Triple respond P (inw reg) Q R :=
  .bind (Q := fun a => Q (a % 2 ^ 16)) (.access hR hQ) fun _ => .pure fun _ _ h => h

theorem triple_outb {Q : Unit → E → List Access → Prop} (hR : ∀ e log, P e log → R e log)
    (hQ : ∀ e log, P e log → Q () (respond e (.outb reg val)).2 (log ++ [.outb reg val])) :
    Triple respond P (outb reg val) Q R :=
  .bind (Q := fun _ => Q ()) (.access hR hQ) fun _ => .pure fun _ _ h => h

theorem triple_outw {Q : Unit → E → List Access → Prop} (hR : ∀ e log, P e log → R e log)
    (hQ : ∀ e log, P e log → Q () (respond e (.outw reg val)).2 (log ++ [.outw reg val])) :
    Triple respond P (outw reg val) Q R :=
  .bind (Q := fun _ => Q ()) (.access hR hQ) fun _ => .pure fun _ _ h => h

theorem triple_outl {Q : Unit → E → List Access → Prop} (hR : ∀ e log, P e log → R e log)
    (hQ : ∀ e log, P e log → Q () (respond e (.outl reg val)).2 (log ++ [.outl reg val])) :
    Triple respond P (outl reg val) Q R :=
  .bind (Q := fun _ => Q ()) (.access hR hQ) fun _ => .pure fun _ _ h => h

theorem completes_inw (reg : Reg) (e : E) (log : List Access) : Completes respond (inw reg) e log
    ((respond e (.inw reg)).1 % 2 ^ 16) (respond e (.inw reg)).2 (log ++ [.inw reg]) :=
  (Completes.access _ e log).bind (.pure _ _ _)

theorem completes_outb (reg : Reg) (val : ℕ) (e : E) (log : List Access) : Completes respond (outb reg val) e log ()
    (respond e (.outb reg val)).2 (log ++ [.outb reg val]) :=
  (Completes.access _ e log).bind (.pure _ _ _)

theorem completes_outw (reg : Reg) (val : ℕ) (e : E) (log : List Access) : Completes respond (outw reg val) e log ()
    (respond e (.outw reg val)).2 (log ++ [.outw reg val]) :=
  (Completes.access _ e log).bind (.pure _ _ _)

end Rules

theorem costs_inw (reg : Reg) : Costs (inw reg : Driver E ℕ) := .bind (.access _) fun _ => .pure _

theorem costs_inl (reg : Reg) : Costs (inl reg : Driver E ℕ) := .bind (.access _) fun _ => .pure _

theorem built_inb (reg : Reg) : Built (inb reg : Driver E ℕ) := .bind (.access _) fun _ => .pure _

theorem built_inw (reg : Reg) : Built (inw reg : Driver E ℕ) := .bind (.access _) fun _ => .pure _

theorem built_inl (reg : Reg) : Built (inl reg : Driver E ℕ) := .bind (.access _) fun _ => .pure _

theorem built_outb (reg : Reg) (val : ℕ) : Built (outb reg val : Driver E Unit) := .bind (.access _) fun _ => .pure _

theorem built_outw (reg : Reg) (val : ℕ) : Built (outw reg val : Driver E Unit) := .bind (.access _) fun _ => .pure _

theorem built_outl (reg : Reg) (val : ℕ) : Built (outl reg val : Driver E Unit) := .bind (.access _) fun _ => .pure _

/-- A turn of a loop that reads a pointer. -/
theorem built_pointer (reg : Reg) : Built (do return (← inw reg) % 2 ^ 8 : Driver E ℕ) := .bind (built_inw _) fun _ => .pure _

theorem costs_pointer (reg : Reg) : Costs (do return (← inw reg) % 2 ^ 8 : Driver E ℕ) :=
  .bind (costs_inw _) fun _ => .pure _

theorem built_corbWrite (d : HdaDevice) (verb : ℕ) : Built (corbWrite d verb : Driver E Unit) := by
  refine .bind (built_inw _) fun w => .ite _ (.stop _) ?_
  refine .bind (.poll _ (built_pointer _) (costs_pointer _)) fun _ => ?_
  exact .bind (.access _) fun _ => built_outw _ _

theorem built_rirbRead (d : HdaDevice) : Built (rirbRead d : Driver E (ℕ × HdaDevice)) := by
  refine .bind (.poll _ (built_pointer _) (costs_pointer _)) fun _ => .ite _ (.stop _) ?_
  exact .bind (.load _) fun _ => .bind (built_outb _ _) fun _ => .pure _

theorem built_codecTransmission (d : HdaDevice) (codec widgetId payload : ℕ) :
    Built (codecTransmission d codec widgetId payload : Driver E (ℕ × HdaDevice)) :=
  .bind (built_corbWrite _ _) fun _ => built_rirbRead d

/-- A transmission whose response is not looked at. -/
theorem built_transmit (d : HdaDevice) (codec widgetId payload : ℕ) :
    Built (do
      let (_, d) ← codecTransmission d codec widgetId payload
      return d : Driver E HdaDevice) :=
  .bind (built_codecTransmission _ _ _ _) fun _ => .pure _

theorem built_withOutput {α : Type} (d : HdaDevice) {f : Output → Driver E α} (hf : ∀ o, Built (f o)) :
    Built (d.withOutput f) := by
  unfold HdaDevice.withOutput
  cases d.output with
  | none => exact .stop _
  | some o => exact hf o

theorem built_outputWidgetConfig (d : HdaDevice) : Built (outputWidgetConfig d : Driver E HdaDevice) :=
  built_withOutput _ fun _ => .bind (built_codecTransmission _ _ _ _) fun _ => .bind (built_outl _ _) fun _ => .pure _

theorem built_initOutputWidget (d : HdaDevice) : Built (initOutputWidget d : Driver E HdaDevice) :=
  .bind (built_codecTransmission _ _ _ _) fun _ => built_outputWidgetConfig _

theorem built_debugWidgetConnections (d : HdaDevice) (codec nodeId : ℕ) :
    Built (debugWidgetConnections d codec nodeId : Driver E HdaDevice) := by
  refine .bind (built_codecTransmission _ _ _ _) fun r => .ite _ (.pure _) ?_
  exact .bind (.foldlM (fun _ _ => built_transmit _ _ _ _) _ _) fun d => built_transmit _ _ _ _

theorem built_initWidget (d : HdaDevice) (codec nodeId : ℕ) : Built (initWidget d codec nodeId : Driver E HdaDevice) := by
  have hsend (d : HdaDevice) (payload : ℕ) {f : ℕ × HdaDevice → Driver E HdaDevice} (hf : ∀ r, Built (f r)) :
      Built (codecTransmission d codec nodeId payload >>= f) := .bind (built_codecTransmission _ _ _ _) hf
  refine hsend _ _ fun r => .ite _ (.pure _) ?_
  refine hsend _ _ fun _ => hsend _ _ fun _ => hsend _ _ fun _ => hsend _ _ fun _ => ?_
  refine .bind (built_debugWidgetConnections _ _ _) fun d => .ite _ ?_ (.ite _ ?_ (.pure _))
  · refine .bind (built_withOutput _ fun o => .ite _ (.pure _) (.pure _)) fun d => ?_
    exact hsend _ _ fun _ => .ite _ (built_transmit _ _ _ _) (.pure _)
  · refine hsend _ _ fun _ => .ite _ ?_ (.pure _)
    refine hsend _ _ fun _ => hsend _ _ fun _ => hsend _ _ fun _ => ?_
    exact .ite _ (built_transmit _ _ _ _) (.pure _)

/-- What follows the first transmission to a codec. -/
theorem codecInitWidgets_eq (d : HdaDevice) (codec : ℕ) : ∃ rest : ℕ × HdaDevice → Driver E (ℤ × HdaDevice),
    (∀ r, Built (rest r)) ∧
      codecInitWidgets d codec = codecTransmission d codec 0 (VERB_GET_PARAMETER ||| PARAM_NODE_COUNT) >>= rest := by
  refine ⟨_, fun r => ?_, rfl⟩
  refine .bind (.foldlM (fun d i => ?_) _ _) fun d => built_withOutput _ fun o => .pure _
  refine .bind (built_codecTransmission _ _ _ _) fun r => .bind (built_codecTransmission _ _ _ _) fun r' => ?_
  refine .ite _ (.pure _) (.bind (built_codecTransmission _ _ _ _) fun r'' => ?_)
  exact .foldlM (fun d j => built_initWidget d _ _) _ _

theorem built_initCodecs (stateStatus : ℕ) (codecs : List ℕ) (d : HdaDevice) :
    Built (initCodecs stateStatus codecs d : Driver E HdaDevice) := by
  induction codecs generalizing d with
  | nil => exact .pure _
  | cons codec codecs ih =>
    obtain ⟨rest, hrest, heq⟩ := codecInitWidgets_eq (E := E) d codec
    have hcodec : Built (codecInitWidgets d codec : Driver E (ℤ × HdaDevice)) :=
      heq ▸ .bind (built_codecTransmission _ _ _ _) hrest
    exact .ite _ (.bind hcodec fun r => .ite _ (.pure _) (ih _)) (ih d)

theorem built_audioInitCodec (d : HdaDevice) : Built (audioInitCodec d : Driver E HdaDevice) :=
  .bind (built_inw _) fun _ => built_initCodecs _ _ _

end AudioKernel.Audio
