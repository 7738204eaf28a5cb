import AudioKernel.Audio.Output
import AudioKernel.Audio.Rirb
import Mathlib.Data.List.Find
import Mathlib.Order.Bounds.Basic
import Mathlib.Order.WellFounded

/-! The discovery of an output, `audio_init_codec`: what it records of the codecs that are present. -/
namespace AudioKernel.Audio
open Lib Interact

/-- A verb that asks for a parameter that discovery goes by. -/
def Query (v : ℕ) : Prop :=
  v % 2 ^ 20 = VERB_GET_PARAMETER ||| PARAM_NODE_COUNT ∨ v % 2 ^ 20 = VERB_GET_PARAMETER ||| PARAM_FN_GROUP_TYPE ∨
    v % 2 ^ 20 = VERB_GET_PARAMETER ||| PARAM_AUDIO_WID_CAP

instance (v : ℕ) : Decidable (Query v) := inferInstanceAs (Decidable (_ ∨ _))

/-- A controller that never stops taking steps, and codecs that answer a query whatever came before. -/
structure Codecs (c : Controller) (answer : ℕ → ℕ) : Prop where
  sizes : c.Sizes
  fair : c.Fair
  answers : ∀ vs v, Query v → (c.answer (vs ++ [v])).1 % 2 ^ 32 = answer v

/-- Every word that the driver takes for the answer to a query is this answer. -/
def Controller.Reads (c : Controller) (m : Rings) (vs : List ℕ) : Prop :=
  ∀ k (hk : k < vs.length), Query vs[k] → c.met m vs k = c.response vs k

instance (c : Controller) (m : Rings) (vs : List ℕ) : Decidable (c.Reads m vs) := Nat.decidableBallLT _ _

/-- This holds of all the verbs that discovery sends. -/
def Controller.ReadsAll (c : Controller) (m : Rings) (d : HdaDevice) : Prop :=
  ∀ budget d' w, audioInitCodec d c.respond ⟨m, budget, []⟩ = .done d' w → c.Reads m (stored w.log)

section Answers

variable (answer : ℕ → ℕ) (codec : ℕ)

def subnodes (node : ℕ) : List ℕ :=
  let parameter := answer (verb codec node (VERB_GET_PARAMETER ||| PARAM_NODE_COUNT))
  (List.range (parameter % 2 ^ 8)).map (parameter / 2 ^ 16 % 2 ^ 8 + ·)

def IsAudio (group : ℕ) : Prop :=
  answer (verb codec group (VERB_GET_PARAMETER ||| PARAM_FN_GROUP_TYPE)) % 2 ^ 7 = GROUP_AUDIO

/-- A node without capabilities is no widget. -/
def IsOutput (node : ℕ) : Prop :=
  let widgetCapability := answer (verb codec node (VERB_GET_PARAMETER ||| PARAM_AUDIO_WID_CAP))
  widgetCapability ≠ 0 ∧ (widgetCapability &&& WIDGET_CAP_TYPE_MASK) >>> WIDGET_CAP_TYPE_SHIFT = WIDGET_OUTPUT

instance (group : ℕ) : Decidable (IsAudio answer codec group) := inferInstanceAs (Decidable (_ = _))

instance (node : ℕ) : Decidable (IsOutput answer codec node) := inferInstanceAs (Decidable (_ ∧ _))

/-- The output widgets of the audio function groups of a codec, in turn. -/
def outputs : List ℕ :=
  ((subnodes answer codec 0).filter (IsAudio answer codec ·)).flatMap fun group =>
    (subnodes answer codec group).filter (IsOutput answer codec ·)

/-- A codec with its bit in `STATESTS`. -/
def Present (stateStatus codec : ℕ) : Prop := codec < 15 ∧ stateStatus.testBit codec = true

/-- A recorded output has a node other than 0. -/
def HdaDevice.Names (d : HdaDevice) (codec node : ℕ) : Prop :=
  ∃ o, d.output = some o ∧ o.nodeId ≠ 0 ∧ o.codec = codec ∧ o.nodeId = node

/-- The first output widget of the first codec that has one is recorded, and nothing if there is none. -/
structure Discovers (stateStatus : ℕ) (d : HdaDevice) : Prop where
  found : ∀ c w, IsLeast {c | Present stateStatus c ∧ outputs answer c ≠ []} c → (outputs answer c).head? = some w →
    d.Names c w
  absent : (∀ c, Present stateStatus c → outputs answer c = []) → ∃ o, d.output = some o ∧ o.nodeId = 0

/-- The first codec that is present decides alone. -/
def FirstDecides (stateStatus : ℕ) : Prop :=
  (∀ c, Present stateStatus c → outputs answer c = []) ∨
    ∃ c w, IsLeast {c | Present stateStatus c} c ∧ (outputs answer c).head? = some w ∧ w ≠ 0

/-- The codec and the node of the output after some widgets: it is taken as long as there is none. -/
def scanned (ws : List ℕ) (s : ℕ × ℕ) : ℕ × ℕ :=
  ws.foldl (fun s w => if s.2 = 0 then (codec % 2 ^ 8, w % 2 ^ 16) else s) s

/-- The same after some codecs. -/
def discovered (stateStatus : ℕ) : List ℕ → ℕ × ℕ → ℕ × ℕ
  | [], s => s
  | i :: codecs, s =>
    if stateStatus.testBit i then
      let s := scanned i (outputs answer i) s
      if s.2 = 0 then s else discovered stateStatus codecs s
    else discovered stateStatus codecs s

end Answers

variable {c : Controller} {answer : ℕ → ℕ} {m₀ m : Rings} {log : List Access} {d : HdaDevice} {s s' : ℕ × ℕ}
  {codec node stateStatus : ℕ} {K K' : Prop} {vs ws : List ℕ} {v : ℕ}

theorem met_append (c : Controller) (m : Rings) (ws : List ℕ) {k : ℕ} (hk : k < vs.length) :
    c.met m (vs ++ ws) k = c.met m vs k := by
  unfold Controller.met
  dsimp only
  split_ifs
  · rw [word_append c ws _ (by omega)]
  · rfl

theorem response_append (c : Controller) (ws : List ℕ) {k : ℕ} (hk : k < vs.length) :
    c.response (vs ++ ws) k = c.response vs k := by
  unfold Controller.response
  rw [List.take_append_of_le_length hk]

theorem Controller.Reads.before (h : c.Reads m (vs ++ ws)) : c.Reads m vs := by
  intro k hk hquery
  have hlt : k < (vs ++ ws).length := by
    rw [List.length_append]
    omega
  have hread := h k hlt (by rwa [List.getElem_append_left hk])
  rwa [met_append c m ws hk, response_append c ws hk] at hread

/-- The last word is the answer of the codec. -/
theorem Codecs.last (h : Codecs c answer) (hread : c.Reads m (vs ++ [v])) (hquery : Query v) :
    c.met m (vs ++ [v]) vs.length = answer v := by
  have hlt : vs.length < (vs ++ [v]).length := by
    rw [List.length_append]
    exact Nat.lt_succ_self _
  have hall : (vs ++ [v]).take (vs.length + 1) = vs ++ [v] := List.take_of_length_le List.length_append.le
  rw [hread vs.length hlt (by simpa using hquery), Controller.response, hall]
  exact h.answers vs v hquery

/-- Discovery goes on. If no answer has been misread so far, `K` holds, and the output is at this codec and node. -/
structure At (c : Controller) (m₀ : Rings) (K : Prop) (s : ℕ × ℕ) (d : HdaDevice) (m : Rings) (log : List Access) :
    Prop where
  waiting : Waiting c m₀ (stored log) (stored log).length m log
  fits : d.Fits c m₀ (stored log).length
  output : ∃ o, d.output = some o ∧ (c.Reads m₀ (stored log) → K ∧ (o.codec, o.nodeId) = s)

theorem At.weaken (h : At c m₀ K s d m log) (hK : K → K' ∧ s = s') : At c m₀ K' s' d m log := by
  obtain ⟨o, ho, hs⟩ := h.output
  refine ⟨h.waiting, h.fits, o, ho, fun hread => ?_⟩
  obtain ⟨hk, hpair⟩ := hs hread
  exact ⟨(hK hk).1, hpair.trans (hK hk).2⟩

theorem Codecs.transmission (h : Codecs c answer) (hd : At c m₀ K s d m log) (codec node payload : ℕ) :
    Attains c.respond (codecTransmission d codec node payload) m log fun r m' log' =>
      At c m₀ (K ∧ (Query (verb codec node payload) → r.1 = answer (verb codec node payload))) s r.2 m' log' := by
  obtain ⟨hwaiting, hfits, o, ho, hs⟩ := hd
  let t : Transmission := ⟨codec, node, payload⟩
  obtain ⟨r, m', log', hrun⟩ := returns_codecTransmission h.fair h.sizes hfits t hwaiting
  obtain ⟨⟨hword, hfits'⟩, hwaiting'⟩ :=
    (triple_codecTransmission h.sizes hfits t List.prefix_rfl).completes hwaiting hrun
  obtain ⟨hstored, houtput⟩ := (sends_codecTransmission d codec node payload).completes rfl hrun
  have hstored : stored log' = stored log ++ [t.verb] := hstored
  rw [← hstored] at hfits' hwaiting'
  refine ⟨r, m', log', hrun, hwaiting', hfits', o, houtput.trans ho, fun hread => ?_⟩
  rw [hstored] at hread
  obtain ⟨hk, hpair⟩ := hs hread.before
  exact ⟨⟨hk, fun hquery => hword.trans (h.last hread hquery)⟩, hpair⟩

/-- Whatever a verb is answered, the output stays what it is. -/
theorem Codecs.ignored {β : Type} {f : ℕ × HdaDevice → Driver Rings β} {Q : β → Rings → List Access → Prop}
    (h : Codecs c answer) (hd : At c m₀ K s d m log) {codec node payload : ℕ}
    (hf : ∀ r d' m' log', At c m₀ K s d' m' log' → Attains c.respond (f (r, d')) m' log' Q) :
    Attains c.respond (codecTransmission d codec node payload >>= f) m log Q :=
  (h.transmission hd codec node payload).bind fun r m' log' hr => hf r.1 r.2 m' log' (hr.weaken fun hk => ⟨hk.1, rfl⟩)

theorem Codecs.debugWidgetConnections (h : Codecs c answer) (hd : At c m₀ K s d m log) :
    Attains c.respond (debugWidgetConnections d codec node) m log (At c m₀ K s) := by
  unfold Audio.debugWidgetConnections
  refine h.ignored hd fun count d₁ m₁ log₁ h₁ => ?_
  dsimp only
  by_cases hzero : count = 0
  · rw [if_pos hzero]
    exact .pure h₁
  rw [if_neg hzero]
  refine Attains.bind (Q := At c m₀ K s) ?_ fun d₂ m₂ log₂ h₂ => ?_
  · refine Attains.foldlM (I := fun _ => At c m₀ K s) (fun _ _ d₂ m₂ log₂ h₂ => ?_) _ [] h₁
    refine h.ignored h₂ fun _ d₃ m₃ log₃ h₃ => ?_
    exact .pure h₃
  · refine h.ignored h₂ fun _ d₃ m₃ log₃ h₃ => ?_
    exact .pure h₃

theorem scanned_append (codec : ℕ) (ws ws' : List ℕ) (s : ℕ × ℕ) :
    scanned codec (ws ++ ws') s = scanned codec ws' (scanned codec ws s) :=
  List.foldl_append

theorem query_of_payload (codec node payload : ℕ) (hquery : Query payload) : Query (verb codec node payload) := by
  unfold Query
  rw [verb_mod]
  exact hquery

/-- A widget that is no output is passed over. -/
theorem scanned_other (hout : ¬ IsOutput answer codec node) (s : ℕ × ℕ) :
    scanned codec ([node].filter (IsOutput answer codec ·)) s = s := by
  rw [List.filter_singleton, decide_eq_false hout]
  rfl

theorem scanned_output (hout : IsOutput answer codec node) (s : ℕ × ℕ) :
    scanned codec ([node].filter (IsOutput answer codec ·)) s =
      if s.2 = 0 then (codec % 2 ^ 8, node % 2 ^ 16) else s := by
  rw [List.filter_singleton, decide_eq_true hout]
  rfl

/-- A widget is recorded if it is an output and the first one. -/
theorem Codecs.initWidget (h : Codecs c answer) (hd : At c m₀ K s d m log) :
    Attains c.respond (initWidget d codec node) m log
      (At c m₀ K (scanned codec ([node].filter (IsOutput answer codec ·)) s)) := by
  unfold Audio.initWidget
  refine (h.transmission hd _ _ _).bind ?_
  rintro ⟨widgetCapability, d₁⟩ m₁ log₁ h₁
  let capability := answer (verb codec node (VERB_GET_PARAMETER ||| PARAM_AUDIO_WID_CAP))
  have h₁ : At c m₀ (K ∧ widgetCapability = capability) s d₁ m₁ log₁ :=
    h₁.weaken fun hk => ⟨⟨hk.1, hk.2 (query_of_payload codec node _ (by decide))⟩, rfl⟩
  dsimp only
  by_cases hzero : widgetCapability = 0
  · rw [if_pos hzero]
    exact .pure (h₁.weaken fun hk => ⟨hk.1, (scanned_other (fun hout => hout.1 (hk.2.symm.trans hzero)) s).symm⟩)
  rw [if_neg hzero]
  refine h.ignored h₁ fun ampCapability d₂ m₂ log₂ h₂ => ?_
  refine h.ignored h₂ fun eapdCapability d₃ m₃ log₃ h₃ => ?_
  refine h.ignored h₃ fun _ d₄ m₄ log₄ h₄ => ?_
  refine h.ignored h₄ fun _ d₅ m₅ log₅ h₅ => ?_
  refine (h.debugWidgetConnections h₅).bind fun d₆ m₆ log₆ h₆ => ?_
  have hpower {s : ℕ × ℕ} {d : HdaDevice} {m : Rings} {log : List Access} (hd : At c m₀ K s d m log) :
      Attains c.respond (if widgetCapability &&& WIDGET_CAP_POWER_CNTRL ≠ 0 then
          codecTransmission d codec node VERB_SET_POWER_STATE >>= fun r => pure r.2
        else pure d) m log (At c m₀ K s) := by
    split_ifs
    · refine h.ignored hd fun _ d' m' log' h' => ?_
      exact .pure h'
    · exact .pure hd
  by_cases htype : (widgetCapability &&& WIDGET_CAP_TYPE_MASK) >>> WIDGET_CAP_TYPE_SHIFT = WIDGET_OUTPUT
  · have hout (hcap : widgetCapability = capability) : IsOutput answer codec node := by
      rw [hcap] at hzero htype
      exact ⟨hzero, htype⟩
    rw [if_pos htype]
    refine Attains.bind (Q := At c m₀ K (scanned codec ([node].filter (IsOutput answer codec ·)) s)) ?_
      fun d₇ m₇ log₇ h₇ => ?_
    · obtain ⟨o, ho, hs⟩ := h₆.output
      unfold HdaDevice.withOutput
      rw [ho]
      dsimp only
      by_cases hnode : o.nodeId = 0
      · rw [if_pos hnode]
        refine .pure ⟨h₆.waiting, ⟨h₆.fits.corbEntries, h₆.fits.rirbEntries, h₆.fits.rirbRp⟩, _, rfl, fun hread => ?_⟩
        obtain ⟨⟨hk, hcap⟩, rfl⟩ := hs hread
        exact ⟨hk, by rw [scanned_output (hout hcap), if_pos hnode]⟩
      · rw [if_neg hnode]
        refine .pure ⟨h₆.waiting, h₆.fits, o, ho, fun hread => ?_⟩
        obtain ⟨⟨hk, hcap⟩, rfl⟩ := hs hread
        exact ⟨hk, by rw [scanned_output (hout hcap), if_neg hnode]⟩
    · refine h.ignored h₇ fun _ d₈ m₈ log₈ h₈ => ?_
      exact hpower h₈
  have h₆ : At c m₀ K (scanned codec ([node].filter (IsOutput answer codec ·)) s) d₆ m₆ log₆ := by
    refine h₆.weaken fun hk => ⟨hk.1, (scanned_other (fun hout => htype ?_) s).symm⟩
    rw [hk.2]
    exact hout.2
  rw [if_neg htype]
  by_cases hpin : (widgetCapability &&& WIDGET_CAP_TYPE_MASK) >>> WIDGET_CAP_TYPE_SHIFT = WIDGET_PIN
  · rw [if_pos hpin]
    refine h.ignored h₆ fun pinCapability d₇ m₇ log₇ h₇ => ?_
    dsimp only
    by_cases hout : pinCapability &&& PIN_CAP_OUTPUT ≠ 0
    · rw [if_pos hout]
      refine h.ignored h₇ fun control d₈ m₈ log₈ h₈ => ?_
      refine h.ignored h₈ fun _ d₉ m₉ log₉ h₉ => ?_
      refine h.ignored h₉ fun _ d₁₀ m₁₀ log₁₀ h₁₀ => ?_
      exact hpower h₁₀
    · rw [if_neg hout]
      exact .pure h₇
  · rw [if_neg hpin]
    exact .pure h₆

/-- The output widgets of a group, if it is an audio group. -/
def groupOutputs (answer : ℕ → ℕ) (codec group : ℕ) : List ℕ :=
  if IsAudio answer codec group then (subnodes answer codec group).filter (IsOutput answer codec ·) else []

theorem outputs_eq (answer : ℕ → ℕ) (codec : ℕ) :
    outputs answer codec = (subnodes answer codec 0).flatMap (groupOutputs answer codec) := by
  unfold outputs
  induction subnodes answer codec 0 with
  | nil => rfl
  | cons group groups ih =>
    rw [List.flatMap_cons, ← ih, groupOutputs]
    by_cases haudio : IsAudio answer codec group
    · simp only [List.filter_cons, haudio, decide_true, if_true, List.flatMap_cons]
    · simp only [List.filter_cons, haudio, decide_false, Bool.false_eq_true, if_false, List.nil_append]

/-- The widgets of a group, in turn. -/
theorem Codecs.widgets (h : Codecs c answer) (hd : At c m₀ K s d m log) (start count : ℕ) :
    Attains c.respond ((List.range count).foldlM (fun d j => Audio.initWidget d codec (start + j)) d) m log
      (At c m₀ K (scanned codec (((List.range count).map (start + ·)).filter (IsOutput answer codec ·)) s)) := by
  refine Attains.foldlM (I := fun done =>
    At c m₀ K (scanned codec ((done.map (start + ·)).filter (IsOutput answer codec ·)) s)) ?_ (List.range count) [] hd
  intro done j d m log hd
  rw [List.map_append, List.filter_append, scanned_append]
  exact h.initWidget hd

/-- All widgets of all audio function groups. -/
theorem Codecs.codecInitWidgets (h : Codecs c answer) (hd : At c m₀ K s d m log) :
    Attains c.respond (codecInitWidgets d codec) m log fun r =>
      At c m₀ (K ∧ (r.1 ≠ 0 ↔ (scanned codec (outputs answer codec) s).2 = 0))
        (scanned codec (outputs answer codec) s) r.2 := by
  unfold Audio.codecInitWidgets
  refine (h.transmission hd _ _ _).bind ?_
  rintro ⟨parameter, d₁⟩ m₁ log₁ h₁
  let count := answer (verb codec 0 (VERB_GET_PARAMETER ||| PARAM_NODE_COUNT))
  let group (i : ℕ) := parameter / 2 ^ 16 % 2 ^ 8 + i
  have h₁ : At c m₀ (K ∧ parameter = count) s d₁ m₁ log₁ :=
    h₁.weaken fun hk => ⟨⟨hk.1, hk.2 (query_of_payload codec 0 _ (by decide))⟩, rfl⟩
  have hgroups (hcount : parameter = count) :
      outputs answer codec = ((List.range (parameter % 2 ^ 8)).map group).flatMap (groupOutputs answer codec) := by
    rw [outputs_eq, subnodes]
    show _ = ((List.range (parameter % 2 ^ 8)).map (parameter / 2 ^ 16 % 2 ^ 8 + ·)).flatMap (groupOutputs answer codec)
    rw [hcount]
  refine Attains.bind (Q := At c m₀ K (scanned codec (outputs answer codec) s)) ?_ fun d₂ m₂ log₂ h₂ => ?_
  · refine (Attains.foldlM (I := fun done => At c m₀ (K ∧ parameter = count)
      (scanned codec ((done.map group).flatMap (groupOutputs answer codec)) s)) ?_ _ [] h₁).weaken
      fun d m log hd => hd.weaken fun hk => ⟨hk.1, by rw [hgroups hk.2, List.nil_append]⟩
    intro done i d m log hd
    rw [List.map_append, List.flatMap_append, scanned_append, List.map_singleton, List.flatMap_singleton]
    refine (h.transmission hd _ _ _).bind ?_
    rintro ⟨nodes, d₃⟩ m₃ log₃ h₃
    refine (h.transmission h₃ _ _ _).bind ?_
    rintro ⟨type, d₄⟩ m₄ log₄ h₄
    have hnodes := query_of_payload codec (group i) (VERB_GET_PARAMETER ||| PARAM_NODE_COUNT) (by decide)
    have htype := query_of_payload codec (group i) (VERB_GET_PARAMETER ||| PARAM_FN_GROUP_TYPE) (by decide)
    dsimp only
    by_cases haudio : type % 2 ^ 7 = GROUP_AUDIO
    · rw [if_neg (not_not_intro haudio)]
      refine h.ignored h₄ fun _ d₅ m₅ log₅ h₅ => ?_
      refine (h.widgets h₅ _ _).weaken fun d' m' log' h' => h'.weaken ?_
      rintro ⟨⟨hk, hcount⟩, hkind⟩
      have hgroup : IsAudio answer codec (group i) := (congrArg (· % 2 ^ 7) (hkind htype)).symm.trans haudio
      refine ⟨hk, ?_⟩
      rw [groupOutputs, if_pos hgroup, subnodes, ← hcount hnodes]
    · rw [if_pos haudio]
      refine .pure (h₄.weaken ?_)
      rintro ⟨⟨hk, -⟩, hkind⟩
      have hgroup : ¬ IsAudio answer codec (group i) := by
        intro hgroup
        exact haudio ((congrArg (· % 2 ^ 7) (hkind htype)).trans hgroup)
      refine ⟨hk, ?_⟩
      rw [groupOutputs, if_neg hgroup]
      rfl
  · obtain ⟨o, ho, hs⟩ := h₂.output
    unfold HdaDevice.withOutput
    rw [ho]
    refine .pure ⟨h₂.waiting, h₂.fits, o, ho, fun hread => ?_⟩
    obtain ⟨hk, hpair⟩ := hs hread
    refine ⟨⟨hk, ?_⟩, hpair⟩
    rw [← hpair]
    dsimp only
    split_ifs with hnode
    · simpa using hnode
    · simpa using hnode

theorem Codecs.initCodecs (h : Codecs c answer) (hd : At c m₀ K s d m log) (codecs : List ℕ) :
    Attains c.respond (initCodecs stateStatus codecs d) m log
      (At c m₀ K (discovered answer stateStatus codecs s)) := by
  induction codecs generalizing K s d m log with
  | nil => exact .pure hd
  | cons i codecs ih =>
    rw [Audio.initCodecs, discovered]
    by_cases hpresent : stateStatus.testBit i = true
    · rw [if_pos hpresent, if_pos hpresent]
      refine (h.codecInitWidgets hd).bind ?_
      rintro ⟨failed, d₁⟩ m₁ log₁ h₁
      dsimp only at h₁ ⊢
      by_cases hfailed : failed ≠ 0
      · rw [if_pos hfailed]
        exact .pure (h₁.weaken fun hk => ⟨hk.1, by rw [if_pos (hk.2.mp hfailed)]⟩)
      · rw [if_neg hfailed]
        refine (ih h₁).weaken fun d' m' log' h' => h'.weaken fun hk => ⟨hk.1, ?_⟩
        rw [if_neg (mt hk.2.mpr hfailed)]
    · rw [if_neg hpresent, if_neg hpresent]
      exact ih hd

/-- Only the codecs change `STATESTS`. -/
theorem advance_statests (c : Controller) (m : Rings) : (c.advance m).statests = m.statests := by
  refine Controller.advance_keeps (P := fun s => s.statests = m.statests) ?_ (fun _ _ h => h) rfl
  intro s h
  rcases c.step_cases s with ⟨-, -, hstep⟩ | ⟨-, -, hstep⟩ | ⟨-, hstep⟩ | ⟨-, hstep⟩ <;>
  · rw [hstep]
    exact h

theorem Codecs.audioInitCodec (h : Codecs c answer) (hd : At c m₀ K s d m log) :
    Attains c.respond (audioInitCodec d) m log
      (At c m₀ K (discovered answer (m.statests % 2 ^ 16) (List.range 15) s)) := by
  have hstatus : (c.respond m (.inw .statests)).1 = m.statests := advance_statests c m
  have hstored : stored (log ++ [.inw .statests]) = stored log := stored_quiet rfl rfl
  have hquiet := hd.waiting.quiet h.sizes.rirb_ge (a := .inw .statests) rfl rfl
  rw [← hstatus]
  refine (completes_inw .statests m log).attains_bind (h.initCodecs ⟨?_, ?_, ?_⟩ _)
  · rwa [hstored]
  · rw [hstored]
    exact hd.fits
  · rw [hstored]
    exact hd.output

theorem scanned_of_ne (hs : s.2 ≠ 0) (codec : ℕ) (ws : List ℕ) : scanned codec ws s = s := by
  induction ws with
  | nil => rfl
  | cons w ws ih =>
    show scanned codec ws (if s.2 = 0 then _ else s) = s
    rw [if_neg hs]
    exact ih

theorem discovered_of_ne (hs : s.2 ≠ 0) (codecs : List ℕ) : discovered answer stateStatus codecs s = s := by
  induction codecs with
  | nil => rfl
  | cons i codecs ih =>
    rw [discovered]
    dsimp only
    rw [scanned_of_ne hs, if_neg hs, ih, ite_self]

theorem discovered_none {codecs : List ℕ} (h : codecs.find? (stateStatus.testBit ·) = none) :
    discovered answer stateStatus codecs s = s := by
  induction codecs with
  | nil => rfl
  | cons i codecs ih =>
    rw [List.find?_cons] at h
    cases hbit : stateStatus.testBit i with
    | true =>
      rw [hbit] at h
      cases h
    | false =>
      rw [hbit] at h
      rw [discovered, hbit, if_neg Bool.false_ne_true]
      exact ih h

/-- Whether it finds an output or not, the first codec is the last one that matters. -/
theorem discovered_some {codecs : List ℕ} (h : codecs.find? (stateStatus.testBit ·) = some codec) :
    discovered answer stateStatus codecs s = scanned codec (outputs answer codec) s := by
  induction codecs with
  | nil => cases h
  | cons i codecs ih =>
    rw [List.find?_cons] at h
    cases hbit : stateStatus.testBit i with
    | true =>
      rw [hbit] at h
      obtain rfl : i = codec := Option.some.inj h
      rw [discovered, hbit, if_pos rfl]
      dsimp only
      split_ifs with hnone
      · rfl
      · exact discovered_of_ne hnone codecs
    | false =>
      rw [hbit] at h
      rw [discovered, hbit, if_neg Bool.false_ne_true]
      exact ih h

theorem outputs_lt {w : ℕ} (hw : w ∈ outputs answer codec) : w < 2 ^ 16 := by
  obtain ⟨group, -, hw⟩ := List.mem_flatMap.mp hw
  obtain ⟨j, hj, rfl⟩ := List.mem_map.mp (List.mem_of_mem_filter hw)
  have hj := List.mem_range.mp hj
  omega

/-- The first codec with an output is one of those that have any. -/
theorem exists_least_output (h : ¬ ∀ c, Present stateStatus c → outputs answer c = []) :
    ∃ c w, IsLeast {c | Present stateStatus c ∧ outputs answer c ≠ []} c ∧ (outputs answer c).head? = some w := by
  obtain ⟨c, hc⟩ := not_forall.mp h
  obtain ⟨hpresent, hne⟩ := Classical.not_imp.mp hc
  obtain ⟨m, hm, hleast⟩ := wellFounded_lt.has_min {c | Present stateStatus c ∧ outputs answer c ≠ []} ⟨c, hpresent, hne⟩
  obtain ⟨w, ws, hw⟩ := List.exists_cons_of_ne_nil hm.2
  refine ⟨m, w, ⟨hm, fun x hx => Nat.le_of_not_lt (hleast x hx)⟩, ?_⟩
  rw [hw]
  rfl

theorem not_present_of_find (h : (List.range 15).find? (stateStatus.testBit ·) = none) (c : ℕ) :
    ¬ Present stateStatus c := by
  rintro ⟨hc, hbit⟩
  have := List.find?_range_eq_none.mp h c hc
  rw [hbit] at this
  cases this

theorem isLeast_of_find (h : (List.range 15).find? (stateStatus.testBit ·) = some codec) :
    IsLeast {c | Present stateStatus c} codec := by
  obtain ⟨hbit, hmem, hbefore⟩ := List.find?_range_eq_some.mp h
  refine ⟨⟨List.mem_range.mp hmem, hbit⟩, fun x hx => ?_⟩
  by_contra hlt
  have := hbefore x (Nat.lt_of_not_le hlt)
  rw [hx.2] at this
  cases this

/-- Where the first codec has no output none is recorded, which is right just when no other has any. -/
theorem discovers_iff_of_nil (hleast : IsLeast {c | Present stateStatus c} codec) (hout : outputs answer codec = [])
    (hd : ∃ o, d.output = some o ∧ o.nodeId = 0) :
    Discovers answer stateStatus d ↔ FirstDecides answer stateStatus := by
  obtain ⟨o, ho, hnode⟩ := hd
  constructor
  · intro hgood
    by_contra hnot
    obtain ⟨c, w, hleast', hhead⟩ := exists_least_output fun hall => hnot (.inl hall)
    obtain ⟨o', ho', hne, -⟩ := hgood.found c w hleast' hhead
    obtain rfl : o = o' := Option.some.inj (ho.symm.trans ho')
    exact hne hnode
  · rintro (hall | ⟨c, w, hleast', hhead, -⟩)
    · exact ⟨fun c w hc => absurd (hall c hc.1.1) hc.1.2, fun _ => ⟨o, ho, hnode⟩⟩
    · rw [hleast'.unique hleast, hout] at hhead
      cases hhead

/-- Where it has one, that is found, unless its node has the number that stands for none. -/
theorem discovers_iff_of_cons {k w : ℕ} {ws : List ℕ} (hleast : IsLeast {c | Present stateStatus c} codec)
    (hout : outputs answer codec = w :: ws)
    (hd : ∃ o, d.output = some o ∧ (o.codec, o.nodeId) = scanned codec (outputs answer codec) (k, 0)) :
    Discovers answer stateStatus d ↔ FirstDecides answer stateStatus := by
  obtain ⟨o, ho, hpair⟩ := hd
  have hne : outputs answer codec ≠ [] := by
    rw [hout]
    exact List.cons_ne_nil w ws
  have hhead : (outputs answer codec).head? = some w := by
    rw [hout]
    rfl
  have hleast' : IsLeast {c | Present stateStatus c ∧ outputs answer c ≠ []} codec :=
    ⟨⟨hleast.1, hne⟩, fun x hx => hleast.2 hx.1⟩
  by_cases hzero : w = 0
  · refine iff_of_false (fun hgood => ?_) ?_
    · obtain ⟨o', -, hnode, -, hw⟩ := hgood.found codec w hleast' hhead
      exact hnode (hw.trans hzero)
    · rintro (hall | ⟨c, w', hleast'', hhead', hw'⟩)
      · exact hne (hall codec hleast.1)
      · rw [hleast''.unique hleast, hhead] at hhead'
        exact hw' (Option.some.inj hhead' ▸ hzero)
  · have hmem : w ∈ outputs answer codec := by
      rw [hout]
      exact List.mem_cons_self
    have hlt : w < 2 ^ 16 := outputs_lt hmem
    have hcodec := hleast.1.1
    have hfinal : scanned codec (outputs answer codec) (k, 0) = (codec, w) := by
      rw [hout]
      show scanned codec ws (codec % 2 ^ 8, w % 2 ^ 16) = (codec, w)
      rw [Nat.mod_eq_of_lt hlt, Nat.mod_eq_of_lt (by omega)]
      exact scanned_of_ne hzero codec ws
    rw [hfinal] at hpair
    have hcodec : o.codec = codec := congrArg Prod.fst hpair
    have hnode : o.nodeId = w := congrArg Prod.snd hpair
    refine iff_of_true ⟨fun c w' hc hw => ?_, fun hall => absurd (hall codec hleast.1) hne⟩
      (.inr ⟨codec, w, hleast, hhead, hzero⟩)
    rw [hc.unique hleast'] at hw ⊢
    obtain rfl := Option.some.inj (hhead.symm.trans hw)
    exact ⟨o, ho, hnode ▸ hzero, hcodec, hnode⟩

/-- What is recorded in the end is right just when the first codec decides. -/
theorem discovers_iff {k : ℕ}
    (hd : ∃ o, d.output = some o ∧ (o.codec, o.nodeId) = discovered answer stateStatus (List.range 15) (k, 0)) :
    Discovers answer stateStatus d ↔ FirstDecides answer stateStatus := by
  obtain ⟨o, ho, hpair⟩ := hd
  cases hfirst : (List.range 15).find? (stateStatus.testBit ·) with
  | none =>
    have hnone := not_present_of_find hfirst
    rw [discovered_none hfirst] at hpair
    refine iff_of_true ⟨fun c w hc => absurd hc.1.1 (hnone c), fun _ => ⟨o, ho, congrArg Prod.snd hpair⟩⟩ ?_
    exact .inl fun c hc => absurd hc (hnone c)
  | some c =>
    have hleast := isLeast_of_find hfirst
    rw [discovered_some hfirst] at hpair
    cases hout : outputs answer c with
    | nil =>
      rw [hout] at hpair
      exact discovers_iff_of_nil hleast hout ⟨o, ho, congrArg Prod.snd hpair⟩
    | cons w ws => exact discovers_iff_of_cons hleast hout ⟨o, ho, hpair⟩

/-- The output comes out right in the end. -/
def Discovered (c : Controller) (m : Rings) (d : HdaDevice) (answer : ℕ → ℕ) : Prop :=
  Attains c.respond (audioInitCodec d) m [] fun d' _ _ => Discovers answer (m.statests % 2 ^ 16) d'

/-- The driver and the rings are ready for the first verb, and nothing is recorded yet. -/
structure Fresh (c : Controller) (m : Rings) (d : HdaDevice) : Prop where
  start : m.Start c
  rirbWp_lt : m.rirbWp < c.rirbSize
  fits : d.Fits c m 0
  output : ∃ o, d.output = some o ∧ o.nodeId = 0

theorem Codecs.run (h : Codecs c answer) (hfresh : Fresh c m d) :
    ∃ d' m' log', Completes c.respond (Audio.audioInitCodec d) m [] d' m' log' ∧ (c.Reads m (stored log') →
      (Discovers answer (m.statests % 2 ^ 16) d' ↔ FirstDecides answer (m.statests % 2 ^ 16))) := by
  obtain ⟨o, ho, hnode⟩ := hfresh.output
  have hwaiting : Waiting c m [] 0 m [] := ⟨⟨rfl, [], .start hfresh.start⟩, .start hfresh.start hfresh.rirbWp_lt⟩
  have hat : At c m True (o.codec, 0) d m [] := ⟨hwaiting, hfresh.fits, o, ho, fun _ => ⟨trivial, by rw [hnode]⟩⟩
  obtain ⟨d', m', log', hrun, hend⟩ := h.audioInitCodec hat
  obtain ⟨o', ho', hs⟩ := hend.output
  exact ⟨d', m', log', hrun, fun hread => discovers_iff ⟨o', ho', (hs hread).2⟩⟩

theorem Codecs.discovered_iff (h : Codecs c answer) (hfresh : Fresh c m d) (hreads : c.ReadsAll m d) :
    Discovered c m d answer ↔ FirstDecides answer (m.statests % 2 ^ 16) := by
  obtain ⟨d', m', log', hrun, hiff⟩ := h.run hfresh
  have hread : c.Reads m (stored log') := by
    obtain ⟨n, hn⟩ := hrun
    exact hreads _ _ _ (hn 0)
  constructor
  · rintro ⟨d'', m'', log'', hrun', hdiscovers⟩
    obtain ⟨rfl, -, -⟩ := hrun.unique hrun'
    exact (hiff hread).mp hdiscovers
  · exact fun hfirst => ⟨d', m', log', hrun, (hiff hread).mpr hfirst⟩

/-- Discovery returns; and if it misreads no answer to a query, the output comes out right just when the first codec
decides. -/
theorem output_discovered_iff (h : Codecs c answer) (hfresh : Fresh c m d) :
    Returns c.respond (audioInitCodec d) m [] ∧
      (c.ReadsAll m d → (Discovered c m d answer ↔ FirstDecides answer (m.statests % 2 ^ 16))) := by
  obtain ⟨d', m', log', hrun, -⟩ := h.run hfresh
  exact ⟨⟨d', m', log', hrun⟩, h.discovered_iff hfresh⟩

/-- One run shows what the verbs are. -/
theorem readsAll_of_run (n : ℕ) (hdone : (audioInitCodec d c.respond ⟨m, n, []⟩).result.isSome)
    (hread : c.Reads m (stored (audioInitCodec d c.respond ⟨m, n, []⟩).world.log)) : c.ReadsAll m d := by
  intro budget d' w hrun
  have hsteady : Steady (audioInitCodec d : Driver Rings HdaDevice) := (built_audioInitCodec d).steady
  cases hn : audioInitCodec d c.respond ⟨m, n, []⟩ with
  | done d₁ w₁ =>
    rw [hn] at hread
    obtain ⟨-, -, hlog⟩ := (hsteady.completes hrun).unique (hsteady.completes hn)
    rw [hlog]
    exact hread
  | paused w₁ =>
    rw [hn] at hdone
    cases hdone
  | fault s w₁ =>
    rw [hn] at hdone
    cases hdone

/-- Codec 1 has an audio function group with one output widget, and the other codecs have nothing. -/
def codecOne (v : ℕ) : ℕ :=
  if v = verb 1 0 (VERB_GET_PARAMETER ||| PARAM_NODE_COUNT) then 0x10001
  else if v = verb 1 1 (VERB_GET_PARAMETER ||| PARAM_NODE_COUNT) then 0x20001
  else if v = verb 1 1 (VERB_GET_PARAMETER ||| PARAM_FN_GROUP_TYPE) then 1
  else if v = verb 1 2 (VERB_GET_PARAMETER ||| PARAM_AUDIO_WID_CAP) then 1
  else 0

theorem codecOne_lt (v : ℕ) : codecOne v < 2 ^ 32 := by
  unfold codecOne
  split_ifs <;> decide

/-- Rings of two slots. The second word of an entry is 1, for codec 1. -/
def smallRings : Controller where
  corbSize := 2
  rirbSize := 2
  answer executed := (codecOne (executed.getLastD 0), 1)
  schedule _ := 4

theorem smallRings_codecs : Codecs smallRings codecOne := by
  refine ⟨⟨by decide, by decide, by decide, by decide⟩, fun t => ⟨t, Nat.le_refl t, Nat.succ_pos 3⟩, fun vs v _ => ?_⟩
  show codecOne ((vs ++ [v]).getLastD 0) % 2 ^ 32 = codecOne v
  rw [List.getLastD_concat, Nat.mod_eq_of_lt (codecOne_lt v)]

def noOutput : HdaDevice := ⟨some Output.new, 2, 2, 0⟩

/-- The codecs that are present, and what the memory of the RIRB has been left with. -/
def presentCodecs (statests word : ℕ) : Rings := { emptyRings with statests, rirb := fun _ => word }

theorem presentCodecs_fresh (statests word : ℕ) : Fresh smallRings (presentCodecs statests word) noOutput :=
  ⟨⟨Nat.one_lt_two, rfl, rfl, rfl, rfl, rfl⟩, Nat.two_pos, ⟨rfl, rfl, rfl⟩, Output.new, rfl, rfl⟩

/-- Codec 1 alone. -/
theorem codecOne_discovered : Discovered smallRings (presentCodecs 2 0x10001) noOutput codecOne := by
  have hreads : smallRings.ReadsAll (presentCodecs 2 0x10001) noOutput :=
    readsAll_of_run 80 (by decide +kernel) (by decide +kernel)
  refine ((output_discovered_iff smallRings_codecs (presentCodecs_fresh 2 0x10001)).2 hreads).mpr (.inr ?_)
  refine ⟨1, 2, ⟨⟨by decide, by decide⟩, ?_⟩, by decide, by decide⟩
  rintro c ⟨-, hbit⟩
  by_contra hlt
  obtain rfl : c = 0 := by omega
  exact absurd hbit (by decide)

/-- Codecs 0 and 1: nothing is misread, and discovery ends at codec 0, which has no output. -/
theorem codecOne_missed : outputs codecOne 1 = [2] ∧ smallRings.ReadsAll (presentCodecs 3 0) noOutput ∧
    ¬ Discovered smallRings (presentCodecs 3 0) noOutput codecOne := by
  have hone : outputs codecOne 1 = [2] := by decide
  have hreads : smallRings.ReadsAll (presentCodecs 3 0) noOutput := readsAll_of_run 20 (by decide +kernel) (by decide +kernel)
  refine ⟨hone, hreads, fun hgood => ?_⟩
  rcases (smallRings_codecs.discovered_iff (presentCodecs_fresh 3 0) hreads).mp hgood with hall | ⟨c, w, hleast, hhead, -⟩
  · have hnone := hall 1 ⟨by decide, by decide⟩
    rw [hone] at hnone
    cases hnone
  · obtain rfl : c = 0 := Nat.le_zero.mp (hleast.2 ⟨by decide, by decide⟩)
    have hzero : outputs codecOne 0 = [] := by decide
    rw [hzero] at hhead
    cases hhead

end AudioKernel.Audio
