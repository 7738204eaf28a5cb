import AudioKernel.Audio.Corb
import Mathlib.Data.List.Infix
import Mathlib.Data.Nat.Find
import Mathlib.Order.WellFounded

/-! What `codec_transmission` takes for the response to a verb. The controller writes entries of two words, and the driver
reads the word that has the number of the entry. -/
namespace AudioKernel.Audio
open Lib Interact

/-- The arguments of a call. -/
structure Transmission where
  codec : ℕ
  widgetId : ℕ
  payload : ℕ

def Transmission.verb (t : Transmission) : ℕ := Audio.verb t.codec t.widgetId t.payload

def transmissions {E : Type} : List Transmission → HdaDevice → Driver E (List ℕ)
  | [], _ => return []
  | t :: ts, d => do
    let (response, d) ← codecTransmission d t.codec t.widgetId t.payload
    return response :: (← transmissions ts d)

namespace Controller

variable (c : Controller)

/-- The response to verb `k`, in the low word of its entry. -/
def response (vs : List ℕ) (k : ℕ) : ℕ := (c.answer (vs.take (k + 1))).1 % 2 ^ 32

def word (vs : List ℕ) (k half : ℕ) : ℕ :=
  if half = 0 then (c.answer (vs.take (k + 1))).1 else (c.answer (vs.take (k + 1))).2

/-- The word that the driver finds where it looks in call `k`: a half of the entry `back` calls ago, or what the memory had
when the first call was made. -/
def met (m : Rings) (vs : List ℕ) (k : ℕ) : ℕ :=
  let index := (m.rirbWp + (k + 1)) % c.rirbSize
  let back := index - index / 2
  (if back ≤ k then c.word vs (k - back) (index % 2) else m.rirb index) % 2 ^ 32

def Fair : Prop := ∀ t, ∃ t' ≥ t, 0 < c.schedule t'

end Controller

/-- How many entries are written but not yet announced. -/
def Phase.answers : Phase → ℕ
  | .answered => 1
  | _ => 0

/-- The entries so far in the RIRB, from the latest one back, and at least `n` of them announced. -/
structure RirbInv (c : Controller) (m₀ : Rings) (n : ℕ) (m : Rings) : Prop where
  announced : ∃ k, k + m.phase.answers = m.executed.length ∧ m.rirbWp = (m₀.rirbWp + k) % c.rirbSize ∧ n ≤ k
  entries : ∀ back < c.rirbSize, ∀ half < 2,
    m.rirb (2 * ((m₀.rirbWp + m.executed.length + (c.rirbSize - back)) % c.rirbSize) + half) =
      if back < m.executed.length then c.word m.executed (m.executed.length - 1 - back) half
      else m₀.rirb (2 * ((m₀.rirbWp + m.executed.length + (c.rirbSize - back)) % c.rirbSize) + half)

variable {c : Controller} {m₀ m : Rings} {n : ℕ}

theorem RirbInv.start (hstart : m.Start c) (hrirb : m.rirbWp < c.rirbSize) : RirbInv c m 0 m := by
  refine ⟨⟨0, ?_, (Nat.mod_eq_of_lt hrirb).symm, Nat.le_refl 0⟩, ?_⟩
  · rw [hstart.phase, hstart.executed]
    rfl
  · intro back _ half _
    rw [hstart.executed, List.length_nil, if_neg (Nat.not_lt_zero _)]

/-- An entry is two words. -/
theorem entry_word (rirb : ℕ → ℕ) (slot low high s : ℕ) {half : ℕ} (hhalf : half < 2) :
    Function.update (Function.update rirb (2 * slot) low) (2 * slot + 1) high (2 * s + half) =
      if s = slot then if half = 0 then low else high else rirb (2 * s + half) := by
  by_cases hs : s = slot
  · subst hs
    rw [if_pos rfl]
    by_cases hlow : half = 0
    · subst hlow
      rw [if_pos rfl, Function.update_of_ne (by omega), Nat.add_zero, Function.update_self]
    · obtain rfl : half = 1 := by omega
      rw [if_neg hlow, Function.update_self]
  · rw [if_neg hs, Function.update_of_ne (by omega), Function.update_of_ne (by omega)]

theorem word_append (c : Controller) {vs : List ℕ} (ws : List ℕ) {k : ℕ} (half : ℕ) (hk : k < vs.length) :
    c.word (vs ++ ws) k half = c.word vs k half := by
  unfold Controller.word
  rw [List.take_append_of_le_length hk]

/-- An entry is written behind the ones before. -/
theorem RirbInv.step (h : RirbInv c m₀ n m) (hsize : 2 ≤ c.rirbSize) : RirbInv c m₀ n (c.step m) := by
  obtain ⟨⟨k, hk, hwp, hn⟩, hentries⟩ := h
  rcases c.step_cases m with ⟨-, -, hstep⟩ | ⟨hphase, -, hstep⟩ | ⟨hphase, hstep⟩ | ⟨hphase, hstep⟩
  · rw [hstep]
    exact ⟨⟨k, hk, hwp, hn⟩, hentries⟩
  · rw [hphase] at hk
    rw [hstep]
    exact ⟨⟨k, hk, hwp, hn⟩, hentries⟩
  · rw [hphase] at hk
    rw [hstep]
    obtain rfl : k = m.executed.length := hk
    have hlength : (c.execute m).executed.length = m.executed.length + 1 := List.length_append
    have hslot : (m.rirbWp + 1) % c.rirbSize = (m₀.rirbWp + (m.executed.length + 1)) % c.rirbSize := by
      rw [hwp, Nat.mod_add_mod, Nat.add_assoc]
    refine ⟨⟨m.executed.length, hlength.symm, hwp, hn⟩, ?_⟩
    intro back hback half hhalf
    rw [hlength]
    show Function.update (Function.update m.rirb _ _) _ _ _ = _
    rw [entry_word _ _ _ _ _ hhalf, hslot]
    cases back with
    | zero =>
      have hlatest : m₀.rirbWp + (m.executed.length + 1) + (c.rirbSize - 0) =
          m₀.rirbWp + (m.executed.length + 1) + c.rirbSize := rfl
      have hall : (c.execute m).executed.take (m.executed.length + 1 - 1 - 0 + 1) = (c.execute m).executed :=
        List.take_of_length_le (by omega)
      rw [hlatest, Nat.add_mod_right, if_pos rfl, if_pos (Nat.succ_pos _), Controller.word, hall]
      rfl
    | succ back =>
      have hold : (m₀.rirbWp + (m.executed.length + 1) + (c.rirbSize - (back + 1))) =
          m₀.rirbWp + m.executed.length + (c.rirbSize - back) := by omega
      have hne : (m₀.rirbWp + m.executed.length + (c.rirbSize - back)) % c.rirbSize ≠
          (m₀.rirbWp + (m.executed.length + 1)) % c.rirbSize := by
        intro hsame
        rw [← Nat.add_assoc m₀.rirbWp] at hsame
        have hone : (c.rirbSize - back) % c.rirbSize = 1 % c.rirbSize := Nat.ModEq.add_left_cancel' _ hsame
        rw [Nat.mod_eq_of_lt (show 1 < c.rirbSize by omega)] at hone
        cases back with
        | zero =>
          rw [Nat.sub_zero, Nat.mod_self] at hone
          omega
        | succ back =>
          rw [Nat.mod_eq_of_lt (by omega)] at hone
          omega
      rw [hold, if_neg hne, hentries back (by omega) half hhalf]
      by_cases hwritten : back < m.executed.length
      · have hk : m.executed.length + 1 - 1 - (back + 1) = m.executed.length - 1 - back := by omega
        rw [if_pos hwritten, if_pos (Nat.succ_lt_succ hwritten), hk]
        exact (word_append c _ half (by omega)).symm
      · rw [if_neg hwritten, if_neg (by omega)]
  · rw [hphase] at hk
    rw [hstep]
    refine ⟨⟨k + 1, hk, ?_, by omega⟩, hentries⟩
    show (m.rirbWp + 1) % c.rirbSize = _
    rw [hwp, Nat.mod_add_mod, Nat.add_assoc]

/-- The driver's accesses leave the entries alone. -/
theorem RirbInv.respond (hsize : 2 ≤ c.rirbSize) (h : RirbInv c m₀ n m) (a : Access) :
    RirbInv c m₀ n (c.respond m a).2 := by
  have hadvance : RirbInv c m₀ n (c.advance m) :=
    Controller.advance_keeps (fun _ h => h.step hsize) (fun _ _ h => ⟨h.announced, h.entries⟩) h
  obtain ⟨hannounced, hentries⟩ := hadvance
  have hserve : (c.respond m a).2.rirb = (c.advance m).rirb ∧ (c.respond m a).2.rirbWp = (c.advance m).rirbWp ∧
      (c.respond m a).2.phase = (c.advance m).phase ∧ (c.respond m a).2.executed = (c.advance m).executed := by
    unfold Controller.respond Controller.serve
    split <;> exact ⟨rfl, rfl, rfl, rfl⟩
  obtain ⟨hrirb, hwp, hphase, hexecuted⟩ := hserve
  constructor
  · rw [hwp, hphase, hexecuted]
    exact hannounced
  · rw [hrirb, hexecuted]
    exact hentries

/-- What the driver loads when as many entries have been written as verbs. -/
theorem RirbInv.load {k : ℕ} (h : RirbInv c m₀ k m) (hsize : 2 ≤ c.rirbSize) {vs : List ℕ} (hvs : m.executed <+: vs)
    (hlength : m.executed.length = n + 1) :
    m.rirb ((m₀.rirbWp + (n + 1)) % c.rirbSize) % 2 ^ 32 = c.met m₀ vs n := by
  unfold Controller.met
  have hentries := h.entries
  rw [hlength] at hentries
  generalize hindex : (m₀.rirbWp + (n + 1)) % c.rirbSize = index at *
  have hlt : index < c.rirbSize := by
    rw [← hindex]
    exact Nat.mod_lt _ (by omega)
  have hslot : (m₀.rirbWp + (n + 1) + (c.rirbSize - (index - index / 2))) % c.rirbSize = index / 2 := by
    have hsum : index + (c.rirbSize - (index - index / 2)) = index / 2 + c.rirbSize := by omega
    rw [← Nat.mod_add_mod, hindex, hsum, Nat.add_mod_right, Nat.mod_eq_of_lt (by omega)]
  have hword := hentries (index - index / 2) (by omega) (index % 2) (Nat.mod_lt _ (by decide))
  rw [hslot, Nat.div_add_mod] at hword
  rw [hword]
  by_cases hwritten : index - index / 2 ≤ n
  · obtain ⟨ws, rfl⟩ := hvs
    have hk : n + 1 - 1 - (index - index / 2) = n - (index - index / 2) := rfl
    rw [if_pos (Nat.lt_succ_of_le hwritten), hk]
    dsimp only
    rw [if_pos hwritten, word_append c ws _ (by omega)]
  · rw [if_neg (by omega)]
    dsimp only
    rw [if_neg hwritten]

variable {vs all : List ℕ} {d : HdaDevice} {log : List Access}

/-- The driver has written the verbs `vs`, and at least `n` entries are announced. -/
def Waiting (c : Controller) (m₀ : Rings) (vs : List ℕ) (n : ℕ) (m : Rings) (log : List Access) : Prop :=
  Written c vs m log ∧ RirbInv c m₀ n m

theorem Waiting.quiet (h : Waiting c m₀ vs n m log) (hsize : 2 ≤ c.rirbSize) {a : Access} (hstored : stored [a] = [])
    (hserve : (Controller.serve (c.advance m) a).2 = c.advance m) : Waiting c m₀ vs n (c.respond m a).2 (log ++ [a]) :=
  ⟨h.1.quiet hstored hserve, h.2.respond hsize a⟩

theorem Waiting.executed (h : Waiting c m₀ vs n m log) : m.executed <+: vs := by
  obtain ⟨-, xs, hinv⟩ := h.1
  exact ⟨xs, hinv.executed⟩

/-- `RIRBWP` goes on when the entry of the last verb is announced. -/
theorem Waiting.answered (h : Waiting c m₀ vs n m log) (hne : m.rirbWp ≠ (m₀.rirbWp + n) % c.rirbSize) :
    Waiting c m₀ vs (n + 1) m log := by
  obtain ⟨k, hk, hwp, hn⟩ := h.2.announced
  have hnext : n + 1 ≤ k := by
    by_contra hlast
    obtain rfl : k = n := by omega
    exact hne hwp
  exact ⟨h.1, ⟨k, hk, hwp, hnext⟩, h.2.entries⟩

theorem Waiting.rirbWp_lt (h : Waiting c m₀ vs n m log) (hsize : 2 ≤ c.rirbSize) : m.rirbWp < c.rirbSize := by
  obtain ⟨k, -, hwp, -⟩ := h.2.announced
  rw [hwp]
  exact Nat.mod_lt _ (by omega)

/-- All the verbs are executed when all the entries are announced. -/
theorem Waiting.length (h : Waiting c m₀ vs vs.length m log) : m.executed.length = vs.length := by
  obtain ⟨k, hk, -, hn⟩ := h.2.announced
  have hle := h.executed.length_le
  omega

/-- The driver waits for the entry of the last verb that it has written. -/
theorem triple_rirbRead (hsize : 2 ≤ c.rirbSize) (hsize' : c.rirbSize ≤ 2 ^ 8) (hd : d.rirbEntries = c.rirbSize)
    (hrp : d.rirbRp = (m₀.rirbWp + n) % c.rirbSize) (hlength : vs.length = n + 1) (hall : vs <+: all) :
    Triple c.respond (Waiting c m₀ vs n) (rirbRead d)
      (fun r m log => r = (c.met m₀ all n, { d with rirbRp := (m₀.rirbWp + (n + 1)) % c.rirbSize }) ∧
        Waiting c m₀ vs (n + 1) m log)
      fun _ _ => True := by
  have hbyte {v : ℕ} (hv : v < c.rirbSize) : v % 2 ^ 16 % 2 ^ 8 = v := by omega
  unfold rirbRead
  refine .bind (Q := fun _ => Waiting c m₀ vs (n + 1)) ?_ fun _ => ?_
  · refine .poll (fun _ _ _ => trivial) ?_
    refine .bind (Q := fun a m log => a % 2 ^ 8 = m.rirbWp ∧ Waiting c m₀ vs n m log) ?_ fun a => ?_
    · refine triple_inw (fun _ _ _ => trivial) fun m log h => ?_
      have hquiet := h.quiet hsize (a := .inw .rirbwp) rfl rfl
      exact ⟨hbyte (hquiet.rirbWp_lt hsize), hquiet⟩
    · refine .pure fun m log h => ?_
      by_cases hsame : a % 2 ^ 8 = d.rirbRp
      · rw [if_pos (decide_eq_true hsame)]
        exact h.2
      · rw [if_neg (by simpa using hsame)]
        refine h.2.answered ?_
        rw [← h.1, ← hrp]
        exact hsame
  have hnext : (d.rirbRp + 1) % c.rirbSize % 2 ^ 16 = (m₀.rirbWp + (n + 1)) % c.rirbSize := by
    have hlt : (m₀.rirbWp + (n + 1)) % c.rirbSize < c.rirbSize := Nat.mod_lt _ (by omega)
    rw [hrp, Nat.mod_add_mod, Nat.add_assoc, Nat.mod_eq_of_lt (by omega)]
  rw [hd, if_neg (by omega)]
  dsimp only
  rw [hnext]
  refine .bind (Q := fun read m log => read % 2 ^ 32 = c.met m₀ all n ∧ Waiting c m₀ vs (n + 1) m log) ?_ fun read => ?_
  · refine .load fun m log h => ?_
    have hrirb := h.2.respond hsize (.rirb ((m₀.rirbWp + (n + 1)) % c.rirbSize))
    have hwaiting : Waiting c m₀ vs (n + 1) (c.respond m (.rirb ((m₀.rirbWp + (n + 1)) % c.rirbSize))).2 log :=
      ⟨h.1.advance, hrirb⟩
    have hdone := hwaiting.executed
    rw [← hlength] at hwaiting
    refine ⟨hrirb.load hsize (hdone.trans hall) (hwaiting.length.trans hlength), ?_⟩
    rwa [← hlength]
  · refine .bind (Q := fun _ m log => read % 2 ^ 32 = c.met m₀ all n ∧ Waiting c m₀ vs (n + 1) m log) ?_ fun _ => ?_
    · exact triple_outb (fun _ _ _ => trivial) fun m log h => ⟨h.1, h.2.quiet hsize rfl rfl⟩
    · exact .pure fun m log h => ⟨by rw [h.1], h.2⟩

/-- What the driver keeps of the rings from call to call. -/
structure HdaDevice.Fits (d : HdaDevice) (c : Controller) (m₀ : Rings) (n : ℕ) : Prop where
  corbEntries : d.corbEntries = c.corbSize
  rirbEntries : d.rirbEntries = c.rirbSize
  rirbRp : d.rirbRp = (m₀.rirbWp + n) % c.rirbSize

/-- The sizes of rings: no more slots than a byte can number, and two at least. -/
structure Controller.Sizes (c : Controller) : Prop where
  corb_ge : 2 ≤ c.corbSize
  corb_le : c.corbSize ≤ 2 ^ 8
  rirb_ge : 2 ≤ c.rirbSize
  rirb_le : c.rirbSize ≤ 2 ^ 8

theorem triple_write (hsizes : c.Sizes) (hd : d.Fits c m₀ vs.length) (verb : ℕ) :
    Triple c.respond (Waiting c m₀ vs vs.length) (corbWrite d verb)
      (fun _ => Waiting c m₀ (vs ++ [verb]) vs.length) fun _ _ => True :=
  ((triple_corbWrite hsizes.corb_ge hsizes.corb_le hd.corbEntries verb List.prefix_rfl).and
    ((built_corbWrite d verb).keeps c.respond (RirbInv c m₀ vs.length) fun _ a h => h.respond hsizes.rirb_ge a)).interrupted
    fun _ _ _ => trivial

theorem triple_codecTransmission (hsizes : c.Sizes) (hd : d.Fits c m₀ vs.length) (t : Transmission)
    (hall : vs ++ [t.verb] <+: all) :
    Triple c.respond (Waiting c m₀ vs vs.length) (codecTransmission d t.codec t.widgetId t.payload)
      (fun r m log => (r.1 = c.met m₀ all vs.length ∧ r.2.Fits c m₀ (vs ++ [t.verb]).length) ∧
        Waiting c m₀ (vs ++ [t.verb]) (vs ++ [t.verb]).length m log)
      fun _ _ => True := by
  have hlength : (vs ++ [t.verb]).length = vs.length + 1 := List.length_append
  refine .bind (triple_write hsizes hd t.verb) fun _ => ?_
  refine (triple_rirbRead hsizes.rirb_ge hsizes.rirb_le hd.rirbEntries hd.rirbRp hlength hall).weaken
    (fun _ _ h => h) fun r m log h => ?_
  obtain ⟨hr, hwaiting⟩ := h
  rw [hr, hlength]
  exact ⟨⟨rfl, hd.corbEntries, hd.rirbEntries, rfl⟩, hwaiting⟩

theorem triple_transmissions (hsizes : c.Sizes) (ts : List Transmission) (hd : d.Fits c m₀ vs.length)
    (hall : vs ++ ts.map Transmission.verb <+: all) :
    Triple c.respond (Waiting c m₀ vs vs.length) (transmissions ts d)
      (fun rs _ _ => rs = (List.range' vs.length ts.length).map (c.met m₀ all)) fun _ _ => True := by
  induction ts generalizing vs d with
  | nil => exact .pure fun _ _ _ => rfl
  | cons t ts ih =>
    have hsplit : vs ++ (t :: ts).map Transmission.verb = vs ++ [t.verb] ++ ts.map Transmission.verb := by simp
    rw [hsplit] at hall
    have hlength : (vs ++ [t.verb]).length = vs.length + 1 := List.length_append
    refine .bind (triple_codecTransmission hsizes hd t ((List.prefix_append _ _).trans hall)) fun r => ?_
    intro w hw
    obtain ⟨⟨hr, hfits⟩, hwaiting⟩ := hw
    refine Triple.bind (ih hfits hall) (fun rs => ?_) w hwaiting
    refine .pure fun m log hrs => ?_
    rw [hrs, hr, hlength, List.length_cons, List.range'_succ]
    rfl

/-- How many steps the controller still has to take until entry `n` is announced. -/
def Rings.toGo (n : ℕ) (m : Rings) : ℕ :=
  if m.executed.length ≤ n then 3 - m.phase.fetches else m.phase.answers

theorem Waiting.toGo_step (h : Waiting c m₀ vs n m log) (hlength : vs.length = n + 1) :
    (c.step m).toGo n ≤ m.toGo n - 1 := by
  obtain ⟨⟨-, xs, hinv⟩, ⟨k, hk, -, hn⟩, -⟩ := h
  have hxs := congrArg List.length hinv.executed
  rw [List.length_append, hlength] at hxs
  unfold Rings.toGo
  rcases c.step_cases m with ⟨hphase, heq, hstep⟩ | ⟨hphase, hne, hstep⟩ | ⟨hphase, hstep⟩ | ⟨hphase, hstep⟩
  · obtain ⟨v, hwp, hpending, hv⟩ := hinv.told
    have hnone : v = 0 := by
      have hlt := hinv.corbRp_lt
      by_contra hv0
      rw [← heq] at hwp
      have hsame : (m.corbRp + 0) % c.corbSize = (m.corbRp + v) % c.corbSize := by
        rw [Nat.add_zero, Nat.mod_eq_of_lt hlt]
        exact hwp
      exact hv0 (Holds.index_injective (by omega) (by omega) hsame).symm
    have hfetches : m.phase.fetches = 0 := by rw [hphase]; rfl
    have hanswers : m.phase.answers = 0 := by rw [hphase]; rfl
    rw [hstep, if_neg (by omega), hanswers]
  · obtain ⟨v, -, hpending, -⟩ := hinv.pending_of_ne hne
    have hexecuted : (c.fetch m).executed = m.executed := rfl
    have hfetches : m.phase.fetches = 0 := by rw [hphase]; rfl
    have hfetches' : (c.fetch m).phase.fetches = 1 := rfl
    rw [hstep, hexecuted, if_pos (by omega), if_pos (by omega), hfetches, hfetches']
  · obtain ⟨v, -, hpending, -⟩ := hinv.told
    have hexecuted : (c.execute m).executed.length = m.executed.length + 1 := List.length_append
    have hfetches : m.phase.fetches = 1 := by rw [hphase]; rfl
    have hanswers : m.phase.answers = 0 := by rw [hphase]; rfl
    have hanswers' : (c.execute m).phase.answers = 1 := rfl
    rw [hstep, hexecuted, if_neg (by omega), if_pos (by omega), hfetches, hanswers']
  · have hexecuted : (c.announce m).executed = m.executed := rfl
    have hanswers : m.phase.answers = 1 := by rw [hphase]; rfl
    have hanswers' : (c.announce m).phase.answers = 0 := rfl
    rw [hstep, hexecuted, if_neg (by omega), if_neg (by omega), hanswers, hanswers']

theorem Waiting.step (h : Waiting c m₀ vs n m log) (hsize : 2 ≤ c.rirbSize) : Waiting c m₀ vs n (c.step m) log := by
  obtain ⟨⟨hstored, xs, hinv⟩, hrirb⟩ := h
  exact ⟨⟨hstored, hinv.step⟩, hrirb.step hsize⟩

theorem Waiting.toGo_advance (h : Waiting c m₀ vs n m log) (hsize : 2 ≤ c.rirbSize) (hlength : vs.length = n + 1) :
    (c.advance m).toGo n ≤ m.toGo n - c.schedule m.now := by
  have hsteps (s : ℕ) (m : Rings) (h : Waiting c m₀ vs n m log) : (c.steps s m).toGo n ≤ m.toGo n - s := by
    induction s generalizing m with
    | zero => exact Nat.le_refl _
    | succ s ih =>
      have hrest := ih (c.step m) (h.step hsize)
      have hone := h.toGo_step hlength
      show (c.steps s (c.step m)).toGo n ≤ _
      omega
  exact hsteps (c.schedule m.now) m h

/-- When there is nothing to do the entry is announced. -/
theorem Waiting.rirbWp_ne (h : Waiting c m₀ vs n m log) (hsize : 2 ≤ c.rirbSize) (hlength : vs.length = n + 1)
    (hdone : m.toGo n = 0) : m.rirbWp ≠ (m₀.rirbWp + n) % c.rirbSize := by
  have hle := h.executed.length_le
  obtain ⟨k, hk, hwp, hn⟩ := h.2.announced
  unfold Rings.toGo at hdone
  have hfetches : m.phase.fetches ≤ 1 := by cases m.phase <;> decide
  split_ifs at hdone with hfew
  · omega
  · obtain rfl : k = n + 1 := by omega
    rw [hwp, ← Nat.add_assoc]
    intro hsame
    have hone : 1 % c.rirbSize = 0 % c.rirbSize := Nat.ModEq.add_left_cancel' (m₀.rirbWp + n) hsame
    rw [Nat.zero_mod, Nat.mod_eq_of_lt (by omega)] at hone
    cases hone

/-- When the controller takes a step next. -/
def Controller.Fair.next (hfair : c.Fair) (t : ℕ) : ℕ := Nat.find (hfair t)

/-- The steps that the controller still has to take, and the accesses until it takes one. -/
def Closer (hfair : c.Fair) (n : ℕ) (m' m : Rings) : Prop :=
  Prod.Lex (· < ·) (· < ·) (m'.toGo n, hfair.next m'.now - m'.now) (m.toGo n, hfair.next m.now - m.now)

theorem closer_wf (hfair : c.Fair) (n : ℕ) : WellFounded (Closer hfair n) :=
  InvImage.wf _ (WellFounded.prod_lex Nat.lt_wfRel.wf Nat.lt_wfRel.wf)

theorem Waiting.closer (h : Waiting c m₀ vs n m log) (hfair : c.Fair) (hsize : 2 ≤ c.rirbSize)
    (hlength : vs.length = n + 1) (hdone : m.toGo n ≠ 0) : Closer hfair n (c.advance m) m := by
  have hle := h.toGo_advance hsize hlength
  by_cases hidle : c.schedule m.now = 0
  · have hsame : (c.advance m).toGo n = m.toGo n := by
      unfold Controller.advance
      rw [hidle]
      rfl
    have hlater : m.now + 1 ≤ hfair.next m.now := by
      obtain ⟨hge, hpos⟩ := Nat.find_spec (hfair m.now)
      by_contra hnow
      have hsame : Nat.find (hfair m.now) = m.now := by
        unfold Controller.Fair.next at hnow
        omega
      rw [hsame] at hpos
      omega
    have hnext : hfair.next (m.now + 1) ≤ hfair.next m.now :=
      Nat.find_min' (hfair (m.now + 1)) ⟨hlater, (Nat.find_spec (hfair m.now)).2⟩
    have hnow : (c.advance m).now = m.now + 1 := rfl
    refine Prod.lex_def.mpr (.inr ⟨hsame, ?_⟩)
    show hfair.next (c.advance m).now - (c.advance m).now < hfair.next m.now - m.now
    rw [hnow]
    omega
  · exact Prod.lex_def.mpr (.inl (show (c.advance m).toGo n < m.toGo n by omega))

/-- A controller that never stops taking steps lets `rirb_read` return. -/
theorem returns_rirbRead (hfair : c.Fair) (hsize : 2 ≤ c.rirbSize) (hsize' : c.rirbSize ≤ 2 ^ 8)
    (hd : d.rirbEntries = c.rirbSize) (hrp : d.rirbRp = (m₀.rirbWp + n) % c.rirbSize) (hlength : vs.length = n + 1)
    (h : Waiting c m₀ vs n m log) : Returns c.respond (rirbRead d) m log := by
  unfold rirbRead
  refine .bind (.poll (closer_wf hfair n) (costs_pointer _) (I := Waiting c m₀ vs n) ?_ h) fun _ m' log' _ => ?_
  · intro m log h
    refine ⟨_, _, _, (completes_inw .rirbwp m log).bind (.pure _ _ _), ?_⟩
    intro hagain
    have hquiet := h.quiet hsize (a := .inw .rirbwp) rfl rfl
    refine ⟨hquiet, h.closer hfair hsize hlength ?_⟩
    intro hdone
    have hle := h.toGo_advance hsize hlength
    have hlt : (c.advance m).rirbWp < c.rirbSize := hquiet.rirbWp_lt hsize
    have hne : (c.advance m).rirbWp ≠ (m₀.rirbWp + n) % c.rirbSize := hquiet.rirbWp_ne hsize hlength
      (show (c.advance m).toGo n = 0 by omega)
    have hread : (c.advance m).rirbWp % 2 ^ 16 % 2 ^ 8 = d.rirbRp := of_decide_eq_true hagain
    rw [Nat.mod_eq_of_lt (show (c.advance m).rirbWp < 2 ^ 16 by omega), Nat.mod_eq_of_lt (by omega), hrp] at hread
    exact hne hread
  · rw [hd, if_neg (by omega)]
    exact ⟨_, _, _, (Completes.load _ _ _).bind ((completes_outb _ _ _ _).bind (.pure _ _ _))⟩

/-- There is room in the CORB when everything is executed. -/
theorem Waiting.idle (h : Waiting c m₀ vs vs.length m log) : m.corbRp = m.corbWp := by
  have hlength := h.length
  obtain ⟨⟨-, xs, hinv⟩, -⟩ := h
  have hxs := congrArg List.length hinv.executed
  rw [List.length_append] at hxs
  obtain ⟨v, hwp, hpending, -⟩ := hinv.told
  obtain rfl : v = 0 := by omega
  rw [hwp, Nat.add_zero, Nat.mod_eq_of_lt hinv.corbRp_lt]

theorem returns_corbWrite (hsize : 2 ≤ c.corbSize) (hsize' : c.corbSize ≤ 2 ^ 8) (hrirb : 2 ≤ c.rirbSize)
    (hd : d.corbEntries = c.corbSize) (verb : ℕ) (h : Waiting c m₀ vs vs.length m log) :
    Returns c.respond (corbWrite d verb) m log := by
  have hfirst := h.quiet hrirb (a := .inw .corbwp) rfl rfl
  have hsecond := hfirst.quiet hrirb (a := .inw .corbrp) rfl rfl
  obtain ⟨-, xs, hinv⟩ := hfirst.1
  obtain ⟨-, ys, hinv'⟩ := hsecond.1
  have hwp : (c.respond m (.inw .corbwp)).2.corbWp < c.corbSize := hinv.corbWp_lt
  have hrp : (c.respond (c.respond m (.inw .corbwp)).2 (.inw .corbrp)).2.corbRp < c.corbSize := hinv'.corbRp_lt
  have hidle := hsecond.idle
  have hsame : (c.respond (c.respond m (.inw .corbwp)).2 (.inw .corbrp)).2.corbWp =
      (c.respond m (.inw .corbwp)).2.corbWp := advance_corbWp c _
  have hwp' : (c.respond m (.inw .corbwp)).1 % 2 ^ 16 % 2 ^ 8 = (c.respond m (.inw .corbwp)).2.corbWp := by
    show (c.respond m (.inw .corbwp)).2.corbWp % 2 ^ 16 % 2 ^ 8 = _
    omega
  have hrp' : (c.respond (c.respond m (.inw .corbwp)).2 (.inw .corbrp)).1 % 2 ^ 16 % 2 ^ 8 =
      (c.respond m (.inw .corbwp)).2.corbWp := by
    rw [← hsame, ← hidle]
    show (c.respond (c.respond m (.inw .corbwp)).2 (.inw .corbrp)).2.corbRp % 2 ^ 16 % 2 ^ 8 = _
    omega
  have hfree : ((c.respond m (.inw .corbwp)).2.corbWp + 1) % c.corbSize % 2 ^ 16 ≠
      (c.respond m (.inw .corbwp)).2.corbWp := by
    intro hfull
    have hlt : ((c.respond m (.inw .corbwp)).2.corbWp + 1) % c.corbSize < c.corbSize := Nat.mod_lt _ (by omega)
    rw [Nat.mod_eq_of_lt (by omega)] at hfull
    have hsame : ((c.respond m (.inw .corbwp)).2.corbWp + 1) % c.corbSize =
        ((c.respond m (.inw .corbwp)).2.corbWp + 0) % c.corbSize := by
      rw [hfull, Nat.add_zero, Nat.mod_eq_of_lt hwp]
    have hone := Holds.index_injective (show 1 < c.corbSize by omega) (by omega) hsame
    cases hone
  unfold corbWrite
  refine (completes_inw .corbwp m log).returns_bind ?_
  rw [hd, if_neg (by omega), hwp']
  dsimp only
  refine (Completes.poll_last (costs_pointer _) ((completes_inw .corbrp _ _).bind (.pure _ _ _)) ?_).returns_bind ?_
  · rw [hrp']
    exact decide_eq_false hfree
  · exact ⟨_, _, _, (Completes.access _ _ _).bind (completes_outw _ _ _ _)⟩

theorem returns_codecTransmission (hfair : c.Fair) (hsizes : c.Sizes) (hd : d.Fits c m₀ vs.length) (t : Transmission)
    (h : Waiting c m₀ vs vs.length m log) :
    Returns c.respond (codecTransmission d t.codec t.widgetId t.payload) m log := by
  refine .bind (returns_corbWrite hsizes.corb_ge hsizes.corb_le hsizes.rirb_ge hd.corbEntries t.verb h)
    fun _ m' log' hwrite => ?_
  exact returns_rirbRead hfair hsizes.rirb_ge hsizes.rirb_le hd.rirbEntries hd.rirbRp List.length_append
    ((triple_write hsizes hd t.verb).completes h hwrite)

theorem returns_transmissions (hfair : c.Fair) (hsizes : c.Sizes) (ts : List Transmission) (hd : d.Fits c m₀ vs.length)
    (h : Waiting c m₀ vs vs.length m log) : Returns c.respond (transmissions ts d) m log := by
  induction ts generalizing vs d m log with
  | nil => exact ⟨_, _, _, .pure _ _ _⟩
  | cons t ts ih =>
    refine .bind (returns_codecTransmission hfair hsizes hd t h) fun r m' log' hcall => ?_
    obtain ⟨⟨-, hfits⟩, hwaiting⟩ := (triple_codecTransmission hsizes hd t List.prefix_rfl).completes h hcall
    obtain ⟨rs, m'', log'', hrest⟩ := ih hfits hwaiting
    exact ⟨_, _, _, hrest.bind (.pure _ _ _)⟩

/-- The responses to the verbs of the calls, in order. -/
def Controller.responses (c : Controller) (ts : List Transmission) : List ℕ :=
  (List.range ts.length).map (c.response (ts.map Transmission.verb))

/-- Whenever the calls have returned, they have returned the responses. -/
def Paired (c : Controller) (d : HdaDevice) (m : Rings) (ts : List Transmission) : Prop :=
  ∀ budget rs w, transmissions ts d c.respond ⟨m, budget, []⟩ = .done rs w → rs = c.responses ts

/-- The calls return, and every one of them returns the response to its verb, just when the word that the driver looks at
is that response. -/
theorem transmissions_paired_iff (c : Controller) (d : HdaDevice) (m : Rings) (ts : List Transmission)
    (hsizes : c.Sizes) (hstart : m.Start c) (hrirb : m.rirbWp < c.rirbSize) (hcorbEntries : d.corbEntries = c.corbSize)
    (hrirbEntries : d.rirbEntries = c.rirbSize) (hrp : d.rirbRp = m.rirbWp) :
    ((∀ k < ts.length, c.met m (ts.map Transmission.verb) k = c.response (ts.map Transmission.verb) k) →
      Paired c d m ts) ∧
    (c.Fair → (∃ budget rs w, transmissions ts d c.respond ⟨m, budget, []⟩ = .done rs w) ∧
      (Paired c d m ts ↔
        ∀ k < ts.length, c.met m (ts.map Transmission.verb) k = c.response (ts.map Transmission.verb) k)) := by
  have hfits : d.Fits c m ([] : List ℕ).length :=
    ⟨hcorbEntries, hrirbEntries, by rw [hrp, List.length_nil, Nat.add_zero, Nat.mod_eq_of_lt hrirb]⟩
  have hwaiting : Waiting c m [] ([] : List ℕ).length m [] := ⟨⟨rfl, [], .start hstart⟩, .start hstart hrirb⟩
  have hmet {budget : ℕ} {rs : List ℕ} {w : World Access Rings}
      (hrun : transmissions ts d c.respond ⟨m, budget, []⟩ = .done rs w) :
      rs = (List.range ts.length).map (c.met m (ts.map Transmission.verb)) := by
    have hsat := triple_transmissions hsizes ts hfits List.prefix_rfl ⟨m, budget, []⟩ hwaiting
    rw [hrun] at hsat
    rw [List.range_eq_range']
    exact hsat
  have hall : (List.range ts.length).map (c.met m (ts.map Transmission.verb)) = c.responses ts ↔
      ∀ k < ts.length, c.met m (ts.map Transmission.verb) k = c.response (ts.map Transmission.verb) k := by
    unfold Controller.responses
    simp only [List.map_inj_left, List.mem_range]
  constructor
  · intro hwords budget rs w hrun
    rw [hmet hrun]
    exact hall.mpr hwords
  · intro hfair
    obtain ⟨rs, m', log', n, hn⟩ := returns_transmissions hfair hsizes ts hfits hwaiting
    have hrun := hn 0
    refine ⟨⟨_, _, _, hrun⟩, ?_, fun hwords budget rs w hrun => ?_⟩
    · intro hpaired
      rw [← hall, ← hmet hrun]
      exact hpaired _ _ _ hrun
    · rw [hmet hrun]
      exact hall.mpr hwords

/-- A controller that takes one step before every access, and writes the same word twice. -/
def sevens : Controller where
  corbSize := 2
  rirbSize := 2
  answer _ := (7, 7)
  schedule _ := 1

/-- With `RIRBWP` at the last slot the first call looks at its own entry. -/
def fromLast : Rings := { emptyRings with rirbWp := 1 }

theorem sevens_paired :
    (∃ budget rs w, transmissions [⟨0, 0, 5⟩, ⟨0, 0, 6⟩] ⟨none, 2, 2, 1⟩ sevens.respond ⟨fromLast, budget, []⟩ = .done rs w) ∧
      Paired sevens ⟨none, 2, 2, 1⟩ fromLast [⟨0, 0, 5⟩, ⟨0, 0, 6⟩] := by
  have hiff := transmissions_paired_iff sevens ⟨none, 2, 2, 1⟩ fromLast [⟨0, 0, 5⟩, ⟨0, 0, 6⟩]
    ⟨by decide, by decide, by decide, by decide⟩ ⟨by decide, rfl, rfl, rfl, rfl, rfl⟩ (by decide) rfl rfl rfl
  have hfair : sevens.Fair := fun t => ⟨t, Nat.le_refl t, Nat.one_pos⟩
  exact ⟨(hiff.2 hfair).1, (hiff.2 hfair).2.mpr (by decide)⟩

/-- A controller with rings of 16 entries that answers 100 to the first verb. -/
def hundreds : Controller where
  corbSize := 16
  rirbSize := 16
  answer executed := (executed.length + 99, 0)
  schedule _ := 1

/-- The first call looks at the second word of an entry that is not written yet. -/
theorem first_not_paired : emptyRings.Start hundreds ∧ hundreds.Fair ∧ hundreds.responses [⟨0, 0, 0xf0004⟩] = [100] ∧
    ¬ Paired hundreds ⟨none, 16, 16, 0⟩ emptyRings [⟨0, 0, 0xf0004⟩] := by
  refine ⟨⟨by decide, rfl, rfl, rfl, rfl, rfl⟩, fun t => ⟨t, Nat.le_refl t, Nat.one_pos⟩, rfl, ?_⟩
  intro hpaired
  have hresult : (transmissions [⟨0, 0, 0xf0004⟩] ⟨none, 16, 16, 0⟩ hundreds.respond ⟨emptyRings, 20, []⟩).result =
      some [0] := by
    decide +kernel
  cases hrun : transmissions [⟨0, 0, 0xf0004⟩] ⟨none, 16, 16, 0⟩ hundreds.respond ⟨emptyRings, 20, []⟩ with
  | done rs w =>
    rw [hrun] at hresult
    have hzero : rs = [0] := Option.some.inj hresult
    have hhundred := hpaired 20 rs w hrun
    rw [hzero] at hhundred
    exact absurd hhundred (by decide)
  | paused w =>
    rw [hrun] at hresult
    cases hresult
  | fault e w =>
    rw [hrun] at hresult
    cases hresult

end AudioKernel.Audio
