import AudioKernel.Audio.Model
import AudioKernel.Lib.Ring

/-! The controller on the other side of the two rings. It takes steps of its own between the accesses of the driver, as many
as a schedule says. -/
namespace AudioKernel.Audio
open Lib Interact

/-- What the controller has done with the verb at `CORBRP`. -/
inductive Phase
  | idle
  | fetched
  | answered
  deriving DecidableEq

/-- The sizes of the rings, what the controller answers when the last of the verbs so far has been executed (the two words
of an entry), and how many steps it takes before each access. -/
structure Controller where
  corbSize : ℕ
  rirbSize : ℕ
  answer : List ℕ → ℕ × ℕ
  schedule : ℕ → ℕ

/-- The rings, the registers of their pointers, and a bit for each codec that is present. A slot of the CORB is `pending`
from the store of a verb to its execution, and a verb is `lost` if another one is stored to its slot meanwhile. -/
structure Rings where
  corb : ℕ → ℕ
  corbRp : ℕ
  corbWp : ℕ
  rirb : ℕ → ℕ
  rirbWp : ℕ
  phase : Phase
  executed : List ℕ
  pending : ℕ → Bool
  lost : List ℕ
  now : ℕ
  statests : ℕ := 0

namespace Controller

variable (c : Controller)

def fetch (m : Rings) : Rings := { m with corbRp := (m.corbRp + 1) % c.corbSize, phase := .fetched }

def execute (m : Rings) : Rings :=
  let executed := m.executed ++ [m.corb m.corbRp]
  let slot := (m.rirbWp + 1) % c.rirbSize
  { m with
    executed
    pending := Function.update m.pending m.corbRp false
    rirb := Function.update (Function.update m.rirb (2 * slot) (c.answer executed).1) (2 * slot + 1) (c.answer executed).2
    phase := .answered }

def announce (m : Rings) : Rings := { m with rirbWp := (m.rirbWp + 1) % c.rirbSize, phase := .idle }

def step (m : Rings) : Rings :=
  match m.phase with
  | .idle => if m.corbRp = m.corbWp then m else c.fetch m
  | .fetched => c.execute m
  | .answered => c.announce m

def steps : ℕ → Rings → Rings
  | 0, m => m
  | n + 1, m => steps n (c.step m)

def serve (m : Rings) : Access → ℕ × Rings
  | .inw .corbwp => (m.corbWp, m)
  | .inw .corbrp => (m.corbRp, m)
  | .inw .rirbwp => (m.rirbWp, m)
  | .inw .statests => (m.statests, m)
  | .rirb index => (m.rirb index, m)
  | .outw .corbwp val => (0, { m with corbWp := val })
  | .corb index verb => (0, { m with
      corb := Function.update m.corb index verb
      pending := Function.update m.pending index true
      lost := if m.pending index then m.lost ++ [m.corb index] else m.lost })
  | _ => (0, m)

def advance (m : Rings) : Rings := { c.steps (c.schedule m.now) m with now := m.now + 1 }

def respond (m : Rings) (a : Access) : ℕ × Rings := serve (c.advance m) a

variable {c} {m : Rings}

/-- What the controller does in a step. -/
theorem step_cases (c : Controller) (m : Rings) :
    (m.phase = .idle ∧ m.corbRp = m.corbWp ∧ c.step m = m) ∨
    (m.phase = .idle ∧ m.corbRp ≠ m.corbWp ∧ c.step m = c.fetch m) ∨
    (m.phase = .fetched ∧ c.step m = c.execute m) ∨ m.phase = .answered ∧ c.step m = c.announce m := by
  unfold step
  cases hphase : m.phase with
  | idle =>
    by_cases heq : m.corbRp = m.corbWp
    · exact .inl ⟨rfl, heq, if_pos heq⟩
    · exact .inr (.inl ⟨rfl, heq, if_neg heq⟩)
  | fetched => exact .inr (.inr (.inl ⟨rfl, rfl⟩))
  | answered => exact .inr (.inr (.inr ⟨rfl, rfl⟩))

/-- What every step keeps is kept between two accesses. -/
theorem advance_keeps {P : Rings → Prop} (hstep : ∀ m, P m → P (c.step m)) (hnow : ∀ m now, P m → P { m with now })
    (h : P m) : P (c.advance m) := by
  have hsteps (n : ℕ) (m : Rings) (h : P m) : P (c.steps n m) := by
    induction n generalizing m with
    | zero => exact h
    | succ n ih => exact ih (c.step m) (hstep m h)
  exact hnow _ _ (hsteps _ m h)

end Controller

/-- Nothing is pending at the start. -/
structure Rings.Start (m : Rings) (c : Controller) : Prop where
  corbRp_lt : m.corbRp < c.corbSize
  corbWp : m.corbWp = m.corbRp
  phase : m.phase = .idle
  executed : m.executed = []
  pending : m.pending = fun _ => false
  lost : m.lost = []

/-- How many verbs the controller has fetched but not executed. -/
def Phase.fetches : Phase → ℕ
  | .fetched => 1
  | _ => 0

/-- The slot of the first verb that is not executed. -/
def Rings.head (m : Rings) (N : ℕ) : ℕ := (m.corbRp + (1 - m.phase.fetches)) % N

/-- The pending slots hold, in order, the verbs `xs` that are stored and not executed. The controller has been told of all
but the last `hidden` of them. -/
structure CorbInv (c : Controller) (m : Rings) (stored xs : List ℕ) (hidden : ℕ) : Prop where
  corbRp_lt : m.corbRp < c.corbSize
  holds : Holds c.corbSize m.corb m.pending (m.head c.corbSize) xs
  executed : m.executed ++ xs = stored
  told : ∃ v, m.corbWp = (m.corbRp + v) % c.corbSize ∧ v + m.phase.fetches + hidden = xs.length ∧ v + hidden < c.corbSize
  lost : m.lost = []

variable {c : Controller} {m : Rings} {vs xs : List ℕ} {hidden : ℕ}

theorem CorbInv.start (h : m.Start c) : CorbInv c m [] [] 0 := by
  have hlt := h.corbRp_lt
  have hpos : 0 < c.corbSize := by omega
  refine ⟨hlt, ?_, by rw [h.executed]; rfl, ⟨0, ?_, ?_, hpos⟩, h.lost⟩
  · rw [h.pending]
    exact .empty (Nat.mod_lt _ hpos) _
  · rw [h.corbWp, Nat.add_zero, Nat.mod_eq_of_lt hlt]
  · rw [h.phase]
    rfl

theorem CorbInv.pending_of_ne (h : CorbInv c m vs xs hidden) (hne : m.corbRp ≠ m.corbWp) :
    ∃ v, m.corbWp = (m.corbRp + (v + 1)) % c.corbSize ∧ v + 1 + m.phase.fetches + hidden = xs.length ∧
      v + 1 + hidden < c.corbSize := by
  obtain ⟨v, hwp, hlength, hv⟩ := h.told
  cases v with
  | zero =>
    rw [Nat.add_zero, Nat.mod_eq_of_lt h.corbRp_lt] at hwp
    exact absurd hwp.symm hne
  | succ v => exact ⟨v, hwp, hlength, hv⟩

/-- A step of the controller keeps the order of the verbs, and loses none. -/
theorem CorbInv.step (h : CorbInv c m vs xs hidden) : ∃ ys, CorbInv c (c.step m) vs ys hidden := by
  have hlt := h.corbRp_lt
  have hpos : 0 < c.corbSize := by omega
  have hholds := h.holds
  unfold Rings.head at hholds
  rcases c.step_cases m with ⟨-, -, hstep⟩ | ⟨hphase, hne, hstep⟩ | ⟨hphase, hstep⟩ | ⟨hphase, hstep⟩
  · rw [hstep]
    exact ⟨xs, h⟩
  · obtain ⟨v, hwp, hlength, hv⟩ := h.pending_of_ne hne
    rw [hphase] at hlength hholds
    have hhead : ((m.corbRp + 1) % c.corbSize + 0) % c.corbSize = (m.corbRp + 1) % c.corbSize := by
      rw [Nat.add_zero, Nat.mod_mod]
    have hlength' : v + 1 + 0 + hidden = xs.length := hlength
    rw [hstep]
    refine ⟨xs, Nat.mod_lt _ hpos, ?_, h.executed, ⟨v, ?_, ?_, by omega⟩, h.lost⟩
    · show Holds _ _ _ (((m.corbRp + 1) % c.corbSize + 0) % c.corbSize) xs
      rw [hhead]
      exact hholds
    · show m.corbWp = ((m.corbRp + 1) % c.corbSize + v) % c.corbSize
      rw [hwp, Nat.mod_add_mod, Nat.add_assoc, Nat.add_comm 1 v]
    · show v + 1 + hidden = xs.length
      omega
  · obtain ⟨v, hwp, hlength, hv⟩ := h.told
    rw [hphase] at hlength hholds
    have hhead : (m.corbRp + (1 - Phase.fetched.fetches)) % c.corbSize = m.corbRp := Nat.mod_eq_of_lt hlt
    have hlength' : v + 1 + hidden = xs.length := hlength
    rw [hhead] at hholds
    rw [hstep]
    cases xs with
    | nil =>
      rw [List.length_nil] at hlength'
      omega
    | cons x xs =>
      rw [List.length_cons] at hlength'
      refine ⟨xs, hlt, hholds.pop, ?_, ⟨v, hwp, ?_, hv⟩, h.lost⟩
      · show m.executed ++ [m.corb m.corbRp] ++ xs = vs
        rw [hholds.head_data, List.append_assoc]
        exact h.executed
      · show v + 0 + hidden = xs.length
        omega
  · obtain ⟨v, hwp, hlength, hv⟩ := h.told
    rw [hphase] at hlength hholds
    rw [hstep]
    exact ⟨xs, hlt, hholds, h.executed, ⟨v, hwp, hlength, hv⟩, h.lost⟩

theorem CorbInv.steps (h : CorbInv c m vs xs hidden) (n : ℕ) : ∃ ys, CorbInv c (c.steps n m) vs ys hidden := by
  induction n generalizing m xs with
  | zero => exact ⟨xs, h⟩
  | succ n ih =>
    obtain ⟨ys, hys⟩ := h.step
    exact ih hys

theorem CorbInv.advance (h : CorbInv c m vs xs hidden) : ∃ ys, CorbInv c (c.advance m) vs ys hidden := by
  obtain ⟨ys, hys⟩ := h.steps (c.schedule m.now)
  exact ⟨ys, hys.corbRp_lt, hys.holds, hys.executed, hys.told, hys.lost⟩

theorem CorbInv.corbWp_lt (h : CorbInv c m vs xs hidden) : m.corbWp < c.corbSize := by
  have hlt := h.corbRp_lt
  obtain ⟨v, hwp, -⟩ := h.told
  rw [hwp]
  exact Nat.mod_lt _ (by omega)

/-- Only the driver moves `CORBWP`. -/
theorem advance_corbWp (c : Controller) (m : Rings) : (c.advance m).corbWp = m.corbWp := by
  refine Controller.advance_keeps (P := fun s => s.corbWp = m.corbWp) ?_ (fun _ _ h => h) rfl
  intro s h
  rcases c.step_cases s with ⟨-, -, hstep⟩ | ⟨-, -, hstep⟩ | ⟨-, hstep⟩ | ⟨-, hstep⟩ <;>
  · rw [hstep]
    exact h

def Room (c : Controller) (m : Rings) : Prop :=
  m.corbRp < c.corbSize ∧ ∃ v, m.corbWp = (m.corbRp + v) % c.corbSize ∧ v + 1 < c.corbSize

theorem CorbInv.room (h : CorbInv c m vs xs 0) (hfree : (m.corbWp + 1) % c.corbSize ≠ m.corbRp) : Room c m := by
  have hlt := h.corbRp_lt
  obtain ⟨v, hwp, -, hv⟩ := h.told
  refine ⟨hlt, v, hwp, ?_⟩
  by_contra hfull
  have hlast : v + 1 = c.corbSize := by omega
  apply hfree
  rw [hwp, Nat.mod_add_mod, Nat.add_assoc, hlast, Nat.add_mod_right, Nat.mod_eq_of_lt hlt]

/-- The controller makes room, and takes none. -/
theorem Room.advance (h : Room c m) : Room c (c.advance m) := by
  refine Controller.advance_keeps ?_ (fun _ _ h => h) h
  rintro s ⟨hlt, v, hwp, hv⟩
  rcases c.step_cases s with ⟨-, -, hstep⟩ | ⟨-, hne, hstep⟩ | ⟨-, hstep⟩ | ⟨-, hstep⟩
  · rw [hstep]
    exact ⟨hlt, v, hwp, hv⟩
  · rw [hstep]
    cases v with
    | zero =>
      rw [Nat.add_zero, Nat.mod_eq_of_lt hlt] at hwp
      exact absurd hwp.symm hne
    | succ v =>
      refine ⟨Nat.mod_lt _ (by omega), v, ?_, by omega⟩
      show s.corbWp = ((s.corbRp + 1) % c.corbSize + v) % c.corbSize
      rw [hwp, Nat.mod_add_mod, Nat.add_assoc, Nat.add_comm 1 v]
  · rw [hstep]
    exact ⟨hlt, v, hwp, hv⟩
  · rw [hstep]
    exact ⟨hlt, v, hwp, hv⟩

/-- A verb that is stored behind `CORBWP` overwrites none that is pending. -/
theorem CorbInv.store (h : CorbInv c m vs xs 0) (hroom : Room c m) (verb : ℕ) :
    CorbInv c (Controller.serve m (.corb ((m.corbWp + 1) % c.corbSize) verb)).2 (vs ++ [verb]) (xs ++ [verb]) 1 := by
  obtain ⟨hlt, v', hwp', hv'⟩ := hroom
  obtain ⟨v, hwp, hlength, hv⟩ := h.told
  have hsame : v = v' := Holds.index_injective (by omega) (by omega) (hwp.symm.trans hwp')
  subst hsame
  have hfetches : m.phase.fetches ≤ 1 := by cases m.phase <;> decide
  have hslot : (m.head c.corbSize + xs.length) % c.corbSize = (m.corbWp + 1) % c.corbSize := by
    unfold Rings.head
    rw [hwp, Nat.mod_add_mod, Nat.mod_add_mod]
    congr 1
    omega
  have hhas : xs.length < c.corbSize := by omega
  have hfree := h.holds.free hhas
  have hpush := h.holds.push hhas (v := verb)
  rw [hslot] at hfree hpush
  refine ⟨hlt, hpush, ?_, ⟨v, hwp, ?_, by omega⟩, ?_⟩
  · show m.executed ++ (xs ++ [verb]) = vs ++ [verb]
    rw [← List.append_assoc, h.executed]
  · rw [List.length_append, List.length_singleton]
    show v + m.phase.fetches + 1 = _
    omega
  · show (if m.pending _ then m.lost ++ [m.corb _] else m.lost) = []
    rw [hfree, if_neg Bool.false_ne_true]
    exact h.lost

/-- The controller is told of a verb. -/
theorem CorbInv.tell (h : CorbInv c m vs xs 1) :
    CorbInv c (Controller.serve m (.outw .corbwp ((m.corbWp + 1) % c.corbSize))).2 vs xs 0 := by
  obtain ⟨v, hwp, hlength, hv⟩ := h.told
  refine ⟨h.corbRp_lt, h.holds, h.executed, ⟨v + 1, ?_, ?_, hv⟩, h.lost⟩
  · show (m.corbWp + 1) % c.corbSize = (m.corbRp + (v + 1)) % c.corbSize
    rw [hwp, Nat.mod_add_mod, Nat.add_assoc]
  · show v + 1 + m.phase.fetches + 0 = xs.length
    omega

end AudioKernel.Audio
