import AudioKernel.Lib.Places
import AudioKernel.Threads.Control

/-! The places where a thread can be, and what each step of the scheduler moves. -/
namespace AudioKernel
open Lib

/-- On a core or in transit on it, in a queue, in the hands of the caller of `schedule`, or in those of
`delete_zombies`. -/
inductive Place
  | core (c : ℕ)
  | ready
  | sem (i : ℕ)
  | cond (k : ℕ)
  | handed (u : Tcb)
  | zombies
  | reaped (u : Tcb)
  deriving DecidableEq

namespace Place

def isQueue : Place → Bool
  | ready | sem _ | cond _ | zombies => true
  | core _ | handed _ | reaped _ => false

def isCore : Place → Bool
  | core _ => true
  | _ => false

end Place

namespace Base

def handed? : Base → Option Tcb
  | handing t _ => some t
  | _ => none

def reaped? : Base → Option Tcb
  | reaping t => some t
  | _ => none

end Base

def threads (l : List Tcb) : List ℕ := l.filterMap Tcb.thread?

namespace Sched

def tcbs (s : Sched) : Place → List Tcb
  | .core c => s.cpu.onCore c
  | .ready => s.readyQ
  | .sem i => (s.sem i).waiting
  | .cond k => (s.cond k).queue
  | .handed u => (s.base u).handed?.toList
  | .zombies => s.zombies
  | .reaped u => (s.base u).reaped?.toList

def contents (s : Sched) (i : Place) : List ℕ := threads (s.tcbs i)

/-- The thread has been created and not yet deleted. -/
def Live (s : Sched) (t : ℕ) : Prop := t < s.created ∧ t ∉ s.deleted

structure Inv (s : Sched) : Prop where
  control : Control s.cpu
  idle_places : ∀ i k, i.isCore = false → .idle k ∉ s.tcbs i
  idle_base : ∀ k, s.base (.idle k) = .stopping
  deleted_lt : ∀ t ∈ s.deleted, t < s.created
  placed : ∃ place, Placed s.contents s.Live place

/-- What a step does to the places: nothing, or one thread is created, deleted, or moves, but never from one
queue into another. -/
inductive Change (s s' : Sched) : Prop
  | same : SameContents s.contents s'.contents → s'.Live = s.Live → Change s s'
  | create (t : ℕ) (u : Tcb) : Enters s.contents s'.contents t (.handed u) → ¬ s.Live t →
      (∀ x, s'.Live x ↔ s.Live x ∨ x = t) → Change s s'
  | delete (t : ℕ) (u : Tcb) : Enters s'.contents s.contents t (.reaped u) →
      (∀ x, s'.Live x ↔ s.Live x ∧ x ≠ t) → Change s s'
  | move (t : ℕ) (i j : Place) : Moves s.contents s'.contents t i j → ¬ (i.isQueue = true ∧ j.isQueue = true) →
      s'.Live = s.Live → Change s s'

theorem Change.placed {s s' : Sched} (h : Change s s') (hp : ∃ place, Placed s.contents s.Live place) :
    ∃ place, Placed s'.contents s'.Live place := by
  obtain ⟨place, hp⟩ := hp
  cases h with
  | same hs hl => exact ⟨place, hp.same hs fun x => by rw [hl]⟩
  | create t u he ht hl => exact ⟨_, hp.enters he ht hl⟩
  | delete t u he hl => exact ⟨place, hp.leaves he hl⟩
  | move t i j hm _ hl => exact ⟨_, hp.moves hm fun x => by rw [hl]⟩

namespace Inv

variable {s : Sched} {c : ℕ}

theorem mem_contents {i : Place} {t : ℕ} : t ∈ s.contents i ↔ .thread t ∈ s.tcbs i := by
  unfold contents threads
  rw [List.mem_filterMap]
  constructor
  · rintro ⟨x, hx, ht⟩
    cases x with
    | idle k => cases ht
    | thread u =>
      cases ht
      exact hx
  · intro h
    exact ⟨_, h, rfl⟩

/-- A thread is at one place only. -/
theorem unique (h : Inv s) {i j : Place} {t : ℕ} (hi : .thread t ∈ s.tcbs i) (hj : .thread t ∈ s.tcbs j) : i = j := by
  obtain ⟨place, hp⟩ := h.placed
  exact hp.unique (mem_contents.mpr hi) (mem_contents.mpr hj)

theorem apart (h : Inv s) : Apart s.cpu := by
  intro c c' t ht ht'
  cases t with
  | idle k => rw [← h.control.idle_core c k ht, ← h.control.idle_core c' k ht']
  | thread t => exact Place.core.inj (h.unique (i := .core c) (j := .core c') ht ht')

theorem tcbs_not_idle (h : Inv s) {i : Place} (hi : i.isCore = false) {t : Tcb} (ht : t ∈ s.tcbs i) :
    ∃ x, t = .thread x := by
  cases t with
  | idle k => exact absurd ht (h.idle_places i k hi)
  | thread x => exact ⟨x, rfl⟩

/-- Only a thread can be anywhere but in its stop loop. -/
theorem current_thread (h : Inv s) {b : Base} (hat : s.At c b) (hb : b ≠ .stopping) : ∃ t, s.current c = .thread t := by
  cases hc : s.current c with
  | thread t => exact ⟨t, rfl⟩
  | idle k =>
    have hbase := hat.2
    rw [hc, h.idle_base k] at hbase
    exact absurd hbase.symm hb

end Inv
end Sched
end AudioKernel
