import AudioKernel.Queue
import Mathlib.Data.UInt

/-! `codec_find` of `bus.cc`: the search for a codec among the children of a bus. -/
namespace AudioKernel
open Lib

variable {Q P D C : Type}

/-- The children of all buses, and what the pointers in them lead to. A null pointer is `none`. -/
structure Buses (Q P D C : Type) where
  queues : QueueHeap Q P
  childDevice : P → Option D
  codecAddress : D → UInt32
  device : C → Option D

namespace Buses

section Search

variable [DecidableEq Q] [DecidableEq P] [DecidableEq C]

/-- `ret->device = dev` -/
def setDevice (s : Buses Q P D C) (ret : Option C) (dev : D) : Except Stop (Buses Q P D C) :=
  match ret with
  | none => .error .wild
  | some ret => .ok { s with device := Function.update s.device ret (some dev) }

/-- `while (!found)`. A null child, and a child without a device, are looked into all the same. -/
def codecFindLoop (bus : Q) (address : UInt32) (ret : Option C) :
    ℕ → Buses Q P D C → Except Stop (Option C × Buses Q P D C)
  | 0, _ => .error .diverge
  | fuel + 1, s =>
    let (child, queues) := s.queues.remove bus
    match child with
    | none => .error .wild
    | some child =>
      match s.childDevice child with
      | none => .error .wild
      | some dev =>
        if s.codecAddress dev = address then do
          let s ← { s with queues := queues }.setDevice ret dev
          return (ret, s)
        else do
          let queues ← queues.add bus child
          codecFindLoop bus address ret fuel { s with queues := queues }

/-- `ret` is null from the beginning, and nothing else is assigned to it. -/
def codecFind (s : Buses Q P D C) (bus : Q) (address : UInt32) (fuel : ℕ) :
    Except Stop (Option C × Buses Q P D C) :=
  codecFindLoop bus address none fuel s

end Search

variable {s : Buses Q P D C} {F : Fifos Q P} {bus : Q} {address : UInt32}

def Matches (s : Buses Q P D C) (address : UInt32) (x : P) : Prop :=
  ∃ d, s.childDevice x = some d ∧ s.codecAddress d = address

def Misses (s : Buses Q P D C) (address : UInt32) (x : P) : Prop :=
  ∃ d, s.childDevice x = some d ∧ s.codecAddress d ≠ address

/-- A result of the search among the children `F bus`, and the state that it leaves. -/
structure Found [DecidableEq Q] (s : Buses Q P D C) (F : Fifos Q P) (bus : Q) (address : UInt32) (ret : Option C)
    (t : Buses Q P D C) : Prop where
  absent : ret = none ↔ ∀ x ∈ F bus, ¬ s.Matches address x
  present : ∀ c, ret = some c →
    ∃ x ∈ F bus, ∃ d, s.childDevice x = some d ∧ s.codecAddress d = address ∧ t.device c = some d
  kept : ∃ xs, xs.Perm (F bus) ∧ t.queues.Represents (Function.update F bus xs)

theorem exists_first_other {xs : List P} (h : ¬ ∀ x ∈ xs, s.Misses address x) :
    ∃ ys x zs, xs = ys ++ x :: zs ∧ (∀ y ∈ ys, s.Misses address y) ∧ ¬ s.Misses address x := by
  induction xs with
  | nil => exact absurd (fun x hx => absurd hx List.not_mem_nil) h
  | cons x xs ih =>
    by_cases hx : s.Misses address x
    · have hrest : ¬ ∀ y ∈ xs, s.Misses address y := fun hall => h (List.forall_mem_cons.mpr ⟨hx, hall⟩)
      obtain ⟨ys, y, zs, rfl, hys, hy⟩ := ih hrest
      exact ⟨x :: ys, y, zs, rfl, List.forall_mem_cons.mpr ⟨hx, hys⟩, hy⟩
    · exact ⟨[], x, xs, rfl, fun y hy => absurd hy List.not_mem_nil, hx⟩

variable [DecidableEq Q] [DecidableEq P] [DecidableEq C]

def Finds (s : Buses Q P D C) (F : Fifos Q P) (bus : Q) (address : UInt32) : Prop :=
  ∃ fuel ret t, s.codecFind bus address fuel = .ok (ret, t) ∧ s.Found F bus address ret t

/-- No turn of the loop leads to its end: a match is stored through the null pointer. -/
theorem codecFind_ne_ok (fuel : ℕ) (r : Option C × Buses Q P D C) : s.codecFind bus address fuel ≠ .ok r := by
  unfold codecFind
  induction fuel generalizing s with
  | zero =>
    intro h
    cases h
  | succ fuel ih =>
    intro h
    rw [codecFindLoop] at h
    dsimp only at h
    split at h
    · cases h
    · split at h
      · cases h
      · split_ifs at h
        · cases h
        · obtain ⟨queues, -, hrest⟩ := bind_eq_ok h
          exact ih hrest

theorem not_finds : ¬ s.Finds F bus address := by
  rintro ⟨fuel, ret, t, hok, -⟩
  exact codecFind_ne_ok fuel (ret, t) hok

theorem find_empty (h : s.queues.Represents F) (hempty : F bus = []) (fuel : ℕ) :
    s.codecFind bus address (fuel + 1) = .error .wild := by
  have hfirst : (s.queues.queue bus).first = none := by
    rw [(h.chain bus).head_eq, hempty]
    rfl
  unfold codecFind
  simp only [codecFindLoop, QueueHeap.remove, hfirst]

/-- A turn at a child with another address moves it to the end of the queue. -/
theorem find_misses (h : s.queues.Represents F) {x : P} {xs : List P} (hx : F bus = x :: xs)
    (hmiss : s.Misses address x) : ∃ queues, queues.Represents (Function.update F bus (xs ++ [x])) ∧ ∀ fuel,
    s.codecFind bus address (fuel + 1) = { s with queues := queues }.codecFind bus address fuel := by
  obtain ⟨queues, queues', hremove, hadd, hrep⟩ := h.remove_add hx
  obtain ⟨d, hd, hne⟩ := hmiss
  refine ⟨queues', hrep, fun fuel => ?_⟩
  unfold codecFind
  rw [codecFindLoop, hremove]
  dsimp only
  rw [hd]
  dsimp only
  rw [if_neg hne, hadd, ok_bind]

/-- A turn at any other child goes through a null pointer. -/
theorem find_other (h : s.queues.Represents F) {x : P} {xs : List P} (hx : F bus = x :: xs)
    (hother : ¬ s.Misses address x) (fuel : ℕ) : s.codecFind bus address (fuel + 1) = .error .wild := by
  obtain ⟨queues, -, hremove, -, -⟩ := h.remove_add hx
  unfold codecFind
  rw [codecFindLoop, hremove]
  dsimp only
  cases hd : s.childDevice x with
  | none => rfl
  | some d =>
    dsimp only
    have heq : s.codecAddress d = address := by
      by_contra hne
      exact hother ⟨d, hd, hne⟩
    rw [if_pos heq]
    rfl

/-- Without a match the search goes round for ever: the turns keep the children, in another order. -/
theorem find_diverges (h : s.queues.Represents F) (hne : F bus ≠ []) (hmiss : ∀ x ∈ F bus, s.Misses address x)
    (fuel : ℕ) : s.codecFind bus address fuel = .error .diverge := by
  induction fuel generalizing s F with
  | zero => rfl
  | succ fuel ih =>
    obtain ⟨x, xs, hx⟩ := List.exists_cons_of_ne_nil hne
    rw [hx] at hmiss
    obtain ⟨queues, hrep, hturn⟩ := find_misses h hx (hmiss x List.mem_cons_self)
    rw [hturn]
    refine ih hrep ?_ ?_
    · rw [Function.update_self]
      exact List.append_ne_nil_of_right_ne_nil xs (List.cons_ne_nil x [])
    · rw [Function.update_self]
      intro y hy
      exact hmiss y (List.perm_append_singleton x xs |>.mem_iff.mp hy)

/-- The first other child, by induction on those before it. -/
theorem find_wild (h : s.queues.Represents F) {ys zs : List P} {x : P} (hx : F bus = ys ++ x :: zs)
    (hmiss : ∀ y ∈ ys, s.Misses address y) (hother : ¬ s.Misses address x) :
    ∃ fuel, s.codecFind bus address fuel = .error .wild := by
  induction ys generalizing s F zs with
  | nil => exact ⟨1, find_other h hx hother 0⟩
  | cons y ys ih =>
    obtain ⟨queues, hrep, hturn⟩ := find_misses h (hx.trans List.cons_append) (hmiss y List.mem_cons_self)
    have hrest : Function.update F bus (ys ++ x :: zs ++ [y]) bus = ys ++ x :: (zs ++ [y]) := by
      rw [Function.update_self, List.append_assoc, List.cons_append]
    obtain ⟨fuel, hwild⟩ := ih (s := { s with queues := queues }) hrep hrest
      (fun z hz => hmiss z (List.mem_cons_of_mem y hz)) hother
    exact ⟨fuel + 1, (hturn fuel).trans hwild⟩

/-- The search never returns. It goes round for ever if all children have other addresses, and else through a null
pointer: that of the child, of its device, or of the result. -/
theorem codecFind_never (h : s.queues.Represents F) (bus : Q) (address : UInt32) : ¬ s.Finds F bus address ∧
    ((∀ fuel, s.codecFind bus address fuel = .error .diverge) ↔ F bus ≠ [] ∧ ∀ x ∈ F bus, s.Misses address x) ∧
    ((∃ fuel, s.codecFind bus address fuel = .error .wild) ↔ ¬ (F bus ≠ [] ∧ ∀ x ∈ F bus, s.Misses address x)) := by
  by_cases hround : F bus ≠ [] ∧ ∀ x ∈ F bus, s.Misses address x
  · have hdiverge := find_diverges h hround.1 hround.2
    refine ⟨not_finds, iff_of_true hdiverge hround, iff_of_false ?_ (not_not_intro hround)⟩
    rintro ⟨fuel, hwild⟩
    rw [hdiverge fuel] at hwild
    cases hwild
  · have hwild : ∃ fuel, s.codecFind bus address fuel = .error .wild := by
      by_cases hempty : F bus = []
      · exact ⟨1, find_empty h hempty 0⟩
      · obtain ⟨ys, x, zs, hx, hmiss, hother⟩ := exists_first_other fun hall => hround ⟨hempty, hall⟩
        exact find_wild h hx hmiss hother
    refine ⟨not_finds, iff_of_false ?_ hround, iff_of_true hwild hround⟩
    intro hdiverge
    obtain ⟨fuel, hwild⟩ := hwild
    rw [hdiverge fuel] at hwild
    cases hwild

def oneCodec : Buses Unit ℕ ℕ ℕ where
  queues := ⟨fun _ => none, fun _ => ⟨some 7, some 7⟩⟩
  childDevice _ := some 0
  codecAddress _ := 3
  device _ := none

theorem oneCodec_represents : oneCodec.queues.Represents fun _ => [7] where
  chain _ := ⟨rfl, rfl⟩
  last_eq _ := rfl
  nodup _ := List.nodup_singleton 7
  apart _ _ _ _ _ := rfl

theorem oneCodec_goes_round :
    (∀ fuel, oneCodec.codecFind () 5 fuel = .error .diverge) ∧ ¬ oneCodec.Finds (fun _ => [7]) () 5 := by
  obtain ⟨hnot, hround, -⟩ := codecFind_never oneCodec_represents () 5
  refine ⟨hround.mpr ⟨List.cons_ne_nil 7 [], fun x _ => ⟨0, rfl, ?_⟩⟩, hnot⟩
  show (3 : UInt32) ≠ 5
  decide

/-- The codec that is there is not returned. -/
theorem oneCodec_not_found : oneCodec.queues.Represents (fun _ => [7]) ∧ oneCodec.Matches 3 7 ∧
    oneCodec.codecFind () 3 1 = .error .wild ∧ ¬ oneCodec.Finds (fun _ => [7]) () 3 :=
  ⟨oneCodec_represents, ⟨0, rfl, rfl⟩, rfl, not_finds⟩

end Buses
end AudioKernel
