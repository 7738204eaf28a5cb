import AudioKernel.Debug
import AudioKernel.Lib.Chain
import Mathlib.Data.Fintype.Basic

/-! The queues of `queue.h` over a heap of elements that are linked by `next`, and the lists that they stand for. Every
call takes effect at once, under the queue's lock. -/
namespace AudioKernel
open Lib

variable {Q P : Type}

structure Queue (P : Type) where
  first : Option P
  last : Option P

/-- The queues, and the elements that may be in them. -/
structure QueueHeap (Q P : Type) where
  next : P → Option P
  queue : Q → Queue P

inductive QueueCall (Q P : Type)
  | add (q : Q) (t : P)
  | remove (q : Q)
  | removeAll (q : Q)
  deriving DecidableEq

def QueueCall.on : QueueCall Q P → Q
  | add q _ | remove q | removeAll q => q

namespace QueueHeap

variable [DecidableEq Q] [DecidableEq P] (s : QueueHeap Q P)

def setNext (t : P) (p : Option P) : QueueHeap Q P := { s with next := Function.update s.next t p }

def setQueue (q : Q) (v : Queue P) : QueueHeap Q P := { s with queue := Function.update s.queue q v }

/-- With a `first` but no `last`, the store to `last->next` goes through a null pointer. -/
def add (q : Q) (t : P) : Except Stop (QueueHeap Q P) :=
  let s := s.setNext t none
  match (s.queue q).first with
  | none => .ok (s.setQueue q ⟨some t, some t⟩)
  | some first =>
    match (s.queue q).last with
    | none => .error .wild
    | some last => .ok ((s.setNext last (some t)).setQueue q ⟨some first, some t⟩)

def remove (q : Q) : Option P × QueueHeap Q P :=
  match (s.queue q).first with
  | none => (none, s)
  | some it =>
    let first := s.next it
    (some it, s.setQueue q ⟨first, if first = none then none else (s.queue q).last⟩)

def removeAll (q : Q) : Option P × QueueHeap Q P := ((s.queue q).first, s.setQueue q ⟨none, none⟩)

/-- A call, with the pointer that it returns if it returns one. -/
def call : QueueCall Q P → Except Stop (Option P × QueueHeap Q P)
  | .add q t => (s.add q t).map fun s => (none, s)
  | .remove q => .ok (s.remove q)
  | .removeAll q => .ok (s.removeAll q)

def run (s : QueueHeap Q P) : List (QueueCall Q P) → Except Stop (QueueHeap Q P)
  | [] => .ok s
  | c :: cs => do
    let (_, s) ← s.call c
    run s cs

/-- Queues that have just been constructed, over elements with any links. -/
def new (next : P → Option P) : QueueHeap Q P := ⟨next, fun _ => ⟨none, none⟩⟩

end QueueHeap

/-- What the queues hold, the oldest element first. -/
abbrev Fifos (Q P : Type) := Q → List P

namespace Fifos

variable [DecidableEq Q] (F : Fifos Q P)

def call : QueueCall Q P → Fifos Q P
  | .add q t => Function.update F q (F q ++ [t])
  | .remove q => Function.update F q (F q).tail
  | .removeAll q => Function.update F q []

def run (F : Fifos Q P) (cs : List (QueueCall Q P)) : Fifos Q P := cs.foldl call F

/-- An element that is added is in no queue. -/
def Allows : QueueCall Q P → Prop
  | .add _ t => ∀ q, t ∉ F q
  | .remove _ | .removeAll _ => True

def AllowsAll (F : Fifos Q P) : List (QueueCall Q P) → Prop
  | [] => True
  | c :: cs => F.Allows c ∧ AllowsAll (F.call c) cs

instance [Fintype Q] [DecidableEq P] : (c : QueueCall Q P) → Decidable (F.Allows c)
  | .add _ t => inferInstanceAs (Decidable (∀ q, t ∉ F q))
  | .remove _ | .removeAll _ => inferInstanceAs (Decidable True)

instance decidableAllowsAll [Fintype Q] [DecidableEq P] : (F : Fifos Q P) → (cs : List (QueueCall Q P)) →
    Decidable (AllowsAll F cs)
  | _, [] => inferInstanceAs (Decidable True)
  | F, c :: cs =>
    have := decidableAllowsAll (F.call c) cs
    inferInstanceAs (Decidable (F.Allows c ∧ AllowsAll (F.call c) cs))

/-- What a call returns: nothing, the oldest element, or the first of the whole chain. -/
def Returns (next : P → Option P) (ret : Option P) : QueueCall Q P → Prop
  | .add _ _ => ret = none
  | .remove q => ret = (F q).head?
  | .removeAll q => Chain next ret (F q)

end Fifos

namespace QueueHeap

variable {s s' : QueueHeap Q P} {F : Fifos Q P}

/-- The chains are the contents, no element is in two places, and `last` is the newest element. -/
structure Represents (s : QueueHeap Q P) (F : Fifos Q P) : Prop where
  chain : ∀ q, Chain s.next (s.queue q).first (F q)
  last_eq : ∀ q, (s.queue q).last = (F q).getLast?
  nodup : ∀ q, (F q).Nodup
  apart : ∀ q q' x, x ∈ F q → x ∈ F q' → q = q'

namespace Represents

theorem new (next : P → Option P) : (QueueHeap.new next : QueueHeap Q P).Represents fun _ => [] where
  chain _ := rfl
  last_eq _ := rfl
  nodup _ := List.nodup_nil
  apart _ _ _ hx := absurd hx List.not_mem_nil

variable [DecidableEq Q]

/-- A queue gets new contents, and the elements of the others keep their links. -/
theorem replace (h : s.Represents F) {q : Q} {next : P → Option P} {v : Queue P} {xs : List P}
    (hchain : Chain next v.first xs) (hlast : v.last = xs.getLast?) (hnodup : xs.Nodup)
    (hlinks : ∀ q', q' ≠ q → ∀ x ∈ F q', next x = s.next x) (hapart : ∀ q', q' ≠ q → ∀ x ∈ F q', x ∉ xs) :
    (QueueHeap.mk next (Function.update s.queue q v)).Represents (Function.update F q xs) := by
  constructor
  case chain =>
    intro q'
    show Chain next (Function.update s.queue q v q').first _
    by_cases hq : q' = q
    · rw [hq, Function.update_self, Function.update_self]
      exact hchain
    · rw [Function.update_of_ne hq, Function.update_of_ne hq]
      exact (h.chain q').congr (hlinks q' hq)
  case last_eq =>
    intro q'
    show (Function.update s.queue q v q').last = _
    by_cases hq : q' = q
    · rw [hq, Function.update_self, Function.update_self]
      exact hlast
    · rw [Function.update_of_ne hq, Function.update_of_ne hq]
      exact h.last_eq q'
  case nodup =>
    intro q'
    by_cases hq : q' = q
    · rw [hq, Function.update_self]
      exact hnodup
    · rw [Function.update_of_ne hq]
      exact h.nodup q'
  case apart =>
    intro q₁ q₂ x h₁ h₂
    by_cases hq₁ : q₁ = q
    · by_cases hq₂ : q₂ = q
      · rw [hq₁, hq₂]
      · rw [hq₁, Function.update_self] at h₁
        rw [Function.update_of_ne hq₂] at h₂
        exact absurd h₁ (hapart q₂ hq₂ x h₂)
    · rw [Function.update_of_ne hq₁] at h₁
      by_cases hq₂ : q₂ = q
      · rw [hq₂, Function.update_self] at h₂
        exact absurd h₂ (hapart q₁ hq₁ x h₁)
      · rw [Function.update_of_ne hq₂] at h₂
        exact h.apart q₁ q₂ x h₁ h₂

/-- What a call does: it returns what it should, and leaves the other queues and their elements alone. -/
structure Does (s : QueueHeap Q P) (F : Fifos Q P) (c : QueueCall Q P) (ret : Option P) (s' : QueueHeap Q P) :
    Prop where
  represents : s'.Represents (F.call c)
  returns : F.Returns s'.next ret c
  others : ∀ q, q ≠ c.on → s'.queue q = s.queue q ∧ ∀ x ∈ F q, s'.next x = s.next x

theorem remove (h : s.Represents F) (q : Q) : Does s F (.remove q) (s.remove q).1 (s.remove q).2 := by
  cases hfirst : (s.queue q).first with
  | none =>
    have hempty : F q = [] := List.head?_eq_none_iff.mp ((h.chain q).head_eq.symm.trans hfirst)
    have hremove : s.remove q = (none, s) := by
      simp only [QueueHeap.remove, hfirst]
    have hsame : F.call (.remove q) = F := by
      show Function.update F q (F q).tail = F
      rw [hempty, List.tail_nil, ← hempty, Function.update_eq_self]
    rw [hremove]
    refine ⟨?_, ?_, fun q' _ => ⟨rfl, fun _ _ => rfl⟩⟩
    · rw [hsame]
      exact h
    · show none = (F q).head?
      rw [hempty]
      rfl
  | some it =>
    obtain ⟨ys, hys, hrest⟩ := (hfirst ▸ h.chain q).tail
    have hremove : s.remove q =
        (some it, s.setQueue q ⟨s.next it, if s.next it = none then none else (s.queue q).last⟩) := by
      simp only [QueueHeap.remove, hfirst]
    have hnodup := h.nodup q
    rw [hys, List.nodup_cons] at hnodup
    rw [hremove]
    refine ⟨?_, ?_, fun q' hq => ⟨Function.update_of_ne hq .., fun _ _ => rfl⟩⟩
    · show QueueHeap.Represents _ (Function.update F q (F q).tail)
      rw [hys, List.tail_cons]
      refine h.replace hrest ?_ hnodup.2 (fun _ _ _ _ => rfl) ?_
      · have hlast := h.last_eq q
        rw [hys] at hlast
        dsimp only
        cases ys with
        | nil =>
          rw [if_pos (show s.next it = none from hrest)]
          rfl
        | cons y ys =>
          rw [if_neg (by rw [hrest.1]; exact Option.some_ne_none y), hlast, List.getLast?_cons_cons]
      · intro q' hq x hx hmem
        exact hq (h.apart q' q x hx (by rw [hys]; exact List.mem_cons_of_mem it hmem))
    · show some it = (F q).head?
      rw [hys]
      rfl

theorem removeAll (h : s.Represents F) (q : Q) : Does s F (.removeAll q) (s.removeAll q).1 (s.removeAll q).2 where
  represents := h.replace rfl rfl List.nodup_nil (fun _ _ _ _ => rfl) fun _ _ _ _ => List.not_mem_nil
  returns := h.chain q
  others _ hq := ⟨Function.update_of_ne hq .., fun _ _ => rfl⟩

variable [DecidableEq P]

theorem add (h : s.Represents F) {q : Q} {t : P} (ht : ∀ q, t ∉ F q) :
    ∃ s', s.add q t = .ok s' ∧ Does s F (.add q t) none s' := by
  have hother (q' : Q) (hq : q' ≠ q) (x : P) (hx : x ∈ F q') (p : Option P) : Function.update s.next t p x = s.next x := by
    refine Function.update_of_ne ?_ ..
    rintro rfl
    exact ht q' hx
  have happend : ∀ q', q' ≠ q → ∀ x ∈ F q', x ∉ F q ++ [t] := by
    intro q' hq x hx hmem
    rcases List.mem_append.mp hmem with hmem | hmem
    · exact hq (h.apart q' q x hx hmem)
    · exact ht q' (List.mem_singleton.mp hmem ▸ hx)
  have hnodup : (F q ++ [t]).Nodup := by
    rw [List.nodup_append]
    refine ⟨h.nodup q, List.nodup_singleton t, ?_⟩
    rintro x hx y hy rfl
    exact ht q (List.mem_singleton.mp hy ▸ hx)
  cases hfirst : (s.queue q).first with
  | none =>
    have hempty : F q = [] := List.head?_eq_none_iff.mp ((h.chain q).head_eq.symm.trans hfirst)
    have hadd : s.add q t = .ok ((s.setNext t none).setQueue q ⟨some t, some t⟩) := by
      simp only [QueueHeap.add, QueueHeap.setNext, hfirst]
    refine ⟨_, hadd, ?_, rfl, ?_⟩
    · refine h.replace ?_ ?_ hnodup (fun q' hq x hx => hother q' hq x hx none) happend
      · rw [hempty]
        exact ⟨rfl, Function.update_self ..⟩
      · rw [hempty]
        rfl
    · exact fun q' hq => ⟨Function.update_of_ne hq .., fun x hx => hother q' hq x hx none⟩
  | some first =>
    obtain ⟨ys, hys, -⟩ := (hfirst ▸ h.chain q).tail
    have hne : F q ≠ [] := by
      rw [hys]
      exact List.cons_ne_nil first ys
    obtain ⟨last, hlast⟩ : ∃ last, (F q).getLast? = some last := ⟨_, List.getLast?_eq_some_getLast hne⟩
    have hmem : last ∈ F q := List.mem_of_getLast? hlast
    have hadd : s.add q t = .ok (((s.setNext t none).setNext last (some t)).setQueue q ⟨some first, some t⟩) := by
      simp only [QueueHeap.add, QueueHeap.setNext, hfirst, h.last_eq q, hlast]
    have hlinks : ∀ q', q' ≠ q → ∀ x ∈ F q',
        Function.update (Function.update s.next t none) last (some t) x = s.next x := by
      intro q' hq x hx
      have hxlast : x ≠ last := by
        rintro rfl
        exact hq (h.apart q' q x hx hmem)
      rw [Function.update_of_ne hxlast]
      exact hother q' hq x hx none
    refine ⟨_, hadd, ?_, rfl, ?_⟩
    · refine h.replace ?_ List.getLast?_concat.symm hnodup hlinks happend
      rw [← hfirst]
      exact (h.chain q).snoc hlast (h.nodup q) (ht q)
    · exact fun q' hq => ⟨Function.update_of_ne hq .., hlinks q' hq⟩

/-- The first element is taken out, and added again behind the others. -/
theorem remove_add (h : s.Represents F) {q : Q} {x : P} {xs : List P} (hx : F q = x :: xs) : ∃ t s',
    s.remove q = (some x, t) ∧ t.add q x = .ok s' ∧ s'.Represents (Function.update F q (xs ++ [x])) := by
  have hdoes := h.remove q
  have hret : (s.remove q).1 = some x := by
    rw [show (s.remove q).1 = (F q).head? from hdoes.returns, hx]
    rfl
  have hrest : (F.call (.remove q)) q = xs := by
    show Function.update F q (F q).tail q = xs
    rw [Function.update_self, hx, List.tail_cons]
  have hnodup := h.nodup q
  rw [hx, List.nodup_cons] at hnodup
  have hout : ∀ q', x ∉ (F.call (.remove q)) q' := by
    intro q' hmem
    by_cases hq : q' = q
    · rw [hq, hrest] at hmem
      exact hnodup.1 hmem
    · have hsame : (F.call (.remove q)) q' = F q' := Function.update_of_ne hq ..
      rw [hsame] at hmem
      exact hq (h.apart q' q x hmem (by rw [hx]; exact List.mem_cons_self))
  obtain ⟨s', hadd, hdoes'⟩ := hdoes.represents.add hout
  have hfinal : (F.call (.remove q)).call (.add q x) = Function.update F q (xs ++ [x]) := by
    show Function.update (F.call (.remove q)) q ((F.call (.remove q)) q ++ [x]) = _
    rw [hrest]
    exact Function.update_idem ..
  refine ⟨_, s', Prod.ext hret rfl, hadd, ?_⟩
  rw [← hfinal]
  exact hdoes'.represents

/-- Every call that is allowed returns. -/
theorem call (h : s.Represents F) {c : QueueCall Q P} (hc : F.Allows c) :
    ∃ ret s', s.call c = .ok (ret, s') ∧ Does s F c ret s' := by
  cases c with
  | add q t =>
    obtain ⟨s', hadd, hdoes⟩ := h.add hc
    refine ⟨none, s', ?_, hdoes⟩
    rw [QueueHeap.call, hadd]
    rfl
  | remove q => exact ⟨_, _, rfl, h.remove q⟩
  | removeAll q => exact ⟨_, _, rfl, h.removeAll q⟩

theorem run (h : s.Represents F) {cs : List (QueueCall Q P)} (hcs : F.AllowsAll cs) :
    ∃ s', s.run cs = .ok s' ∧ s'.Represents (F.run cs) := by
  induction cs generalizing s F with
  | nil => exact ⟨s, rfl, h⟩
  | cons c cs ih =>
    obtain ⟨ret, t, hcall, hdoes⟩ := h.call hcs.1
    obtain ⟨s', hrun, hrep⟩ := ih hdoes.represents hcs.2
    refine ⟨s', ?_, hrep⟩
    rw [QueueHeap.run, hcall]
    exact hrun

end Represents

/-- The queues stand for the lists after any calls, and the next call does what it does to the lists. -/
theorem queue_refines [DecidableEq Q] [DecidableEq P] (next : P → Option P) (cs : List (QueueCall Q P))
    (hcs : Fifos.AllowsAll (fun _ => []) cs) : ∃ s : QueueHeap Q P, (QueueHeap.new next).run cs = .ok s ∧
      s.Represents (Fifos.run (fun _ => []) cs) ∧ ∀ c, (Fifos.run (fun _ => []) cs).Allows c →
        ∃ ret s', s.call c = .ok (ret, s') ∧ Represents.Does s (Fifos.run (fun _ => []) cs) c ret s' := by
  obtain ⟨s, hrun, hrep⟩ := (Represents.new next).run hcs
  exact ⟨s, hrun, hrep, fun c hc => hrep.call hc⟩

/-- Two queues: the second element comes out after the first. -/
theorem second_removed : ∃ s : QueueHeap Bool ℕ,
    (QueueHeap.new fun _ => none).run [.add false 1, .add true 2, .add false 3, .remove false] = .ok s ∧
      (s.remove false).1 = some 3 := by
  obtain ⟨s, hrun, -, hnext⟩ := queue_refines (Q := Bool) (P := ℕ) (fun _ => none)
    [.add false 1, .add true 2, .add false 3, .remove false] (by decide)
  obtain ⟨ret, s', hcall, hdoes⟩ := hnext (.remove false) trivial
  have hret : (s.remove false).1 = ret := congrArg Prod.fst (Except.ok.inj hcall)
  exact ⟨s, hrun, hret.trans hdoes.returns⟩

end QueueHeap
end AudioKernel
