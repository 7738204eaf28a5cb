import AudioKernel.Lib.Machine
import Mathlib.Algebra.Group.Nat.Defs

/-! `Shared<T>` of `shared.h`, step by step: handles and the objects whose references they count. -/
namespace AudioKernel
open Lib

/-- Where a handle is: the words of a 32-bit address space. -/
abbrev HandlePtr := Fin (2 ^ 30)

variable {H : Type}

/-- What is assigned to `ptr` with an `add` after it: a raw pointer, or the pointer that was read from another handle. -/
inductive Assign (H : Type)
  | raw (it : Option ℕ)
  | copy (rhs : H) (other_ptr : Option ℕ)
  deriving DecidableEq

/-- What comes after `drop`. -/
inductive AfterDrop (H : Type)
  | destroy
  | assign (a : Assign H)
  | move (rhs : H)
  deriving DecidableEq

/-- Where a handle is in an operation on it: not constructed, at rest, used as the right-hand side of another handle, or
before the named step. -/
inductive HandlePc (H : Type)
  | dead
  | idle
  | lent
  | test (a : Assign H)
  | dropDec (k : AfterDrop H)
  | dropDelete (k : AfterDrop H)
  | dropNull (k : AfterDrop H)
  | store (a : Assign H)
  | add (a : Assign H)
  | moveStore (rhs : H)
  | moveNull (rhs : H)
  deriving DecidableEq

namespace Assign

def value : Assign H → Option ℕ
  | raw it => it
  | copy _ other_ptr => other_ptr

def rhs? : Assign H → Option H
  | raw _ => none
  | copy rhs _ => some rhs

/-- The new object that has no handle yet. -/
def brings? : Assign H → Option ℕ
  | raw it => it
  | copy _ _ => none

end Assign

namespace AfterDrop

def rhs? : AfterDrop H → Option H
  | destroy => none
  | assign a => a.rhs?
  | move rhs => some rhs

def brings? : AfterDrop H → Option ℕ
  | assign a => a.brings?
  | destroy | move _ => none

def pc : AfterDrop H → HandlePc H
  | destroy => .dead
  | assign a => .store a
  | move rhs => .moveStore rhs

end AfterDrop

structure Handle (H : Type) where
  ptr : Option ℕ
  pc : HandlePc H

/-- The handles and the objects. An object is created with count 0, under a number that none has had before; how often
each has been deleted is recorded. -/
structure SharedState (H : Type) where
  handles : H → Handle H
  ref_count : ℕ → ℕ
  live : ℕ → Bool
  fresh : ℕ
  deletes : ℕ → ℕ

/-- An operation begins, or the one on the handle takes its next step. A raw pointer is that of a `new` object, or null. -/
inductive SharedAct (H : Type)
  | construct (h : H)
  | constructRaw (h : H) (new : Bool)
  | constructCopy (h rhs : H)
  | constructMove (h rhs : H)
  | destroy (h : H)
  | assignRaw (h : H) (new : Bool)
  | assignCopy (h rhs : H)
  | assignMove (h rhs : H)
  | step (h : H)

namespace SharedState

variable [DecidableEq H] (s : SharedState H)

def set (h : H) (c : Handle H) : SharedState H := { s with handles := Function.update s.handles h c }

def setPc (h : H) (pc : HandlePc H) : SharedState H := s.set h ⟨(s.handles h).ptr, pc⟩

/-- `new T`, or no object. -/
def create (new : Bool) : SharedState H :=
  if new then
    { s with
      ref_count := Function.update s.ref_count s.fresh 0
      live := Function.update s.live s.fresh true
      fresh := s.fresh + 1 }
  else s

def created (new : Bool) : Option ℕ := if new then some s.fresh else none

/-- The right-hand side of the assignment is at rest again. -/
def giveBack : Assign H → SharedState H
  | .raw _ => s
  | .copy rhs _ => s.setPc rhs .idle

def stepHandle (h : H) : SharedState H :=
  match (s.handles h).pc with
  | .dead | .idle | .lent => s
  | .test a =>
    if (s.handles h).ptr ≠ a.value then s.setPc h (.dropDec (.assign a)) else (s.giveBack a).setPc h .idle
  | .dropDec k =>
    match (s.handles h).ptr with
    | none => s.setPc h k.pc
    | some x =>
      let new_count := (s.ref_count x + 2 ^ 32 - 1) % 2 ^ 32
      { s.setPc h (if new_count = 0 then .dropDelete k else k.pc) with
        ref_count := Function.update s.ref_count x new_count }
  | .dropDelete k =>
    match (s.handles h).ptr with
    | none => s.setPc h (.dropNull k)
    | some x =>
      { s.setPc h (.dropNull k) with
        live := Function.update s.live x false
        deletes := Function.update s.deletes x (s.deletes x + 1) }
  | .dropNull k => s.set h ⟨none, k.pc⟩
  | .store a => s.set h ⟨a.value, .add a⟩
  | .add a =>
    match (s.handles h).ptr with
    | none => (s.giveBack a).setPc h .idle
    | some x =>
      { (s.giveBack a).setPc h .idle with
        ref_count := Function.update s.ref_count x ((s.ref_count x + 1) % 2 ^ 32) }
  | .moveStore rhs => s.set h ⟨(s.handles rhs).ptr, .moveNull rhs⟩
  | .moveNull rhs => (s.set rhs ⟨none, .idle⟩).set h ⟨if h = rhs then none else (s.handles h).ptr, .idle⟩

def enabled : SharedAct H → Bool
  | .construct h | .constructRaw h _ => ((s.handles h).pc matches .dead)
  | .constructCopy h rhs | .constructMove h rhs =>
    ((s.handles h).pc matches .dead) && ((s.handles rhs).pc matches .idle)
  | .destroy h | .assignRaw h _ => ((s.handles h).pc matches .idle)
  | .assignCopy h rhs | .assignMove h rhs =>
    ((s.handles h).pc matches .idle) && ((s.handles rhs).pc matches .idle)
  | .step h => !((s.handles h).pc matches .dead | .idle | .lent)

def next : SharedAct H → SharedState H
  | .construct h => s.set h ⟨none, .idle⟩
  | .constructRaw h new => (s.create new).setPc h (.store (.raw (s.created new)))
  | .constructCopy h rhs => (s.setPc rhs .lent).setPc h (.store (.copy rhs (s.handles rhs).ptr))
  | .constructMove h rhs => (s.setPc rhs .lent).setPc h (.moveStore rhs)
  | .destroy h => s.setPc h (.dropDec .destroy)
  | .assignRaw h new => (s.create new).setPc h (.test (.raw (s.created new)))
  | .assignCopy h rhs => (s.setPc rhs .lent).setPc h (.test (.copy rhs (s.handles rhs).ptr))
  | .assignMove h rhs => (s.setPc rhs .lent).setPc h (.dropDec (.move rhs))
  | .step h => s.stepHandle h

end SharedState

def SharedState.new : SharedState H where
  handles _ := ⟨none, .dead⟩
  ref_count _ := 0
  live _ := false
  fresh := 0
  deletes _ := 0

def sharedMachine (H : Type) [DecidableEq H] : Machine (SharedState H) (SharedAct H) where
  init s := s = .new
  enabled s a := s.enabled a = true
  next := SharedState.next

instance [DecidableEq H] (s : SharedState H) (a : SharedAct H) : Decidable ((sharedMachine H).enabled s a) :=
  inferInstanceAs (Decidable (_ = true))

end AudioKernel
