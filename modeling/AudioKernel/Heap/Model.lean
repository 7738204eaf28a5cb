import AudioKernel.Debug
import Mathlib.Algebra.Group.Int.Defs
import Mathlib.Algebra.Group.Nat.Defs
import Mathlib.Algebra.Order.Group.Unbundled.Abs
import Mathlib.Algebra.Order.Group.Unbundled.Int
import Mathlib.Logic.Function.Basic

/-! The kernel heap of `heap.cc`: an array of `int`s, cut into blocks by boundary tags, with a list of
the available blocks linked through their second and third word. -/
namespace AudioKernel

/-- The static variables of the heap. `base` is the address in `array`, and the words are `int`s. -/
structure Heap where
  array : ℤ → ℤ
  base : ℕ
  len : ℤ
  avail : ℤ

namespace Heap

/-- `static int safe = 0`, never assigned: the checks of `sanity` are off. -/
def safe : Bool := false

def size (h : Heap) (i : ℤ) : ℤ := |h.array i|

def headerFromFooter (h : Heap) (i : ℤ) : ℤ := i - size h i + 1

def footerFromHeader (h : Heap) (i : ℤ) : ℤ := i + size h i - 1

/-- Every check panics or returns the index it was given. -/
def sanity (h : Heap) (i : ℤ) : Except Stop ℤ :=
  if safe then
    if i = 0 then .ok 0
    else if i < 0 ∨ i ≥ h.len then .error (.panic "bad header index")
    else if footerFromHeader h i < 0 ∨ footerFromHeader h i ≥ h.len then .error (.panic "bad footer index")
    else if h.array i ≠ h.array (footerFromHeader h i) then .error (.panic "bad block")
    else .ok i
  else .ok i

def left (h : Heap) (i : ℤ) : Except Stop ℤ := sanity h (headerFromFooter h (i - 1))

def right (h : Heap) (i : ℤ) : Except Stop ℤ := sanity h (i + size h i)

def next (h : Heap) (i : ℤ) : Except Stop ℤ := sanity h (h.array (i + 1))

def prev (h : Heap) (i : ℤ) : Except Stop ℤ := sanity h (h.array (i + 2))

def store (h : Heap) (i x : ℤ) : Heap := { h with array := Function.update h.array i x }

def setNext (h : Heap) (i x : ℤ) : Heap := store h (i + 1) x

def setPrev (h : Heap) (i x : ℤ) : Heap := store h (i + 2) x

def remove (h : Heap) (i : ℤ) : Except Stop Heap := do
  let prevIndex ← prev h i
  let nextIndex ← next h i
  let h := if prevIndex = 0 then { h with avail := nextIndex } else setNext h prevIndex nextIndex
  return if nextIndex ≠ 0 then setPrev h nextIndex prevIndex else h

def makeAvail (h : Heap) (i ints : ℤ) : Heap :=
  let h := store h i ints
  let h := store h (footerFromHeader h i) ints
  let h := setNext h i h.avail
  let h := setPrev h i 0
  let h := if h.avail ≠ 0 then setPrev h h.avail i else h
  { h with avail := i }

def makeTaken (h : Heap) (i ints : ℤ) : Heap :=
  let h := store h i (-ints)
  store h (footerFromHeader h i) (-ints)

def isAvail (h : Heap) (i : ℤ) : Bool := h.array i > 0

def isTaken (h : Heap) (i : ℤ) : Bool := h.array i < 0

/-- The block size for `bytes`, where `(bytes + 3) / 4` is computed in `size_t`. -/
def intsFor (bytes : ℕ) : ℤ :=
  let ints : ℤ := ((bytes + 3) % 2 ^ 32 / 4 + 2 : ℕ)
  if ints < 4 then 4 else ints

/-- The search of `malloc` for the smallest of the first `countDown` blocks that fit. A walk longer
than the fuel has met a node twice and never ends. -/
def search (h : Heap) (ints : ℤ) : ℕ → ℕ → ℤ → ℤ → ℤ → Except Stop (ℤ × ℤ)
  | 0, _, _, _, _ => .error .diverge
  | fuel + 1, countDown, p, mx, it =>
    if p = 0 then .ok (mx, it)
    else if isAvail h p = false then .error (.panic "block is not available in malloc")
    else if size h p ≥ ints then
      let (mx, it) := if size h p < mx then (size h p, p) else (mx, it)
      if countDown - 1 = 0 then .ok (mx, it)
      else do search h ints fuel (countDown - 1) (← next h p) mx it
    else do search h ints fuel countDown (← next h p) mx it

def addressOf (h : Heap) (i : ℤ) : ℕ := h.base + 4 * i.toNat

/-- `malloc` under its lock. The guard stores to the lock's own words only. -/
def malloc (h : Heap) (bytes : ℕ) : Except Stop (ℕ × Heap) :=
  if bytes = 0 then .ok (h.base, h)
  else do
    let ints := intsFor bytes
    let (mx, it) ← search h ints (h.len.toNat + 1) 20 h.avail 0x7FFFFFFF 0
    if it ≠ 0 then
      let h ← remove h it
      let extra := mx - ints
      let h := if extra ≥ 4 then makeAvail (makeTaken h it ints) (it + ints) extra else makeTaken h it mx
      return (addressOf h (it + 1), h)
    else return (0, h)

/-- The index of the header of the block that `p` points into, in `uintptr_t` arithmetic. -/
def indexOf (h : Heap) (p : ℕ) : ℤ := ((p : ℤ) - h.base) % 2 ^ 32 / 4 - 1

def free (h : Heap) (p : ℕ) : Except Stop Heap :=
  if p = 0 then .ok h
  else if p = h.base then .ok h
  else do
    let idx := indexOf h p
    let _ ← sanity h idx
    if isTaken h idx = false then .error (.panic "freeing free block")
    else
      let sz := size h idx
      let leftIndex ← left h idx
      let rightIndex ← right h idx
      let (h, idx, sz) ← (if isAvail h leftIndex then do
          let h ← remove h leftIndex
          return (h, leftIndex, sz + size h leftIndex)
        else return (h, idx, sz) : Except Stop (Heap × ℤ × ℤ))
      let (h, sz) ← (if isAvail h rightIndex then do
          let h ← remove h rightIndex
          return (h, sz + size h rightIndex)
        else return (h, sz) : Except Stop (Heap × ℤ))
      return makeAvail h idx sz

def operatorNew (h : Heap) (size : ℕ) : Except Stop (ℕ × Heap) := do
  let (p, h) ← malloc h size
  if p = 0 then .error (.panic "out of memory") else return (p, h)

/-- `sizeof(BlockingLock)` with 32-bit pointers: the count (8 bytes), the `ISL` (8), the queue (12) and
the reference count (4). -/
def sizeofBlockingLock : ℕ := 32

/-- The first four statements of `heapInit`; `words` is what the memory held before. -/
def heapSetup (words : ℤ → ℤ) (base bytes : ℕ) : Heap :=
  let h : Heap := { array := words, base := base, len := (bytes / 4 : ℕ), avail := 0 }
  let h := makeTaken h 0 2
  let h := makeAvail h 2 (h.len - 4)
  makeTaken h (h.len - 2) 2

/-- `heapInit` also allocates the lock of the heap from the heap itself. -/
def heapInit (words : ℤ → ℤ) (base bytes : ℕ) : Except Stop (ℕ × Heap) :=
  operatorNew (heapSetup words base bytes) sizeofBlockingLock

end Heap
end AudioKernel
