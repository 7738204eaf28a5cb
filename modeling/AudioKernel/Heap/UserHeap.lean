import AudioKernel.Heap.WellFormed
import AudioKernel.Lib.WordBytes

/-! The heap of the user programs in `sbin/heap.c`: the primitives are those of the kernel heap, but `malloc` takes the
first block that fits, and nothing ever panics. -/
namespace AudioKernel
open Lib Lib.Layout

namespace UserHeap
open Heap (size headerFromFooter footerFromHeader setNext setPrev makeAvail makeTaken isAvail isTaken store intsFor
  addressOf)

def INTS : ℕ := 0x100000

def safe : Bool := true

/-- The checks are made, but the panics are commented out. -/
def sanity (h : Heap) (i : ℤ) : ℤ :=
  if safe then
    if i = 0 then 0
    else if i < 0 ∨ i ≥ h.len then i
    else if footerFromHeader h i < 0 ∨ footerFromHeader h i ≥ h.len then i
    else if h.array i ≠ h.array (footerFromHeader h i) then i
    else i
  else i

def left (h : Heap) (i : ℤ) : ℤ := sanity h (headerFromFooter h (i - 1))

def right (h : Heap) (i : ℤ) : ℤ := sanity h (i + size h i)

def next1 (h : Heap) (i : ℤ) : ℤ := sanity h (h.array (i + 1))

def prev1 (h : Heap) (i : ℤ) : ℤ := sanity h (h.array (i + 2))

def remove (h : Heap) (i : ℤ) : Heap :=
  let prevIndex := prev1 h i
  let nextIndex := next1 h i
  let h := if prevIndex = 0 then { h with avail := nextIndex } else setNext h prevIndex nextIndex
  if nextIndex ≠ 0 then setPrev h nextIndex prevIndex else h

/-- `array` is a static variable at the address `base`. -/
def heapInit (base : ℕ) : Heap :=
  let h : Heap := { array := fun _ => 0, base := base, len := INTS, avail := 0 }
  let h := makeTaken h 0 2
  let h := makeAvail h 2 (h.len - 4)
  makeTaken h (h.len - 2) 2

/-- The loop of `malloc`. A walk longer than the fuel has met a node twice and never ends. -/
def search (h : Heap) (ints : ℤ) : ℕ → ℤ → Except Stop (ℕ × Heap)
  | 0, _ => .error .diverge
  | fuel + 1, p =>
    if p = 0 then .ok (0, h)
    else
      let sz := size h p
      if sz ≥ ints then
        let h := remove h p
        let extra := sz - ints
        let h := if extra ≥ 4 then makeAvail (makeTaken h p ints) (p + ints) extra else makeTaken h p sz
        .ok (addressOf h (p + 1), h)
      else search h ints fuel (next1 h p)

def malloc (h : Heap) (bytes : ℕ) : Except Stop (ℕ × Heap) :=
  if bytes = 0 then .ok (h.base, h) else search h (intsFor bytes) (h.len.toNat + 1) (sanity h h.avail)

/-- The index of the header of the block that `p` points into, in signed 32-bit arithmetic. -/
def indexOf (h : Heap) (p : ℕ) : ℤ := (Int.bmod ((p : ℤ) - h.base) (2 ^ 32)).tdiv 4 - 1

def free (h : Heap) (p : ℕ) : Heap :=
  if p = 0 then h
  else if p = h.base then h
  else
    let idx := indexOf h p
    if isTaken h idx = false then h
    else
      let sz := size h idx
      let leftIndex := left h idx
      let rightIndex := right h idx
      let (h, idx, sz) :=
        if isAvail h leftIndex then
          let h := remove h leftIndex
          (h, leftIndex, sz + size h leftIndex)
        else (h, idx, sz)
      let (h, sz) :=
        if isAvail h rightIndex then
          let h := remove h rightIndex
          (h, sz + size h rightIndex)
        else (h, sz)
      makeAvail h idx sz

def loadByte (h : Heap) (a : ℕ) : UInt8 := byteOf (h.array (((a : ℤ) - h.base) / 4)) (((a : ℤ) - h.base) % 4).toNat

def storeByte (h : Heap) (a : ℕ) (v : UInt8) : Heap :=
  store h (((a : ℤ) - h.base) / 4) (setByte (h.array (((a : ℤ) - h.base) / 4)) (((a : ℤ) - h.base) % 4).toNat v)

def copyBytes (h : Heap) (dest src : ℕ) : ℕ → Heap
  | 0 => h
  | n + 1 =>
    let h := copyBytes h dest src n
    storeByte h (dest + n) (loadByte h (src + n))

/-- The `memcpy` of `machine.S` counts down in a signed register. -/
def memcpy (h : Heap) (dest src n : ℕ) : Heap := if n < 2 ^ 31 then copyBytes h dest src n else h

def realloc (h : Heap) (p newSize : ℕ) : Except Stop (ℕ × Heap) :=
  if p = 0 then malloc h newSize
  else if newSize = 0 then .ok (0, free h p)
  else
    let idx := indexOf h p
    if isTaken h idx = false then .ok (0, h)
    else do
      let sz := size h idx * 4
      let (newPtr, h) ← malloc h newSize
      let h :=
        if newPtr ≠ 0 then
          let m := if newSize > sz then sz else newSize
          memcpy h newPtr p m.toNat
        else h
      return (newPtr, free h p)

/-! The primitives are those of the kernel heap. -/

@[simp] theorem sanity_eq (h : Heap) (i : ℤ) : sanity h i = i := by
  unfold sanity
  split_ifs with hsafe h0
  · exact h0.symm
  all_goals rfl

theorem remove_eq (h : Heap) (i : ℤ) : Heap.remove h i = .ok (remove h i) := by
  simp only [remove, prev1, next1, sanity_eq]
  rfl

theorem heapInit_eq (base : ℕ) : heapInit base = Heap.heapSetup (fun _ => 0) base (4 * INTS) := rfl

/-- The array is smaller than half of the address space, so that the signed difference is the unsigned one. -/
theorem indexOf_eq {h : Heap} {p : ℕ} (hlo : h.base ≤ p) (hhi : p < h.base + 2 ^ 31) : indexOf h p = Heap.indexOf h p := by
  unfold indexOf Heap.indexOf
  obtain ⟨d, rfl⟩ := Nat.exists_eq_add_of_le hlo
  have hdiff : ((h.base + d : ℕ) : ℤ) - h.base = d := by omega
  have hbmod : Int.bmod (d : ℤ) (2 ^ 32) = d := by
    rw [Int.bmod_eq_of_le]
    · omega
    · omega
  rw [hdiff, hbmod, Int.tdiv_eq_ediv_of_nonneg (by omega), Int.emod_eq_of_lt (by omega) (by omega)]

/-- On a taken block, `free` does what the `free` of the kernel does. -/
theorem free_eq {h : Heap} {p : ℕ} (hidx : indexOf h p = Heap.indexOf h p) (htaken : isTaken h (indexOf h p) = true) :
    Heap.free h p = .ok (free h p) := by
  unfold Heap.free free
  split_ifs with h0 hbase
  · rfl
  · rfl
  · simp only [← hidx, htaken, Bool.true_eq_false, if_false, Heap.sanity_eq, bind, Except.bind, Heap.left_eq, Heap.right_eq,
      remove_eq, left, right, sanity_eq, headerFromFooter, size]
    by_cases hl : isAvail h (indexOf h p - 1 - |h.array (indexOf h p - 1)| + 1) = true
    · simp only [if_pos hl, pure, Except.pure]
      split_ifs
      · rfl
      · rfl
    · simp only [if_neg hl, pure, Except.pure]
      split_ifs
      · rfl
      · rfl

end UserHeap
end AudioKernel
