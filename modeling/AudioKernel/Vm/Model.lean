import AudioKernel.Lib.ForLoop
import AudioKernel.Lib.Machine
import AudioKernel.Sys.Model

/-! The frames of `physmem.cc`, the two-level page tables of `vmm.cc`, and the address spaces of the processes. -/
namespace AudioKernel
open Lib

/-- The configuration, with the pages of the interrupt controllers in private space. -/
structure VmConfig extends Config where
  memSize : ℕ
  memSize_le : memSize ≤ 0x80000000
  localAPIC_page : localAPIC % 4096 = 0
  ioAPIC_page : ioAPIC % 4096 = 0
  localAPIC_private : 0x80000000 ≤ localAPIC
  ioAPIC_private : 0x80000000 ≤ ioAPIC

/-- Physical memory and the pool of its frames. `mem f i` is word `i` of the frame at address `f`. A frame in the list
of free ones holds the address of the next in its first word. -/
structure PhysMem where
  mem : ℕ → ℕ → ℕ
  firstFree : ℕ
  avail : ℕ
  limit : ℕ

namespace PhysMem

def FRAME_SIZE : ℕ := 4096

def offset (pa : ℕ) : ℕ := pa &&& 0xFFF

def framedown (pa : ℕ) : ℕ := pa / FRAME_SIZE * FRAME_SIZE

/-- The bit of an entry that says that it is in use. -/
def present (entry : ℕ) : Bool := entry &&& 1 != 0

def frameOf (entry : ℕ) : ℕ := entry &&& 0xFFFFF000

def pdiOf (va : ℕ) : ℕ := va >>> 22

def ptiOf (va : ℕ) : ℕ := (va >>> 12) &&& 0x3FF

/-- The address of the page with these two indices. -/
def pageAt (pdi pti : ℕ) : ℕ := (pdi <<< 22) ||| (pti <<< 12)

variable (m : PhysMem)

def store (f i v : ℕ) : PhysMem := { m with mem := Function.update m.mem f (Function.update (m.mem f) i v) }

def fill (f : ℕ) (words : ℕ → ℕ) : PhysMem := { m with mem := Function.update m.mem f words }

/-- What the processor makes of a virtual address: the frame that it is mapped to. -/
def lookup (pd va : ℕ) : Option ℕ :=
  let pde := m.mem pd (pdiOf va)
  if present pde then
    let pte := m.mem (frameOf pde) (ptiOf va)
    if present pte then some (frameOf pte) else none
  else none

/-- `limit` is a `uint32_t`. -/
def init (mem : ℕ → ℕ → ℕ) (start size : ℕ) : Option PhysMem :=
  if offset start = 0 ∧ offset size = 0 then
    some { mem, firstFree := 0, avail := start, limit := (start + size) % 2 ^ 32 }
  else none

/-- The frame that `alloc_frame` takes is cleared. -/
def take (p : ℕ) : Option (ℕ × PhysMem) := if offset p = 0 then some (p, m.fill p fun _ => 0) else none

/-- `none` is the panic when there are no more frames, or a failed assertion. -/
def allocFrame : Option (ℕ × PhysMem) :=
  if m.firstFree ≠ 0 then { m with firstFree := m.mem m.firstFree 0 }.take m.firstFree
  else if m.avail = m.limit then none
  else { m with avail := m.avail + FRAME_SIZE }.take m.avail

def deallocFrame (p : ℕ) : Option PhysMem :=
  if offset p = 0 then some { m.store p 0 m.firstFree with firstFree := p } else none

/-- The page table for a directory entry, allocated if there is none. -/
def tableFor (pd pdi : ℕ) : Option (ℕ × PhysMem) :=
  let pde := m.mem pd pdi
  if present pde then some (pde, m)
  else m.allocFrame.map fun r => (r.1 ||| 7, r.2.store pd pdi (r.1 ||| 7))

def map (pd va pa : ℕ) : Option PhysMem :=
  (m.tableFor pd (pdiOf va)).map fun r => r.2.store (frameOf r.1) (ptiOf va) (pa ||| 7)

def unmap (pd va : ℕ) : Option PhysMem :=
  let pde := m.mem pd (pdiOf va)
  if present pde then
    let pte := m.mem (frameOf pde) (ptiOf va)
    if present pte then (m.store (frameOf pde) (ptiOf va) 0).deallocFrame (frameOf pte) else some m
  else some m

end PhysMem

namespace VmConfig

variable (cfg : VmConfig)

/-- How many entries of the kernel's directory every directory begins with. -/
def sharedEntries : ℕ := (cfg.memSize + 0x400000 - 1) / 0x400000

/-- The first directory entry that `fork` looks at. -/
def treeStart : ℕ := cfg.memSize / 4096 / 1024 + 1

/-- A page of one of the two interrupt controllers. -/
def Apic (va : ℕ) : Prop := va = cfg.ioAPIC ∨ va = cfg.localAPIC

instance (va : ℕ) : Decidable (cfg.Apic va) := inferInstanceAs (Decidable (_ ∨ _))

/-- A page in private space that is not one of these two. -/
def Private (va : ℕ) : Prop := 0x80000000 ≤ va ∧ va < 2 ^ 32 ∧ va % 4096 = 0 ∧ ¬ cfg.Apic va

instance (va : ℕ) : Decidable (cfg.Private va) := inferInstanceAs (Decidable (_ ∧ _ ∧ _ ∧ _))

end VmConfig

namespace PhysMem

variable (cfg : VmConfig) (m : PhysMem)

def makePd (shared : ℕ) : Option (ℕ × PhysMem) := do
  let (pd, m) ← m.allocFrame
  let m := m.fill pd fun i => if i < cfg.sharedEntries then m.mem shared i else m.mem pd i
  let m ← m.map pd cfg.ioAPIC cfg.ioAPIC
  let m ← m.map pd cfg.localAPIC cfg.localAPIC
  return (pd, m)

def deleteEntry (pd i : ℕ) (m : PhysMem) : Option PhysMem :=
  let pde := m.mem pd i
  if present pde then m.deallocFrame (frameOf pde) else some m

def deletePd (pd : ℕ) : Option PhysMem := (forLoop (deleteEntry pd) 512 512 m).bind fun m => m.deallocFrame pd

def copyPage (child pdi parentPt pti : ℕ) (m : PhysMem) : Option PhysMem :=
  let parentFrame := m.mem parentPt pti
  let va := pageAt pdi pti
  if va = cfg.ioAPIC then m.map child cfg.ioAPIC (cfg.ioAPIC ||| 7)
  else if va = cfg.localAPIC then m.map child cfg.localAPIC (cfg.localAPIC ||| 7)
  else if present parentFrame then do
    let (f, m) ← m.allocFrame
    let childFrame := f ||| 7
    (m.fill (frameOf childFrame) (m.mem (frameOf parentFrame))).map child va childFrame
  else some m

def copyTable (parent child pdi : ℕ) (m : PhysMem) : Option PhysMem :=
  let parentPde := m.mem parent pdi
  if present parentPde then forLoop (copyPage cfg child pdi (frameOf parentPde)) 0 1024 m else some m

def copyPages (parent child : ℕ) : Option PhysMem :=
  forLoop (copyTable cfg parent child) cfg.treeStart (1024 - cfg.treeStart) m

end PhysMem

/-- The frames, the kernel's page directory, and the page directories of the processes that have not been reaped.
Processes `0 .. spaces - 1` have been created. -/
structure Vm where
  phys : PhysMem
  shared : ℕ
  pd : ℕ → Option ℕ
  spaces : ℕ

inductive VmAct
  /-- a `TCB` is constructed -/
  | create
  | pageFault (p va : ℕ)
  /-- `map` with a frame that has just been allocated -/
  | mapFrame (p va : ℕ)
  | unmap (p va : ℕ)
  | fork (p : ℕ)
  /-- a store of the process to word `i` of a private page -/
  | store (p va i v : ℕ)
  /-- the `TCB` is deleted -/
  | reap (p : ℕ)

namespace Vm

variable (cfg : VmConfig) (s : Vm)

/-- The frame of a page in the address space of a process. -/
def lookup (p va : ℕ) : Option ℕ := (s.pd p).bind fun d => s.phys.lookup d va

def view (p va i : ℕ) : Option ℕ := (s.lookup p va).map fun f => s.phys.mem f i

def setPhys (m : PhysMem) : Vm := { s with phys := m }

def create : Option Vm :=
  (s.phys.makePd cfg s.shared).map fun r =>
    { s with phys := r.2, pd := Function.update s.pd s.spaces (some r.1), spaces := s.spaces + 1 }

def mapFrame (d va : ℕ) : Option Vm := do
  let (f, m) ← s.phys.allocFrame
  let m ← m.map d va f
  return s.setPhys m

/-- A fault below private space is a panic. -/
def pageFault (d va : ℕ) : Option Vm :=
  let va := PhysMem.framedown va
  if 0x80000000 ≤ va then s.mapFrame d va else none

/-- The child's address space, and the copy of the parent's pages. -/
def fork (d : ℕ) : Option Vm := do
  let t ← s.create cfg
  let child ← t.pd s.spaces
  let m ← t.phys.copyPages cfg d child
  return t.setPhys m

/-- What an action does; `none` where it cannot happen, or ends in a panic. -/
def step : VmAct → Option Vm
  | .create => s.create cfg
  | .pageFault p va => do
    let d ← s.pd p
    if va < 2 ^ 32 ∧ s.lookup p (PhysMem.framedown va) = none then s.pageFault d va else none
  | .mapFrame p va => do
    let d ← s.pd p
    if cfg.Private va then s.mapFrame d va else none
  | .unmap p va => do
    let d ← s.pd p
    if cfg.Private va then (s.phys.unmap d va).map s.setPhys else none
  | .fork p => do
    let d ← s.pd p
    s.fork cfg d
  | .store p va i v =>
    if cfg.Private va ∧ i < 1024 then (s.lookup p va).map fun f => s.setPhys (s.phys.store f i v) else none
  | .reap p => do
    let d ← s.pd p
    (s.phys.deletePd d).map fun m => { s with phys := m, pd := Function.update s.pd p none }

end Vm

def VMM_FRAMES : ℕ := 6 * 1024 * 1024

/-- The kernel has booted: what lies below `avail` is its directory and its page tables,
which map nothing in private space, and no process has a page. -/
structure Vm.Booted (cfg : VmConfig) (s : Vm) : Prop where
  firstFree : s.phys.firstFree = 0
  avail : VMM_FRAMES ≤ s.phys.avail ∧ s.phys.avail ≤ s.phys.limit ∧ s.phys.avail % 4096 = 0
  limit : s.phys.limit ≤ cfg.memSize ∧ s.phys.limit % 4096 = 0
  shared : VMM_FRAMES ≤ s.shared ∧ s.shared < s.phys.avail ∧ s.shared % 4096 = 0
  entries : ∀ i, 512 ≤ i → s.phys.mem s.shared i = 0
  none : ∀ p, s.pd p = none
  spaces : s.spaces = 0

/-- Address spaces come and go, and their processes fault, map, unmap, store and fork, in any order. -/
def vmMachine (cfg : VmConfig) : Machine Vm VmAct where
  init := Vm.Booted cfg
  enabled s a := (s.step cfg a).isSome = true
  next s a := (s.step cfg a).getD s

instance (cfg : VmConfig) (s : Vm) (a : VmAct) : Decidable ((vmMachine cfg).enabled s a) :=
  inferInstanceAs (Decidable (_ = true))

end AudioKernel
