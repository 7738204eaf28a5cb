import AudioKernel.BlockIO
import AudioKernel.Lib.Machine

/-! The system calls of `sys.cc` on descriptors, semaphores and children: what they return, what they do
to the tables of the processes, and which user memory they read and write. -/
namespace AudioKernel
open Lib

/-- The pages of the two interrupt controllers, from `kConfig`. -/
structure Config where
  localAPIC : ℕ
  ioAPIC : ℕ
  localAPIC_lt : localAPIC < 2 ^ 32
  ioAPIC_lt : ioAPIC < 2 ^ 32

structure FileDescriptor where
  file : Option ℕ
  offset : ℕ
  reserved : Bool
  offset_lt : offset < 2 ^ 32

namespace FileDescriptor

def new (file : Option ℕ) (reserved : Bool) : FileDescriptor := ⟨file, 0, reserved, by decide⟩

/-- `offset` is a `uint32_t`. -/
def setOffset (d : FileDescriptor) (offset : ℕ) : FileDescriptor :=
  ⟨d.file, offset % 2 ^ 32, d.reserved, Nat.mod_lt _ (by decide)⟩

def setReserved (d : FileDescriptor) (reserved : Bool) : FileDescriptor := { d with reserved := reserved }

end FileDescriptor

/-- The handles of a process. A null handle is `none`. -/
structure PCB where
  fd : Fin 10 → Option ℕ
  sp : Fin 10 → Option ℕ
  cp : Fin 10 → Option ℕ
  future : ℕ

/-- The files, the descriptor objects that the handles of all processes share, and the processes
`0 .. processes - 1`. Handles below `fresh` are in use. -/
structure World where
  node : ℕ → BlockIO
  desc : ℕ → FileDescriptor
  pcb : ℕ → PCB
  processes : ℕ
  fresh : ℕ

/-- A system call with the words that it takes from the user stack, and with what it learns elsewhere:
`beyond` is whether the word of `fd[fnum]` outside the PCB is non-null, `rc` what `get` on the future
returns if it ever does, `file` what `fs->find` finds. -/
inductive Syscall
  | write (fnum buffer nbyte : ℕ) (beyond : Bool)
  | fork
  | sem (initial : ℕ)
  | up (id : ℕ)
  | down (id : ℕ)
  | close (num : ℕ)
  | wait (id status : ℕ) (rc : Option ℕ)
  | openFile (filename : ℕ) (file : Option ℕ)
  | len (fnum : ℕ)
  | read (fnum buffer nbyte : ℕ)
  | seek (fnum off : ℕ)

/-- What a call returns in `eax`, the tables after it, and the user bytes it has read and stored. -/
structure Outcome where
  ret : ℕ
  world : World
  loads : List ℕ
  stores : Stores

namespace Outcome

/-- The addresses of the user memory that the call accesses. -/
def accesses (o : Outcome) : List ℕ := o.loads ++ o.stores.map Prod.fst

end Outcome

namespace World

def minusOne : ℕ := 2 ^ 32 - 1

def inWindow (base a : ℕ) : Bool := base ≤ a ∧ a < (base + 4096) % 2 ^ 32

/-- The check of a buffer address in `write`, `wait` and `read`. -/
def badBuffer (cfg : Config) (a : ℕ) : Bool :=
  a < 0x80000000 || inWindow cfg.localAPIC a || inWindow cfg.ioAPIC a

variable (w : World)

def fail : Outcome := ⟨minusOne, w, [], []⟩

def succeed (ret : ℕ) : Outcome := ⟨ret, w, [], []⟩

def setPcb (p : ℕ) (pcb : PCB) : World := { w with pcb := Function.update w.pcb p pcb }

def setDesc (k : ℕ) (d : FileDescriptor) : World := { w with desc := Function.update w.desc k d }

/-- The handle in slot `fnum` of the descriptor table. -/
def fdAt (p fnum : ℕ) : Option ℕ := if h : fnum < 10 then (w.pcb p).fd ⟨fnum, h⟩ else none

def spAt (p i : ℕ) : Option ℕ := if h : i < 10 then (w.pcb p).sp ⟨i, h⟩ else none

def cpAt (p i : ℕ) : Option ℕ := if h : i < 10 then (w.pcb p).cp ⟨i, h⟩ else none

def setFd (p fnum : ℕ) (k : Option ℕ) : World :=
  if h : fnum < 10 then w.setPcb p { w.pcb p with fd := Function.update (w.pcb p).fd ⟨fnum, h⟩ k } else w

def setSp (p i : ℕ) (k : Option ℕ) : World :=
  if h : i < 10 then w.setPcb p { w.pcb p with sp := Function.update (w.pcb p).sp ⟨i, h⟩ k } else w

def setCp (p i : ℕ) (k : Option ℕ) : World :=
  if h : i < 10 then w.setPcb p { w.pcb p with cp := Function.update (w.pcb p).cp ⟨i, h⟩ k } else w

/-- Word `i` of the PCB is non-null: the three tables and the future lie in a row. -/
def wordAt (p i : ℕ) (beyond : Bool) : Bool :=
  if i < 10 then (w.fdAt p i).isSome
  else if i < 20 then (w.spAt p (i - 10)).isSome
  else if i < 30 then (w.cpAt p (i - 20)).isSome
  else if i = 30 then true
  else beyond

/-- `write` does not check that `fnum` is in range. -/
def write (cfg : Config) (p fnum buffer nbyte : ℕ) (beyond : Bool) : Outcome :=
  if w.wordAt p fnum beyond = false then w.fail
  else if fnum < 3 ∧ (w.fdAt p fnum).any (fun k => !(w.desc k).reserved) then w.fail
  else if badBuffer cfg buffer then w.fail
  else ⟨nbyte, w, (List.range nbyte).map fun i => (buffer + i) % 2 ^ 32, []⟩

/-- `PCB()`: three reserved descriptors and the future. -/
def newPCB : PCB × World :=
  let k := w.fresh
  (⟨fun i => if (i : ℕ) < 3 then some (k + i) else none, fun _ => none, fun _ => none, k + 3⟩,
    { w with
      desc := fun d => if k ≤ d ∧ d < k + 3 then .new none true else w.desc d
      fresh := k + 4 })

/-- The scan for a free child slot goes up to `cp[10]`, which is the future and never null. -/
def freeChild (p : ℕ) : Option ℕ := (List.range 11).find? fun i => w.wordAt p (20 + i) true = false

/-- The part of `fork` that concerns the tables. -/
def fork (p : ℕ) : Outcome :=
  match w.freeChild p with
  | none => w.fail
  | some slot =>
    let (child, w₁) := w.newPCB
    let child := { child with fd := (w.pcb p).fd, sp := (w.pcb p).sp }
    let q := w.processes
    let w₂ := { w₁.setPcb q child with processes := q + 1 }
    (w₂.setCp p slot (some child.future)).succeed (slot + 20)

def sem (p : ℕ) : Outcome :=
  match (List.range 10).find? fun i => (w.spAt p i).isNone with
  | none => w.fail
  | some i => ({ w.setSp p i (some w.fresh) with fresh := w.fresh + 1 } : World).succeed (i + 10)

/-- `up` and `down` check the descriptor in the same way; the semaphore is modelled elsewhere. -/
def upDown (p id : ℕ) : Outcome :=
  if id > 19 ∨ id < 10 then w.fail
  else if w.spAt p (id - 10) = none then w.fail
  else w.succeed 0

def closeFd (p num k : ℕ) : World :=
  let d := (w.desc k).setOffset 0
  let d := if num < 3 then d.setReserved false else d
  (w.setDesc k d).setFd p num none

def close (p num : ℕ) : Outcome :=
  if num > 29 then w.fail
  else if num < 10 then
    match w.fdAt p num with
    | none => w.fail
    | some k => (w.closeFd p num k).succeed 0
  else if num < 20 then
    if w.spAt p (num - 10) = none then w.fail else (w.setSp p (num - 10) none).succeed 0
  else
    if w.cpAt p (num - 20) = none then w.fail else (w.setCp p (num - 20) none).succeed 0

def byteOf (word i : ℕ) : UInt8 := UInt8.ofNat (word / 256 ^ i)

/-- `wait` does not check that the slot is bound before it calls `get`. -/
def wait (cfg : Config) (id status : ℕ) (rc : Option ℕ) : Except Stop Outcome :=
  if badBuffer cfg status then .ok w.fail
  else if id < 20 ∨ id > 29 then .ok w.fail
  else match rc with
    | none => .error .diverge
    | some rc => .ok ⟨0, w, [], Stores.consecutive status (byteOf rc) 4⟩

def openFile (p filename : ℕ) (file : Option ℕ) : Outcome :=
  if filename < 0x80000000 then w.fail
  else match file with
    | none => w.fail
    | some f =>
      match (List.range 10).find? fun i => (w.fdAt p i).isNone with
      | none => w.fail
      | some i =>
        ({ (w.setDesc w.fresh (.new (some f) false)).setFd p i (some w.fresh) with fresh := w.fresh + 1 } : World).succeed i

def len (p fnum : ℕ) : Except Stop Outcome :=
  if fnum > 9 then .ok w.fail
  else match w.fdAt p fnum with
    | none => .ok w.fail
    | some k =>
      if (w.desc k).reserved then .ok (w.succeed 0)
      else match (w.desc k).file with
        | none => .error .wild
        | some f => .ok (w.succeed (w.node f).sizeInBytes)

/-- The length that `read` passes on: cut at the end of the file, then at the controllers' pages. -/
def clamp (cfg : Config) (size offset buffer nbyte : ℕ) : ℕ :=
  let n := if (offset + nbyte) % 2 ^ 32 ≥ size then (size + 2 ^ 32 - offset) % 2 ^ 32 else nbyte
  let n := if inWindow cfg.ioAPIC ((buffer + n) % 2 ^ 32) then (cfg.ioAPIC + 2 ^ 32 - buffer) % 2 ^ 32 else n
  if inWindow cfg.localAPIC ((buffer + n) % 2 ^ 32) then (cfg.localAPIC + 2 ^ 32 - buffer) % 2 ^ 32 else n

def read (cfg : Config) (p fnum buffer nbyte : ℕ) : Except Stop Outcome :=
  if fnum > 9 then .ok w.fail
  else match w.fdAt p fnum with
    | none => .ok w.fail
    | some k =>
      let d := w.desc k
      if d.reserved then .ok w.fail
      else if badBuffer cfg buffer then .ok w.fail
      else match d.file with
        | none => .error .wild
        | some f => do
          let n := clamp cfg (w.node f).sizeInBytes d.offset buffer nbyte
          let r ← (w.node f).readAll d.offset n buffer
          let bytesRead := (r.count % 2 ^ 32).toNat
          return ⟨bytesRead, w.setDesc k (d.setOffset (d.offset + bytesRead)), [], r.stores⟩

def seek (p fnum off : ℕ) : Outcome :=
  if fnum > 9 then w.fail
  else match w.fdAt p fnum with
    | none => w.fail
    | some k =>
      if (w.desc k).reserved then w.fail
      else (w.setDesc k ((w.desc k).setOffset off)).succeed off

def sysHandler (cfg : Config) (p : ℕ) : Syscall → Except Stop Outcome
  | .write fnum buffer nbyte beyond => .ok (w.write cfg p fnum buffer nbyte beyond)
  | .fork => .ok (w.fork p)
  | .sem _ => .ok (w.sem p)
  | .up id | .down id => .ok (w.upDown p id)
  | .close num => .ok (w.close p num)
  | .wait id status rc => w.wait cfg id status rc
  | .openFile filename file => .ok (w.openFile p filename file)
  | .len fnum => w.len p fnum
  | .read fnum buffer nbyte => w.read cfg p fnum buffer nbyte
  | .seek fnum off => .ok (w.seek p fnum off)

/-- A single process with a new PCB. -/
def boot (node : ℕ → BlockIO) : World :=
  let empty : World :=
    { node := node
      desc := fun _ => .new none false
      pcb := fun _ => ⟨fun _ => none, fun _ => none, fun _ => none, 0⟩
      processes := 0
      fresh := 0 }
  let (pcb, w) := empty.newPCB
  { w.setPcb 0 pcb with processes := 1 }

end World

/-- The processes make system calls in any order. A call that never returns changes no table. -/
def sysMachine (cfg : Config) : Machine World (ℕ × Syscall) where
  init w := ∃ node, w = World.boot node
  enabled w c := c.1 < w.processes
  next w c :=
    match w.sysHandler cfg c.1 c.2 with
    | .ok o => o.world
    | .error _ => w

end AudioKernel
