import AudioKernel.Exec.Clearing
import AudioKernel.Exec.Elf

/-! `exec` of `sys.cc`: the arguments are saved, private memory is cleared, and a new stack is made before the program
is looked up. A read of kernel memory that is not mapped is a panic, which is left out. The arrays of `exec` itself are
taken to fit on the stack of the kernel, and the header of the program into its heap. -/
namespace AudioKernel
open Lib

/-- The heap of the kernel: whether `new` finds blocks of these sizes, one after the other. -/
structure HeapRoom where
  fits : List ℕ → Bool
  sum_le : ∀ sizes, fits sizes = true → sizes.sum ≤ 5 * 1024 * 1024

/-- What `exec` depends on besides the memory of the process. `leftover` is what the calls before have left on the
kernel's stack where the last word of `argvs` lies, those that `exec` makes itself among them. `low` is what the kernel's
own memory holds when the path is looked up, `find` is `fs->find` from the root, and `stack` is what `ELF::load` has. -/
structure ExecEnv where
  cfg : Config
  memSize : ℕ
  heap : HeapRoom
  leftover : ℕ
  low : ℕ → UInt8
  find : List UInt8 → Except Stop (Option BlockIO)
  stack : KernelStack
  leftover_lt : leftover < 2 ^ 32

/-- A copy in the heap of the kernel, with the NUL at its end. -/
structure Argument where
  length : ℕ
  bytes : ℕ → UInt8

/-- `exec` returns, or the processor goes on in the new program. -/
inductive ExecResult
  | returned (eax : ℕ) (mem : ℕ → UInt8)
  | entered (eip esp eax : ℕ) (mem : ℕ → UInt8)

namespace ExecResult

def mem : ExecResult → ℕ → UInt8
  | returned _ mem | entered _ _ _ mem => mem

end ExecResult

/-- The word at an address; addresses wrap. -/
def wordAt (mem : ℕ → UInt8) (a : ℕ) : ℕ := uintAt (fun i => mem ((a + i) % 2 ^ 32)) 0 4

/-- The length of the string at an address; `none` if it never ends. -/
def strlen (mem : ℕ → UInt8) (a : ℕ) : Option ℕ := scan (fun i => mem ((a + i) % 2 ^ 32) == 0) (2 ^ 32) 0

def stringAt (mem : ℕ → UInt8) (a : ℕ) : Except Stop (List UInt8) :=
  match strlen mem a with
  | none => .error .diverge
  | some n => .ok ((List.range n).map fun i => mem ((a + i) % 2 ^ 32))

namespace ExecEnv

variable (e : ExecEnv)

/-- The same with another word where the last word of `argvs` lies. -/
def withLeftover (w : ℕ) (hw : w < 2 ^ 32) : ExecEnv := { e with leftover := w, leftover_lt := hw }

/-- The address of argument `i` on the stack of the caller. -/
def argumentAt (mem : ℕ → UInt8) (esp i : ℕ) : ℕ := wordAt mem ((esp + 4 * (i + 1)) % 2 ^ 32)

/-- The number of words after the return address that are not zero. -/
def argCount (mem : ℕ → UInt8) (esp : ℕ) : Except Stop ℕ :=
  match scan (fun i => argumentAt mem esp i == 0) (2 ^ 30) 0 with
  | none => .error .diverge
  | some argc => .ok argc

/-- The loop that saves the arguments: those from number `i` on. -/
def saveArguments (mem : ℕ → UInt8) (esp : ℕ) : ℕ → ℕ → List Argument → Except Stop (List Argument)
  | 0, _, saved => .ok saved
  | n + 1, i, saved =>
    let arg := argumentAt mem esp i
    match strlen mem arg with
    | none => .error .diverge
    | some length =>
      let saved := saved ++ [⟨length + 1, fun j => mem ((arg + j) % 2 ^ 32)⟩]
      if e.heap.fits (saved.map (·.length)) then saveArguments mem esp n (i + 1) saved
      else .error (.panic "out of memory")

/-- Memory when the loop over the private pages is over, and the kernel has used its own. -/
def cleared (mem : ℕ → UInt8) (a : ℕ) : UInt8 :=
  let page := PhysMem.framedown a
  if a < 0x80000000 then e.low a
  else if page < e.memSize ∧ page ≠ e.cfg.localAPIC ∧ page ≠ e.cfg.ioAPIC then 0
  else mem a

/-- The loop that writes the strings: their addresses, and the stores. -/
def writeStrings : List Argument → ℕ → List ℕ × Stores
  | [], _ => ([], [])
  | arg :: arguments, esp =>
    let rest := writeStrings arguments ((esp + arg.length) % 2 ^ 32)
    (esp :: rest.1, memcpy esp arg.bytes arg.length ++ rest.2)

def newTop (arguments : List Argument) : ℕ := (0xefffe000 + 2 ^ 32 - (arguments.map (·.length)).sum) % 2 ^ 32

/-- The array `argvs`: its last word is never assigned. -/
def argvs (arguments : List Argument) : List ℕ :=
  (writeStrings arguments.tail (newTop arguments)).1 ++ if arguments.isEmpty then [] else [e.leftover]

def newArgv (arguments : List Argument) : ℕ :=
  (PhysMem.framedown (newTop arguments) + 2 ^ 32 - 4 * arguments.length) % 2 ^ 32

def newEsp (arguments : List Argument) : ℕ := (newArgv arguments + 2 ^ 32 - 12) % 2 ^ 32

def storeWord (a w : ℕ) : Stores := Stores.consecutive a (World.byteOf w) 4

def stackStores (arguments : List Argument) : Stores :=
  let argv := newArgv arguments
  let args := newEsp arguments
  (writeStrings arguments.tail (newTop arguments)).2 ++
    memcpy argv (fun j => World.byteOf ((e.argvs arguments).getD (j / 4) 0) (j % 4)) (4 * arguments.length) ++
    storeWord args ((arguments.length + 2 ^ 32 - 1) % 2 ^ 32) ++ storeWord ((args + 4) % 2 ^ 32) argv ++
    storeWord ((args + 8) % 2 ^ 32) 0

/-- The stack pointer of the new program, and the memory when its stack is there. -/
def prepare (mem : ℕ → UInt8) (esp : ℕ) : Except Stop (ℕ × (ℕ → UInt8)) := do
  let argc ← argCount mem esp
  let arguments ← e.saveArguments mem esp argc 0 []
  if 0xFFFFF000 < e.memSize then .error .diverge
  else return (newEsp arguments, (e.stackStores arguments).apply (e.cleared mem))

/-- `ELF::load` of what has been found. A call through a null pointer goes anywhere. -/
def enter (esp : ℕ) (mem : ℕ → UInt8) : Option BlockIO → Except Stop ExecResult
  | none => .error .wild
  | some program => do
    let load := ELF.load e.stack true program.reader
    let entry ← load.result
    -- `switchToUser` does not come back to the `return -1` behind it
    return .entered entry esp 0 (Stores.apply mem load.events)

/-- The path is read once more from the stack of the caller. -/
def pathAt (later : ℕ → UInt8) (esp : ℕ) : Except Stop (List UInt8) := stringAt later (argumentAt later esp 0)

def lookup (later : ℕ → UInt8) (esp : ℕ) : Except Stop (Option BlockIO) := do
  let path ← pathAt later esp
  e.find path

def exec (mem : ℕ → UInt8) (esp : ℕ) : Except Stop ExecResult := do
  let (newEsp, later) ← e.prepare mem esp
  let program ← e.lookup later esp
  e.enter newEsp later program

end ExecEnv
end AudioKernel
