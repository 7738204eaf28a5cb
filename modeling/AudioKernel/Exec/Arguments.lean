import AudioKernel.Exec.Model
import Mathlib.Data.List.Forall2

/-! The argument vector that `exec` leaves on the new stack. -/
namespace AudioKernel
open Lib

/-- The string with its NUL lies at the address. -/
def Str (mem : ℕ → UInt8) (a : ℕ) (s : List UInt8) : Prop :=
  0 ∉ s ∧ ∀ j, j ≤ s.length → mem ((a + j) % 2 ^ 32) = s.getD j 0

/-- The words behind the return address lead to these strings, and end with a null pointer. -/
structure Passes (mem : ℕ → UInt8) (esp : ℕ) (strings : List (List UInt8)) : Prop where
  words : ∀ i s, strings[i]? = some s →
    ExecEnv.argumentAt mem esp i ≠ 0 ∧ Str mem (ExecEnv.argumentAt mem esp i) s
  null : ExecEnv.argumentAt mem esp strings.length = 0

/-- The array that the second word on the stack leads to. -/
def argvOf (mem : ℕ → UInt8) (esp : ℕ) : ℕ := wordAt mem ((esp + 4) % 2 ^ 32)

def argvEntry (mem : ℕ → UInt8) (esp i : ℕ) : ℕ := wordAt mem ((argvOf mem esp + 4 * i) % 2 ^ 32)

/-- Where the three words, the array and the copies lie, and how long they are. -/
def spans (mem : ℕ → UInt8) (esp : ℕ) (args : List (List UInt8)) : List (ℕ × ℕ) :=
  (esp, 12) :: (argvOf mem esp, 4 * (args.length + 1)) ::
    (List.range args.length).map fun i => (argvEntry mem esp i, (args.getD i []).length + 1)

/-- A program that begins with this stack pointer finds copies of its arguments, and an array of them that ends with
this word. -/
structure ArgumentVector (mem : ℕ → UInt8) (esp : ℕ) (args : List (List UInt8)) (last : ℕ) : Prop where
  count : wordAt mem esp = args.length
  copies : ∀ i s, args[i]? = some s → Str mem (argvEntry mem esp i) s
  last_eq : argvEntry mem esp args.length = last
  disjoint : (spans mem esp args).Pairwise fun s t => s.1 + s.2 ≤ t.1 ∨ t.1 + t.2 ≤ s.1
  below : ∀ s ∈ spans mem esp args, s.1 + s.2 ≤ 0xefffe000

def Delivers (mem : ℕ → UInt8) (esp : ℕ) (args : List (List UInt8)) : Prop := ArgumentVector mem esp args 0

theorem uintAt_byteOf (w a n : ℕ) : uintAt (World.byteOf w) a n = w / 256 ^ a % 256 ^ n := by
  induction n generalizing a with
  | zero => simp [uintAt, Nat.mod_one]
  | succ n ih =>
    have hbyte : (World.byteOf w a).toNat = w / 256 ^ a % 256 := rfl
    rw [uintAt, ih, hbyte, Nat.pow_succ, ← Nat.div_div_eq_div_mul, Nat.pow_succ, Nat.mul_comm (256 ^ n), Nat.mod_mul]

/-- The word at an address that has the bytes of the word. -/
theorem wordAt_eq {mem : ℕ → UInt8} {a w : ℕ} (hw : w < 2 ^ 32)
    (h : ∀ i, i < 4 → mem ((a + i) % 2 ^ 32) = World.byteOf w i) : wordAt mem a = w := by
  unfold wordAt
  have hbytes : uintAt (fun i => mem ((a + i) % 2 ^ 32)) 0 4 = uintAt (World.byteOf w) 0 4 :=
    uintAt_congr fun i _ hi => h i (by omega)
  rw [hbytes, uintAt_byteOf, Nat.pow_zero, Nat.div_one]
  exact Nat.mod_eq_of_lt hw

theorem wordAt_lt (mem : ℕ → UInt8) (a : ℕ) : wordAt mem a < 2 ^ 32 := uintAt_lt _ 0 4

namespace Str

variable {mem : ℕ → UInt8} {a : ℕ} {s : List UInt8}

theorem ne_zero (h : Str mem a s) {j : ℕ} (hj : j < s.length) : mem ((a + j) % 2 ^ 32) ≠ 0 := by
  rw [h.2 j (Nat.le_of_lt hj), List.getD_eq_getElem _ _ hj]
  intro hzero
  exact h.1 (hzero ▸ List.getElem_mem hj)

theorem zero (h : Str mem a s) : mem ((a + s.length) % 2 ^ 32) = 0 := by
  rw [h.2 _ (Nat.le_refl _), List.getD_eq_default _ _ (Nat.le_refl _)]

/-- The end of a string is found, if at all, where it is. -/
theorem strlen_eq (h : Str mem a s) {n : ℕ} (hn : strlen mem a = some n) : n = s.length := by
  obtain ⟨-, -, hstop, hbefore⟩ := scan_eq_some_iff.mp hn
  rcases Nat.lt_trichotomy n s.length with hlt | heq | hgt
  · exact absurd (beq_iff_eq.mp hstop) (h.ne_zero hlt)
  · exact heq
  · have hfalse := hbefore s.length (Nat.zero_le _) hgt
    rw [h.zero] at hfalse
    cases hfalse

end Str

/-- The saved argument is the string with its NUL. -/
def Argument.Holds (arg : Argument) (s : List UInt8) : Prop :=
  arg.length = s.length + 1 ∧ ∀ j, j ≤ s.length → arg.bytes j = s.getD j 0

namespace ExecEnv

variable {e : ExecEnv} {mem : ℕ → UInt8} {esp : ℕ} {strings : List (List UInt8)}

theorem argCount_eq (h : Passes mem esp strings) {argc : ℕ} (hargc : argCount mem esp = .ok argc) :
    argc = strings.length := by
  unfold argCount at hargc
  split at hargc
  · cases hargc
  case _ n hn =>
    obtain rfl := Except.ok.inj hargc
    obtain ⟨-, -, hstop, hbefore⟩ := scan_eq_some_iff.mp hn
    rcases Nat.lt_trichotomy n strings.length with hlt | heq | hgt
    · exact absurd (beq_iff_eq.mp hstop) (h.words n _ (List.getElem?_eq_getElem hlt)).1
    · exact heq
    · have hfalse := hbefore strings.length (Nat.zero_le _) hgt
      rw [h.null] at hfalse
      cases hfalse

/-- The loop saves the strings that are passed, and the heap has had room for them. -/
theorem saveArguments_spec (h : Passes mem esp strings) {n i : ℕ} {saved arguments : List Argument}
    (hi : i + n = strings.length) (hroom : (saved.map (·.length)).sum ≤ 5 * 1024 * 1024)
    (hsave : e.saveArguments mem esp n i saved = .ok arguments) :
    ∃ more, arguments = saved ++ more ∧ List.Forall₂ Argument.Holds more (strings.drop i) ∧
      (arguments.map (·.length)).sum ≤ 5 * 1024 * 1024 := by
  induction n generalizing i saved with
  | zero =>
    obtain rfl := Except.ok.inj hsave
    refine ⟨[], (List.append_nil _).symm, ?_, hroom⟩
    rw [List.drop_of_length_le (by omega)]
    exact .nil
  | succ n ih =>
    rw [saveArguments] at hsave
    dsimp only at hsave
    have hlt : i < strings.length := by omega
    obtain ⟨-, hstr⟩ := h.words i _ (List.getElem?_eq_getElem hlt)
    split at hsave
    · cases hsave
    case _ length hlength =>
      obtain rfl := hstr.strlen_eq hlength
      split_ifs at hsave with hfits
      obtain ⟨more, rfl, hholds, hsum⟩ := ih (by omega) (e.heap.sum_le _ hfits) hsave
      refine ⟨_ :: more, List.append_assoc .., ?_, hsum⟩
      rw [List.drop_eq_getElem_cons hlt]
      exact .cons ⟨rfl, hstr.2⟩ hholds

/-- How many bytes strings take up with their NULs. -/
def size (strings : List (List UInt8)) : ℕ := (strings.map fun s => s.length + 1).sum

/-- Where string `i` begins when they lie in a row. -/
def startOf (top : ℕ) (strings : List (List UInt8)) (i : ℕ) : ℕ := top + size (strings.take i)

theorem size_cons (s : List UInt8) (strings : List (List UInt8)) :
    size (s :: strings) = s.length + 1 + size strings := by
  simp [size]

theorem startOf_cons (top : ℕ) (s : List UInt8) (strings : List (List UInt8)) (i : ℕ) :
    startOf top (s :: strings) (i + 1) = startOf (top + (s.length + 1)) strings i := by
  unfold startOf
  rw [List.take_succ_cons, size_cons]
  omega

theorem length_le_size (strings : List (List UInt8)) : strings.length ≤ size strings := by
  induction strings with
  | nil => exact Nat.le_refl 0
  | cons s strings ih =>
    rw [List.length_cons, size_cons]
    omega

/-- A string ends before the next one begins, and none goes past the end. -/
theorem startOf_end (top : ℕ) {i j : ℕ} {s : List UInt8} (hi : strings[i]? = some s) (hij : i < j) :
    startOf top strings i + (s.length + 1) ≤ startOf top strings j ∧
      startOf top strings i + (s.length + 1) ≤ top + size strings := by
  induction strings generalizing top i j with
  | nil => cases hi
  | cons t strings ih =>
    obtain ⟨j, rfl⟩ : ∃ k, j = k + 1 := ⟨j - 1, by omega⟩
    rw [startOf_cons, size_cons]
    cases i with
    | zero =>
      obtain rfl : t = s := Option.some.inj hi
      have hstart : startOf top (t :: strings) 0 = top := Nat.add_zero top
      have hrest : startOf (top + (t.length + 1)) strings j = top + (t.length + 1) + size (strings.take j) := rfl
      omega
    | succ i =>
      have hrest := ih (top + (t.length + 1)) hi (Nat.lt_of_succ_lt_succ hij)
      rw [startOf_cons]
      omega

theorem sum_holds {arguments : List Argument} (h : List.Forall₂ Argument.Holds arguments strings) :
    (arguments.map (·.length)).sum = size strings := by
  induction h with
  | nil => rfl
  | cons hholds _ ih => rw [List.map_cons, List.sum_cons, size_cons, ih, hholds.1]

def row : List (List UInt8) → List UInt8
  | [] => []
  | s :: strings => s ++ 0 :: row strings

theorem row_head (s : List UInt8) (strings : List (List UInt8)) {j : ℕ} (hj : j ≤ s.length) :
    (row (s :: strings)).getD j 0 = s.getD j 0 := by
  rw [row]
  by_cases hlt : j < s.length
  · rw [List.getD_append _ _ _ _ hlt]
  · obtain rfl : j = s.length := by omega
    rw [List.getD_append_right _ _ _ _ (Nat.le_refl _), Nat.sub_self, List.getD_cons_zero,
      List.getD_eq_default _ _ (Nat.le_refl _)]

theorem row_tail (s : List UInt8) (strings : List (List UInt8)) (j : ℕ) :
    (row (s :: strings)).getD (s.length + 1 + j) 0 = (row strings).getD j 0 := by
  have hskip : s.length + 1 + j - s.length = j + 1 := by omega
  rw [row, List.getD_append_right _ _ _ _ (by omega), hskip, List.getD_cons_succ]

/-- The bytes of string `i` are found where it begins. -/
theorem row_getD {i j : ℕ} {s : List UInt8} (hs : strings[i]? = some s) (hj : j ≤ s.length) :
    (row strings).getD (size (strings.take i) + j) 0 = s.getD j 0 := by
  induction strings generalizing i with
  | nil => cases hs
  | cons t strings ih =>
    cases i with
    | zero =>
      obtain rfl : t = s := Option.some.inj hs
      have hnone : size ((t :: strings).take 0) = 0 := rfl
      rw [hnone, Nat.zero_add, row_head t strings hj]
    | succ i =>
      rw [List.take_succ_cons, size_cons, Nat.add_assoc, row_tail]
      exact ih hs

/-- What the loop over the strings writes. -/
theorem writeStrings_spec {arguments : List Argument} (h : List.Forall₂ Argument.Holds arguments strings) (top : ℕ)
    (hend : top + size strings < 2 ^ 32) (hsize : size strings < 2 ^ 31) :
    writeStrings arguments top = ((List.range strings.length).map (startOf top strings),
      Stores.consecutive top (fun j => (row strings).getD j 0) (size strings)) := by
  induction h generalizing top with
  | nil => rfl
  | @cons arg s arguments strings hholds _ ih =>
    rw [size_cons] at hend hsize ⊢
    have hnext : (top + arg.length) % 2 ^ 32 = top + (s.length + 1) := by
      rw [hholds.1, Nat.mod_eq_of_lt (by omega)]
    have hcopy : memcpy top arg.bytes arg.length =
        Stores.consecutive top (fun j => (row (s :: strings)).getD j 0) (s.length + 1) := by
      rw [memcpy, if_pos (by rw [hholds.1]; omega), hholds.1]
      apply Stores.consecutive_congr
      intro j hj
      rw [row_head s strings (Nat.le_of_lt_succ hj), hholds.2 j (Nat.le_of_lt_succ hj)]
    have htail : Stores.consecutive (top + (s.length + 1)) (fun j => (row strings).getD j 0) (size strings) =
        Stores.consecutive ((top + (s.length + 1)) % 2 ^ 32) (fun j => (row (s :: strings)).getD (s.length + 1 + j) 0)
          (size strings) := by
      rw [Nat.mod_eq_of_lt (by omega)]
      exact Stores.consecutive_congr fun j _ => (row_tail s strings j).symm
    have haddrs : (List.range (strings.length + 1)).map (startOf top (s :: strings)) =
        top :: (List.range strings.length).map (startOf (top + (s.length + 1)) strings) := by
      rw [List.range_succ_eq_map, List.map_cons, List.map_map]
      exact congrArg _ (List.map_congr_left fun i _ => startOf_cons top s strings i)
    simp only [writeStrings, hnext, hcopy, ih (top + (s.length + 1)) (by omega) (by omega)]
    rw [htail, Stores.consecutive_append, List.length_cons, haddrs]

/-- Where the parts of the new stack lie: the strings from `top` on, the array below `down`. -/
structure Placed (arguments : List Argument) (top down : ℕ) : Prop where
  top_eq : newTop arguments = top
  argv_eq : newArgv arguments = down - 4 * arguments.length
  esp_eq : newEsp arguments = down - 4 * arguments.length - 12
  down_eq : down = PhysMem.framedown top
  down_le : down ≤ top
  low : 0x80000000 + 4 * arguments.length + 12 ≤ down
  high : top + (arguments.map (·.length)).sum = 0xefffe000

theorem placed {arguments : List Argument} (h : List.Forall₂ Argument.Holds arguments strings)
    (hroom : (arguments.map (·.length)).sum ≤ 5 * 1024 * 1024) : ∃ top down, Placed arguments top down := by
  have hlength : arguments.length ≤ (arguments.map (·.length)).sum := by
    rw [sum_holds h, h.length_eq]
    exact length_le_size strings
  have htop : newTop arguments = 0xefffe000 - (arguments.map (·.length)).sum := by
    unfold newTop
    omega
  have hdown := PhysMem.framedown_eq (newTop arguments)
  have hargv : newArgv arguments = PhysMem.framedown (newTop arguments) - 4 * arguments.length := by
    unfold newArgv
    omega
  refine ⟨_, _, htop, hargv, ?_, congrArg _ htop, ?_, ?_, ?_⟩
  · unfold newEsp
    omega
  · omega
  · omega
  · omega

/-- The words of the new stack: the count, the address of the array, a zero, and the array. -/
def stackWords (e : ExecEnv) (top argv : ℕ) (args : List (List UInt8)) : List ℕ :=
  args.length :: argv :: 0 :: ((List.range args.length).map (startOf top args) ++ [e.leftover])

/-- The byte that a new stack has at an address: its words begin below the array, and the strings at `top`. -/
def stackByte (e : ExecEnv) (top argv : ℕ) (args : List (List UInt8)) (a : ℕ) : Option UInt8 :=
  if argv - 12 ≤ a ∧ a < argv + 4 * (args.length + 1) then
    some (World.byteOf ((e.stackWords top argv args).getD ((a - (argv - 12)) / 4) 0) ((a - (argv - 12)) % 4))
  else if top ≤ a ∧ a < top + size args then some ((row args).getD (a - top) 0)
  else none

/-- The stores to the new stack, in their order. -/
theorem stackStores_eq {arg : Argument} {arguments : List Argument} {args : List (List UInt8)} {top down : ℕ}
    (hplaced : Placed (arg :: arguments) top down) (hholds : List.Forall₂ Argument.Holds arguments args) {argv : ℕ}
    (hargv : newArgv (arg :: arguments) = argv) :
    e.stackStores (arg :: arguments) = Stores.consecutive top (fun j => (row args).getD j 0) (size args) ++
      Stores.consecutive argv (fun j => World.byteOf (((List.range args.length).map (startOf top args) ++
        [e.leftover]).getD (j / 4) 0) (j % 4)) (4 * (args.length + 1)) ++
      Stores.consecutive (argv - 12) (World.byteOf args.length) 4 ++
      Stores.consecutive (argv - 8) (World.byteOf argv) 4 ++ Stores.consecutive (argv - 4) (World.byteOf 0) 4 := by
  obtain ⟨htop, hargv', hesp, -, hdown, hlow, hhigh⟩ := hplaced
  rw [hargv] at hargv'
  rw [List.map_cons, List.sum_cons, sum_holds hholds] at hhigh
  rw [List.length_cons, hholds.length_eq] at hargv' hesp hlow
  have hwritten := writeStrings_spec hholds top (by omega) (by omega)
  have hargvs : e.argvs (arg :: arguments) = (List.range args.length).map (startOf top args) ++ [e.leftover] := by
    unfold argvs
    rw [htop]
    show (writeStrings arguments top).1 ++ [e.leftover] = _
    rw [hwritten]
  have hstrings : (writeStrings (arg :: arguments).tail top).2 =
      Stores.consecutive top (fun j => (row args).getD j 0) (size args) := by
    show (writeStrings arguments top).2 = _
    rw [hwritten]
  have hesp' : newEsp (arg :: arguments) = argv - 12 := by omega
  have hcount : (args.length + 1 + 2 ^ 32 - 1) % 2 ^ 32 = args.length := by omega
  have hsecond : (argv - 12 + 4) % 2 ^ 32 = argv - 8 := by omega
  have hthird : (argv - 12 + 8) % 2 ^ 32 = argv - 4 := by omega
  unfold stackStores memcpy
  dsimp only
  rw [List.length_cons, hholds.length_eq, if_pos (by omega), htop, hcount, hargvs, hargv, hesp', hsecond,
    hthird, hstrings]
  rfl

/-- The new stack has its bytes, and around it and inside it memory is as it was. -/
theorem stackStores_apply {arg : Argument} {arguments : List Argument} {args : List (List UInt8)} {top down argv : ℕ}
    (hplaced : Placed (arg :: arguments) top down) (hholds : List.Forall₂ Argument.Holds arguments args)
    (hargv : newArgv (arg :: arguments) = argv) (mem : ℕ → UInt8) (a : ℕ) :
    (e.stackStores (arg :: arguments)).apply mem a = (e.stackByte top argv args a).getD (mem a) := by
  have hstack := stackStores_eq (e := e) hplaced hholds hargv
  obtain ⟨-, hargv', hesp, -, hdown, hlow, hhigh⟩ := hplaced
  rw [hargv] at hargv'
  rw [List.map_cons, List.sum_cons, sum_holds hholds] at hhigh
  rw [List.length_cons, hholds.length_eq] at hargv' hesp hlow
  rw [hstack]
  by_cases hwords : argv - 12 ≤ a ∧ a < argv + 4 * (args.length + 1)
  · obtain ⟨hlo, hhi⟩ := hwords
    rw [stackByte, if_pos ⟨hlo, hhi⟩, Option.getD_some]
    obtain ⟨w, i, hi, rfl⟩ : ∃ w i, i < 4 ∧ a = argv - 12 + (4 * w + i) :=
      ⟨(a - (argv - 12)) / 4, (a - (argv - 12)) % 4, by omega, by omega⟩
    have hdiv : (4 * w + i) / 4 = w := by omega
    have hmod : (4 * w + i) % 4 = i := by omega
    rw [Nat.add_sub_cancel_left, hdiv, hmod]
    rcases w with - | - | - | w
    · have haddr : argv - 12 + (4 * 0 + i) = argv - 12 + i := by omega
      rw [haddr, Stores.apply_append_of_notMem _ (Stores.notMem_consecutive (by omega) (by omega)),
        Stores.apply_append_of_notMem _ (Stores.notMem_consecutive (by omega) (by omega)),
        Stores.apply_append_consecutive _ _ _ (by omega) hi]
      rfl
    · have haddr : argv - 12 + (4 * (0 + 1) + i) = argv - 8 + i := by omega
      rw [haddr, Stores.apply_append_of_notMem _ (Stores.notMem_consecutive (by omega) (by omega)),
        Stores.apply_append_consecutive _ _ _ (by omega) hi]
      rfl
    · have haddr : argv - 12 + (4 * (0 + 1 + 1) + i) = argv - 4 + i := by omega
      rw [haddr, Stores.apply_append_consecutive _ _ _ (by omega) hi]
      rfl
    · have haddr : argv - 12 + (4 * (w + 1 + 1 + 1) + i) = argv + (4 * w + i) := by omega
      have hdiv : (4 * w + i) / 4 = w := by omega
      have hmod : (4 * w + i) % 4 = i := by omega
      rw [haddr, Stores.apply_append_of_notMem _ (Stores.notMem_consecutive (by omega) (by omega)),
        Stores.apply_append_of_notMem _ (Stores.notMem_consecutive (by omega) (by omega)),
        Stores.apply_append_of_notMem _ (Stores.notMem_consecutive (by omega) (by omega)),
        Stores.apply_append_consecutive _ _ _ (by omega) (by omega), hdiv, hmod]
      rfl
  · rw [stackByte, if_neg hwords, Stores.apply_append_of_notMem _ (Stores.notMem_consecutive (by omega) (by omega)),
      Stores.apply_append_of_notMem _ (Stores.notMem_consecutive (by omega) (by omega)),
      Stores.apply_append_of_notMem _ (Stores.notMem_consecutive (by omega) (by omega)),
      Stores.apply_append_of_notMem _ (Stores.notMem_consecutive (by omega) (by omega))]
    split_ifs with hstrings
    · obtain ⟨i, rfl⟩ : ∃ i, a = top + i := ⟨a - top, by omega⟩
      have hlt : i < size args := by omega
      have hbyte := Stores.apply_consecutive mem top (fun j => (row args).getD j 0) (by omega) hlt
      rw [Nat.mod_eq_of_lt (by omega)] at hbyte
      rw [Nat.add_sub_cancel_left, Option.getD_some, hbyte]
    · exact Stores.apply_of_notMem _ (Stores.notMem_consecutive (by omega) (by omega))

/-- What a program finds on a stack on which the arguments have been written, and nothing else since. -/
theorem stack_spec {arg : Argument} {arguments : List Argument} {args : List (List UInt8)} {top down : ℕ}
    (hplaced : Placed (arg :: arguments) top down) (hholds : List.Forall₂ Argument.Holds arguments args)
    (mem mem' : ℕ → UInt8) (hsame : ∀ a, newEsp (arg :: arguments) ≤ a → a < 0xefffe000 →
      mem' a = (e.stackStores (arg :: arguments)).apply mem a) :
    wordAt mem' (newEsp (arg :: arguments)) = args.length ∧
      argvOf mem' (newEsp (arg :: arguments)) = newArgv (arg :: arguments) ∧
      (∀ i s, args[i]? = some s → argvEntry mem' (newEsp (arg :: arguments)) i = startOf top args i ∧
        ∀ j, j ≤ s.length → mem' (startOf top args i + j) = s.getD j 0) ∧
      argvEntry mem' (newEsp (arg :: arguments)) args.length = e.leftover := by
  obtain ⟨argv, hargv⟩ : ∃ argv, newArgv (arg :: arguments) = argv := ⟨_, rfl⟩
  have happly := stackStores_apply (e := e) hplaced hholds hargv mem
  obtain ⟨-, hargv', hesp, -, hdown, hlow, hhigh⟩ := hplaced
  rw [hargv] at hargv'
  rw [List.map_cons, List.sum_cons, sum_holds hholds] at hhigh
  rw [List.length_cons, hholds.length_eq] at hargv' hesp hlow
  rw [hargv]
  have hesp' : newEsp (arg :: arguments) = argv - 12 := by omega
  rw [hesp'] at hsame ⊢
  have hword : ∀ w, w < args.length + 4 → (e.stackWords top argv args).getD w 0 < 2 ^ 32 →
      wordAt mem' (argv - 12 + 4 * w) = (e.stackWords top argv args).getD w 0 := by
    intro w hw hlt
    apply wordAt_eq hlt
    intro i hi
    have haddr : (argv - 12 + 4 * w + i) % 2 ^ 32 = argv - 12 + (4 * w + i) := by omega
    have hdiv : (4 * w + i) / 4 = w := by omega
    have hmod : (4 * w + i) % 4 = i := by omega
    rw [haddr, hsame _ (by omega) (by omega), happly, stackByte, if_pos (by omega), Nat.add_sub_cancel_left, hdiv, hmod]
    rfl
  have hsecond : argvOf mem' (argv - 12) = argv := by
    have haddr : (argv - 12 + 4) % 2 ^ 32 = argv - 12 + 4 * 1 := by omega
    rw [argvOf, haddr]
    refine hword 1 (by omega) ?_
    show argv < 2 ^ 32
    omega
  have hentry : ∀ i w, i ≤ args.length → ((List.range args.length).map (startOf top args) ++ [e.leftover]).getD i 0 = w →
      w < 2 ^ 32 → argvEntry mem' (argv - 12) i = w := by
    rintro i w hi rfl hlt
    have haddr : (argv + 4 * i) % 2 ^ 32 = argv - 12 + 4 * (i + 3) := by omega
    rw [argvEntry, hsecond, haddr]
    exact hword (i + 3) (by omega) hlt
  refine ⟨?_, hsecond, ?_, ?_⟩
  · refine hword 0 (by omega) ?_
    show args.length < 2 ^ 32
    omega
  · intro i s hs
    obtain ⟨hi, -⟩ := List.getElem?_eq_some_iff.mp hs
    obtain ⟨-, hend⟩ := startOf_end top hs (Nat.lt_succ_self i)
    have hstart : startOf top args i = top + size (args.take i) := rfl
    constructor
    · apply hentry i _ (Nat.le_of_lt hi) ?_ (by omega)
      rw [List.getD_append _ _ _ _ (by simpa using hi), List.getD_eq_getElem _ _ (by simpa using hi), List.getElem_map,
        List.getElem_range]
    · intro j hj
      have hskip : startOf top args i + j - top = size (args.take i) + j := by omega
      rw [hsame _ (by omega) (by omega), happly, stackByte, if_neg (by omega), if_pos (by omega), hskip,
        Option.getD_some]
      exact row_getD hs hj
  · apply hentry _ _ (Nat.le_refl _) ?_ e.leftover_lt
    rw [List.getD_append_right _ _ _ _ (by simp), List.length_map, List.length_range, Nat.sub_self]
    rfl

section layout

variable {mem' : ℕ → UInt8} {args : List (List UInt8)} {top argv : ℕ}

/-- The words, the array and the copies lie one behind the other. -/
theorem spans_disjoint (hargv : argvOf mem' esp = argv) (hlow : esp + 12 ≤ argv)
    (harray : argv + 4 * (args.length + 1) ≤ top)
    (hentry : ∀ i s, args[i]? = some s → argvEntry mem' esp i = startOf top args i) :
    (spans mem' esp args).Pairwise fun s t => s.1 + s.2 ≤ t.1 ∨ t.1 + t.2 ≤ s.1 := by
  have hstart : ∀ i, i < args.length → top ≤ argvEntry mem' esp i := by
    intro i hi
    rw [hentry i _ (List.getElem?_eq_getElem hi)]
    exact Nat.le_add_right ..
  refine List.pairwise_cons.mpr ⟨?_, List.pairwise_cons.mpr ⟨?_, ?_⟩⟩
  · intro t ht
    rcases List.mem_cons.mp ht with rfl | ht
    · left
      show esp + 12 ≤ argvOf mem' esp
      omega
    · obtain ⟨i, hi, rfl⟩ := List.mem_map.mp ht
      have hle := hstart i (List.mem_range.mp hi)
      left
      show esp + 12 ≤ argvEntry mem' esp i
      omega
  · intro t ht
    obtain ⟨i, hi, rfl⟩ := List.mem_map.mp ht
    have hle := hstart i (List.mem_range.mp hi)
    left
    show argvOf mem' esp + 4 * (args.length + 1) ≤ argvEntry mem' esp i
    omega
  · rw [List.pairwise_map]
    refine List.pairwise_lt_range.imp_of_mem ?_
    intro i j hi hj hij
    have hs := List.getElem?_eq_getElem (List.mem_range.mp hi)
    left
    show argvEntry mem' esp i + ((args.getD i []).length + 1) ≤ argvEntry mem' esp j
    rw [List.getD_eq_getElem _ _ (List.mem_range.mp hi), hentry i _ hs,
      hentry j _ (List.getElem?_eq_getElem (List.mem_range.mp hj))]
    exact (startOf_end top hs hij).1

theorem spans_below (hargv : argvOf mem' esp = argv) (hlow : esp + 12 ≤ argv)
    (harray : argv + 4 * (args.length + 1) ≤ top) (htop : top + size args ≤ 0xefffe000)
    (hentry : ∀ i s, args[i]? = some s → argvEntry mem' esp i = startOf top args i) :
    ∀ s ∈ spans mem' esp args, s.1 + s.2 ≤ 0xefffe000 := by
  intro t ht
  rcases List.mem_cons.mp ht with rfl | ht
  · show esp + 12 ≤ 0xefffe000
    omega
  rcases List.mem_cons.mp ht with rfl | ht
  · show argvOf mem' esp + 4 * (args.length + 1) ≤ 0xefffe000
    omega
  · obtain ⟨i, hi, rfl⟩ := List.mem_map.mp ht
    have hs := List.getElem?_eq_getElem (List.mem_range.mp hi)
    have hend := (startOf_end top hs (Nat.lt_succ_self i)).2
    show argvEntry mem' esp i + ((args.getD i []).length + 1) ≤ 0xefffe000
    rw [List.getD_eq_getElem _ _ (List.mem_range.mp hi), hentry i _ hs]
    omega

end layout

/-- The arguments are there on the new stack, and behind them the word that has not been assigned. -/
theorem argumentVector {arg : Argument} {arguments : List Argument} {args : List (List UInt8)} {top down : ℕ}
    (hplaced : Placed (arg :: arguments) top down) (hholds : List.Forall₂ Argument.Holds arguments args)
    (hstr : ∀ s ∈ args, 0 ∉ s) (mem mem' : ℕ → UInt8) (hsame : ∀ a, newEsp (arg :: arguments) ≤ a → a < 0xefffe000 →
      mem' a = (e.stackStores (arg :: arguments)).apply mem a) :
    ArgumentVector mem' (newEsp (arg :: arguments)) args e.leftover := by
  obtain ⟨hcount, hargv, hcopies, hlast⟩ := stack_spec hplaced hholds mem mem' hsame
  obtain ⟨-, hargv', hesp, -, hdown, hlow, hhigh⟩ := hplaced
  rw [List.map_cons, List.sum_cons, sum_holds hholds] at hhigh
  rw [List.length_cons, hholds.length_eq] at hargv' hesp hlow
  have hentry : ∀ i s, args[i]? = some s → argvEntry mem' (newEsp (arg :: arguments)) i = startOf top args i :=
    fun i s hs => (hcopies i s hs).1
  refine ⟨hcount, ?_, hlast, ?_, ?_⟩
  · intro i s hs
    obtain ⟨-, hbytes⟩ := hcopies i s hs
    obtain ⟨-, hend⟩ := startOf_end top hs (Nat.lt_succ_self i)
    refine ⟨hstr s (List.mem_of_getElem? hs), ?_⟩
    intro j hj
    rw [hentry i s hs, Nat.mod_eq_of_lt (by omega), hbytes j hj]
  · exact spans_disjoint hargv (by omega) (by omega) hentry
  · exact spans_below hargv (by omega) (by omega) (by omega) hentry

/-- What has been done when the new stack is there. -/
theorem prepare_spec {path : List UInt8} {args : List (List UInt8)} {esp' : ℕ} {later : ℕ → UInt8}
    (h : Passes mem esp (path :: args)) (hprepare : e.prepare mem esp = .ok (esp', later)) :
    ∃ arg arguments top down, arg.Holds path ∧ List.Forall₂ Argument.Holds arguments args ∧
      Placed (arg :: arguments) top down ∧ esp' = newEsp (arg :: arguments) ∧
      later = (e.stackStores (arg :: arguments)).apply (e.cleared mem) := by
  obtain ⟨argc, hargc, hprepare⟩ := bind_eq_ok hprepare
  obtain ⟨saved, hsaved, hprepare⟩ := bind_eq_ok hprepare
  split_ifs at hprepare
  obtain ⟨rfl, rfl⟩ := Prod.mk.inj (Except.ok.inj hprepare)
  obtain rfl := argCount_eq h hargc
  obtain ⟨more, rfl, hholds, hsum⟩ := saveArguments_spec h (Nat.zero_add _) (Nat.zero_le _) hsaved
  obtain ⟨top, down, hplaced⟩ := placed hholds hsum
  cases hholds with
  | cons harg hargs => exact ⟨_, _, top, down, harg, hargs, hplaced, rfl, rfl⟩

/-- A program that is entered has been found and loaded. -/
theorem exec_entered {eip esp' eax : ℕ} {mem' : ℕ → UInt8}
    (hexec : e.exec mem esp = .ok (.entered eip esp' eax mem')) :
    ∃ later program, e.prepare mem esp = .ok (esp', later) ∧ e.lookup later esp = .ok (some program) ∧
      mem' = (ELF.image program.reader (ELF.segments program.reader)).apply later := by
  obtain ⟨⟨esp'', later⟩, hprepare, hexec⟩ := bind_eq_ok hexec
  obtain ⟨found, hlookup, hexec⟩ := bind_eq_ok hexec
  cases found with
  | none => cases hexec
  | some program =>
    obtain ⟨entry, hload, hexec⟩ := bind_eq_ok hexec
    obtain ⟨hmagic, hloads⟩ := ELF.loads_of_ok hload
    obtain ⟨-, rfl, -, rfl⟩ := ExecResult.entered.inj (Except.ok.inj hexec)
    exact ⟨later, program, hprepare, hlookup, by rw [(ELF.load_ok hmagic hloads).2]⟩

theorem saveArguments_withLeftover (e : ExecEnv) (mem : ℕ → UInt8) (esp w : ℕ) (hw : w < 2 ^ 32) (n i : ℕ)
    (saved : List Argument) :
    (e.withLeftover w hw).saveArguments mem esp n i saved = e.saveArguments mem esp n i saved := by
  induction n generalizing i saved with
  | zero => rfl
  | succ n ih =>
    simp only [saveArguments, ih]
    rfl

/-- Where the new stack lies does not depend on the word. -/
theorem prepare_withLeftover (e : ExecEnv) (mem : ℕ → UInt8) (esp w : ℕ) (hw : w < 2 ^ 32) :
    ((e.withLeftover w hw).prepare mem esp).map Prod.fst = (e.prepare mem esp).map Prod.fst := by
  have hmem : (e.withLeftover w hw).memSize = e.memSize := rfl
  unfold prepare
  cases argCount mem esp with
  | error stop => simp only [error_bind]
  | ok argc =>
    simp only [ok_bind, saveArguments_withLeftover, hmem]
    cases e.saveArguments mem esp argc 0 [] with
    | error stop => simp only [error_bind]
    | ok arguments =>
      simp only [ok_bind]
      split_ifs
      · rfl
      · simp only [pure, Except.pure, Except.map]

end ExecEnv

/-- The segments of a program that is found leave the new stack alone. -/
def ExecEnv.StackKept (e : ExecEnv) (mem : ℕ → UInt8) (esp : ℕ) : Prop :=
  ∀ esp' later program, e.prepare mem esp = .ok (esp', later) → e.lookup later esp = .ok (some program) →
    ∀ a ∈ (ELF.image program.reader (ELF.segments program.reader)).map Prod.fst, ¬ (esp' ≤ a ∧ a < 0xefffe000)

/-- The new program finds its arguments whatever the word of `argvs` holds that is not assigned. -/
def ExecEnv.AlwaysDelivers (e : ExecEnv) (mem : ℕ → UInt8) (esp : ℕ) (args : List (List UInt8)) : Prop :=
  ∀ w hw, ∃ eip esp' eax mem', (e.withLeftover w hw).exec mem esp = .ok (.entered eip esp' eax mem') ∧
    Delivers mem' esp' args

namespace ExecEnv

variable {e : ExecEnv} {mem : ℕ → UInt8} {esp : ℕ} {path : List UInt8} {args : List (List UInt8)}

/-- The array of a program that is entered ends with the word that is not assigned. -/
theorem exec_vector (hpass : Passes mem esp (path :: args)) (hkept : e.StackKept mem esp) {eip esp' eax : ℕ}
    {mem' : ℕ → UInt8} (hexec : e.exec mem esp = .ok (.entered eip esp' eax mem')) :
    ArgumentVector mem' esp' args e.leftover := by
  obtain ⟨later, program, hprepare, hlookup, rfl⟩ := exec_entered hexec
  obtain ⟨arg, arguments, top, down, -, hholds, hplaced, hesp, hlater⟩ := prepare_spec hpass hprepare
  have hstr : ∀ s ∈ args, 0 ∉ s := by
    intro s hs
    obtain ⟨i, hi⟩ := List.mem_iff_getElem?.mp hs
    exact (hpass.words (i + 1) s hi).2.1
  rw [hesp]
  apply argumentVector hplaced hholds hstr (e.cleared mem)
  intro a hlo hhi
  rw [← hlater]
  apply Stores.apply_of_notMem
  intro ha
  rw [← hesp] at hlo
  exact hkept _ _ program hprepare hlookup a ha ⟨hlo, hhi⟩

/-- No list of arguments gets its null pointer: the new program finds whatever the word held, and all the rest of what
it should find. -/
theorem exec_never_delivers (e : ExecEnv) (mem : ℕ → UInt8) (path : List UInt8) (args : List (List UInt8)) (esp : ℕ)
    (hpass : Passes mem esp (path :: args)) (hkept : ∀ w hw, (e.withLeftover w hw).StackKept mem esp) :
    ¬ e.AlwaysDelivers mem esp args ∧ ∀ w hw eip esp' eax mem',
      (e.withLeftover w hw).exec mem esp = .ok (.entered eip esp' eax mem') →
        ArgumentVector mem' esp' args w ∧ (Delivers mem' esp' args ↔ w = 0) := by
  have hvector (w : ℕ) (hw : w < 2 ^ 32) {eip esp' eax : ℕ} {mem' : ℕ → UInt8}
      (hexec : (e.withLeftover w hw).exec mem esp = .ok (.entered eip esp' eax mem')) :
      ArgumentVector mem' esp' args w := exec_vector hpass (hkept w hw) hexec
  constructor
  · intro halways
    obtain ⟨eip, esp', eax, mem', hexec, hdelivers⟩ := halways 1 (by decide)
    exact absurd ((hvector 1 (by decide) hexec).last_eq.symm.trans hdelivers.last_eq) (by decide)
  · intro w hw eip esp' eax mem' hexec
    have hlast := hvector w hw hexec
    refine ⟨hlast, ?_⟩
    constructor
    · exact fun h => hlast.last_eq.symm.trans h.last_eq
    · rintro rfl
      exact hlast

def onePath : ExecEnv where
  cfg := World.pcConfig
  memSize := 0x8000000
  heap := { fits := fun sizes => sizes.sum ≤ 4096, sum_le := fun sizes h => by have := of_decide_eq_true h; omega }
  leftover := 0
  low _ := 0
  find path := .ok (if path = [47, 97] then some (ELF.oneSegment 0 0x80001000 1 2) else none)
  stack := ELF.threadStack
  leftover_lt := Nat.two_pow_pos 32

/-- A process calls it with the argument "xy"; its stack pointer is 0x80002000. -/
def oneArgument : ℕ → UInt8 :=
  Stores.apply (fun _ => 0) (storeWord 0x80002004 0x80000000 ++ storeWord 0x80002008 0x80000010 ++
    [(0x80000000, 47), (0x80000001, 97), (0x80000010, 120), (0x80000011, 121)])

theorem oneArgument_passes : Passes oneArgument 0x80002000 [[47, 97], [120, 121]] := by
  refine ⟨?_, by decide +kernel⟩
  intro i s hs
  cases i with
  | zero =>
    obtain rfl := Option.some.inj hs
    exact ⟨by decide +kernel, by decide, by decide +kernel⟩
  | succ i =>
    cases i with
    | zero =>
      obtain rfl := Option.some.inj hs
      exact ⟨by decide +kernel, by decide, by decide +kernel⟩
    | succ i => cases hs

theorem onePath_stackKept (w : ℕ) (hw : w < 2 ^ 32) : (onePath.withLeftover w hw).StackKept oneArgument 0x80002000 := by
  have hesp : (onePath.prepare oneArgument 0x80002000).map Prod.fst = .ok 0xEFFFCFEC := by decide +kernel
  intro esp' later program hprepare hlookup a ha
  rw [← prepare_withLeftover onePath _ _ w hw, hprepare] at hesp
  obtain rfl : esp' = 0xEFFFCFEC := Except.ok.inj hesp
  obtain ⟨path, -, hfind⟩ := bind_eq_ok hlookup
  have hfound : (if path = [47, 97] then some (ELF.oneSegment 0 0x80001000 1 2) else none) = some program :=
    Except.ok.inj hfind
  split_ifs at hfound
  obtain rfl := Option.some.inj hfound
  have himage : (ELF.image (ELF.oneSegment 0 0x80001000 1 2).reader
      (ELF.segments (ELF.oneSegment 0 0x80001000 1 2).reader)).map Prod.fst = [0x80001000] := by decide +kernel
  rw [himage, List.mem_singleton] at ha
  omega

/-- A program that is found and fits is entered. -/
theorem exec_of_found {esp' : ℕ} {later : ℕ → UInt8} {program : BlockIO} (hprepare : e.prepare mem esp = .ok (esp', later))
    (hlookup : e.lookup later esp = .ok (some program)) (hmagic : ELF.Magic program.reader)
    (hfits : ELF.TableFits e.stack program.reader) :
    ∃ eip eax mem', e.exec mem esp = .ok (.entered eip esp' eax mem') := by
  have hload := (ELF.load_ok hmagic (ELF.loads_reader hfits)).1
  refine ⟨(ELF.header program.reader).entry, 0, Stores.apply later (ELF.load e.stack true program.reader).events, ?_⟩
  rw [exec, hprepare, ok_bind]
  show (e.lookup later esp >>= fun program => e.enter esp' later program) = _
  rw [hlookup, ok_bind, enter, hload]
  rfl

/-- The calls before have left the address of the string "xy", an argument of the last `memcpy`. -/
def leftAddress : ExecEnv := onePath.withLeftover 0x80000010 (by decide)

theorem leftAddress_entered :
    ∃ eip eax mem', leftAddress.exec oneArgument 0x80002000 = .ok (.entered eip 0xEFFFCFEC eax mem') := by
  have hrun : (leftAddress.prepare oneArgument 0x80002000).toOption.bind (fun r =>
      (pathAt r.2 0x80002000).toOption.map fun path => (r.1, path)) = some (0xEFFFCFEC, [47, 97]) := by decide +kernel
  cases hprepare : leftAddress.prepare oneArgument 0x80002000 with
  | error stop =>
    rw [hprepare] at hrun
    cases hrun
  | ok r =>
    obtain ⟨esp', later⟩ := r
    rw [hprepare] at hrun
    cases hpath : pathAt later 0x80002000 with
    | error stop =>
      change (pathAt later 0x80002000).toOption.map _ = _ at hrun
      rw [hpath] at hrun
      cases hrun
    | ok path =>
      change (pathAt later 0x80002000).toOption.map _ = _ at hrun
      rw [hpath] at hrun
      obtain ⟨rfl, rfl⟩ := Prod.mk.inj (Option.some.inj hrun)
      refine exec_of_found hprepare ?_ ELF.oneSegment_wellFormed.magic ELF.oneSegment_fits
      rw [lookup, hpath]
      rfl

/-- The address ends the array. -/
theorem onePath_never_delivers : ¬ onePath.AlwaysDelivers oneArgument 0x80002000 [[120, 121]] ∧
    ∃ eip esp' eax mem', leftAddress.exec oneArgument 0x80002000 = .ok (.entered eip esp' eax mem') ∧
      ArgumentVector mem' esp' [[120, 121]] 0x80000010 := by
  obtain ⟨hnever, hvector⟩ := exec_never_delivers onePath _ _ _ _ oneArgument_passes onePath_stackKept
  obtain ⟨eip, eax, mem', hexec⟩ := leftAddress_entered
  exact ⟨hnever, eip, _, eax, mem', hexec, (hvector _ _ _ _ _ _ hexec).1⟩

/-- The program finds a pointer to its only argument where the null pointer should be. -/
theorem argv_not_terminated : Passes oneArgument 0x80002000 [[47, 97], [120, 121]] ∧
    leftAddress.StackKept oneArgument 0x80002000 ∧ ∃ eip esp' eax mem',
      leftAddress.exec oneArgument 0x80002000 = .ok (.entered eip esp' eax mem') ∧
        argvEntry mem' esp' 1 = 0x80000010 ∧ ¬ Delivers mem' esp' [[120, 121]] := by
  refine ⟨oneArgument_passes, onePath_stackKept _ _, ?_⟩
  obtain ⟨eip, eax, mem', hexec⟩ := leftAddress_entered
  have hlast := (exec_vector oneArgument_passes (onePath_stackKept _ _) hexec).last_eq
  refine ⟨eip, _, eax, mem', hexec, hlast, ?_⟩
  intro h
  exact absurd (hlast.symm.trans h.last_eq) (by decide)

end ExecEnv
end AudioKernel
