import AudioKernel.Exec.Arguments

/-! The path that `exec` looks up when the new stack is there, and what becomes of a call that fails. -/
namespace AudioKernel
open Lib

theorem byteOf_uintAt (bytes : ℕ → UInt8) {a n i : ℕ} (hi : i < n) :
    World.byteOf (uintAt bytes a n) i = bytes (a + i) := by
  induction n generalizing a i with
  | zero => omega
  | succ n ih =>
    have hbyte := (bytes a).toNat_lt
    cases i with
    | zero =>
      rw [World.byteOf, uintAt, Nat.pow_zero, Nat.div_one, UInt8.ofNat_add, UInt8.ofNat_mul]
      simp
    | succ i =>
      have hdiv : ((bytes a).toNat + 256 * uintAt bytes (a + 1) n) / 256 = uintAt bytes (a + 1) n := by omega
      have hrest : World.byteOf (uintAt bytes (a + 1) n) i = bytes (a + 1 + i) := ih (Nat.lt_of_succ_lt_succ hi)
      rw [World.byteOf] at hrest ⊢
      rw [uintAt, Nat.pow_succ', ← Nat.div_div_eq_div_mul, hdiv, hrest, Nat.add_right_comm, Nat.add_assoc]

/-- A word is known by its bytes. -/
theorem wordAt_eq_iff {mem : ℕ → UInt8} {a w : ℕ} (hw : w < 2 ^ 32) :
    wordAt mem a = w ↔ ∀ i, i < 4 → mem ((a + i) % 2 ^ 32) = World.byteOf w i := by
  refine ⟨?_, wordAt_eq hw⟩
  rintro rfl i hi
  rw [wordAt, byteOf_uintAt _ hi, Nat.zero_add]

/-- A string that wraps would meet its own beginning, so that it is shorter than the address space. -/
theorem Str.length_lt {mem : ℕ → UInt8} {a : ℕ} {s : List UInt8} (h : Str mem a s) : s.length < 2 ^ 32 := by
  by_contra hge
  have hzero := h.zero
  have hne := h.ne_zero (j := s.length - 2 ^ 32) (by omega)
  have haddr : (a + (s.length - 2 ^ 32)) % 2 ^ 32 = (a + s.length) % 2 ^ 32 := by omega
  rw [haddr] at hne
  exact hne hzero

theorem stringAt_eq_ok_iff {mem : ℕ → UInt8} {a : ℕ} {s : List UInt8} : stringAt mem a = .ok s ↔ Str mem a s := by
  constructor
  · intro h
    rw [stringAt] at h
    split at h
    · cases h
    case _ n hn =>
      obtain rfl := Except.ok.inj h
      obtain ⟨-, -, hstop, hbefore⟩ := scan_eq_some_iff.mp hn
      refine ⟨?_, ?_⟩
      · intro hmem
        obtain ⟨i, hi, hzero⟩ := List.mem_map.mp hmem
        have hfalse := hbefore i (Nat.zero_le _) (List.mem_range.mp hi)
        rw [hzero] at hfalse
        cases hfalse
      · intro j hj
        rw [List.length_map, List.length_range] at hj
        by_cases hlt : j < n
        · rw [List.getD_eq_getElem _ _ (by simpa using hlt), List.getElem_map, List.getElem_range]
        · obtain rfl : j = n := by omega
          rw [List.getD_eq_default _ _ (by simp)]
          exact beq_iff_eq.mp hstop
  · intro h
    have hlen : strlen mem a = some s.length := by
      refine scan_eq_some_iff.mpr ⟨Nat.zero_le _, ?_, beq_iff_eq.mpr h.zero, ?_⟩
      · rw [Nat.zero_add]
        exact h.length_lt
      · intro i _ hi
        exact beq_eq_false_iff_ne.mpr (h.ne_zero hi)
    rw [stringAt, hlen]
    refine congrArg Except.ok (List.ext_getElem (by simp) ?_)
    intro i _ hi
    rw [List.getElem_map, List.getElem_range, h.2 i (Nat.le_of_lt hi), List.getD_eq_getElem _ _ hi]

namespace ExecEnv

variable {e : ExecEnv} {mem later : ℕ → UInt8} {esp esp' : ℕ} {path : List UInt8} {args : List (List UInt8)}

/-- What memory holds when the path is looked up: the new stack, over pages that are cleared or not. The path is counted
in the length of the strings, but it is not copied. -/
def laterByte (e : ExecEnv) (mem : ℕ → UInt8) (strings : List (List UInt8)) (a : ℕ) : UInt8 :=
  let top := 0xefffe000 - size strings
  (e.stackByte top (PhysMem.framedown top - 4 * strings.length) strings.tail a).getD (e.cleared mem a)

theorem prepare_later (h : Passes mem esp (path :: args)) (hprepare : e.prepare mem esp = .ok (esp', later)) :
    later = e.laterByte mem (path :: args) := by
  obtain ⟨arg, arguments, top, down, hpath, hholds, hplaced, -, rfl⟩ := prepare_spec h hprepare
  funext a
  rw [stackStores_apply hplaced hholds rfl, hplaced.argv_eq, hplaced.down_eq]
  have hsum := sum_holds (List.Forall₂.cons hpath hholds)
  have hhigh := hplaced.high
  rw [hsum] at hhigh
  have htop : top = 0xefffe000 - size (path :: args) := by omega
  rw [laterByte, ← htop, List.length_cons, List.length_cons, hholds.length_eq, List.tail_cons]

/-- The byte at the address is still what it was when the call was made. -/
def Keeps (e : ExecEnv) (mem : ℕ → UInt8) (strings : List (List UInt8)) (a : ℕ) : Prop :=
  e.laterByte mem strings a = mem a

instance (strings : List (List UInt8)) (a : ℕ) : Decidable (e.Keeps mem strings a) :=
  inferInstanceAs (Decidable (_ = _))

/-- The word that leads to the path has been written over with another address where the path happens to lie. -/
def Redirected (e : ExecEnv) (mem : ℕ → UInt8) (esp : ℕ) (path : List UInt8) (args : List (List UInt8)) : Prop :=
  ∃ p, p < 2 ^ 32 ∧ p ≠ argumentAt mem esp 0 ∧
    (∀ i, i < 4 → e.laterByte mem (path :: args) ((esp + 4 + i) % 2 ^ 32) = World.byteOf p i) ∧
    ∀ j, j ≤ path.length → e.laterByte mem (path :: args) ((p + j) % 2 ^ 32) = path.getD j 0

/-- The path that is looked up is the one that has been asked for just when its word and its bytes are still there, or
another word leads to the same bytes. -/
theorem lookup_path_iff (e : ExecEnv) (mem later : ℕ → UInt8) (esp esp' : ℕ) (path : List UInt8)
    (args : List (List UInt8)) (hpass : Passes mem esp (path :: args))
    (hprepare : e.prepare mem esp = .ok (esp', later)) :
    pathAt later esp = .ok path ↔
      ((∀ i, i < 4 → e.Keeps mem (path :: args) ((esp + 4 + i) % 2 ^ 32)) ∧
        ∀ j, j ≤ path.length → e.Keeps mem (path :: args) ((argumentAt mem esp 0 + j) % 2 ^ 32)) ∨
      e.Redirected mem esp path args := by
  obtain ⟨-, hstr⟩ := hpass.words 0 path rfl
  obtain rfl := prepare_later hpass hprepare
  have haddr : ∀ i, ((esp + 4 * (0 + 1)) % 2 ^ 32 + i) % 2 ^ 32 = (esp + 4 + i) % 2 ^ 32 := by
    intro i
    omega
  have hword : ∀ mem' p, p < 2 ^ 32 → (argumentAt mem' esp 0 = p ↔
      ∀ i, i < 4 → mem' ((esp + 4 + i) % 2 ^ 32) = World.byteOf p i) := by
    intro mem' p hp
    simp only [← haddr]
    exact wordAt_eq_iff hp
  have hold := (hword mem _ (wordAt_lt ..)).mp rfl
  rw [pathAt, stringAt_eq_ok_iff]
  constructor
  · rintro ⟨-, hbytes⟩
    by_cases hsame : argumentAt (e.laterByte mem (path :: args)) esp 0 = argumentAt mem esp 0
    · left
      rw [hsame] at hbytes
      refine ⟨?_, ?_⟩
      · intro i hi
        rw [Keeps, hold i hi]
        exact (hword _ _ (wordAt_lt ..)).mp hsame i hi
      · intro j hj
        rw [Keeps, hbytes j hj, hstr.2 j hj]
    · exact .inr ⟨_, wordAt_lt .., hsame, (hword _ _ (wordAt_lt ..)).mp rfl, hbytes⟩
  · rintro (⟨hkeeps, hbytes⟩ | ⟨p, hp, -, hwords, hbytes⟩)
    · have hsame : argumentAt (e.laterByte mem (path :: args)) esp 0 = argumentAt mem esp 0 :=
        (hword _ _ (wordAt_lt ..)).mpr fun i hi => (hkeeps i hi).trans (hold i hi)
      rw [hsame]
      exact ⟨hstr.1, fun j hj => (hbytes j hj).trans (hstr.2 j hj)⟩
    · rw [(hword _ p hp).mpr hwords]
      exact ⟨hstr.1, hbytes⟩

/-- The caller "oneArgument" has its strings far from the new stack. -/
theorem onePath_looked_up : ∃ esp' later, onePath.prepare oneArgument 0x80002000 = .ok (esp', later) ∧
    pathAt later 0x80002000 = .ok [47, 97] := by
  have hrun : (onePath.prepare oneArgument 0x80002000).toOption.isSome = true := by decide +kernel
  cases hprepare : onePath.prepare oneArgument 0x80002000 with
  | error stop =>
    rw [hprepare] at hrun
    cases hrun
  | ok r =>
    refine ⟨r.1, r.2, rfl, (lookup_path_iff _ _ _ _ _ _ _ oneArgument_passes hprepare).mpr (.inl ⟨?_, ?_⟩)⟩
    · decide +kernel
    · decide +kernel

/-- The path "/a" lies in the last bytes of the stack of the caller, where the copy of the argument "xy" goes. -/
def topPath : ℕ → UInt8 :=
  Stores.apply (fun _ => 0) (storeWord 0xEFFFDF04 0xEFFFDFFA ++ storeWord 0xEFFFDF08 0x80000010 ++
    [(0xEFFFDFFA, 47), (0xEFFFDFFB, 97), (0x80000010, 120), (0x80000011, 121)])

theorem topPath_passes : Passes topPath 0xEFFFDF00 [[47, 97], [120, 121]] := by
  refine ⟨?_, by decide +kernel⟩
  intro i s hs
  rcases i with - | - | i
  · obtain rfl := Option.some.inj hs
    exact ⟨by decide +kernel, by decide, by decide +kernel⟩
  · obtain rfl := Option.some.inj hs
    exact ⟨by decide +kernel, by decide, by decide +kernel⟩
  · cases hs

/-- The argument is looked up in place of the path. -/
theorem path_overwritten : Passes topPath 0xEFFFDF00 [[47, 97], [120, 121]] ∧
    ∃ esp' later, onePath.prepare topPath 0xEFFFDF00 = .ok (esp', later) ∧
      pathAt later 0xEFFFDF00 = .ok [120, 121] := by
  refine ⟨topPath_passes, ?_⟩
  have hrun : (onePath.prepare topPath 0xEFFFDF00).toOption.bind
      (fun r => (pathAt r.2 0xEFFFDF00).toOption) = some [120, 121] := by decide +kernel
  cases hprepare : onePath.prepare topPath 0xEFFFDF00 with
  | error stop =>
    rw [hprepare] at hrun
    cases hrun
  | ok r =>
    rw [hprepare] at hrun
    have hpath : (pathAt r.2 0xEFFFDF00).toOption = some [120, 121] := hrun
    cases hlater : pathAt r.2 0xEFFFDF00 with
    | error stop =>
      rw [hlater] at hpath
      cases hpath
    | ok path =>
      rw [hlater] at hpath
      exact ⟨r.1, r.2, rfl, by rw [hlater, Option.some.inj hpath]⟩

/-- A call that fails the way its caller expects: a negative value, and memory as it was. -/
def FailsClean (e : ExecEnv) (mem : ℕ → UInt8) (esp : ℕ) : Prop :=
  ∃ eax, e.exec mem esp = .ok (.returned eax mem) ∧ 2 ^ 31 ≤ eax

/-- Nothing comes back to the `return -1`. -/
theorem exec_not_returned (e : ExecEnv) (mem mem' : ℕ → UInt8) (esp eax : ℕ) :
    e.exec mem esp ≠ .ok (.returned eax mem') := by
  intro hexec
  obtain ⟨⟨esp', later⟩, -, hexec⟩ := bind_eq_ok hexec
  obtain ⟨found, -, hexec⟩ := bind_eq_ok hexec
  cases found with
  | none => cases hexec
  | some program =>
    obtain ⟨entry, -, hexec⟩ := bind_eq_ok hexec
    cases hexec

theorem exec_of_lookup {found : Option BlockIO} (hprepare : e.prepare mem esp = .ok (esp', later))
    (hlookup : e.lookup later esp = .ok found) : e.exec mem esp = e.enter esp' later found := by
  rw [exec, hprepare]
  show (e.lookup later esp >>= fun program => e.enter esp' later program) = _
  rw [hlookup]
  rfl

/-- No call that fails comes back to its caller: a path that is not found is a call through a null pointer, and a file
that is no program halts the kernel. -/
theorem exec_never_fails_clean (e : ExecEnv) (mem : ℕ → UInt8) (esp : ℕ) :
    ¬ e.FailsClean mem esp ∧ ∀ esp' later, e.prepare mem esp = .ok (esp', later) →
      (e.lookup later esp = .ok none → e.exec mem esp = .error .wild) ∧
      ∀ file, e.lookup later esp = .ok (some file) → ¬ ELF.Magic file.reader →
        e.exec mem esp = .error (.panic "file doesn't have correct magic numbers\n") := by
  constructor
  · rintro ⟨eax, hexec, -⟩
    exact exec_not_returned e mem mem esp eax hexec
  intro esp' later hprepare
  constructor
  · intro hnone
    rw [exec_of_lookup hprepare hnone]
    rfl
  · intro file hfile hmagic
    rw [exec_of_lookup hprepare hfile, enter, ELF.load_wrong (ELF.complete_reader ..) hmagic]
    rfl

/-- A process asks for "xy", and there is only "/a". -/
theorem missing_not_clean : onePath.exec oneArgument 0x80002004 = .error .wild ∧
    ¬ onePath.FailsClean oneArgument 0x80002004 := by
  have hrun : (onePath.prepare oneArgument 0x80002004).toOption.bind
      (fun r => (pathAt r.2 0x80002004).toOption) = some [120, 121] := by decide +kernel
  have hexec : onePath.exec oneArgument 0x80002004 = .error .wild := by
    cases hprepare : onePath.prepare oneArgument 0x80002004 with
    | error stop =>
      rw [hprepare] at hrun
      cases hrun
    | ok r =>
      rw [hprepare] at hrun
      have hpath : (pathAt r.2 0x80002004).toOption = some [120, 121] := hrun
      have hlookup : onePath.lookup r.2 0x80002004 = .ok none := by
        rw [lookup]
        cases hlater : pathAt r.2 0x80002004 with
        | error stop =>
          rw [hlater] at hpath
          cases hpath
        | ok path =>
          rw [hlater] at hpath
          obtain rfl := Option.some.inj hpath
          rfl
      rw [exec_of_lookup hprepare hlookup]
      rfl
  refine ⟨hexec, ?_⟩
  rintro ⟨eax, hreturned, -⟩
  rw [hexec] at hreturned
  cases hreturned

end ExecEnv
end AudioKernel
