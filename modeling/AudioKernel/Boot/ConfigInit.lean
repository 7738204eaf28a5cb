import AudioKernel.BlockIO

/-! `configInit` of `config.cc`: the processors and the ioAPIC that the ACPI tables list. -/
namespace AudioKernel.Acpi

/-- What the BIOS has said about memory before the kernel was entered. -/
structure MemInfo where
  ax : ℕ
  bx : ℕ
  cx : ℕ
  dx : ℕ

structure ApicInfo where
  processorId : ℕ
  apicId : ℕ
  flags : ℕ
  deriving DecidableEq

/-- `apicInfo` has 16 elements. A store to a higher index goes behind the array, as it would in the kernel. -/
structure Config where
  memSize : ℕ
  nOtherProcs : ℕ
  totalProcs : ℕ
  localAPIC : ℕ
  madtFlags : ℕ
  ioAPIC : ℕ
  apicInfo : ℕ → ApicInfo
  oemid : ℕ → UInt8

variable (mem : ℕ → UInt8)

/-- The number of `n` bytes at an address. Paging is off, and addresses wrap. -/
def load (a n : ℕ) : ℕ := uintAt (fun i => mem (i % 2 ^ 32)) a n

def iseq (a : ℕ) : List UInt8 → Bool
  | [] => true
  | c :: text => load mem a 1 = c.toNat && iseq (a + 1) text

def rsdSignature : List UInt8 := [0x52, 0x53, 0x44, 0x20, 0x50, 0x54, 0x52, 0x20]

def madtSignature : List UInt8 := [0x41, 0x50, 0x49, 0x43]

def findRSDInRange (start stop : ℕ) : ℕ :=
  (((List.range ((stop - start + 15) / 16)).map (start + 16 * ·)).find? fun p => iseq mem p rsdSignature).getD 0

def findRSD : ℕ :=
  let it := findRSDInRange mem 0xE0000 0x100000
  if it = 0 then
    let base := load mem 0x40E 2 * 16
    findRSDInRange mem base (base + 1024)
  else it

def findSDT (rsdp : ℕ) (name : List UInt8) : ℕ :=
  let rsdt := load mem (rsdp + 16) 4
  let entries := (load mem (rsdt + 4) 4 + 2 ^ 32 - 36) % 2 ^ 32 / 4
  (((List.range entries).map fun i => load mem (rsdt + 36 + 4 * i) 4).find? fun h => iseq mem h name).getD 0

def memAbove1M (memInfo : MemInfo) : Except Stop ℕ := do
  assert (memInfo.cx = 15 * 1024 ∨ memInfo.dx = 0) "(memInfo.cx == 15 * 1024) || (memInfo.dx == 0)"
  return (((memInfo.ax ||| memInfo.cx) <<< 10) + ((memInfo.bx ||| memInfo.dx) <<< 16)) % 2 ^ 32

/-- What the loop does with the entry that it looks at. -/
def record (entryPtr : ℕ) (config : Config) : Config :=
  if load mem entryPtr 1 = 0 then
    if load mem (entryPtr + 2) 1 = 0 then config
    else
      { config with
        nOtherProcs := (config.nOtherProcs + 1) % 2 ^ 32
        apicInfo := Function.update config.apicInfo config.nOtherProcs
          ⟨load mem (entryPtr + 2) 1, load mem (entryPtr + 3) 1, load mem (entryPtr + 4) 4⟩ }
  else if load mem entryPtr 1 = 1 then { config with ioAPIC := load mem (entryPtr + 4) 4 }
  else config

/-- The loop over the entries. It moves on before it looks at an entry. -/
def entriesLoop : ℕ → ℕ → ℤ → Config → Except Stop Config
  | 0, _, _, _ => .error .diverge
  | fuel + 1, entryPtr, bytesForEntries, config =>
    if bytesForEntries > 0 then
      let len := load mem (entryPtr + 1) 1
      let entryPtr := (entryPtr + len) % 2 ^ 32
      entriesLoop fuel entryPtr (bytesForEntries - len) (record mem entryPtr config)
    else .ok config

/-- The entries begin behind the 44 bytes of the head. An entry that is not empty takes a byte at least, so that
the loop has ended after as many turns as there are bytes, or goes on for ever. -/
def parseEntries (madt : ℕ) (config : Config) : Except Stop Config :=
  let bytesForEntries := ((load mem (madt + 4) 4 : ℤ) - 44).bmod (2 ^ 32)
  entriesLoop mem (bytesForEntries.toNat + 1) ((madt + 44) % 2 ^ 32) bytesForEntries { config with nOtherProcs := 0 }

def configInit (memInfo : MemInfo) (config : Config) : Except Stop Config := do
  let above ← memAbove1M memInfo
  let rsdp := findRSD mem
  let oemid := if rsdp = 0 then config.oemid else fun i => if i < 6 then mem ((rsdp + 9 + i) % 2 ^ 32) else 0
  let madt := findSDT mem rsdp madtSignature
  let config ← parseEntries mem madt
    { config with
      memSize := (above + 2 ^ 20) % 2 ^ 32
      oemid := oemid
      localAPIC := load mem (madt + 36) 4
      madtFlags := load mem (madt + 40) 4 }
  return { config with totalProcs := (config.nOtherProcs + 1) % 2 ^ 32 }

/-- The processor that an entry tells of. The boot processor has number 0. -/
def apic (p : ℕ) : Option ApicInfo :=
  if load mem p 1 = 0 ∧ load mem (p + 2) 1 ≠ 0 then
    some ⟨load mem (p + 2) 1, load mem (p + 3) 1, load mem (p + 4) 4⟩
  else none

/-- The address in an entry of type 1. -/
def ioApic (p : ℕ) : Option ℕ := if load mem p 1 = 1 then some (load mem (p + 4) 4) else none

/-- Entries of two bytes or more, at the addresses `ps`, fill `bytes` bytes from `p` on. -/
inductive Entries : ℕ → ℕ → List ℕ → Prop
  | nil (p : ℕ) : Entries p 0 []
  | cons {p bytes : ℕ} {ps : List ℕ} (two_le : 2 ≤ load mem (p + 1) 1) (len_le : load mem (p + 1) 1 ≤ bytes) :
      Entries ((p + load mem (p + 1) 1) % 2 ^ 32) (bytes - load mem (p + 1) 1) ps → Entries p bytes (p :: ps)

/-- A table with entries at the addresses `ps`. -/
structure WellFormed (madt : ℕ) (ps : List ℕ) : Prop where
  head_le : 44 ≤ load mem (madt + 4) 4
  entries : Entries mem ((madt + 44) % 2 ^ 32) (load mem (madt + 4) 4 - 44) ps
  room : (ps.filterMap (apic mem)).length ≤ 16

def Config.listed (config : Config) : List ApicInfo := (List.range config.nOtherProcs).map config.apicInfo

/-- The configuration has the processors and the ioAPIC of the table. -/
structure Config.Lists (config : Config) (ps : List ℕ) : Prop where
  processors : config.listed = ps.filterMap (apic mem)
  ioAPIC : ∀ a, ps.filterMap (ioApic mem) = [a] → config.ioAPIC = a

variable {mem}

theorem listed_record {config : Config} (p : ℕ) (h : config.nOtherProcs + 1 < 2 ^ 32) :
    (record mem p config).listed = config.listed ++ (apic mem p).toList := by
  have hupdate (info : ApicInfo) : (List.range config.nOtherProcs).map
      (Function.update config.apicInfo config.nOtherProcs info) = config.listed := by
    apply List.map_congr_left
    intro i hi
    exact Function.update_of_ne (Nat.ne_of_lt (List.mem_range.mp hi)) _ _
  unfold record apic
  by_cases htype : load mem p 1 = 0
  · by_cases hid : load mem (p + 2) 1 = 0
    · simp [htype, hid]
    · rw [if_pos htype, if_neg hid, if_pos ⟨htype, hid⟩]
      simp only [Config.listed, Nat.mod_eq_of_lt h, List.range_succ, List.map_append, hupdate]
      simp
  · have hnone : ¬ (load mem p 1 = 0 ∧ load mem (p + 2) 1 ≠ 0) := fun hproc => htype hproc.1
    rw [if_neg htype, if_neg hnone, Option.toList_none, List.append_nil]
    split_ifs <;> rfl

theorem ioAPIC_record (config : Config) (p : ℕ) :
    (record mem p config).ioAPIC = (ioApic mem p).getD config.ioAPIC := by
  unfold record ioApic
  split_ifs with h₁ h₂ h₃ h₃ <;> simp_all

theorem Entries.bytes_eq_zero {p bytes : ℕ} (h : Entries mem p bytes []) : bytes = 0 := by
  cases h
  rfl

theorem Entries.head_eq {p q bytes : ℕ} {ps : List ℕ} (h : Entries mem p bytes (q :: ps)) : q = p := by
  cases h
  rfl

/-- The loop records every entry but the first, and whatever is behind the table as the last. -/
def visited (ps : List ℕ) (after : ℕ) : List ℕ := if ps = [] then [] else ps.tail ++ [after]

theorem entriesLoop_spec {p bytes : ℕ} {ps : List ℕ} (h : Entries mem p bytes ps) {fuel : ℕ} (hfuel : bytes < fuel)
    (config : Config) : entriesLoop mem fuel p bytes config =
      .ok ((visited ps ((p + bytes) % 2 ^ 32)).foldl (fun c p => record mem p c) config) := by
  induction h generalizing fuel config with
  | nil p =>
    obtain ⟨fuel, rfl⟩ : ∃ n, fuel = n + 1 := ⟨fuel - 1, by omega⟩
    rfl
  | @cons p bytes ps two_le len_le hrest ih =>
    obtain ⟨fuel, rfl⟩ : ∃ n, fuel = n + 1 := ⟨fuel - 1, by omega⟩
    have hend : ((p + load mem (p + 1) 1) % 2 ^ 32 + (bytes - load mem (p + 1) 1)) % 2 ^ 32 = (p + bytes) % 2 ^ 32 := by
      omega
    have hbytes : ((bytes : ℤ) - (load mem (p + 1) 1 : ℤ)) = ((bytes - load mem (p + 1) 1 : ℕ) : ℤ) := by omega
    rw [entriesLoop, if_pos (by omega)]
    show entriesLoop mem fuel _ ((bytes : ℤ) - (load mem (p + 1) 1 : ℤ)) _ = _
    rw [hbytes, ih (by omega), hend]
    cases ps with
    | nil =>
      have hzero := hrest.bytes_eq_zero
      have hlen : bytes = load mem (p + 1) 1 := by omega
      simp [visited, hlen]
    | cons q qs =>
      obtain rfl := hrest.head_eq
      simp [visited]

theorem length_visited (ps : List ℕ) (after : ℕ) : (visited ps after).length = ps.length := by
  cases ps with
  | nil => rfl
  | cons first rest => simp [visited]

theorem listed_foldl (ps : List ℕ) (config : Config) (h : config.nOtherProcs + ps.length < 2 ^ 32) :
    (ps.foldl (fun c p => record mem p c) config).listed = config.listed ++ ps.filterMap (apic mem) := by
  induction ps generalizing config with
  | nil => simp
  | cons p ps ih =>
    rw [List.length_cons] at h
    have hlisted : (record mem p config).listed = config.listed ++ (apic mem p).toList := listed_record p (by omega)
    have hcount : (record mem p config).nOtherProcs ≤ config.nOtherProcs + 1 := by
      unfold record
      split_ifs
      · exact Nat.le_succ _
      · exact Nat.mod_le _ _
      · exact Nat.le_succ _
      · exact Nat.le_succ _
    rw [List.foldl_cons, ih _ (by omega), hlisted, List.append_assoc]
    cases happ : apic mem p <;> simp [happ]

theorem ioAPIC_foldl (ps : List ℕ) (config : Config) :
    (ps.foldl (fun c p => record mem p c) config).ioAPIC =
      (ps.filterMap (ioApic mem)).getLast?.getD config.ioAPIC := by
  induction ps generalizing config with
  | nil => rfl
  | cons p ps ih =>
    rw [List.foldl_cons, ih, ioAPIC_record]
    cases hio : ioApic mem p with
    | none => simp [hio]
    | some a => simp [hio, List.getLast?_cons]

theorem Entries.length_le {p bytes : ℕ} {ps : List ℕ} (h : Entries mem p bytes ps) : 2 * ps.length ≤ bytes := by
  induction h with
  | nil p => exact Nat.zero_le _
  | cons two_le len_le _ ih =>
    rw [List.length_cons]
    omega

/-- Leaving out the first entry and taking in what is behind the table makes no difference. -/
def Harmless (mem : ℕ → UInt8) (old : ℕ) : List ℕ → ℕ → Prop
  | [], _ => True
  | first :: rest, after =>
    apic mem first = apic mem after ∧ (∀ a, apic mem first = some a → ∀ b ∈ rest.filterMap (apic mem), b = a) ∧
      ∀ a, (first :: rest).filterMap (ioApic mem) = [a] →
        ioApic mem after = some a ∨ ioApic mem after = none ∧ (ioApic mem first = none ∨ old = a)

theorem cons_eq_concat_iff {α : Type} {a b : α} {xs : List α} : a :: xs = xs ++ [b] ↔ a = b ∧ ∀ c ∈ xs, c = a := by
  induction xs generalizing a with
  | nil => simp
  | cons x xs ih =>
    rw [List.cons_append, List.cons.injEq, ih, List.forall_mem_cons]
    constructor
    · rintro ⟨rfl, rfl, hall⟩
      exact ⟨rfl, rfl, hall⟩
    · rintro ⟨rfl, rfl, hall⟩
      exact ⟨rfl, rfl, hall⟩

theorem processors_shift_iff {first after : ℕ} {rest : List ℕ} :
    (rest ++ [after]).filterMap (apic mem) = (first :: rest).filterMap (apic mem) ↔
      apic mem first = apic mem after ∧ ∀ a, apic mem first = some a → ∀ b ∈ rest.filterMap (apic mem), b = a := by
  rw [List.filterMap_append]
  cases hfirst : apic mem first with
  | none =>
    cases hafter : apic mem after with
    | none => simp [hfirst, hafter]
    | some b => simp [hfirst, hafter]
  | some a =>
    cases hafter : apic mem after with
    | none => simp [hfirst, hafter]
    | some b =>
      rw [List.filterMap_cons_some hfirst, eq_comm]
      simp only [List.filterMap_cons_some hafter, List.filterMap_nil, cons_eq_concat_iff, Option.some.injEq]
      constructor
      · rintro ⟨hab, hall⟩
        refine ⟨hab, ?_⟩
        rintro _ rfl
        exact hall
      · rintro ⟨hab, hall⟩
        exact ⟨hab, hall a rfl⟩

theorem ioAPIC_shift_iff {first after old : ℕ} {rest : List ℕ} :
    (∀ a, (first :: rest).filterMap (ioApic mem) = [a] →
      (((rest ++ [after]).filterMap (ioApic mem)).getLast?.getD old = a)) ↔
    ∀ a, (first :: rest).filterMap (ioApic mem) = [a] →
      ioApic mem after = some a ∨ ioApic mem after = none ∧ (ioApic mem first = none ∨ old = a) := by
  apply forall_congr'
  intro a
  apply imp_congr_right
  intro honly
  rw [List.filterMap_append]
  cases hafter : ioApic mem after with
  | some b => simp [hafter]
  | none =>
    cases hfirst : ioApic mem first with
    | none =>
      rw [List.filterMap_cons_none hfirst] at honly
      simp [hafter, honly]
    | some b =>
      rw [List.filterMap_cons_some hfirst, List.cons.injEq] at honly
      simp [hafter, honly.2]

def behind (mem : ℕ → UInt8) (madt : ℕ) : ℕ := (madt + load mem (madt + 4) 4) % 2 ^ 32

/-- The entries that are recorded. The length of a table of 2 GB or more is taken for a negative number. -/
def seen (mem : ℕ → UInt8) (madt : ℕ) (ps : List ℕ) : List ℕ :=
  if load mem (madt + 4) 4 - 44 < 2 ^ 31 then visited ps (behind mem madt) else []

theorem load_lt (a n : ℕ) : load mem a n < 256 ^ n := uintAt_lt _ a n

theorem parseEntries_spec {madt : ℕ} {ps : List ℕ} (hhead : 44 ≤ load mem (madt + 4) 4)
    (hentries : Entries mem ((madt + 44) % 2 ^ 32) (load mem (madt + 4) 4 - 44) ps) (config : Config) :
    parseEntries mem madt config =
      .ok ((seen mem madt ps).foldl (fun c p => record mem p c) { config with nOtherProcs := 0 }) := by
  have hlt : load mem (madt + 4) 4 < 2 ^ 32 := load_lt _ 4
  have hend : ((madt + 44) % 2 ^ 32 + (load mem (madt + 4) 4 - 44)) % 2 ^ 32 = behind mem madt := by
    unfold behind
    omega
  unfold seen
  split_ifs with hsmall
  · have hbytes : ((load mem (madt + 4) 4 : ℤ) - 44).bmod (2 ^ 32) = ((load mem (madt + 4) 4 - 44 : ℕ) : ℤ) := by
      rw [Int.bmod_def]
      omega
    unfold parseEntries
    rw [hbytes, entriesLoop_spec hentries (by omega), hend]
  · have hnegative : ((load mem (madt + 4) 4 : ℤ) - 44).bmod (2 ^ 32) ≤ 0 := by
      rw [Int.bmod_def]
      omega
    unfold parseEntries
    simp only [entriesLoop]
    rw [if_neg (by omega)]
    rfl

/-- Leaving out the first entry and taking in what is behind the table makes no difference; or nothing is listed in a
table that is too long. -/
def Lucky (mem : ℕ → UInt8) (madt old : ℕ) (ps : List ℕ) : Prop :=
  if load mem (madt + 4) 4 - 44 < 2 ^ 31 then Harmless mem old ps (behind mem madt)
  else ps.filterMap (apic mem) = [] ∧ ∀ a, ps.filterMap (ioApic mem) = [a] → old = a

theorem parse_lists_iff {madt : ℕ} {ps : List ℕ} {config config' : Config} (hwf : WellFormed mem madt ps)
    (h : parseEntries mem madt config = .ok config') : config'.Lists mem ps ↔ Lucky mem madt config.ioAPIC ps := by
  rw [parseEntries_spec hwf.head_le hwf.entries] at h
  obtain rfl := Except.ok.inj h
  have hlength := hwf.entries.length_le
  have hlt : load mem (madt + 4) 4 < 2 ^ 32 := load_lt _ 4
  have hseen : (seen mem madt ps).length ≤ ps.length := by
    unfold seen
    split_ifs
    · exact Nat.le_of_eq (length_visited _ _)
    · exact Nat.zero_le _
  have hlisted := @listed_foldl mem (seen mem madt ps) { config with nOtherProcs := 0 } (by
    show 0 + _ < _
    omega)
  have hempty : ({ config with nOtherProcs := 0 } : Config).listed = [] := rfl
  rw [hempty, List.nil_append] at hlisted
  have hio := @ioAPIC_foldl mem (seen mem madt ps) { config with nOtherProcs := 0 }
  have hsplit : ((seen mem madt ps).foldl (fun c p => record mem p c) { config with nOtherProcs := 0 }).Lists mem ps ↔
      (seen mem madt ps).filterMap (apic mem) = ps.filterMap (apic mem) ∧
        ∀ a, ps.filterMap (ioApic mem) = [a] →
          ((seen mem madt ps).filterMap (ioApic mem)).getLast?.getD config.ioAPIC = a := by
    constructor
    · rintro ⟨hprocs, hioAPIC⟩
      rw [hlisted] at hprocs
      rw [hio] at hioAPIC
      exact ⟨hprocs, hioAPIC⟩
    · rintro ⟨hprocs, hioAPIC⟩
      refine ⟨by rw [hlisted, hprocs], ?_⟩
      rw [hio]
      exact hioAPIC
  rw [hsplit]
  unfold Lucky seen
  split_ifs with hsmall
  · cases ps with
    | nil => simp [visited, Harmless]
    | cons first rest =>
      have hvisited : visited (first :: rest) (behind mem madt) = rest ++ [behind mem madt] := by simp [visited]
      rw [hvisited, processors_shift_iff, ioAPIC_shift_iff, Harmless, and_assoc]
  · rw [eq_comm]
    rfl

theorem load_congr {mem' : ℕ → UInt8} {a n : ℕ} (h : ∀ i < n, mem' ((a + i) % 2 ^ 32) = mem ((a + i) % 2 ^ 32)) :
    load mem' a n = load mem a n := by
  apply uintAt_congr
  intro i hlo hhi
  have hi := h (i - a) (by omega)
  rwa [Nat.add_sub_cancel' hlo] at hi

def SameTable (mem mem' : ℕ → UInt8) (madt : ℕ) : Prop :=
  ∀ i < load mem (madt + 4) 4, mem' ((madt + i) % 2 ^ 32) = mem ((madt + i) % 2 ^ 32)

theorem Entries.congr {mem' : ℕ → UInt8} {madt k bytes : ℕ} {ps : List ℕ}
    (h : Entries mem ((madt + k) % 2 ^ 32) bytes ps)
    (hsame : ∀ i < k + bytes, mem' ((madt + i) % 2 ^ 32) = mem ((madt + i) % 2 ^ 32)) :
    Entries mem' ((madt + k) % 2 ^ 32) bytes ps := by
  obtain ⟨p, hp⟩ : ∃ p, (madt + k) % 2 ^ 32 = p := ⟨_, rfl⟩
  rw [hp] at h ⊢
  induction h generalizing k with
  | nil p => exact .nil p
  | @cons p bytes ps two_le len_le _ ih =>
    have hlen : load mem' (p + 1) 1 = load mem (p + 1) 1 := by
      apply load_congr
      intro i hi
      have haddr : (p + 1 + i) % 2 ^ 32 = (madt + (k + 1)) % 2 ^ 32 := by omega
      rw [haddr]
      exact hsame _ (by omega)
    have hnext : (madt + (k + load mem (p + 1) 1)) % 2 ^ 32 = (p + load mem (p + 1) 1) % 2 ^ 32 := by omega
    refine .cons (by rwa [hlen]) (by rwa [hlen]) ?_
    rw [hlen]
    exact ih (k := k + load mem (p + 1) 1) (fun i hi => hsame i (by omega)) hnext

/-- The table in a memory that has an entry of type 1 behind it, with `v` in every byte of its address. -/
def withIoApic (mem : ℕ → UInt8) (madt : ℕ) (v : UInt8) (a : ℕ) : UInt8 :=
  if (a + 2 ^ 32 - madt % 2 ^ 32) % 2 ^ 32 < load mem (madt + 4) 4 then mem a
  else if a = behind mem madt then 1
  else v

theorem withIoApic_sameTable (madt : ℕ) (v : UInt8) : SameTable mem (withIoApic mem madt v) madt := by
  intro i hi
  have hlt : load mem (madt + 4) 4 < 2 ^ 32 := load_lt _ 4
  unfold withIoApic
  rw [if_pos (by omega)]

theorem SameTable.size_eq {mem' : ℕ → UInt8} {madt : ℕ} (hsame : SameTable mem mem' madt)
    (hhead : 44 ≤ load mem (madt + 4) 4) : load mem' (madt + 4) 4 = load mem (madt + 4) 4 := by
  apply load_congr
  intro i hi
  rw [Nat.add_assoc]
  exact hsame _ (by omega)

theorem load_eq (a n : ℕ) : load mem a n = uintAt (fun i => mem ((a + i) % 2 ^ 32)) 0 n :=
  (uintAt_shift (fun i => mem (i % 2 ^ 32)) a 0 n).symm

theorem withIoApic_behind {madt i : ℕ} (v : UInt8) (hsmall : load mem (madt + 4) 4 - 44 < 2 ^ 31) (hi : i < 8) :
    withIoApic mem madt v ((behind mem madt + i) % 2 ^ 32) = if i = 0 then 1 else v := by
  have houtside : ¬ ((behind mem madt + i) % 2 ^ 32 + 2 ^ 32 - madt % 2 ^ 32) % 2 ^ 32 < load mem (madt + 4) 4 := by
    unfold behind
    omega
  unfold withIoApic
  rw [if_neg houtside]
  by_cases hzero : i = 0
  · rw [if_pos hzero, if_pos (by unfold behind; omega)]
  · rw [if_neg hzero, if_neg (by unfold behind; omega)]

theorem ioApic_withIoApic {madt : ℕ} (v : UInt8) (hsmall : load mem (madt + 4) 4 - 44 < 2 ^ 31) :
    ioApic (withIoApic mem madt v) (behind mem madt) = some (uintAt (fun _ => v) 0 4) := by
  have htype : load (withIoApic mem madt v) (behind mem madt) 1 = 1 := by
    rw [load_eq]
    simp only [uintAt, withIoApic_behind v hsmall (show 0 < 8 by decide), if_pos]
    rfl
  have haddress : load (withIoApic mem madt v) (behind mem madt + 4) 4 = uintAt (fun _ => v) 0 4 := by
    rw [load_eq]
    apply uintAt_congr
    intro i _ hi
    rw [Nat.add_assoc, withIoApic_behind v hsmall (by omega), if_neg (by omega)]
  rw [ioApic, if_pos htype, haddress]

/-- As soon as the table has an entry, what is behind it decides on the address of the ioAPIC. -/
theorem parse_independent_iff {madt : ℕ} {ps : List ℕ} (hhead : 44 ≤ load mem (madt + 4) 4)
    (hentries : Entries mem ((madt + 44) % 2 ^ 32) (load mem (madt + 4) 4 - 44) ps) (config : Config) :
    (∀ mem', SameTable mem mem' madt → parseEntries mem' madt config = parseEntries mem madt config) ↔
      ps = [] ∨ 2 ^ 31 ≤ load mem (madt + 4) 4 - 44 := by
  have hspec {mem' : ℕ → UInt8} (hsame : SameTable mem mem' madt) : parseEntries mem' madt config =
      .ok ((seen mem' madt ps).foldl (fun c p => record mem' p c) { config with nOtherProcs := 0 }) := by
    apply parseEntries_spec
    · rw [hsame.size_eq hhead]
      exact hhead
    · rw [hsame.size_eq hhead]
      exact hentries.congr fun i hi => hsame i (by omega)
  constructor
  · intro hindependent
    by_contra hnot
    obtain ⟨hne, hsmall⟩ := not_or.mp hnot
    have hsmall' : load mem (madt + 4) 4 - 44 < 2 ^ 31 := by omega
    -- the last entry that the loop looks at is the one behind the table
    have hlast (v : UInt8) : ∃ c, parseEntries (withIoApic mem madt v) madt config = .ok c ∧
        c.ioAPIC = uintAt (fun _ => v) 0 4 := by
      have hsame := @withIoApic_sameTable mem madt v
      have hseen : seen (withIoApic mem madt v) madt ps = ps.tail ++ [behind mem madt] := by
        unfold seen behind
        rw [hsame.size_eq hhead, if_pos hsmall', visited, if_neg hne]
      refine ⟨_, hspec hsame, ?_⟩
      rw [hseen, List.foldl_append, List.foldl_cons, List.foldl_nil, ioAPIC_record, ioApic_withIoApic v hsmall']
      rfl
    obtain ⟨c, hc, hio⟩ := hlast 0
    obtain ⟨c', hc', hio'⟩ := hlast 1
    have hself := hindependent _ (withIoApic_sameTable madt 0)
    have hself' := hindependent _ (withIoApic_sameTable madt 1)
    have heq : c = c' := by
      rw [hself] at hc
      rw [hself', hc] at hc'
      exact Except.ok.inj hc'
    rw [heq, hio'] at hio
    exact absurd hio (by decide)
  · intro hnothing mem' hsame
    have hnone {mem' : ℕ → UInt8} (hsame : SameTable mem mem' madt) : seen mem' madt ps = [] := by
      unfold seen
      rw [hsame.size_eq hhead]
      rcases hnothing with rfl | hlarge
      · simp [visited]
      · rw [if_neg (by omega)]
    have hself : SameTable mem mem madt := fun _ _ => rfl
    rw [hspec hsame, hspec hself, hnone hsame, hnone hself]
    rfl

/-- The total is not among them. -/
theorem lists_totalProcs {config : Config} {n : ℕ} {ps : List ℕ} :
    ({ config with totalProcs := n } : Config).Lists mem ps ↔ config.Lists mem ps :=
  ⟨fun h => ⟨h.processors, h.ioAPIC⟩, fun h => ⟨h.processors, h.ioAPIC⟩⟩

/-- The processors and the ioAPIC come out right just when the first entry, which is left out, and what is behind the
table, which is taken for an entry, make no difference; and only a table without entries is read on its own. -/
theorem configInit_lists_iff (memInfo : MemInfo) (config : Config) {ps : List ℕ}
    (hmem : memInfo.cx = 15 * 1024 ∨ memInfo.dx = 0)
    (hwf : WellFormed mem (findSDT mem (findRSD mem) madtSignature) ps) :
    ((∃ config', configInit mem memInfo config = .ok config' ∧ config'.Lists mem ps) ↔
      Lucky mem (findSDT mem (findRSD mem) madtSignature) config.ioAPIC ps) ∧
    ((∀ mem', SameTable mem mem' (findSDT mem (findRSD mem) madtSignature) →
        parseEntries mem' (findSDT mem (findRSD mem) madtSignature) config =
          parseEntries mem (findSDT mem (findRSD mem) madtSignature) config) ↔
      ps = [] ∨ 2 ^ 31 ≤ load mem (findSDT mem (findRSD mem) madtSignature + 4) 4 - 44) := by
  refine ⟨?_, parse_independent_iff hwf.head_le hwf.entries config⟩
  obtain ⟨start, hinit, hio⟩ : ∃ start : Config, configInit mem memInfo config =
      (do
        let config ← parseEntries mem (findSDT mem (findRSD mem) madtSignature) start
        return { config with totalProcs := (config.nOtherProcs + 1) % 2 ^ 32 }) ∧ start.ioAPIC = config.ioAPIC := by
    unfold configInit memAbove1M
    rw [assert_pos hmem]
    exact ⟨_, rfl, rfl⟩
  have hparse := parseEntries_spec hwf.head_le hwf.entries start
  rw [← hio, ← parse_lists_iff hwf hparse, hinit, hparse]
  constructor
  · rintro ⟨config', hok, hlists⟩
    obtain rfl := Except.ok.inj hok
    exact lists_totalProcs.mp hlists
  · intro hlists
    exact ⟨_, rfl, lists_totalProcs.mpr hlists⟩

/-- The ACPI tables of a small machine: the root pointer at 0xE0000, the root table at 0x1000 and the MADT at 0x2000. -/
def tables (entries : List UInt8) (a : ℕ) : UInt8 :=
  let zeros n : List UInt8 := List.replicate n 0
  if 0xE0000 ≤ a then (rsdSignature ++ zeros 8 ++ [0, 0x10, 0, 0]).getD (a - 0xE0000) 0
  else if 0x2000 ≤ a then
    (madtSignature ++ [UInt8.ofNat (44 + entries.length)] ++ zeros 39 ++ entries).getD (a - 0x2000) 0
  else if 0x1000 ≤ a then (zeros 4 ++ [40] ++ zeros 31 ++ [0, 0x20, 0, 0]).getD (a - 0x1000) 0
  else 0

def smallMemory : MemInfo := ⟨15 * 1024, 0x700, 15 * 1024, 0x700⟩

def zeroConfig : Config := ⟨0, 0, 0, 0, 0, 0, fun _ => ⟨0, 0, 0⟩, fun _ => 0⟩

/-- The boot processor, another one and the ioAPIC. -/
def threeEntries : List UInt8 := [0, 8, 0, 0, 1, 0, 0, 0, 0, 8, 1, 1, 1, 0, 0, 0, 1, 12, 2, 0, 0, 0, 0xC0, 0xFE, 0, 0, 0, 0]

theorem threeEntries_madt : findSDT (tables threeEntries) (findRSD (tables threeEntries)) madtSignature = 0x2000 := by
  decide +kernel

theorem threeEntries_wellFormed : WellFormed (tables threeEntries) 0x2000 [0x202C, 0x2034, 0x203C] where
  head_le := by decide +kernel
  entries := by
    refine .cons (by decide +kernel) (by decide +kernel) (.cons (by decide +kernel) (by decide +kernel) ?_)
    exact .cons (by decide +kernel) (by decide +kernel) (.nil _)
  room := by decide +kernel

theorem threeEntries_listed : ∃ config, configInit (tables threeEntries) smallMemory zeroConfig = .ok config ∧
    config.Lists (tables threeEntries) [0x202C, 0x2034, 0x203C] := by
  have hwf := threeEntries_wellFormed
  rw [← threeEntries_madt] at hwf
  refine (configInit_lists_iff smallMemory zeroConfig (.inl rfl) hwf).1.mpr ?_
  have hfirst : apic (tables threeEntries) 0x202C = none ∧ ioApic (tables threeEntries) 0x202C = none := by
    decide +kernel
  have hbehind : apic (tables threeEntries) 0x2048 = none ∧ ioApic (tables threeEntries) 0x2048 = none := by
    decide +kernel
  have hend : behind (tables threeEntries) 0x2000 = 0x2048 := by decide +kernel
  rw [threeEntries_madt, Lucky, if_pos (by decide +kernel), hend, Harmless, hfirst.1, hfirst.2, hbehind.1, hbehind.2]
  simp

/-- A table whose first entry is another processor, which the loop passes over. -/
theorem firstProcessor_missed : WellFormed (tables [0, 8, 1, 1, 1, 0, 0, 0]) 0x2000 [0x202C] ∧
    findSDT (tables [0, 8, 1, 1, 1, 0, 0, 0]) (findRSD (tables [0, 8, 1, 1, 1, 0, 0, 0])) madtSignature = 0x2000 ∧
    ¬ ∃ config, configInit (tables [0, 8, 1, 1, 1, 0, 0, 0]) smallMemory zeroConfig = .ok config ∧
      config.Lists (tables [0, 8, 1, 1, 1, 0, 0, 0]) [0x202C] := by
  refine ⟨⟨by decide +kernel, ?_, by decide +kernel⟩, by decide +kernel, ?_⟩
  · exact .cons (by decide +kernel) (by decide +kernel) (.nil _)
  · rintro ⟨config, hok, hlists⟩
    have hcount : (configInit (tables [0, 8, 1, 1, 1, 0, 0, 0]) smallMemory zeroConfig).toOption.map
        Config.nOtherProcs = some 0 := by decide +kernel
    rw [hok] at hcount
    have hnone : config.nOtherProcs = 0 := Option.some.inj hcount
    have hone : [0x202C].filterMap (apic (tables [0, 8, 1, 1, 1, 0, 0, 0])) = [⟨1, 1, 1⟩] := by decide +kernel
    have hprocs := hlists.processors
    rw [hone, Config.listed, hnone] at hprocs
    cases hprocs

end AudioKernel.Acpi
