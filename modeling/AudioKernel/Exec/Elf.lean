import AudioKernel.Lib.ForLoop
import AudioKernel.Lib.Traced
import AudioKernel.Sys.Confinement
import Mathlib.Data.List.Pairwise

/-! `ELF::load` of `elf.cc`: where it stores, and the image that it builds. -/
namespace AudioKernel
open Lib

structure ElfHeader where
  magic0 : UInt8
  magic1 : UInt8
  magic2 : UInt8
  magic3 : UInt8
  entry : ℕ
  phoff : ℕ
  phnum : ℕ

def ElfHeader.decode (bytes : ℕ → UInt8) : ElfHeader where
  magic0 := bytes 0
  magic1 := bytes 1
  magic2 := bytes 2
  magic3 := bytes 3
  entry := uintAt bytes 24 4
  phoff := uintAt bytes 28 4
  phnum := uintAt bytes 44 2

structure ProgramHeader where
  type : ℕ
  offset : ℕ
  vaddr : ℕ
  filesz : ℕ
  memsz : ℕ
  deriving DecidableEq

namespace ProgramHeader

def decode (bytes : ℕ → UInt8) (k : ℕ) : ProgramHeader where
  type := uintAt bytes (32 * k) 4
  offset := uintAt bytes (32 * k + 4) 4
  vaddr := uintAt bytes (32 * k + 8) 4
  filesz := uintAt bytes (32 * k + 16) 4
  memsz := uintAt bytes (32 * k + 20) 4

def Covers (p : ProgramHeader) (a : ℕ) : Prop := p.vaddr ≤ a ∧ a < p.vaddr + p.memsz

def Apart (p q : ProgramHeader) : Prop := ∀ a, ¬ (p.Covers a ∧ q.Covers a)

instance : Std.Symm Apart where
  symm _ _ h a hcovers := h a hcovers.symm

end ProgramHeader

/-- The stack of the kernel when `load` makes its table, which may go down to `lowest`: what the calls under it need is
set aside. -/
structure KernelStack where
  lowest : ℕ
  sp : ℕ
  lowest_pos : 0 < lowest
  lowest_le : lowest ≤ sp
  sp_le : sp ≤ 0x80000000

namespace BlockReader

variable {d : BlockReader} {offset m n buffer : ℕ}

instance (i : ℕ) : Decidable (d.Served offset m i) :=
  match h : d.fetch offset m ((offset + i) / d.blockSize) with
  | .ok bytes => .isTrue ⟨bytes, h⟩
  | .error _ => .isFalse fun ⟨_, hbytes⟩ => nomatch h.symm.trans hbytes

/-- How many of `m` bytes are delivered before the first that is not. -/
def delivered (d : BlockReader) (offset m : ℕ) : ℕ := (scan (fun i => !decide (d.Served offset m i)) m 0).getD m

theorem delivered_eq {j : ℕ} (hj : j < m) (hserved : ∀ i < j, d.Served offset m i) (hnot : ¬ d.Served offset m j) :
    d.delivered offset m = j := by
  have hscan : scan (fun i => !decide (d.Served offset m i)) m 0 = some j :=
    scan_eq_some_iff.mpr ⟨Nat.zero_le j, by omega, by simp [hnot], fun i _ hi => by simp [hserved i hi]⟩
  rw [delivered, hscan, Option.getD_some]

theorem delivered_of_served (hserved : ∀ i < m, d.Served offset m i) : d.delivered offset m = m := by
  unfold delivered
  cases hscan : scan (fun i => !decide (d.Served offset m i)) m 0 with
  | none => rfl
  | some j =>
    obtain ⟨-, hj, hstop, -⟩ := scan_eq_some_iff.mp hscan
    simp [hserved j (by omega)] at hstop

/-- What `read_all` comes to. It stores what is delivered, and returns just when this is all there is. -/
theorem reading_spec (d : BlockReader) (offset buffer : ℕ) (hn : n < 2 ^ 32) :
    (d.reading offset n buffer).stores =
        d.slice offset buffer (d.delivered offset (min n (d.sizeInBytes - offset))) ∧
      (d.delivered offset (min n (d.sizeInBytes - offset)) = min n (d.sizeInBytes - offset) ↔
        ∃ count, (d.reading offset n buffer).count = .ok count) := by
  by_cases hoff : offset ≤ d.sizeInBytes
  · obtain ⟨more, -, -, ⟨hserved, hcount, hstores⟩ | ⟨e, j, hj, hserved, hfail, hcount, hstores⟩⟩ :=
      d.reading_delivers buffer hn hoff
    · rw [delivered_of_served hserved]
      exact ⟨hstores, iff_of_true rfl ⟨_, hcount⟩⟩
    · have hnot : ¬ d.Served offset (min n (d.sizeInBytes - offset)) j := by
        rintro ⟨bytes, hbytes⟩
        rw [hfail] at hbytes
        cases hbytes
      rw [delivered_eq hj hserved hnot]
      refine ⟨hstores, iff_of_false (by omega) ?_⟩
      rintro ⟨count, hok⟩
      rw [hcount] at hok
      cases hok
  · have hnone : min n (d.sizeInBytes - offset) = 0 := by omega
    rw [hnone]
    have hzero : d.delivered offset 0 = 0 := rfl
    rw [hzero]
    by_cases hpos : 0 < n
    · rw [reading_past_end buffer hpos (by omega)]
      exact ⟨rfl, iff_of_true rfl ⟨_, rfl⟩⟩
    · obtain rfl : n = 0 := by omega
      exact ⟨rfl, iff_of_true rfl ⟨_, rfl⟩⟩

end BlockReader

namespace ELF

/-- What a buffer of the kernel has that was zero before a read of the file. -/
def fetch (file : BlockReader) (offset n : ℕ) : Except Stop (ℕ → UInt8) := do
  let r ← file.readAll offset n 0
  return r.stores.apply fun _ => 0

/-- The array of headers, which is zeroed. A table that is too large for the stack begins below it, and nothing is
known of what follows. -/
def makeTable (stack : KernelStack) (phnum : ℕ) : Traced (ℕ × UInt8) Stop Unit :=
  if stack.lowest + 32 * phnum ≤ stack.sp then pure ()
  else
    ⟨Stores.consecutive ((stack.sp + 2 ^ 32 - 32 * phnum) % 2 ^ 32) (fun _ => 0)
      (stack.lowest + 32 * phnum - stack.sp), .error .wild⟩

def readTo (file : BlockReader) (offset n dest : ℕ) : Traced (ℕ × UInt8) Stop Unit :=
  ⟨(file.reading offset n dest).stores, (file.reading offset n dest).count.map fun _ => ()⟩

def loadSegments (file : BlockReader) : List ProgramHeader → Traced (ℕ × UInt8) Stop Unit
  | [] => pure ()
  | p :: table =>
    if p.type = 1 then do
      readTo file p.offset p.filesz p.vaddr
      loadSegments file table
    else loadSegments file table

/-- What follows when the header has been read. -/
def loadProgram (stack : KernelStack) (file : BlockReader) (head : ElfHeader) : Traced (ℕ × UInt8) Stop ℕ :=
  if head.magic0 ≠ 0x7F ∨ head.magic1 ≠ 69 ∨ head.magic2 ≠ 76 ∨ head.magic3 ≠ 70 then
    Traced.lift (.error (.panic "file doesn't have correct magic numbers\n"))
  else do
    makeTable stack head.phnum
    let bytes ← Traced.lift (fetch file head.phoff (32 * head.phnum))
    loadSegments file ((List.range head.phnum).map (ProgramHeader.decode bytes))
    return head.entry

/-- The entry point. The events are the bytes stored to memory that is not the loader's own. `granted` says whether
`malloc` finds the `ElfHeader`. -/
def load (stack : KernelStack) (granted : Bool) (file : BlockReader) : Traced (ℕ × UInt8) Stop ℕ := do
  Traced.lift (newArray granted)
  let bytes ← Traced.lift (fetch file 0 52)
  loadProgram stack file (.decode bytes)

/-- How many bytes there are in the file from `offset` on, `n` at most. -/
def present (file : BlockReader) (offset n : ℕ) : ℕ := min n (file.sizeInBytes - offset)

def loaded (file : BlockReader) (offset n : ℕ) : ℕ := file.delivered offset (present file offset n)

def Complete (file : BlockReader) (offset n : ℕ) : Prop := loaded file offset n = present file offset n

instance (file : BlockReader) (offset n : ℕ) : Decidable (Complete file offset n) :=
  inferInstanceAs (Decidable (_ = _))

/-- The bytes of a file from `offset` on, `n` at most, and zeros after them. -/
def padded (file : BlockReader) (offset n i : ℕ) : UInt8 :=
  if i < present file offset n then file.byte (offset + i) else 0

def header (file : BlockReader) : ElfHeader := .decode (padded file 0 52)

def Magic (file : BlockReader) : Prop :=
  (header file).magic0 = 0x7F ∧ (header file).magic1 = 69 ∧ (header file).magic2 = 76 ∧ (header file).magic3 = 70

instance (file : BlockReader) : Decidable (Magic file) := inferInstanceAs (Decidable (_ ∧ _ ∧ _ ∧ _))

def table (file : BlockReader) : List ProgramHeader :=
  (List.range (header file).phnum).map
    (ProgramHeader.decode (padded file (header file).phoff (32 * (header file).phnum)))

/-- The loadable segments of a file, in the order of the table. -/
def segments (file : BlockReader) : List ProgramHeader := (table file).filter fun p => p.type = 1

/-- The segments up to the first that cannot be read to its end. -/
def reached (file : BlockReader) : List ProgramHeader → List ProgramHeader
  | [] => []
  | p :: ps => p :: if Complete file p.offset p.filesz then reached file ps else []

/-- The stores for the segments, one after the other. -/
def image (file : BlockReader) (ps : List ProgramHeader) : Stores :=
  ps.flatMap fun p => file.slice p.offset p.vaddr (loaded file p.offset p.filesz)

def TableFits (stack : KernelStack) (file : BlockReader) : Prop :=
  stack.lowest + 32 * (header file).phnum ≤ stack.sp

instance (stack : KernelStack) (file : BlockReader) : Decidable (TableFits stack file) :=
  inferInstanceAs (Decidable (_ ≤ _))

variable {stack : KernelStack} {granted : Bool} {file : BlockReader}

theorem fetch_spec (offset n : ℕ) (hn : n < 2 ^ 32) :
    (Complete file offset n → fetch file offset n = .ok (padded file offset n)) ∧
      (¬ Complete file offset n → ∃ e, fetch file offset n = .error e) := by
  obtain ⟨hstores, hcount⟩ := file.reading_spec offset 0 hn
  constructor
  · intro hcomplete
    obtain ⟨count, hok⟩ := hcount.mp hcomplete
    have hall : file.delivered offset (min n (file.sizeInBytes - offset)) = present file offset n := hcomplete
    rw [hall] at hstores
    have hle : present file offset n ≤ n := Nat.min_le_left ..
    have hbytes : (file.reading offset n 0).stores.apply (fun _ => 0) = padded file offset n := by
      funext i
      rw [hstores]
      unfold padded
      by_cases hi : i < present file offset n
      · rw [if_pos hi]
        exact Stores.consecutive_zero (by omega) hi
      · rw [if_neg hi]
        apply Stores.apply_of_notMem
        unfold BlockReader.slice
        rw [Stores.mem_consecutive]
        rintro ⟨j, hj, rfl⟩
        omega
    rw [fetch, BlockReader.readAll, Reading.returned, hok, ← hbytes]
    rfl
  · intro hnot
    cases hread : (file.reading offset n 0).count with
    | ok count => exact absurd (hcount.mpr ⟨count, hread⟩) hnot
    | error e =>
      refine ⟨e, ?_⟩
      rw [fetch, BlockReader.readAll, Reading.returned, hread]
      rfl

/-- Where every block can be read and has its buffer, so is what the loader asks for. -/
theorem complete_reader (file : BlockIO) (offset n : ℕ) : Complete file.reader offset n :=
  BlockReader.delivered_of_served (BlockReader.forall_served_iff.mpr ⟨file.readableAt _ _, file.buffered _ _⟩)

theorem readTo_spec (file : BlockReader) (p : ProgramHeader) (hsize : p.filesz < 2 ^ 32) :
    (readTo file p.offset p.filesz p.vaddr).events = file.slice p.offset p.vaddr (loaded file p.offset p.filesz) ∧
      ((readTo file p.offset p.filesz p.vaddr).result = .ok () ↔ Complete file p.offset p.filesz) := by
  obtain ⟨hstores, hcount⟩ := file.reading_spec p.offset p.vaddr hsize
  refine ⟨hstores, ?_⟩
  show (file.reading p.offset p.filesz p.vaddr).count.map (fun _ => ()) = .ok () ↔ _
  refine Iff.trans ?_ hcount.symm
  cases hread : (file.reading p.offset p.filesz p.vaddr).count with
  | ok count => exact iff_of_true rfl ⟨count, rfl⟩
  | error e => exact iff_of_false (fun h => nomatch h) fun ⟨_, h⟩ => nomatch h

/-- The loop stores the segments in their order, and stops at the first that it cannot read to its end. -/
theorem loadSegments_spec (file : BlockReader) (table : List ProgramHeader) (hsize : ∀ p ∈ table, p.filesz < 2 ^ 32) :
    (loadSegments file table).events = image file (reached file (table.filter fun p => p.type = 1)) ∧
      ((loadSegments file table).result = .ok () ↔
        ∀ p ∈ table.filter fun p => p.type = 1, Complete file p.offset p.filesz) := by
  induction table with
  | nil => exact ⟨rfl, iff_of_true rfl fun p hp => nomatch hp⟩
  | cons p table ih =>
    obtain ⟨hevents, hresult⟩ := ih fun q hq => hsize q (List.mem_cons_of_mem _ hq)
    rw [loadSegments]
    split_ifs with htype
    · obtain ⟨hstores, hread⟩ := readTo_spec file p (hsize p List.mem_cons_self)
      rw [List.filter_cons_of_pos (by simpa using htype), List.forall_mem_cons, reached]
      by_cases hcomplete : Complete file p.offset p.filesz
      · have hok := hread.mpr hcomplete
        rw [Traced.bind_of_ok hok, if_pos hcomplete, hstores, hevents]
        exact ⟨rfl, hresult.trans (and_iff_right hcomplete).symm⟩
      · cases hfail : (readTo file p.offset p.filesz p.vaddr).result with
        | ok u => exact absurd (hread.mp hfail) hcomplete
        | error e =>
          rw [Traced.bind_of_error hfail, if_neg hcomplete, hstores]
          refine ⟨(List.append_nil _).symm, iff_of_false (fun h => nomatch h) fun h => hcomplete h.1⟩
    · rw [List.filter_cons_of_neg (by simpa using htype)]
      exact ⟨hevents, hresult⟩

/-- The loader gets to its table: the header is found room for, read, and that of an executable. -/
structure Begins (granted : Bool) (file : BlockReader) : Prop where
  granted : granted = true
  header : Complete file 0 52
  magic : Magic file

def TableRead (file : BlockReader) : Prop := Complete file (header file).phoff (32 * (header file).phnum)

theorem phnum_lt (file : BlockReader) : (header file).phnum < 2 ^ 16 := uintAt_lt _ 44 2

theorem filesz_lt {p : ProgramHeader} (hp : p ∈ table file) : p.filesz < 2 ^ 32 := by
  obtain ⟨k, -, rfl⟩ := List.mem_map.mp hp
  exact uintAt_lt _ (32 * k + 16) 4

theorem load_header (hheader : Complete file 0 52) : load stack true file = loadProgram stack file (header file) := by
  have hbytes := (fetch_spec 0 52 (by decide)).1 hheader
  show (Traced.lift (.ok ()) >>= fun _ => _) = _
  rw [Traced.ok_bind, hbytes, Traced.ok_bind]
  rfl

/-- Without the numbers that it should begin with a file is not loaded. -/
theorem load_wrong (hheader : Complete file 0 52) (hmagic : ¬ Magic file) :
    load stack true file = Traced.lift (.error (.panic "file doesn't have correct magic numbers\n")) := by
  rw [load_header hheader, loadProgram, if_pos]
  unfold Magic at hmagic
  rwa [not_and_or, not_and_or, not_and_or] at hmagic

theorem load_begins (h : Begins granted file) : load stack granted file = (do
    makeTable stack (header file).phnum
    let bytes ← Traced.lift (fetch file (header file).phoff (32 * (header file).phnum))
    loadSegments file ((List.range (header file).phnum).map (ProgramHeader.decode bytes))
    return (header file).entry) := by
  have hright : ¬ ((header file).magic0 ≠ 0x7F ∨ (header file).magic1 ≠ 69 ∨ (header file).magic2 ≠ 76 ∨
      (header file).magic3 ≠ 70) := by
    obtain ⟨h0, h1, h2, h3⟩ := h.magic
    simp [h0, h1, h2, h3]
  rw [h.granted, load_header h.header, loadProgram, if_neg hright]

/-- A loader that stops before its table has stored nothing. -/
theorem load_stops (stack : KernelStack) (h : ¬ Begins granted file) :
    (load stack granted file).events = [] ∧ ∃ e, (load stack granted file).result = .error e := by
  cases granted with
  | false => exact ⟨rfl, _, rfl⟩
  | true =>
    by_cases hheader : Complete file 0 52
    · rw [load_wrong hheader fun hmagic => h ⟨rfl, hheader, hmagic⟩]
      exact ⟨rfl, _, rfl⟩
    · obtain ⟨e, he⟩ := (fetch_spec 0 52 (by decide)).2 hheader
      have hload : load stack true file = Traced.lift (.error e) := by
        show (Traced.lift (.ok ()) >>= fun _ => _) = _
        rw [Traced.ok_bind, he, Traced.error_bind]
      rw [hload]
      exact ⟨rfl, e, rfl⟩

/-- A table that is too large for the stack is zeros over what lies below the stack. -/
theorem load_overflows (h : Begins granted file) (hfits : ¬ TableFits stack file) :
    load stack granted file = ⟨Stores.consecutive ((stack.sp + 2 ^ 32 - 32 * (header file).phnum) % 2 ^ 32) (fun _ => 0)
      (stack.lowest + 32 * (header file).phnum - stack.sp), .error .wild⟩ := by
  have htable : makeTable stack (header file).phnum = _ := if_neg hfits
  rw [load_begins h, htable, Traced.bind_of_error rfl]

theorem load_unread (h : Begins granted file) (hfits : TableFits stack file) (hread : ¬ TableRead file) :
    (load stack granted file).events = [] ∧ ∃ e, (load stack granted file).result = .error e := by
  have hphnum := phnum_lt file
  have htable : makeTable stack (header file).phnum = Traced.lift (.ok ()) := if_pos hfits
  obtain ⟨e, he⟩ := (fetch_spec (header file).phoff (32 * (header file).phnum) (by omega)).2 hread
  rw [load_begins h, htable, Traced.ok_bind, he, Traced.error_bind]
  exact ⟨rfl, e, rfl⟩

/-- With its table the loader stores the segments, and returns if all of them are read. -/
theorem load_read (h : Begins granted file) (hfits : TableFits stack file) (hread : TableRead file) :
    (load stack granted file).events = image file (reached file (segments file)) ∧
      ((∀ p ∈ segments file, Complete file p.offset p.filesz) →
        (load stack granted file).result = .ok (header file).entry) ∧
      ((¬ ∀ p ∈ segments file, Complete file p.offset p.filesz) →
        ∃ e, (load stack granted file).result = .error e) := by
  have hphnum := phnum_lt file
  have htable : makeTable stack (header file).phnum = Traced.lift (.ok ()) := if_pos hfits
  have hbytes := (fetch_spec (header file).phoff (32 * (header file).phnum) (by omega)).1 hread
  obtain ⟨hevents, hresult⟩ := loadSegments_spec file (table file) fun p hp => filesz_lt hp
  have hload : load stack granted file = (loadSegments file (table file) >>= fun _ => pure (header file).entry) := by
    rw [load_begins h, htable, Traced.ok_bind, hbytes, Traced.ok_bind]
    rfl
  rw [hload]
  cases hsegments : (loadSegments file (table file)).result with
  | ok u =>
    rw [Traced.bind_of_ok hsegments]
    refine ⟨(List.append_nil _).trans hevents, fun _ => rfl, fun hnot => absurd (hresult.mp hsegments) hnot⟩
  | error e =>
    rw [Traced.bind_of_error hsegments]
    refine ⟨hevents, ?_, fun _ => ⟨e, rfl⟩⟩
    intro hall
    rw [hresult.mpr hall] at hsegments
    cases hsegments

theorem mem_segments {p : ProgramHeader} (hp : p ∈ segments file) :
    p.offset < 2 ^ 32 ∧ p.vaddr < 2 ^ 32 ∧ p.filesz < 2 ^ 32 := by
  obtain ⟨k, -, rfl⟩ := List.mem_map.mp (List.mem_of_mem_filter hp)
  exact ⟨uintAt_lt _ _ 4, uintAt_lt _ _ 4, uintAt_lt _ _ 4⟩

theorem mem_of_mem_reached {p : ProgramHeader} {ps : List ProgramHeader} (hp : p ∈ reached file ps) : p ∈ ps := by
  induction ps with
  | nil => cases hp
  | cons q ps ih =>
    rw [reached] at hp
    rcases List.mem_cons.mp hp with rfl | hp
    · exact List.mem_cons_self
    · split_ifs at hp
      · exact List.mem_cons_of_mem _ (ih hp)
      · cases hp

theorem reached_eq {ps : List ProgramHeader} (hall : ∀ p ∈ ps, Complete file p.offset p.filesz) :
    reached file ps = ps := by
  induction ps with
  | nil => rfl
  | cons p ps ih =>
    rw [List.forall_mem_cons] at hall
    rw [reached, if_pos hall.1, ih hall.2]

/-- The loader halts by its panic at once, or stores to private memory outside the controllers' pages only. -/
def LoadConfined (cfg : Config) (stack : KernelStack) (granted : Bool) (file : BlockReader) : Prop :=
  load stack granted file = Traced.lift (.error (.panic "file doesn't have correct magic numbers\n")) ∨
    (load stack granted file).All fun store => Confined cfg store.1

/-- The bytes of the segment that are stored fit into private memory. -/
def Fits (cfg : Config) (file : BlockReader) (p : ProgramHeader) : Prop :=
  loaded file p.offset p.filesz = 0 ∨ 0x80000000 ≤ p.vaddr ∧ Clear cfg p.vaddr (loaded file p.offset p.filesz)

theorem image_addresses {ps : List ProgramHeader} {a : ℕ} : a ∈ (image file ps).map Prod.fst ↔
    ∃ p ∈ ps, ∃ i < loaded file p.offset p.filesz, a = (p.vaddr + i) % 2 ^ 32 := by
  simp only [image, List.map_flatMap, List.mem_flatMap, BlockReader.slice, Stores.mem_consecutive]

theorem fits_iff {cfg : Config} {p : ProgramHeader} (hp : p ∈ segments file) :
    (∀ i < loaded file p.offset p.filesz, Confined cfg ((p.vaddr + i) % 2 ^ 32)) ↔ Fits cfg file p := by
  obtain ⟨-, hvaddr, -⟩ := mem_segments hp
  unfold Fits
  by_cases hzero : loaded file p.offset p.filesz = 0
  · simp [hzero]
  by_cases hlow : 0x80000000 ≤ p.vaddr
  · rw [Clear.iff_confined hlow hvaddr]
    simp [hzero, hlow]
  · refine iff_of_false ?_ (by simp [hzero, hlow])
    intro hall
    have hfirst := (hall 0 (Nat.pos_of_ne_zero hzero)).1
    rw [Nat.add_zero, Nat.mod_eq_of_lt hvaddr] at hfirst
    exact hlow hfirst

theorem all_image_iff {cfg : Config} {ps : List ProgramHeader} (hps : ∀ p ∈ ps, p ∈ segments file) :
    (∀ store ∈ image file ps, Confined cfg store.1) ↔ ∀ p ∈ ps, Fits cfg file p := by
  have haddr : (∀ store ∈ image file ps, Confined cfg store.1) ↔
      ∀ a ∈ (image file ps).map Prod.fst, Confined cfg a := by
    rw [List.forall_mem_map]
  rw [haddr]
  constructor
  · intro hall p hp
    exact (fits_iff (hps p hp)).mp fun i hi => hall _ (image_addresses.mpr ⟨p, hp, i, hi, rfl⟩)
  · intro hfits a ha
    obtain ⟨p, hp, i, hi, rfl⟩ := image_addresses.mp ha
    exact (fits_iff (hps p hp)).mpr (hfits p hp) i hi

theorem loadConfined_of_nothing {cfg : Config} (h : (load stack granted file).events = []) :
    LoadConfined cfg stack granted file := by
  right
  unfold Traced.All
  rw [h]
  exact fun store hstore => nomatch hstore

/-- A table that does not fit reaches the word below the stack, which is the kernel's. -/
theorem not_loadConfined_of_overflow {cfg : Config} (h : Begins granted file) (hfits : ¬ TableFits stack file) :
    ¬ LoadConfined cfg stack granted file := by
  have hlow := stack.lowest_pos
  have hle := stack.lowest_le
  have hsp := stack.sp_le
  have hphnum := phnum_lt file
  unfold TableFits at hfits
  obtain ⟨n, hn⟩ : ∃ n, stack.lowest + 32 * (header file).phnum - stack.sp = n + 1 :=
    ⟨stack.lowest + 32 * (header file).phnum - stack.sp - 1, by omega⟩
  have hlast : ((stack.sp + 2 ^ 32 - 32 * (header file).phnum) % 2 ^ 32 + n) % 2 ^ 32 = stack.lowest - 1 := by omega
  unfold LoadConfined Traced.All
  rw [load_overflows h hfits, hn]
  rintro (hpanic | hall)
  · cases congrArg Traced.result hpanic
  · have hmem : (stack.lowest - 1, (0 : UInt8)) ∈
        Stores.consecutive ((stack.sp + 2 ^ 32 - 32 * (header file).phnum) % 2 ^ 32) (fun _ => 0) (n + 1) := by
      rw [← hlast]
      exact List.mem_map.mpr ⟨n, List.mem_range.mpr (Nat.lt_succ_self n), rfl⟩
    have hprivate := (hall _ hmem).1
    omega

/-- The loader checks neither the size of the table nor the addresses of the segments: it is confined just when the
table fits on the stack and the segments that it gets to fit into private memory. -/
theorem load_confined_iff (cfg : Config) (stack : KernelStack) (granted : Bool) (file : BlockReader) :
    LoadConfined cfg stack granted file ↔ (Begins granted file → TableFits stack file ∧
      (TableRead file → ∀ p ∈ reached file (segments file), Fits cfg file p)) := by
  by_cases hbegins : Begins granted file
  case neg => exact iff_of_true (loadConfined_of_nothing (load_stops stack hbegins).1) fun h => absurd h hbegins
  by_cases hfits : TableFits stack file
  case neg => exact iff_of_false (not_loadConfined_of_overflow hbegins hfits) fun h => hfits (h hbegins).1
  by_cases hread : TableRead file
  case neg =>
    exact iff_of_true (loadConfined_of_nothing (load_unread hbegins hfits hread).1) fun _ =>
      ⟨hfits, fun h => absurd h hread⟩
  have hevents := (load_read hbegins hfits hread).1
  have hall : (load stack granted file).All (fun store => Confined cfg store.1) ↔
      ∀ p ∈ reached file (segments file), Fits cfg file p := by
    unfold Traced.All
    rw [hevents]
    exact all_image_iff fun p hp => mem_of_mem_reached hp
  constructor
  · rintro (hpanic | hconfined) -
    · refine ⟨hfits, fun _ => hall.mp ?_⟩
      rw [hpanic]
      exact fun store hstore => nomatch hstore
    · exact ⟨hfits, fun _ => hall.mp hconfined⟩
  · exact fun h => .inr (hall.mpr ((h hbegins).2 hread))

/-- A file of a header and one loadable segment, whose entry point is 0x80001000. -/
def oneSegment (offset vaddr filesz memsz : ℕ) : BlockIO where
  blockSize := 1024
  sizeInBytes := 84
  block k i :=
    let word (n w : ℕ) : List UInt8 := (List.range n).map (World.byteOf w)
    let head := [0x7F, 69, 76, 70] ++ word 20 0 ++ word 4 0x80001000 ++ word 4 52 ++ word 12 0 ++ word 2 1 ++ word 6 0
    let segment := word 4 1 ++ word 4 offset ++ word 4 vaddr ++ word 4 vaddr ++ word 4 filesz ++ word 4 memsz
    (head ++ segment).getD (1024 * k + i) 0
  blockSize_pos := smallestBlock_pos
  blockSize_le := smallestBlock_le
  sizeInBytes_lt := by decide

/-- The stack of a thread, 7 KB of which are left. -/
def threadStack : KernelStack where
  lowest := 0x200000
  sp := 0x201C00
  lowest_pos := by decide
  lowest_le := by decide
  sp_le := by decide

/-- A segment below private space is stored over the kernel. -/
theorem load_overwrites_kernel : ¬ LoadConfined World.pcConfig threadStack true (oneSegment 0 0x1000 1 1).reader := by
  have hevents : (load threadStack true (oneSegment 0 0x1000 1 1).reader).events = [(0x1000, 0x7F)] := by decide +kernel
  rintro (hpanic | hall)
  · rw [hpanic] at hevents
    cases hevents
  · have hprivate := (hall (0x1000, 0x7F) (by rw [hevents]; exact List.mem_singleton_self _)).1
    omega

/-- The file is an executable whose segments lie in private memory, apart from each other. -/
structure WellFormed (file : BlockReader) : Prop where
  magic : Magic file
  filesz : ∀ p ∈ segments file, p.filesz ≤ p.memsz
  inFile : ∀ p ∈ segments file, p.offset + p.filesz ≤ file.sizeInBytes
  inPrivate : ∀ p ∈ segments file, 0x80000000 ≤ p.vaddr ∧ p.vaddr + p.memsz ≤ 2 ^ 32
  disjoint : (segments file).Pairwise ProgramHeader.Apart

/-- `mem'` has the image of the program where `mem` has had something else. -/
structure Image (file : BlockReader) (mem mem' : ℕ → UInt8) : Prop where
  bytes : ∀ p ∈ segments file, ∀ i < p.filesz, mem' (p.vaddr + i) = file.byte (p.offset + i)
  zeros : ∀ p ∈ segments file, ∀ i, p.filesz ≤ i → i < p.memsz → mem' (p.vaddr + i) = 0
  others : ∀ a, (∀ p ∈ segments file, ¬ p.Covers a) → mem' a = mem a

/-- The loader returns the entry point, and the image is in memory. -/
def Builds (stack : KernelStack) (granted : Bool) (file : BlockReader) (mem : ℕ → UInt8) : Prop :=
  (load stack granted file).result = .ok (header file).entry ∧
    Image file mem (Stores.apply mem (load stack granted file).events)

/-- The header gets its room in the heap and the table its room on the stack, and all that is read of the file can be
read. -/
structure Loads (stack : KernelStack) (granted : Bool) (file : BlockReader) : Prop where
  granted : granted = true
  header : Complete file 0 52
  fits : TableFits stack file
  table : TableRead file
  segments : ∀ p ∈ segments file, Complete file p.offset p.filesz

/-- An executable is loaded just when this is so. -/
theorem load_ok (hmagic : Magic file) (h : Loads stack granted file) :
    (load stack granted file).result = .ok (header file).entry ∧
      (load stack granted file).events = image file (segments file) := by
  obtain ⟨hevents, hok, -⟩ := load_read ⟨h.granted, h.header, hmagic⟩ h.fits h.table
  rw [reached_eq h.segments] at hevents
  exact ⟨hok h.segments, hevents⟩

theorem loads_reader {file : BlockIO} (hfits : TableFits stack file.reader) : Loads stack true file.reader :=
  ⟨rfl, complete_reader .., hfits, complete_reader .., fun _ _ => complete_reader ..⟩

theorem loads_of_ok {entry : ℕ} (hok : (load stack granted file).result = .ok entry) :
    Magic file ∧ Loads stack granted file := by
  have hbegins : Begins granted file := by
    by_contra hnot
    obtain ⟨e, he⟩ := (load_stops stack hnot).2
    rw [he] at hok
    cases hok
  have hfits : TableFits stack file := by
    by_contra hnot
    rw [load_overflows hbegins hnot] at hok
    cases hok
  have hread : TableRead file := by
    by_contra hnot
    obtain ⟨e, he⟩ := (load_unread hbegins hfits hnot).2
    rw [he] at hok
    cases hok
  refine ⟨hbegins.magic, hbegins.granted, hbegins.header, hfits, hread, ?_⟩
  by_contra hnot
  obtain ⟨e, he⟩ := (load_read hbegins hfits hread).2.2 hnot
  rw [he] at hok
  cases hok

/-- Segments that lie apart from an address leave it alone. -/
theorem image_frame (ps : List ProgramHeader) (mem : ℕ → UInt8) {a : ℕ}
    (hps : ∀ p ∈ ps, loaded file p.offset p.filesz ≤ p.memsz ∧ p.vaddr + p.memsz ≤ 2 ^ 32)
    (ha : ∀ p ∈ ps, ¬ p.Covers a) : (image file ps).apply mem a = mem a := by
  apply Stores.apply_of_notMem
  rw [image_addresses]
  rintro ⟨p, hp, i, hi, rfl⟩
  obtain ⟨hle, hend⟩ := hps p hp
  apply ha p hp
  unfold ProgramHeader.Covers
  omega

/-- The bytes of every segment are in memory when all are loaded: the segments after it leave them alone. -/
theorem image_bytes (ps : List ProgramHeader) (mem : ℕ → UInt8) {p : ProgramHeader} {i : ℕ}
    (hps : ∀ p ∈ ps, loaded file p.offset p.filesz ≤ p.memsz ∧ p.vaddr + p.memsz ≤ 2 ^ 32)
    (hdisjoint : ps.Pairwise ProgramHeader.Apart) (hp : p ∈ ps) (hi : i < loaded file p.offset p.filesz) :
    (image file ps).apply mem (p.vaddr + i) = file.byte (p.offset + i) := by
  induction ps generalizing mem with
  | nil => cases hp
  | cons q ps ih =>
    obtain ⟨hhead, htail⟩ := List.pairwise_cons.mp hdisjoint
    have hrest := fun p hp => hps p (List.mem_cons_of_mem _ hp)
    show Stores.apply mem (file.slice q.offset q.vaddr (loaded file q.offset q.filesz) ++ image file ps) (p.vaddr + i) = _
    rw [Stores.apply_append]
    rcases List.mem_cons.mp hp with rfl | hp
    · obtain ⟨hle, hend⟩ := hps p List.mem_cons_self
      have hcovers : p.Covers (p.vaddr + i) := by
        unfold ProgramHeader.Covers
        omega
      rw [image_frame ps _ hrest fun q hq hq' => hhead q hq _ ⟨hcovers, hq'⟩]
      have hbytes := Stores.apply_consecutive mem p.vaddr (fun i => file.byte (p.offset + i)) (by omega) hi
      rwa [Nat.mod_eq_of_lt (by omega)] at hbytes
    · exact ih _ hrest htail hp

/-- The zeros of a segment are never stored: the image is right just when the file can be loaded and they have been there
before. -/
theorem load_builds_iff (stack : KernelStack) (granted : Bool) (file : BlockReader) (mem : ℕ → UInt8)
    (hwf : WellFormed file) : Builds stack granted file mem ↔ Loads stack granted file ∧
      ∀ p ∈ segments file, ∀ i, p.filesz ≤ i → i < p.memsz → mem (p.vaddr + i) = 0 := by
  unfold Builds
  by_cases hloads : Loads stack granted file
  case neg =>
    refine iff_of_false ?_ fun h => hloads h.1
    exact fun h => hloads (loads_of_ok h.1).2
  obtain ⟨hresult, hevents⟩ := load_ok hwf.magic hloads
  rw [hevents, and_iff_right hresult, and_iff_right hloads]
  have hloaded : ∀ p ∈ segments file, loaded file p.offset p.filesz = p.filesz := by
    intro p hp
    have hin := hwf.inFile p hp
    have hall := hloads.segments p hp
    rw [Complete, present] at hall
    omega
  have hps : ∀ p ∈ segments file, loaded file p.offset p.filesz ≤ p.memsz ∧ p.vaddr + p.memsz ≤ 2 ^ 32 := by
    intro p hp
    rw [hloaded p hp]
    exact ⟨hwf.filesz p hp, (hwf.inPrivate p hp).2⟩
  -- no segment stores to the end of another, nor to its own
  have htail : ∀ p ∈ segments file, ∀ i, p.filesz ≤ i → i < p.memsz →
      (image file (segments file)).apply mem (p.vaddr + i) = mem (p.vaddr + i) := by
    intro p hp i hlo hhi
    apply Stores.apply_of_notMem
    rw [image_addresses]
    rintro ⟨q, hq, j, hj, heq⟩
    obtain ⟨hle, hend⟩ := hps q hq
    have hend' := (hps p hp).2
    have haddr : p.vaddr + i = q.vaddr + j := by omega
    by_cases hsame : p = q
    · subst hsame
      rw [hloaded p hp] at hj
      omega
    · apply hwf.disjoint.forall hp hq hsame (p.vaddr + i)
      unfold ProgramHeader.Covers
      omega
  constructor
  · intro himage p hp i hlo hhi
    rw [← htail p hp i hlo hhi, himage.zeros p hp i hlo hhi]
  · intro hzero
    refine ⟨?_, ?_, ?_⟩
    · intro p hp i hi
      exact image_bytes _ mem hps hwf.disjoint hp (by rwa [hloaded p hp])
    · intro p hp i hlo hhi
      rw [htail p hp i hlo hhi, hzero p hp i hlo hhi]
    · intro a ha
      exact image_frame _ mem hps ha

theorem oneSegment_segments : segments (oneSegment 0 0x80001000 1 2).reader = [⟨1, 0, 0x80001000, 1, 2⟩] := by
  decide +kernel

theorem oneSegment_wellFormed : WellFormed (oneSegment 0 0x80001000 1 2).reader := by
  have hsize : (oneSegment 0 0x80001000 1 2).reader.sizeInBytes = 84 := rfl
  refine ⟨by decide +kernel, ?_, ?_, ?_, ?_⟩
  · simp [oneSegment_segments]
  · simp [oneSegment_segments, hsize]
  · simp [oneSegment_segments]
  · simp [oneSegment_segments]

theorem oneSegment_fits : TableFits threadStack (oneSegment 0 0x80001000 1 2).reader := by decide +kernel

/-- A byte of data and a byte of zeros, in a page that has been used before its second byte was cleared. -/
theorem oneSegment_builds :
    Builds threadStack true (oneSegment 0 0x80001000 1 2).reader fun a => if a = 0x80001001 then 0 else 7 := by
  refine (load_builds_iff _ _ _ _ oneSegment_wellFormed).mpr ⟨loads_reader oneSegment_fits, ?_⟩
  intro p hp i hlo hhi
  rw [oneSegment_segments, List.mem_singleton] at hp
  subst hp
  obtain rfl : i = 1 := Nat.le_antisymm (Nat.le_of_lt_succ hhi) hlo
  rfl

/-- A byte of an old program stays where the new one should have a zero. -/
theorem load_keeps_old_byte : WellFormed (oneSegment 0 0x80001000 1 2).reader ∧
    ¬ Builds threadStack true (oneSegment 0 0x80001000 1 2).reader fun _ => 7 := by
  refine ⟨oneSegment_wellFormed, ?_⟩
  rintro ⟨-, himage⟩
  have hevents : (load threadStack true (oneSegment 0 0x80001000 1 2).reader).events = [(0x80001000, 0x7F)] := by
    decide +kernel
  rw [hevents] at himage
  have hmem : ⟨1, 0, 0x80001000, 1, 2⟩ ∈ segments (oneSegment 0 0x80001000 1 2).reader := by
    rw [oneSegment_segments]
    exact List.mem_singleton_self _
  exact absurd (himage.zeros _ hmem 1 (by decide) (by decide)) (by decide)

end ELF
end AudioKernel
