import AudioKernel.Ext2.BlockMap
import AudioKernel.Sys.Bindings

/-! A file that is read through system calls: one process seeks and reads on a descriptor that it has opened. -/
namespace AudioKernel
open Lib

/-- A call of the process on its descriptor. -/
inductive FileCall
  | seek (off : ℕ)
  | read (buffer nbyte : ℕ)

namespace FileCall

def toSyscall (fnum : ℕ) : FileCall → Syscall
  | seek off => .seek fnum off
  | read buffer nbyte => .read fnum buffer nbyte

/-- The offset stays within the file, and the buffer is not empty and lies in private memory. -/
def Proper (cfg : Config) (size : ℕ) : FileCall → Prop
  | seek off => off ≤ size
  | read buffer nbyte => 0 < nbyte ∧ 0x80000000 ≤ buffer ∧ Clear cfg buffer nbyte

/-- What the call returns when it begins at an offset of the file. -/
def count (size offset : ℕ) : FileCall → ℕ
  | seek off => off
  | read _ nbyte => min nbyte (size - offset)

def next (size offset : ℕ) : FileCall → ℕ
  | seek off => off
  | read _ nbyte => offset + min nbyte (size - offset)

def delivery (size : ℕ) (contents : ℕ → UInt8) (offset : ℕ) : FileCall → Stores
  | seek _ => []
  | read buffer nbyte => Stores.consecutive buffer (fun i => contents (offset + i)) (min nbyte (size - offset))

end FileCall

/-- What the others do leaves the slot, its descriptor and the files alone. -/
structure Spares (p fnum k : ℕ) (w w₁ : World) : Prop where
  bound : w₁.fdAt p fnum = w.fdAt p fnum
  desc : w₁.desc k = w.desc k
  node : w₁.node = w.node

/-- The calls of process `p` on slot `fnum`, with their outcomes, and what the others do in between. -/
inductive FileRun (cfg : Config) (p fnum k : ℕ) : World → List (FileCall × Except Stop Outcome) → World → Prop
  | nil (w : World) : FileRun cfg p fnum k w [] w
  | call {w w' : World} {c : FileCall} {log : List (FileCall × Except Stop Outcome)} :
      FileRun cfg p fnum k ((sysMachine cfg).next w (p, c.toSyscall fnum)) log w' →
        FileRun cfg p fnum k w ((c, w.sysHandler cfg p (c.toSyscall fnum)) :: log) w'
  | other {w w₁ w' : World} {log : List (FileCall × Except Stop Outcome)} :
      Spares p fnum k w w₁ → FileRun cfg p fnum k w₁ log w' → FileRun cfg p fnum k w log w'

/-- Every call returns what a plain file with a cursor returns, and stores the same bytes. -/
def Answers (size : ℕ) (contents : ℕ → UInt8) : ℕ → List (FileCall × Except Stop Outcome) → Prop
  | _, [] => True
  | offset, (c, r) :: log =>
    (∃ o, r = .ok o ∧ o.ret = c.count size offset ∧ o.loads = [] ∧ o.stores = c.delivery size contents offset) ∧
      Answers size contents (c.next size offset) log

def cursor (size : ℕ) (offset : ℕ) (log : List (FileCall × Except Stop Outcome)) : ℕ :=
  log.foldl (fun offset e => e.1.next size offset) offset

/-- The bytes that a call has stored, in their order. -/
def storedBytes : Except Stop Outcome → List UInt8
  | .ok o => o.stores.map Prod.snd
  | .error _ => []

def bytesOf (log : List (FileCall × Except Stop Outcome)) : List UInt8 := log.flatMap fun e => storedBytes e.2

namespace World

variable {cfg : Config} {w w' : World} {p q fnum k f : ℕ} {file : BlockIO}

/-- The slot leads to the file, at an offset within it. -/
structure Opened (w : World) (p fnum k : ℕ) (file : BlockIO) (offset : ℕ) : Prop where
  bound : w.fdAt p fnum = some k
  unreserved : (w.desc k).reserved = false
  node : ∃ f, (w.desc k).file = some f ∧ w.node f = file
  offset_eq : (w.desc k).offset = offset
  offset_le : offset ≤ file.sizeInBytes

theorem gap_of_clear {base buffer n : ℕ} (hbase : base < 2 ^ 32) (hbuf : 0x80000000 ≤ buffer)
    (hend : buffer + n ≤ 2 ^ 32) (hpage : buffer + n ≤ base ∨ base + 4096 ≤ buffer)
    (hlast : inWindow base ((buffer + n) % 2 ^ 32) = true) : gap base buffer = n := by
  rw [inWindow_iff] at hlast
  unfold gap
  omega

/-- The pages of the controllers do not cut a transfer that stays clear of them. -/
theorem clamp_of_clear {size offset buffer nbyte : ℕ} (hsize : size < 2 ^ 32) (hoff : offset ≤ size) (hn : 0 < nbyte)
    (hbuf : 0x80000000 ≤ buffer) (hclear : Clear cfg buffer nbyte) :
    clamp cfg size offset buffer nbyte = asked size offset nbyte := by
  have hasked : asked size offset nbyte ≤ nbyte := by
    unfold asked
    split_ifs <;> omega
  obtain ⟨hend, hlocal, hio⟩ := hclear.resolve_left (by omega)
  have hgap : inWindow cfg.localAPIC ((buffer + asked size offset nbyte) % 2 ^ 32) = true →
      gap cfg.localAPIC buffer = asked size offset nbyte :=
    gap_of_clear cfg.localAPIC_lt hbuf (by omega) (by omega)
  have hgap' : inWindow cfg.ioAPIC ((buffer + asked size offset nbyte) % 2 ^ 32) = true →
      gap cfg.ioAPIC buffer = asked size offset nbyte :=
    gap_of_clear cfg.ioAPIC_lt hbuf (by omega) (by omega)
  rw [clamp_eq hsize hoff (by omega) (by omega)]
  dsimp only
  split_ifs with hlast hin hlast'
  · apply hgap
    rw [← hgap' hlast, add_gap cfg.ioAPIC_lt (by omega)]
    exact hin
  · exact hgap' hlast
  · exact hgap hlast'
  · rfl

theorem badBuffer_of_clear {buffer nbyte : ℕ} (hn : 0 < nbyte) (hbuf : 0x80000000 ≤ buffer)
    (hclear : Clear cfg buffer nbyte) : badBuffer cfg buffer = false := by
  obtain ⟨hend, hlocal, hio⟩ := hclear.resolve_left (by omega)
  simp only [badBuffer, inWindow, Bool.or_eq_false_iff, decide_eq_false_iff_not]
  omega

/-- The descriptor may move within the file. -/
theorem Opened.setOffset {offset : ℕ} (h : w.Opened p fnum k file offset) {x offset' : ℕ} (hx : x % 2 ^ 32 = offset')
    (hle : offset' ≤ file.sizeInBytes) :
    (w.setDesc k ((w.desc k).setOffset x)).Opened p fnum k file offset' := by
  have hdesc : (w.setDesc k ((w.desc k).setOffset x)).desc k = (w.desc k).setOffset x := Function.update_self ..
  exact ⟨h.bound, by rw [hdesc]; exact h.unreserved, by rw [hdesc]; exact h.node, by rw [hdesc]; exact hx, hle⟩

/-- One call: it answers as the plain file does, and the descriptor follows the cursor. -/
theorem Opened.call {offset : ℕ} (h : w.Opened p fnum k file offset) {c : FileCall}
    (hc : c.Proper cfg file.sizeInBytes) :
    ∃ o, w.sysHandler cfg p (c.toSyscall fnum) = .ok o ∧ o.ret = c.count file.sizeInBytes offset ∧ o.loads = [] ∧
      o.stores = c.delivery file.sizeInBytes file.byte offset ∧
      o.world.Opened p fnum k file (c.next file.sizeInBytes offset) := by
  have hsize := file.sizeInBytes_lt
  have hfnum : ¬ fnum > 9 := by
    have := fdAt_lt h.bound
    omega
  cases c with
  | seek off =>
    have hoff : off ≤ file.sizeInBytes := hc
    have hcall : w.seek p fnum off = (w.setDesc k ((w.desc k).setOffset off)).succeed off := by
      rw [seek, if_neg hfnum, h.bound]
      dsimp only
      rw [if_neg (by rw [h.unreserved]; decide)]
    refine ⟨_, congrArg Except.ok hcall, rfl, rfl, rfl, ?_⟩
    exact h.setOffset (Nat.mod_eq_of_lt (by omega)) hoff
  | read buffer nbyte =>
    obtain ⟨hn, hbuf, hclear⟩ := hc
    obtain ⟨f, hf, hnode⟩ := h.node
    have hle := h.offset_le
    have hn' : nbyte < 2 ^ 32 := by
      have := (hclear.resolve_left (by omega)).1
      omega
    obtain ⟨blocks, hread, -⟩ := file.readAll_spec buffer (n := asked file.sizeInBytes offset nbyte)
      (by unfold asked; split_ifs <;> omega) hle
    have hmin : min (asked file.sizeInBytes offset nbyte) (file.sizeInBytes - offset) =
        min nbyte (file.sizeInBytes - offset) := by
      unfold asked
      split_ifs <;> omega
    rw [hmin] at hread
    have hcount : (((min nbyte (file.sizeInBytes - offset) : ℕ) : ℤ) % 2 ^ 32).toNat =
        min nbyte (file.sizeInBytes - offset) := by omega
    have hcall : w.read cfg p fnum buffer nbyte = .ok ⟨min nbyte (file.sizeInBytes - offset),
        w.setDesc k ((w.desc k).setOffset (offset + min nbyte (file.sizeInBytes - offset))), [],
        file.slice offset buffer (min nbyte (file.sizeInBytes - offset))⟩ := by
      rw [read_eq_steps hfnum h.bound h.unreserved (badBuffer_of_clear hn hbuf hclear) hf,
        FileDescriptor.beginRead, hnode, h.offset_eq, clamp_of_clear hsize hle hn hbuf hclear, hread]
      show Except.ok (Outcome.mk _ _ _ _) = _
      unfold FileDescriptor.finishRead PendingRead.bytesRead
      simp only [hcount, h.offset_eq]
    refine ⟨_, hcall, rfl, rfl, rfl, ?_⟩
    exact h.setOffset (Nat.mod_eq_of_lt (by omega)) (by rw [FileCall.next]; omega)

end World

variable {cfg : Config} {w w' : World} {p fnum k size offset : ℕ} {file : BlockIO} {contents contents' : ℕ → UInt8}
  {log : List (FileCall × Except Stop Outcome)}

/-- The whole run, by induction on it: the descriptor stays with the cursor. -/
theorem FileRun.answers (hrun : FileRun cfg p fnum k w log w') (h : w.Opened p fnum k file offset)
    (hproper : ∀ e ∈ log, e.1.Proper cfg file.sizeInBytes) :
    Answers file.sizeInBytes file.byte offset log ∧
      w'.Opened p fnum k file (cursor file.sizeInBytes offset log) := by
  induction hrun generalizing offset with
  | nil w => exact ⟨trivial, h⟩
  | @call w w' c log _ ih =>
    obtain ⟨o, ho, hret, hloads, hstores, hopened⟩ := h.call (hproper _ List.mem_cons_self)
    have hnext : (sysMachine cfg).next w (p, c.toSyscall fnum) = o.world := by simp only [sysMachine, ho]
    rw [hnext] at ih
    obtain ⟨hanswers, hlast⟩ := ih hopened fun e he => hproper e (List.mem_cons_of_mem _ he)
    exact ⟨⟨⟨o, ho, hret, hloads, hstores⟩, hanswers⟩, hlast⟩
  | other hspares _ ih =>
    refine ih ⟨hspares.bound.trans h.bound, ?_, ?_, ?_, h.offset_le⟩ hproper
    · rw [hspares.desc]
      exact h.unreserved
    · rw [hspares.desc, hspares.node]
      exact h.node
    · rw [hspares.desc]
      exact h.offset_eq

/-- Only the bytes of the file matter. -/
theorem Answers.congr (h : Answers size contents offset log) (hcontents : ∀ j, j < size → contents j = contents' j) :
    Answers size contents' offset log := by
  induction log generalizing offset with
  | nil => trivial
  | cons e log ih =>
    obtain ⟨c, r⟩ := e
    obtain ⟨⟨o, ho, hret, hloads, hstores⟩, hrest⟩ := h
    refine ⟨⟨o, ho, hret, hloads, ?_⟩, ih hrest⟩
    rw [hstores]
    cases c with
    | seek off => rfl
    | read buffer nbyte => exact Stores.consecutive_congr fun i hi => hcontents _ (by omega)

theorem Answers.append {log' : List (FileCall × Except Stop Outcome)} (h : Answers size contents offset (log ++ log')) :
    Answers size contents offset log ∧ Answers size contents (cursor size offset log) log' := by
  induction log generalizing offset with
  | nil => exact ⟨trivial, h⟩
  | cons e log ih =>
    obtain ⟨hcall, hrest⟩ := h
    obtain ⟨hlog, hlog'⟩ := ih hrest
    exact ⟨⟨hcall, hlog⟩, hlog'⟩

/-- Reads in a row deliver what lies between the offset before them and the offset behind them, whatever their sizes. -/
theorem Answers.bytes (h : Answers size contents offset log)
    (hreads : ∀ e ∈ log, ∃ buffer nbyte, e.1 = .read buffer nbyte) (hle : offset ≤ size) :
    offset ≤ cursor size offset log ∧ cursor size offset log ≤ size ∧
      bytesOf log = (List.range (cursor size offset log - offset)).map fun i => contents (offset + i) := by
  induction log generalizing offset with
  | nil => exact ⟨Nat.le_refl _, hle, by simp [bytesOf, cursor]⟩
  | cons e log ih =>
    obtain ⟨c, r⟩ := e
    obtain ⟨⟨o, rfl, -, -, hstores⟩, hrest⟩ := h
    obtain ⟨buffer, nbyte, hc⟩ := hreads _ List.mem_cons_self
    obtain rfl : c = .read buffer nbyte := hc
    obtain ⟨m, hm⟩ : ∃ m, min nbyte (size - offset) = m := ⟨_, rfl⟩
    have hnext : FileCall.next size offset (.read buffer nbyte) = offset + m := by rw [FileCall.next, hm]
    rw [hnext] at hrest
    obtain ⟨hlo, hhi, hbytes⟩ := ih hrest (fun e he => hreads e (List.mem_cons_of_mem _ he)) (by omega)
    have hcursor : cursor size offset ((.read buffer nbyte, .ok o) :: log) = cursor size (offset + m) log := by
      show cursor size (FileCall.next size offset (.read buffer nbyte)) log = _
      rw [hnext]
    have hhead : storedBytes (.ok o) = (List.range m).map fun i => contents (offset + i) := by
      rw [storedBytes, hstores, FileCall.delivery, hm, Stores.consecutive, List.map_map]
      rfl
    rw [hcursor]
    refine ⟨by omega, hhi, ?_⟩
    have hsplit : cursor size (offset + m) log - offset = m + (cursor size (offset + m) log - (offset + m)) := by omega
    show storedBytes (.ok o) ++ bytesOf log = _
    rw [hhead, hbytes, hsplit, List.range_add, List.map_append, List.map_map]
    simp only [Function.comp_def, Nat.add_assoc]

/-- A read that returns nothing is at the end of the file. -/
theorem Answers.at_end {c : FileCall} {o : Outcome} (h : Answers size contents offset (log ++ [(c, .ok o)]))
    (hreads : ∀ e ∈ log ++ [(c, .ok o)], ∃ buffer nbyte, e.1 = .read buffer nbyte)
    (hproper : c.Proper cfg size) (hle : offset ≤ size) (hzero : o.ret = 0) :
    bytesOf (log ++ [(c, .ok o)]) = (List.range (size - offset)).map fun i => contents (offset + i) := by
  obtain ⟨-, hhi, hbytes⟩ := h.bytes hreads hle
  obtain ⟨hinit, ⟨o', ho', hret, -, -⟩, -⟩ := h.append
  obtain rfl := Except.ok.inj ho'
  obtain ⟨-, hlo, -⟩ := hinit.bytes (fun e he => hreads e (List.mem_append_left _ he)) hle
  obtain ⟨buffer, nbyte, hc⟩ := hreads _ (List.mem_append_right _ List.mem_cons_self)
  obtain rfl : c = .read buffer nbyte := hc
  rw [hzero, FileCall.count] at hret
  have hcursor : cursor size offset (log ++ [(.read buffer nbyte, .ok o)]) =
      cursor size offset log + min nbyte (size - cursor size offset log) := by
    rw [cursor, List.foldl_append]
    rfl
  have hn : 0 < nbyte := hproper.1
  have hend : cursor size offset (log ++ [(.read buffer nbyte, .ok o)]) = size := by omega
  rw [hbytes, hend]

namespace World

variable {f filename : ℕ} {o : Outcome}

theorem node_openFile (w : World) (p filename : ℕ) (file : Option ℕ) :
    (w.openFile p filename file).world.node = w.node := by
  unfold openFile
  split_ifs
  · rfl
  cases file with
  | none => rfl
  | some f =>
    dsimp only
    cases (List.range 10).find? fun i => (w.fdAt p i).isNone with
    | none => rfl
    | some i => exact (tables_setFd ..).node

/-- A new descriptor is at the start of its file. -/
theorem opened_of_openFile (ho : w.sysHandler cfg p (.openFile filename (some f)) = .ok o) (hret : o.ret ≠ minusOne) :
    o.world.Opened p o.ret w.fresh (w.node f) 0 := by
  obtain rfl : w.openFile p filename (some f) = o := Except.ok.inj ho
  by_cases hfail : filename < 0x80000000 ∨ some f = none ∨ w.scan p 0 = none
  · rw [openFile_fail hfail] at hret
    exact absurd rfl hret
  push Not at hfail
  obtain ⟨hname, -, hscan⟩ := hfail
  obtain ⟨i, hi⟩ := Option.ne_none_iff_exists'.mp hscan
  obtain ⟨hslot, hbound, hdesc, -⟩ := openFile_some (f := f) hname hi
  refine ⟨?_, ?_, ⟨f, ?_, ?_⟩, ?_, Nat.zero_le _⟩
  · rw [hslot, ← bound_fd (scan_some hi).1, hbound, Function.update_self]
  · rw [hdesc]
    rfl
  · rw [hdesc]
    rfl
  · rw [node_openFile]
  · rw [hdesc]
    rfl

theorem desc_openFile (hk : k < w.fresh) (p filename : ℕ) (file : Option ℕ) :
    (w.openFile p filename file).world.desc k = w.desc k := by
  unfold openFile
  split_ifs
  · rfl
  cases file with
  | none => rfl
  | some f =>
    dsimp only
    cases (List.range 10).find? fun i => (w.fdAt p i).isNone with
    | none => rfl
    | some i => exact (congrFun (tables_setFd ..).desc k).trans (Function.update_of_ne (Nat.ne_of_lt hk) ..)

theorem node_sem (w : World) (p : ℕ) : (w.sem p).world.node = w.node ∧ (w.sem p).world.desc = w.desc := by
  unfold sem
  cases (List.range 10).find? fun i => (w.spAt p i).isNone with
  | none => exact ⟨rfl, rfl⟩
  | some i => exact ⟨(tables_setSp ..).node, (tables_setSp ..).desc⟩

theorem node_fork (w : World) (p : ℕ) : (w.fork p).world.node = w.node := by
  unfold fork
  cases w.freeChild p with
  | none => rfl
  | some i => exact (tables_setCp ..).node

theorem desc_fork (hk : k < w.fresh) (p : ℕ) : (w.fork p).world.desc k = w.desc k := by
  unfold fork
  cases w.freeChild p with
  | none => rfl
  | some i => exact (congrFun (tables_setCp ..).desc k).trans (if_neg (by omega))

theorem desc_close (hnot : ∀ num, w.fdAt p num ≠ some k) (num : ℕ) : (w.close p num).world.desc k = w.desc k := by
  unfold close
  split_ifs
  · rfl
  · cases hj : w.fdAt p num with
    | none => rfl
    | some j =>
      have hne : k ≠ j := by
        rintro rfl
        exact hnot num hj
      exact (congrFun (tables_setFd ..).desc k).trans (Function.update_of_ne hne ..)
  · rfl
  · exact congrFun (tables_setSp ..).desc k
  · rfl
  · exact congrFun (tables_setCp ..).desc k

theorem spares_setDesc {j : ℕ} (d : FileDescriptor) (hj : j ≠ k) : Spares p fnum k w (w.setDesc j d) where
  bound := rfl
  desc := Function.update_of_ne hj.symm ..
  node := rfl

/-- The other processes keep to it when none of their slots holds the descriptor. -/
theorem spares_of_call {q : ℕ} {c : Syscall} (hq : q < w.processes) (hp : p < w.processes) (hne : p ≠ q)
    (hk : k < w.fresh) (hnot : ∀ num, w.fdAt q num ≠ some k) (ho : w.sysHandler cfg q c = .ok o) :
    Spares p fnum k w o.world := by
  have hbound : o.world.fdAt p fnum = w.fdAt p fnum := by
    unfold fdAt
    rw [(sysHandler_step hq ho).other p hne hp]
  cases c with
  | openFile filename file =>
    obtain rfl : w.openFile q filename file = o := Except.ok.inj ho
    exact ⟨hbound, desc_openFile hk q filename file, node_openFile w q filename file⟩
  | sem initial =>
    obtain rfl : w.sem q = o := Except.ok.inj ho
    exact ⟨hbound, congrFun (node_sem w q).2 k, (node_sem w q).1⟩
  | fork =>
    obtain rfl : w.fork q = o := Except.ok.inj ho
    exact ⟨hbound, desc_fork hk q, node_fork w q⟩
  | close num =>
    obtain rfl : w.close q num = o := Except.ok.inj ho
    exact ⟨hbound, desc_close hnot num, node_close w q num⟩
  | write | up | down | wait | len | read | seek =>
    rcases use_world ho (by simp) with hsame | ⟨j, x, ⟨num, hj⟩, hset⟩
    · rw [hsame]
      exact ⟨rfl, rfl, rfl⟩
    · have hne : j ≠ k := by
        rintro rfl
        exact hnot num hj
      rw [hset]
      exact spares_setDesc _ hne

/-- Reading through the system calls is reading the file, and none of the reads on the way stops when `malloc` finds its
buffers. -/
theorem reads_reproduce (cfg : Config) (n : INode) (image : List UInt8) (w w' : World) (p f filename : ℕ) (o : Outcome)
    (log : List (FileCall × Except Stop Outcome)) (hmapped : n.Mapped image) (hnode : w.node f = n.file)
    (ho : w.sysHandler cfg p (.openFile filename (some f)) = .ok o) (hret : o.ret ≠ minusOne)
    (hrun : FileRun cfg p o.ret w.fresh o.world log w') (hproper : ∀ e ∈ log, e.1.Proper cfg n.data.sizeLow) :
    Answers n.data.sizeLow (fun j => (n.concatenation image).getD j 0) 0 log ∧
      (w'.desc w.fresh).offset = cursor n.data.sizeLow 0 log ∧
      (∀ init last o', log = init ++ [(last, .ok o')] → o'.ret = 0 →
        (∀ e ∈ log, ∃ buffer nbyte, e.1 = .read buffer nbyte) →
          bytesOf log = (List.range n.data.sizeLow).map fun j => (n.concatenation image).getD j 0) ∧
      ∀ b offset len buffer, offset ≤ n.data.sizeLow → len < 2 ^ 32 →
        n.BuffersFor b offset (min len (n.data.sizeLow - offset)) → ∃ r blocks,
          (w.node f).readAll offset len buffer = .ok r ∧
            (n.readerIn b).readAll offset len buffer = .ok { r with blocks := blocks } := by
  have hopened := opened_of_openFile ho hret
  rw [hnode] at hopened
  obtain ⟨hanswers, hlast⟩ := hrun.answers hopened hproper
  have hcontents : Answers n.data.sizeLow (fun j => (n.concatenation image).getD j 0) 0 log :=
    hanswers.congr fun j hj => hmapped.file_byte hj
  refine ⟨hcontents, hlast.offset_eq, ?_, ?_⟩
  · rintro init last o' rfl hzero hreads
    have hbytes := hcontents.at_end hreads (hproper _ (List.mem_append_right _ List.mem_cons_self)) (Nat.zero_le _) hzero
    rw [hbytes]
    simp only [Nat.sub_zero, Nat.zero_add]
  · intro b offset len buffer hoff hlen hbuffers
    rw [hnode]
    exact hmapped.file_readAll buffer hlen hoff hbuffers

def oneNode : World := boot fun _ => INode.longFile.file

/-- Two reads of 8000 bytes, and a third one that finds the end. -/
theorem oneNode_reproduced : ∃ w log, FileRun pcConfig 0 3 4 (oneNode.openFile 0 0x80000000 (some 0)).world log w ∧
    log.length = 3 ∧ bytesOf log =
      (List.range 12388).map fun j => (INode.longFile.concatenation INode.fifteenBlocks).getD j 0 := by
  obtain ⟨w, log, hrun, hlog⟩ : ∃ w log, FileRun pcConfig 0 3 4 (oneNode.openFile 0 0x80000000 (some 0)).world log w ∧
      ∃ r₁ r₂ r₃, log = [(.read 0x80000000 8000, r₁), (.read 0x80002000 8000, r₂), (.read 0x80004000 8000, r₃)] :=
    ⟨_, _, .call (.call (.call (.nil _))), _, _, _, rfl⟩
  obtain ⟨r₁, r₂, r₃, rfl⟩ := hlog
  obtain ⟨hanswers, -, hend, -⟩ := reads_reproduce pcConfig INode.longFile INode.fifteenBlocks oneNode w 0 0 0x80000000 _ _
    INode.longFile_mapped rfl rfl (by decide) hrun (by simp [FileCall.Proper, Clear, pcConfig])
  obtain ⟨-, -, ⟨o, ho, hret, -, -⟩, -⟩ := hanswers
  refine ⟨w, _, hrun, rfl, hend [_, _] _ o (by rw [ho]; rfl) hret (by simp)⟩

end World
end AudioKernel
