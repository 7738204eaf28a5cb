import AudioKernel.Sys.Confinement

/-! `read` on a descriptor that processes share after `fork`. A call reads the file at the offset that it finds, and adds
to the offset when the bytes are there. -/
namespace AudioKernel
open Lib

variable {T : Type}

/-- A call of `read` between its two steps: the offset that it has found, and what `read_all` has returned. -/
structure PendingRead where
  start : ℕ
  numToRead : ℕ
  buffer : ℕ
  result : ReadResult

namespace PendingRead

def bytesRead (r : PendingRead) : ℕ := (r.result.count % 2 ^ 32).toNat

def delivers (j : ℕ) (r : PendingRead) : Bool := r.start ≤ j ∧ j < r.start + r.bytesRead

end PendingRead

namespace FileDescriptor

/-- The offset is read, and the bytes are read from there. -/
def beginRead (cfg : Config) (file : BlockIO) (d : FileDescriptor) (buffer nbyte : ℕ) : Except Stop PendingRead := do
  let n := World.clamp cfg file.sizeInBytes d.offset buffer nbyte
  let r ← file.readAll d.offset n buffer
  return ⟨d.offset, n, buffer, r⟩

/-- `descriptor->offset += bytes_read`. -/
def finishRead (d : FileDescriptor) (r : PendingRead) : FileDescriptor := d.setOffset (d.offset + r.bytesRead)

end FileDescriptor

/-- The two steps in a row are the call of `read`. -/
theorem World.read_eq_steps {cfg : Config} {w : World} {p fnum buffer nbyte k f : ℕ} (hfnum : ¬ fnum > 9)
    (hk : w.fdAt p fnum = some k) (hreserved : (w.desc k).reserved = false) (hbuf : badBuffer cfg buffer = false)
    (hf : (w.desc k).file = some f) :
    w.read cfg p fnum buffer nbyte = do
      let r ← (w.desc k).beginRead cfg (w.node f) buffer nbyte
      return ⟨r.bytesRead, w.setDesc k ((w.desc k).finishRead r), [], r.result.stores⟩ := by
  unfold read FileDescriptor.beginRead
  rw [if_neg hfnum, hk]
  simp only [hreserved, hbuf, hf, Bool.false_eq_true, if_false]
  cases (w.node f).readAll (w.desc k).offset (clamp cfg (w.node f).sizeInBytes (w.desc k).offset buffer nbyte) buffer <;>
    rfl

/-- The descriptor, the processes that are between the two steps of a call, and the calls that have returned bytes or the
end of the file, in the order of their second steps. -/
structure OffsetState (T : Type) where
  desc : FileDescriptor
  pending : T → Option PendingRead
  returned : List PendingRead

/-- A process begins or finishes a call of `read`, with a buffer that passes the checks. -/
inductive OffsetAct (T : Type)
  | begin (me : T) (buffer nbyte : ℕ)
  | finish (me : T)

namespace OffsetState

variable [DecidableEq T] (cfg : Config) (file : BlockIO) (s : OffsetState T)

def enabled : OffsetAct T → Bool
  | .begin me buffer nbyte =>
    (s.pending me).isNone ∧ World.badBuffer cfg buffer = false ∧ buffer < 2 ^ 32 ∧ nbyte < 2 ^ 32
  | .finish me => (s.pending me).isSome

def next : OffsetAct T → OffsetState T
  | .begin me buffer nbyte =>
    match s.desc.beginRead cfg file buffer nbyte with
    | .ok r => { s with pending := Function.update s.pending me (some r) }
    | .error _ => s
  | .finish me =>
    match s.pending me with
    | none => s
    | some r =>
      { desc := s.desc.finishRead r
        pending := Function.update s.pending me none
        returned := if r.result.count < 0 then s.returned else s.returned ++ [r] }

end OffsetState

def OffsetState.new (d : FileDescriptor) : OffsetState T := ⟨d, fun _ => none, []⟩

/-- The processes `T` share the descriptor `d` of a file. -/
def offsetMachine (T : Type) [DecidableEq T] (cfg : Config) (file : BlockIO) (d : FileDescriptor) :
    Machine (OffsetState T) (OffsetAct T) where
  init s := s = .new d
  enabled s a := s.enabled cfg a = true
  next s a := s.next cfg file a

instance [DecidableEq T] (cfg : Config) (file : BlockIO) (d : FileDescriptor) (s : OffsetState T) (a : OffsetAct T) :
    Decidable ((offsetMachine T cfg file d).enabled s a) :=
  inferInstanceAs (Decidable (_ = true))

/-- What `read_all` returns to a call: a slice of the file, or -1 past its end. -/
theorem BlockIO.readAll_cases (file : BlockIO) (start buffer : ℕ) {n : ℕ} (hn : n < 2 ^ 32) :
    (n ≠ 0 ∧ start > file.sizeInBytes ∧ file.readAll start n buffer = .ok ⟨-1, [], []⟩) ∨
    ((n = 0 ∨ start ≤ file.sizeInBytes) ∧ ∃ blocks, file.readAll start n buffer =
      .ok ⟨(min n (file.sizeInBytes - start) : ℕ),
        file.slice start buffer (min n (file.sizeInBytes - start)), blocks⟩) := by
  by_cases hzero : n = 0
  · subst hzero
    refine .inr ⟨.inl rfl, [], ?_⟩
    rw [Nat.zero_min]
    rfl
  · by_cases hstart : start > file.sizeInBytes
    · exact .inl ⟨hzero, hstart, file.readAll_past_end buffer (Nat.pos_of_ne_zero hzero) hstart⟩
    · obtain ⟨blocks, hread, -⟩ := file.readAll_spec buffer hn (Nat.le_of_not_lt hstart)
      exact .inr ⟨.inr (Nat.le_of_not_lt hstart), blocks, hread⟩

namespace PendingRead

/-- The call has found what it returns. -/
structure Answered (file : BlockIO) (r : PendingRead) : Prop where
  numToRead_lt : r.numToRead < 2 ^ 32
  read : file.readAll r.start r.numToRead r.buffer = .ok r.result

variable {file : BlockIO} {r : PendingRead}

theorem Answered.cases (h : r.Answered file) :
    (r.numToRead ≠ 0 ∧ r.start > file.sizeInBytes ∧ r.result.count < 0 ∧ r.bytesRead = 2 ^ 32 - 1) ∨
    ((r.numToRead = 0 ∨ r.start ≤ file.sizeInBytes) ∧ ¬ r.result.count < 0 ∧
      r.bytesRead = min r.numToRead (file.sizeInBytes - r.start) ∧
      r.result.stores = file.slice r.start r.buffer r.bytesRead) := by
  have hsize := file.sizeInBytes_lt
  rcases file.readAll_cases r.start r.buffer h.numToRead_lt with ⟨hn, hstart, hread⟩ | ⟨hstart, blocks, hread⟩
  · have hresult : r.result = ⟨-1, [], []⟩ := Except.ok.inj (h.read.symm.trans hread)
    refine .inl ⟨hn, hstart, ?_, ?_⟩
    · rw [hresult]
      exact Int.negSucc_lt_zero 0
    · rw [bytesRead, hresult]
      rfl
  · have hresult := Except.ok.inj (h.read.symm.trans hread)
    have hbytes : r.bytesRead = min r.numToRead (file.sizeInBytes - r.start) := by
      rw [bytesRead, hresult]
      show (((min r.numToRead (file.sizeInBytes - r.start) : ℕ) : ℤ) % 2 ^ 32).toNat = _
      omega
    refine .inr ⟨hstart, ?_, hbytes, ?_⟩
    · rw [hresult]
      exact Int.not_lt.mpr (Int.natCast_nonneg _)
    · rw [hbytes, hresult]

end PendingRead

namespace OffsetState

/-- The calls have returned slices of the file that cover the bytes from the initial offset to the current one, and each
of these bytes once. -/
structure ExactlyOnce (file : BlockIO) (initial : ℕ) (s : OffsetState T) : Prop where
  slices : ∀ r ∈ s.returned, r.result.stores = file.slice r.start r.buffer r.bytesRead
  once : ∀ j, s.returned.countP (PendingRead.delivers j) = if initial ≤ j ∧ j < s.desc.offset then 1 else 0
  total : s.desc.offset = initial + (s.returned.map PendingRead.bytesRead).sum

/-- A call that asks for bytes and has not begun at the end of the file finds the offset where it was when it began, and
has not begun past the end. -/
def Undisturbed (file : BlockIO) (s : OffsetState T) : OffsetAct T → Prop
  | .begin _ _ _ => True
  | .finish me => ∀ r ∈ s.pending me,
    r.numToRead = 0 ∨ r.start = file.sizeInBytes ∨ s.desc.offset = r.start ∧ r.start ≤ file.sizeInBytes

instance (file : BlockIO) (s : OffsetState T) : (a : OffsetAct T) → Decidable (s.Undisturbed file a)
  | .begin _ _ _ => inferInstanceAs (Decidable True)
  | .finish me => inferInstanceAs (Decidable (∀ r ∈ s.pending me,
    r.numToRead = 0 ∨ r.start = file.sizeInBytes ∨ s.desc.offset = r.start ∧ r.start ≤ file.sizeInBytes))

/-- The offset has not moved back since a call began. -/
structure Inv (file : BlockIO) (initial : ℕ) (s : OffsetState T) : Prop where
  exact : ExactlyOnce file initial s
  pending : ∀ me r, s.pending me = some r → r.Answered file ∧ initial ≤ r.start ∧ r.start ≤ s.desc.offset
  within : initial ≤ file.sizeInBytes → s.desc.offset ≤ file.sizeInBytes
  beyond : initial > file.sizeInBytes → s.desc.offset = initial

namespace Inv

variable [DecidableEq T] {cfg : Config} {file : BlockIO} {initial : ℕ} {s : OffsetState T} {me : T} {r : PendingRead}

omit [DecidableEq T] in
theorem new (d : FileDescriptor) : Inv file d.offset (OffsetState.new d : OffsetState T) := by
  constructor
  case exact =>
    constructor
    case slices => simp [OffsetState.new]
    case once =>
      intro j
      show 0 = _
      rw [if_neg]
      rintro ⟨hle, hlt⟩
      exact absurd hlt (Nat.not_lt_of_le hle)
    case total => rfl
  case pending => simp [OffsetState.new]
  case within => exact id
  case beyond => exact fun _ => rfl

theorem begin {buffer nbyte : ℕ} (h : Inv file initial s) (hn : nbyte < 2 ^ 32) :
    Inv file initial (s.next cfg file (.begin me buffer nbyte)) := by
  have hclamp := World.clamp_lt cfg file.sizeInBytes s.desc.offset buffer hn
  have hle : initial ≤ s.desc.offset := by
    rw [h.exact.total]
    exact Nat.le_add_right ..
  obtain ⟨r, hr, hstart, hanswered⟩ : ∃ r, s.desc.beginRead cfg file buffer nbyte = .ok r ∧
      r.start = s.desc.offset ∧ r.Answered file := by
    unfold FileDescriptor.beginRead
    dsimp only
    rcases file.readAll_cases s.desc.offset buffer hclamp with
      ⟨-, -, hread⟩ | ⟨-, blocks, hread⟩ <;> rw [hread] <;> exact ⟨_, rfl, rfl, hclamp, hread⟩
  have hnext : s.next cfg file (.begin me buffer nbyte) =
      { s with pending := Function.update s.pending me (some r) } := by
    simp only [OffsetState.next, hr]
  rw [hnext]
  refine ⟨⟨h.exact.slices, h.exact.once, h.exact.total⟩, fun u q hq => ?_, h.within, h.beyond⟩
  change Function.update s.pending me (some r) u = some q at hq
  by_cases hu : u = me
  · rw [hu, Function.update_self] at hq
    obtain rfl : r = q := Option.some.inj hq
    exact ⟨hanswered, by rw [hstart]; exact hle, hstart.le⟩
  · rw [Function.update_of_ne hu] at hq
    exact h.pending u q hq

/-- The second step of a call that ends where it has begun. -/
theorem finish (h : Inv file initial s) (hr : s.pending me = some r) (hok : s.Undisturbed file (.finish me)) :
    Inv file initial (s.next cfg file (.finish me)) := by
  have hsize := file.sizeInBytes_lt
  obtain ⟨hanswered, hinit, hstart⟩ := h.pending me r hr
  have hwithin := h.within
  have hbeyond := h.beyond
  have htotal := h.exact.total
  have hlt := s.desc.offset_lt
  rcases hanswered.cases with ⟨hn, hend, -, -⟩ | ⟨hn, hcount, hbytes, hstores⟩
  · rcases hok r hr with hzero | heof | ⟨-, hle⟩
    · exact absurd hzero hn
    · omega
    · omega
  have hnone : r.bytesRead = 0 ∨ s.desc.offset = r.start ∧ r.start ≤ file.sizeInBytes := by
    rcases hok r hr with hzero | heof | hsame
    · left
      rw [hbytes, hzero, Nat.zero_min]
    · left
      rw [hbytes, heof, Nat.sub_self, Nat.min_zero]
    · exact .inr hsame
  have hsum : s.desc.offset + r.bytesRead < 2 ^ 32 := by omega
  have hnext : s.next cfg file (.finish me) =
      ⟨s.desc.finishRead r, Function.update s.pending me none, s.returned ++ [r]⟩ := by
    simp only [OffsetState.next, hr, hcount, if_false]
  have hoffset : (s.desc.finishRead r).offset = s.desc.offset + r.bytesRead := Nat.mod_eq_of_lt hsum
  rw [hnext]
  constructor
  case exact =>
    constructor
    case slices =>
      intro q hq
      rcases List.mem_append.mp hq with hq | hq
      · exact h.exact.slices q hq
      · rw [List.mem_singleton.mp hq]
        exact hstores
    case once =>
      intro j
      show (s.returned ++ [r]).countP (PendingRead.delivers j) = if initial ≤ j ∧ j < (s.desc.finishRead r).offset then 1 else 0
      rw [List.countP_append, h.exact.once, hoffset, List.countP_singleton]
      simp only [PendingRead.delivers, decide_eq_true_eq]
      split_ifs <;> omega
    case total =>
      show (s.desc.finishRead r).offset = initial + ((s.returned ++ [r]).map PendingRead.bytesRead).sum
      rw [hoffset, List.map_append, List.sum_append, htotal, Nat.add_assoc]
      rfl
  case pending =>
    intro u q hq
    change Function.update s.pending me none u = some q at hq
    by_cases hu : u = me
    · rw [hu, Function.update_self] at hq
      cases hq
    · rw [Function.update_of_ne hu] at hq
      obtain ⟨hanswered', hinit', hstart'⟩ := h.pending u q hq
      refine ⟨hanswered', hinit', ?_⟩
      rw [hoffset]
      omega
  case within =>
    rw [hoffset]
    omega
  case beyond =>
    rw [hoffset]
    omega

/-- Any other second step moves the offset past bytes that no call returns, or back, or has returned bytes twice. -/
theorem not_exact_of_disturbed (h : Inv file initial s) (cfg : Config) (hnot : ¬ s.Undisturbed file (.finish me)) :
    ¬ ExactlyOnce file initial (s.next cfg file (.finish me)) := by
  have hdist : ∃ r, s.pending me = some r ∧ ¬ (r.numToRead = 0 ∨ r.start = file.sizeInBytes ∨
      s.desc.offset = r.start ∧ r.start ≤ file.sizeInBytes) := by
    by_contra hall
    apply hnot
    intro r hr
    by_contra hr'
    exact hall ⟨r, hr, hr'⟩
  obtain ⟨r, hr, hr'⟩ := hdist
  obtain ⟨hanswered, hinit, hstart⟩ := h.pending me r hr
  have hlt := s.desc.offset_lt
  have htotal := h.exact.total
  intro hexact
  rcases hanswered.cases with ⟨hn, hend, hcount, hbytes⟩ | ⟨hn, hcount, hbytes, -⟩
  · have hnext : s.next cfg file (.finish me) =
        ⟨s.desc.finishRead r, Function.update s.pending me none, s.returned⟩ := by
      simp only [OffsetState.next, hr, hcount, if_true]
    have hoffset : (s.desc.finishRead r).offset = (s.desc.offset + (2 ^ 32 - 1)) % 2 ^ 32 := by
      rw [← hbytes]
      rfl
    rw [hnext] at hexact
    have hsame : (s.desc.finishRead r).offset = s.desc.offset := hexact.total.trans htotal.symm
    omega
  · have hnext : s.next cfg file (.finish me) =
        ⟨s.desc.finishRead r, Function.update s.pending me none, s.returned ++ [r]⟩ := by
      simp only [OffsetState.next, hr, hcount, if_false]
    rw [hnext] at hexact
    have hpos : 0 < r.bytesRead ∧ r.start < s.desc.offset := by omega
    -- the first byte of the call has been delivered before
    have honce : (s.returned ++ [r]).countP (PendingRead.delivers r.start) ≤ 1 := by
      rw [hexact.once r.start]
      split_ifs <;> omega
    have hmine : PendingRead.delivers r.start r = true := by
      simp only [PendingRead.delivers, decide_eq_true_eq]
      omega
    rw [List.countP_append, h.exact.once, if_pos ⟨hinit, hpos.2⟩, List.countP_singleton, if_pos hmine] at honce
    omega

theorem next {a : OffsetAct T} (h : Inv file initial s) (he : s.enabled cfg a = true)
    (hok : s.Undisturbed file a) : Inv file initial (s.next cfg file a) := by
  cases a with
  | begin me buffer nbyte =>
    have he' : (s.pending me).isNone = true ∧ World.badBuffer cfg buffer = false ∧ buffer < 2 ^ 32 ∧ nbyte < 2 ^ 32 := by
      simpa only [enabled, decide_eq_true_eq] using he
    exact h.begin he'.2.2.2
  | finish me =>
    obtain ⟨r, hr⟩ := Option.isSome_iff_exists.mp (show (s.pending me).isSome = true from he)
    exact h.finish hr hok

end Inv

variable [DecidableEq T]

/-- Every byte from the initial offset to the current one is returned once, in every state of a run, just when no call of
the run is disturbed by another one or begins past the end of the file. -/
theorem reads_once_iff (cfg : Config) (file : BlockIO) (d : FileDescriptor) (acts : List (OffsetAct T))
    (t : OffsetState T) (h : (offsetMachine T cfg file d).Run (.new d) acts t) :
    (offsetMachine T cfg file d).Along (ExactlyOnce file d.offset) (.new d) acts ↔
      ((offsetMachine T cfg file d).restrict fun s a => s.Undisturbed file a).Run (.new d) acts t := by
  apply h.along_iff (I := Inv file d.offset) (fun s hs => hs.exact)
  case hkeep => exact fun s a hi he hok => hi.next he hok
  case hbreak =>
    intro s a hi he hnot
    cases a with
    | begin me buffer nbyte => exact absurd trivial hnot
    | finish me => exact hi.not_exact_of_disturbed cfg hnot
  case hs => exact .new d

/-- Two processes read four bytes each, one after the other. -/
def inTurn : List (OffsetAct Bool) :=
  [.begin true 0x80000000 4, .finish true, .begin false 0x80000000 4, .finish false]

theorem inTurn_once : (offsetMachine Bool World.pcConfig BlockIO.tenBytes (.new (some 0) false)).Along
    (ExactlyOnce BlockIO.tenBytes 0) (.new (.new (some 0) false)) inTurn := by
  have hrun : ∃ t, ((offsetMachine Bool World.pcConfig BlockIO.tenBytes (.new (some 0) false)).restrict fun s a =>
      s.Undisturbed BlockIO.tenBytes a).Run (.new (.new (some 0) false)) inTurn t ∧ true = true :=
    Machine.exists_run_of_replay (by decide)
  obtain ⟨t, ht, -⟩ := hrun
  exact (reads_once_iff World.pcConfig BlockIO.tenBytes (.new (some 0) false) inTurn t ht.of_restrict).mpr ht

/-- Two processes read four bytes each, and both begin before either has finished. -/
def atOnce : List (OffsetAct Bool) :=
  [.begin true 0x80000000 4, .begin false 0x80000000 4, .finish true, .finish false]

/-- Both then get the first four bytes, and the next four are skipped. -/
theorem atOnce_twice : ∃ t, (offsetMachine Bool World.pcConfig BlockIO.tenBytes (.new (some 0) false)).Run
    (.new (.new (some 0) false)) atOnce t ∧ t.returned.countP (PendingRead.delivers 0) = 2 ∧
    t.desc.offset = 8 ∧ t.returned.countP (PendingRead.delivers 4) = 0 ∧ ¬ ExactlyOnce BlockIO.tenBytes 0 t := by
  have hrun : ∃ t, (offsetMachine Bool World.pcConfig BlockIO.tenBytes (.new (some 0) false)).Run
      (.new (.new (some 0) false)) atOnce t ∧ decide (t.returned.countP (PendingRead.delivers 0) = 2 ∧
        t.desc.offset = 8 ∧ t.returned.countP (PendingRead.delivers 4) = 0) = true :=
    Machine.exists_run_of_replay (by decide)
  obtain ⟨t, ht, hcheck⟩ := hrun
  obtain ⟨htwice, hoffset, hskipped⟩ := of_decide_eq_true hcheck
  refine ⟨t, ht, htwice, hoffset, hskipped, fun hexact => ?_⟩
  have honce := hexact.once 0
  rw [htwice, hoffset] at honce
  cases honce

end OffsetState
end AudioKernel
