import AudioKernel.Lib.WhileLoop
import AudioKernel.Sys.Bindings
import AudioKernel.Sys.Reading

/-! `cp` of the user library `libc.c`, over the system calls `read` and `write`. -/
namespace AudioKernel
open Lib

/-- What a process prints: characters, and the two messages of `cp`. -/
inductive CpOut
  | char (c : UInt8)
  | readError
  | writeError

/-- The variables of `cp` and the memory of the process. A loop is left by `break`. -/
structure Cp where
  world : World
  mem : ℕ → UInt8
  out : List CpOut
  n : ℤ
  ptr : ℕ
  broken : Bool
  stop : Bool

namespace Cp

-- the caller, the two descriptors, whether there is a file behind the table, and the array on the stack
variable (cfg : Config) (p fromFd toFd : ℕ) (beyond : Bool) (buf : ℕ)

def ssize (ret : ℕ) : ℤ := Int.bmod ret (2 ^ 32)

def writeDone (s : Cp) : Bool := s.broken || decide (s.n ≤ 0)

def writeBody (s : Cp) : Except Stop Cp :=
  let o := s.world.write cfg p toFd s.ptr s.n.toNat beyond
  let m := ssize o.ret
  let out := s.out ++ o.loads.map fun a => CpOut.char (s.mem a)
  if m < 0 then .ok { s with out := out ++ [.writeError], broken := true }
  else .ok { s with out := out, n := s.n - m, ptr := (s.ptr + m.toNat) % 2 ^ 32 }

/-- A turn of the outer loop. The `break` after an error of `write` leaves the inner one only. -/
def body (s : Cp) : Except Stop Cp :=
  match s.world.read cfg p fromFd buf 100 with
  | .error e => .error e
  | .ok o =>
    let s := { s with world := o.world, mem := Stores.apply s.mem o.stores, n := ssize o.ret, ptr := buf, broken := false }
    if s.n = 0 then .ok { s with stop := true }
    else if s.n < 0 then .ok { s with out := s.out ++ [.readError], stop := true }
    else (whileLoop writeDone (writeBody cfg p toFd beyond) (s.n.toNat + 1) s).getD (.error .diverge)

def cp (fuel : ℕ) (s : Cp) : Option (Except Stop Cp) := whileLoop Cp.stop (body cfg p fromFd toFd beyond buf) fuel s

end Cp

def World.Writable (w : World) (p toFd : ℕ) (beyond : Bool) : Prop :=
  w.wordAt p toFd beyond = true ∧ ¬ (toFd < 3 ∧ (w.fdAt p toFd).any fun k => !(w.desc k).reserved)

namespace Cp

variable {cfg : Config} {p fromFd toFd k buf offset : ℕ} {beyond : Bool} {file : BlockIO} {s t : Cp}

theorem ssize_of_lt {n : ℕ} (hn : n < 2 ^ 31) : ssize n = n := by
  unfold ssize Int.bmod
  rw [Int.emod_eq_of_lt (by omega) (by omega), if_pos (by omega)]

theorem ssize_minusOne : ssize World.minusOne = -1 := by decide

theorem write_eq {w : World} (hw : w.Writable p toFd beyond) {a : ℕ} (ha : World.badBuffer cfg a = false) (n : ℕ) :
    w.write cfg p toFd a n beyond = ⟨n, w, (List.range n).map fun i => (a + i) % 2 ^ 32, []⟩ := by
  unfold World.write
  rw [if_neg (by rw [hw.1]; exact Bool.noConfusion), if_neg hw.2, if_neg (by rw [ha]; exact Bool.false_ne_true)]

theorem write_fail {w : World} (hw : ¬ w.Writable p toFd beyond) (a n : ℕ) :
    w.write cfg p toFd a n beyond = w.fail := by
  unfold World.write
  by_cases hword : w.wordAt p toFd beyond = false
  · rw [if_pos hword]
  · have hreserved : toFd < 3 ∧ (w.fdAt p toFd).any fun k => !(w.desc k).reserved := by
      by_contra hnot
      exact hw ⟨by rw [← Bool.not_eq_false]; exact hword, hnot⟩
    rw [if_neg hword, if_pos hreserved]

/-- A `read` does not change what can be written to. -/
theorem writable_read {w : World} {o : Outcome} {n : ℕ} (ho : w.sysHandler cfg p (.read fromFd buf n) = .ok o) :
    o.world.Writable p toFd beyond ↔ w.Writable p toFd beyond := by
  have huse := World.use_world ho (by simp)
  have hpcb : o.world.pcb = w.pcb := by
    rcases huse with hsame | ⟨k, x, -, hset⟩
    · rw [hsame]
    · rw [hset]
      rfl
  have hreserved : ∀ j, (o.world.desc j).reserved = (w.desc j).reserved := by
    intro j
    rcases huse with hsame | ⟨k, x, -, hset⟩
    · rw [hsame]
    · rw [hset]
      change (Function.update w.desc k _ j).reserved = _
      by_cases hj : j = k
      · rw [hj, Function.update_self]
        rfl
      · rw [Function.update_of_ne hj]
  unfold World.Writable World.wordAt World.fdAt World.spAt World.cpAt
  simp only [hpcb, hreserved]

/-- The inner loop writes what is in the array in one turn. -/
theorem write_all {n : ℕ} (hw : s.world.Writable p toFd beyond) (hptr : World.badBuffer cfg s.ptr = false)
    (hbroken : s.broken = false) (hn : s.n = n) (hpos : 0 < n) (hlt : n < 2 ^ 31) :
    whileLoop writeDone (writeBody cfg p toFd beyond) (s.n.toNat + 1) s = some (.ok { s with
      out := s.out ++ (List.range n).map fun i => CpOut.char (s.mem ((s.ptr + i) % 2 ^ 32))
      n := 0
      ptr := (s.ptr + n) % 2 ^ 32 }) := by
  have hcount : s.n.toNat = n := by omega
  have hturn : Turn writeDone (writeBody cfg p toFd beyond) s { s with
      out := s.out ++ (List.range n).map fun i => CpOut.char (s.mem ((s.ptr + i) % 2 ^ 32))
      n := 0
      ptr := (s.ptr + n) % 2 ^ 32 } := by
    constructor
    · rw [writeDone, hbroken, Bool.false_or, decide_eq_false_iff_not]
      omega
    · have hloads : (List.range n).map (fun i => CpOut.char (s.mem ((s.ptr + i) % 2 ^ 32))) =
          ((List.range n).map fun i => (s.ptr + i) % 2 ^ 32).map fun a => CpOut.char (s.mem a) := by
        rw [List.map_map]
        rfl
      simp only [writeBody, hn, Int.toNat_natCast, write_eq hw hptr, ssize_of_lt hlt, hloads]
      rw [if_neg (by omega), Int.sub_self]
  rw [hcount, hturn.whileLoop, whileLoop_of_done]
  rw [writeDone, hbroken]
  rfl

/-- Where `write` fails, the inner loop is left at once. -/
theorem write_none (cfg : Config) (hw : ¬ s.world.Writable p toFd beyond) (hbroken : s.broken = false) (hpos : 0 < s.n) :
    whileLoop writeDone (writeBody cfg p toFd beyond) (s.n.toNat + 1) s =
      some (.ok { s with out := s.out ++ [.writeError], broken := true }) := by
  have hturn : Turn writeDone (writeBody cfg p toFd beyond) s { s with out := s.out ++ [.writeError], broken := true } := by
    constructor
    · rw [writeDone, hbroken, Bool.false_or, decide_eq_false_iff_not]
      omega
    · simp only [writeBody, write_fail hw]
      change (if ssize World.minusOne < 0 then _ else _) = _
      rw [ssize_minusOne, if_pos (by omega)]
      simp [World.fail]
  rw [hturn.whileLoop, whileLoop_of_done rfl]

/-- The array lies in the private memory of the process, outside the pages of the interrupt controllers. -/
def Array (cfg : Config) (buf : ℕ) : Prop := 0x80000000 ≤ buf ∧ Clear cfg buf 100

theorem proper_read (size : ℕ) (hbuf : Array cfg buf) : (FileCall.read buf 100).Proper cfg size :=
  ⟨by decide, hbuf.1, hbuf.2⟩

-- where `cp` writes to
variable (toFd beyond)

/-- What `read` leaves: the next bytes of the file are in the array, and the offset is behind them. -/
structure Fetched (s t : Cp) (p fromFd k buf : ℕ) (file : BlockIO) (offset : ℕ) : Prop where
  opened : t.world.Opened p fromFd k file (offset + min 100 (file.sizeInBytes - offset))
  mem : ∀ i < min 100 (file.sizeInBytes - offset), t.mem ((buf + i) % 2 ^ 32) = file.byte (offset + i)
  n : t.n = (min 100 (file.sizeInBytes - offset) : ℕ)
  out : t.out = s.out
  ptr : t.ptr = buf
  broken : t.broken = false
  stop : t.stop = s.stop
  writable : t.world.Writable p toFd beyond ↔ s.world.Writable p toFd beyond

theorem fetch (h : s.world.Opened p fromFd k file offset) (hbuf : Array cfg buf) :
    ∃ t, Fetched toFd beyond s t p fromFd k buf file offset ∧ body cfg p fromFd toFd beyond buf s =
      if t.n = 0 then .ok { t with stop := true }
      else if t.n < 0 then .ok { t with out := t.out ++ [.readError], stop := true }
      else (whileLoop writeDone (writeBody cfg p toFd beyond) (t.n.toNat + 1) t).getD (.error .diverge) := by
  obtain ⟨o, ho, hret, -, hstores, hopened⟩ := h.call (proper_read file.sizeInBytes hbuf)
  have hread : s.world.read cfg p fromFd buf 100 = .ok o := ho
  refine ⟨{ s with world := o.world, mem := Stores.apply s.mem o.stores, n := ssize o.ret, ptr := buf, broken := false },
    ⟨hopened, ?_, ?_, rfl, rfl, rfl, rfl, writable_read ho⟩, ?_⟩
  · intro i hi
    change Stores.apply s.mem o.stores _ = _
    rw [hstores]
    exact Stores.apply_consecutive _ _ _ (by omega) hi
  · have hcount : o.ret = min 100 (file.sizeInBytes - offset) := hret
    have hlt : min 100 (file.sizeInBytes - offset) < 2 ^ 31 := by omega
    have hn := ssize_of_lt hlt
    rw [← hcount] at hn
    dsimp only
    rw [← hcount]
    exact hn
  · simp only [body, hread]

/-- A piece of the file, of at most 100 characters. -/
def piece (file : BlockIO) (offset : ℕ) : List CpOut :=
  (List.range (min 100 (file.sizeInBytes - offset))).map fun i => CpOut.char (file.byte (offset + i))

/-- The end of the file stops the outer loop. -/
theorem turn_end (h : s.world.Opened p fromFd k file file.sizeInBytes) (hbuf : Array cfg buf) (hstop : s.stop = false) :
    ∃ t, Turn Cp.stop (body cfg p fromFd toFd beyond buf) s t ∧ t.stop = true ∧ t.out = s.out ∧
      t.world.Opened p fromFd k file file.sizeInBytes := by
  obtain ⟨t, ht, hbody⟩ := fetch toFd beyond h hbuf
  have hn : t.n = 0 := by
    rw [ht.n, Nat.sub_self]
    rfl
  have hopened := ht.opened
  rw [Nat.sub_self] at hopened
  rw [if_pos hn] at hbody
  exact ⟨_, ⟨hstop, hbody⟩, rfl, ht.out, hopened⟩

/-- A turn in the middle of the file: the piece is written, or there is a message instead. -/
theorem turn_piece (h : s.world.Opened p fromFd k file offset) (hbuf : Array cfg buf) (hstop : s.stop = false)
    (hmore : offset < file.sizeInBytes) :
    ∃ t, Turn Cp.stop (body cfg p fromFd toFd beyond buf) s t ∧ t.stop = false ∧
      t.world.Opened p fromFd k file (offset + min 100 (file.sizeInBytes - offset)) ∧
      (t.world.Writable p toFd beyond ↔ s.world.Writable p toFd beyond) ∧
      (s.world.Writable p toFd beyond → t.out = s.out ++ piece file offset) ∧
      (¬ s.world.Writable p toFd beyond → t.out = s.out ++ [.writeError]) := by
  obtain ⟨t, ht, hbody⟩ := fetch toFd beyond h hbuf
  have hn := ht.n
  rw [if_neg (by omega), if_neg (by omega)] at hbody
  by_cases hw : s.world.Writable p toFd beyond
  · have hptr : World.badBuffer cfg t.ptr = false := by
      rw [ht.ptr]
      exact World.badBuffer_of_clear (by decide) hbuf.1 hbuf.2
    have hall := write_all (ht.writable.mpr hw) hptr ht.broken hn (by omega) (by omega)
    have hpiece : (List.range (min 100 (file.sizeInBytes - offset))).map
        (fun i => CpOut.char (t.mem ((t.ptr + i) % 2 ^ 32))) = piece file offset := by
      apply List.map_congr_left
      intro i hi
      rw [ht.ptr, ht.mem i (List.mem_range.mp hi)]
    rw [hall, hpiece] at hbody
    refine ⟨_, ⟨hstop, hbody⟩, ht.stop.trans hstop, ht.opened, ht.writable, fun _ => ?_, fun hnot => absurd hw hnot⟩
    change t.out ++ _ = _
    rw [ht.out]
  · have hnone := write_none cfg (mt ht.writable.mp hw) ht.broken (by omega)
    rw [hnone] at hbody
    refine ⟨_, ⟨hstop, hbody⟩, ht.stop.trans hstop, ht.opened, ht.writable, fun hw' => absurd hw' hw, fun _ => ?_⟩
    change t.out ++ _ = _
    rw [ht.out]

/-- The characters from an offset to the end of the file. -/
def remaining (file : BlockIO) (offset : ℕ) : List CpOut :=
  (List.range (file.sizeInBytes - offset)).map fun i => CpOut.char (file.byte (offset + i))

theorem piece_append (file : BlockIO) (offset : ℕ) :
    piece file offset ++ remaining file (offset + min 100 (file.sizeInBytes - offset)) = remaining file offset := by
  have hsplit : file.sizeInBytes - offset = min 100 (file.sizeInBytes - offset) +
      (file.sizeInBytes - (offset + min 100 (file.sizeInBytes - offset))) := by omega
  unfold piece remaining
  conv_rhs => rw [hsplit, List.range_add, List.map_append, List.map_map]
  congr 1
  apply List.map_congr_left
  intro i _
  change CpOut.char _ = CpOut.char (file.byte (offset + (_ + i)))
  rw [Nat.add_assoc]

/-- What `cp` prints of a file from an offset on: its characters, or a message for every 100 of them. -/
def Printed (file : BlockIO) (offset : ℕ) (writable : Prop) (out : List CpOut) : Prop :=
  (writable → out = remaining file offset) ∧
    (¬ writable → out = List.replicate ((file.sizeInBytes - offset + 99) / 100) .writeError)

/-- The turns to the end of the file, by induction on what is left of it. -/
theorem turns (h : s.world.Opened p fromFd k file offset) (hbuf : Array cfg buf) (hstop : s.stop = false) :
    ∃ t out, Turns Cp.stop (body cfg p fromFd toFd beyond buf) s t ∧ t.stop = true ∧ t.out = s.out ++ out ∧
      Printed file offset (s.world.Writable p toFd beyond) out ∧
      t.world.Opened p fromFd k file file.sizeInBytes := by
  induction hleft : file.sizeInBytes - offset using Nat.strongRecOn generalizing s offset with
  | ind left ih =>
    have hle := h.offset_le
    by_cases hmore : offset < file.sizeInBytes
    · obtain ⟨t, hturn, htstop, hopened, hsame, hchars, herrors⟩ :=
        turn_piece toFd beyond h hbuf hstop hmore
      obtain ⟨u, out, hturns, hustop, hout, hprinted, hend⟩ := ih _ (by omega) hopened htstop rfl
      by_cases hw : s.world.Writable p toFd beyond
      · refine ⟨u, piece file offset ++ out, .head hturn hturns, hustop, ?_, ⟨fun _ => ?_, fun hnot => absurd hw hnot⟩, hend⟩
        · rw [hout, hchars hw, List.append_assoc]
        · rw [hprinted.1 (hsame.mpr hw), piece_append]
      · refine ⟨u, .writeError :: out, .head hturn hturns, hustop, ?_, ⟨fun hw' => absurd hw' hw, fun _ => ?_⟩, hend⟩
        · rw [hout, herrors hw, List.append_assoc]
          rfl
        · have hcount : (file.sizeInBytes - offset + 99) / 100 =
              (file.sizeInBytes - (offset + min 100 (file.sizeInBytes - offset)) + 99) / 100 + 1 := by omega
          rw [hprinted.2 (mt hsame.mp hw), hcount, List.replicate_succ]
    · obtain rfl : offset = file.sizeInBytes := by omega
      obtain ⟨t, hturn, htstop, hout, hend⟩ := turn_end toFd beyond h hbuf hstop
      refine ⟨t, [], .head hturn .refl, htstop, ?_, ⟨fun _ => ?_, fun _ => ?_⟩, hend⟩
      · rw [hout, List.append_nil]
      · rw [remaining, Nat.sub_self]
        rfl
      · rw [Nat.sub_self]
        rfl

end Cp
end AudioKernel
