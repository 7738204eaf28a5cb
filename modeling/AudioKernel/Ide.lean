import AudioKernel.Ext2.INode
import AudioKernel.Lib.WordBytes
import AudioKernel.Sync.Guarded

/-! `Ide::read_block` of `ide.cc` on a drive that answers its ports, and `BlockIO` over it. -/
namespace AudioKernel
open Lib

/-! The drive. -/

/-- What the two drives of a controller do: nothing, look for a sector of a unit, or hand over the words of one. `left` are
the sectors that are still to come. -/
inductive AtaPhase
  | idle
  | busy (unit : Bool) (lba left : ℕ)
  | data (unit : Bool) (lba left i : ℕ)

namespace AtaPhase

def isBusy : AtaPhase → Bool
  | busy .. => true
  | _ => false

def isData : AtaPhase → Bool
  | data .. => true
  | _ => false

end AtaPhase

def ERR : BitVec 8 := 0x01
def DRQ : BitVec 8 := 0x08
def DF : BitVec 8 := 0x20
def DRDY : BitVec 8 := 0x40
def BSY : BitVec 8 := 0x80

/-- The sectors of the drives in words, and a status that has no errors. The driver relies on `DRDY` while the drive is
busy, too. -/
structure Ata where
  word : Bool → ℕ → ℕ → BitVec 32
  status : AtaPhase → BitVec 8
  ok : ∀ p, status p &&& (ERR ||| DF) = 0
  ready : ∀ p, status p &&& DRDY ≠ 0
  busy : ∀ p, status p &&& BSY ≠ 0 ↔ p.isBusy = true
  drq : ∀ p, status p &&& DRQ ≠ 0 ↔ p.isData = true

/-- The status of a drive that is ready, busy or not, with data or without. -/
def plainStatus (busy data : Bool) : BitVec 8 := DRDY ||| (if busy then BSY else 0) ||| if data then DRQ else 0

theorem plainStatus_bits : ∀ busy data, plainStatus busy data &&& (ERR ||| DF) = 0 ∧ plainStatus busy data &&& DRDY ≠ 0 ∧
    (plainStatus busy data &&& BSY ≠ 0 ↔ busy = true) ∧ (plainStatus busy data &&& DRQ ≠ 0 ↔ data = true) := by
  decide

def Ata.counting : Ata where
  word _ lba i := BitVec.ofNat 32 (128 * lba + i)
  status p := plainStatus p.isBusy p.isData
  ok _ := (plainStatus_bits _ _).1
  ready _ := (plainStatus_bits _ _).2.1
  busy _ := (plainStatus_bits _ _).2.2.1
  drq _ := (plainStatus_bits _ _).2.2.2

def wordByte (w : BitVec 32) (j : ℕ) : UInt8 := UInt8.ofNat (digit w.toNat j)

def storeWords (buffer : ℕ) : List (BitVec 32) → Stores
  | [] => []
  | w :: words => Stores.consecutive buffer (wordByte w) 4 ++ storeWords ((buffer + 4) % 2 ^ 32) words

/-- A unit as the disk of the file system. Numbers from `2 ^ 28` on name the sectors from the first one on again. -/
def Ata.disk (A : Ata) (unit : Bool) : BlockIO :=
  Ide fun k i => wordByte (A.word unit (k % 2 ^ 28) (i / 4)) (i % 4)

structure AtaState where
  count : BitVec 8
  low : BitVec 8
  mid : BitVec 8
  high : BitVec 8
  device : BitVec 8
  phase : AtaPhase

namespace AtaState

def lba (s : AtaState) : ℕ :=
  s.low.toNat + 2 ^ 8 * s.mid.toNat + 2 ^ 16 * s.high.toNat + 2 ^ 24 * (s.device.toNat % 16)

/-- A byte is written to a register. A drive that is busy does not take it. The command is that to read, with the number of
the first sector; no other command is modelled. -/
def write (s : AtaState) (register : ℕ) (v : BitVec 8) : AtaState :=
  if s.phase.isBusy then s
  else
    match register with
    | 2 => { s with count := v }
    | 3 => { s with low := v }
    | 4 => { s with mid := v }
    | 5 => { s with high := v }
    | 6 => { s with device := v }
    | 7 =>
      if v = 0x20 ∧ s.device.getLsbD 6 then
        { s with phase := .busy (s.device.getLsbD 4) s.lba (if s.count = 0 then 256 else s.count.toNat) }
      else s
    | _ => s

/-- The data register hands over the next word. -/
def readWord (A : Ata) (s : AtaState) : BitVec 32 × AtaState :=
  match s.phase with
  | .data unit lba left i =>
    (A.word unit lba i, { s with
      phase := if i + 1 < 128 then .data unit lba left (i + 1) else if 1 < left then .busy unit (lba + 1) (left - 1) else .idle })
  | _ => (0, s)

/-- The drive has found the sector. -/
inductive Found : AtaState → AtaState → Prop
  | found (s : AtaState) (unit : Bool) (lba left : ℕ) :
      s.phase = .busy unit lba left → Found s { s with phase := .data unit lba left 0 }

end AtaState

/-! The driver. -/

namespace Ide

variable (A : Ata) (drive : BitVec 32)

def controller : ℕ := (drive >>> 1 &&& 1).toNat

def channel : BitVec 32 := drive &&& 1

def ports : List ℕ := [0x1f0, 0x170]

def port : ℕ := ports.getD (controller drive) 0

/-- The registers are behind the base port. -/
def outb (s : AtaState) (p : ℕ) (v : BitVec 32) : AtaState := s.write (p - port drive) (v.setWidth 8)

def inb (s : AtaState) (p : ℕ) : BitVec 8 := if p = port drive + 7 then A.status s.phase else 0xff

def getStatus (s : AtaState) : BitVec 8 := inb A drive s (port drive + 7)

/-- What is written before the sector can be read: ports and values. -/
def command (sector : BitVec 32) : List (ℕ × BitVec 32) :=
  let base := port drive
  [(base + 2, 1), (base + 3, sector >>> 0), (base + 4, sector >>> 8), (base + 5, sector >>> 16),
    (base + 6, 0xE0#32 ||| channel drive <<< 4 ||| (sector >>> 24 &&& 0xf)), (base + 7, 0x20)]

/-- Where `read_block` stands: in one of its two calls of `waitForDrive`, before the loop or in it, with what is still to be
written, waiting for `DRQ`, or reading words. -/
inductive Pc
  | status (again : Bool)
  | busy (again : Bool)
  | out (rest : List (ℕ × BitVec 32))
  | drq
  | data
  | panic

/-- The words that have been stored to the buffer. -/
structure Call where
  pc : Pc
  words : List (BitVec 32)

def step (sector : BitVec 32) (l : Call) (s : AtaState) : Call × AtaState :=
  match l.pc with
  | .status again =>
    let status := getStatus A drive s
    if status &&& (ERR ||| DF) ≠ 0 then ({ l with pc := .panic }, s)
    else if status &&& DRDY = 0 then ({ l with pc := .panic }, s)
    else ({ l with pc := .busy again }, s)
  | .busy again =>
    if getStatus A drive s &&& BSY ≠ 0 then (l, s)
    else ({ l with pc := if again then .drq else .out (command drive sector) }, s)
  | .out [] => (l, s)
  | .out (w :: rest) => ({ l with pc := if rest.isEmpty then .status true else .out rest }, outb drive s w.1 w.2)
  | .drq => if getStatus A drive s &&& DRQ = 0 then (l, s) else ({ l with pc := .data }, s)
  | .data => ({ l with words := l.words ++ [(s.readWord A).1] }, (s.readWord A).2)
  | .panic => (l, s)

/-- `read_block` by any number of threads, under the lock of the `Ide`. -/
def guarded : Guarded (BitVec 32) Call AtaState where
  start _ := ⟨.status false, []⟩
  done l := l.words.length = 128
  step := step A drive
  own := AtaState.Found

/-- The unit of the controller, and the sector that fits into the registers. -/
def unit : Bool := (channel drive).getLsbD 0

def lba (sector : BitVec 32) : ℕ := sector.toNat % 2 ^ 28

def sectorWords (sector : BitVec 32) (n : ℕ) : List (BitVec 32) := (List.range n).map (A.word (unit drive) (lba sector))

/-- Where a call stands, the drive and the words so far go with it. -/
def Inside (sector : BitVec 32) (l : Call) (s : AtaState) : Prop :=
  match l.pc with
  | .status false | .busy false => l.words = [] ∧ s.phase = .idle
  | .out rest => l.words = [] ∧ s.phase = .idle ∧ ∃ n < 6, ∃ s₀ : AtaState, s₀.phase = .idle ∧
      rest = (command drive sector).drop n ∧ s = ((command drive sector).take n).foldl (fun s w => outb drive s w.1 w.2) s₀
  | .status true | .busy true => l.words = [] ∧
      (s.phase = .busy (unit drive) (lba sector) 1 ∨ s.phase = .data (unit drive) (lba sector) 1 0)
  | .drq => l.words = [] ∧ s.phase = .data (unit drive) (lba sector) 1 0
  | .data => l.words = sectorWords A drive sector l.words.length ∧
      (l.words.length < 128 ∧ s.phase = .data (unit drive) (lba sector) 1 l.words.length ∨
        l.words.length = 128 ∧ s.phase = .idle)
  | .panic => False

/-- Between the calls the drive is idle, and the calls that are over have read their sectors. -/
def Quiet {T : Type} (cs : List (T × BitVec 32 × Call)) (s : AtaState) : Prop :=
  s.phase = .idle ∧ ∀ c ∈ cs, c.2.2.words = sectorWords A drive c.2.1 128

variable {A drive} {sector : BitVec 32} {l : Call} {s s' : AtaState} {n : ℕ}

theorem getStatus_eq : getStatus A drive s = A.status s.phase := if_pos rfl

/-- The nibble of the sector, the unit and the bit for sector numbers, for every channel. -/
private theorem device_byte : ∀ (c : Fin 2) (k : Fin 16),
    ((0xE0#32 ||| BitVec.ofNat 32 c <<< 4 ||| BitVec.ofNat 32 k).setWidth 8).toNat % 16 = k ∧
      ((0xE0#32 ||| BitVec.ofNat 32 c <<< 4 ||| BitVec.ofNat 32 k).setWidth 8).getLsbD 6 = true ∧
      ((0xE0#32 ||| BitVec.ofNat 32 c <<< 4 ||| BitVec.ofNat 32 k).setWidth 8).getLsbD 4 =
        (BitVec.ofNat 32 c).getLsbD 0 := by
  decide

private theorem and_one (x : BitVec 32) : ∃ c : Fin 2, x &&& 1 = BitVec.ofNat 32 c := by
  refine ⟨⟨x.toNat % 2, Nat.mod_lt _ (by decide)⟩, ?_⟩
  apply BitVec.eq_of_toNat_eq
  rw [BitVec.toNat_and, BitVec.toNat_ofNat]
  have hone : x.toNat &&& (1#32).toNat = x.toNat % 2 := Nat.and_one_is_mod x.toNat
  have hmod : x.toNat % 2 % 2 ^ 32 = x.toNat % 2 := Nat.mod_eq_of_lt (by omega)
  exact hone.trans hmod.symm

private theorem and_fifteen (x : BitVec 32) : ∃ k : Fin 16, x &&& 0xf = BitVec.ofNat 32 k ∧ (k : ℕ) = x.toNat % 16 := by
  refine ⟨⟨x.toNat % 16, Nat.mod_lt _ (by decide)⟩, ?_, rfl⟩
  apply BitVec.eq_of_toNat_eq
  rw [BitVec.toNat_and, BitVec.toNat_ofNat]
  have hnibble : x.toNat &&& (0xf#32).toNat = x.toNat % 16 := Nat.and_two_pow_sub_one_eq_mod x.toNat 4
  have hmod : x.toNat % 16 % 2 ^ 32 = x.toNat % 16 := Nat.mod_eq_of_lt (by omega)
  exact hnibble.trans hmod.symm

theorem outb_eq (k : ℕ) (v : BitVec 32) : outb drive s (port drive + k) v = s.write k (v.setWidth 8) := by
  rw [outb, Nat.add_sub_cancel_left]

/-- A register is written by a drive that is idle. -/
private theorem write_idle (hidle : s.phase = .idle) {k : ℕ} (hk : k ≠ 7) (v : BitVec 8) : (s.write k v).phase = .idle := by
  have hbusy : ¬ s.phase.isBusy = true := by
    rw [hidle]
    exact Bool.false_ne_true
  unfold AtaState.write
  rw [if_neg hbusy]
  split
  case h_6 => exact absurd rfl hk
  all_goals exact hidle

/-- The registers when all but the command have been written. -/
private theorem written (s₀ : AtaState) (hidle : s₀.phase = .idle) :
    ((command drive sector).take 5).foldl (fun s w => outb drive s w.1 w.2) s₀ = { s₀ with
      count := 1
      low := (sector >>> 0).setWidth 8
      mid := (sector >>> 8).setWidth 8
      high := (sector >>> 16).setWidth 8
      device := (0xE0#32 ||| channel drive <<< 4 ||| (sector >>> 24 &&& 0xf)).setWidth 8 } := by
  simp [command, outb_eq, AtaState.write, hidle, AtaPhase.isBusy]

/-- The command starts the search for the sector. -/
private theorem commanded (s₀ : AtaState) (hidle : s₀.phase = .idle) :
    (outb drive (((command drive sector).take 5).foldl (fun s w => outb drive s w.1 w.2) s₀) (port drive + 7) 0x20).phase =
      .busy (unit drive) (lba sector) 1 := by
  obtain ⟨c, hc⟩ := and_one drive
  obtain ⟨k, hk, hkval⟩ := and_fifteen (sector >>> 24)
  obtain ⟨hnibble, hmode, hunit⟩ := device_byte c k
  have hchannel : channel drive = BitVec.ofNat 32 c := hc
  have hk32 : (k : ℕ) = sector.toNat / 2 ^ 24 % 16 := by
    rw [hkval, BitVec.toNat_ushiftRight, Nat.shiftRight_eq_div_pow]
  have hlba : ((sector >>> 0).setWidth 8).toNat + 2 ^ 8 * ((sector >>> 8).setWidth 8).toNat +
      2 ^ 16 * ((sector >>> 16).setWidth 8).toNat + 2 ^ 24 * (k : ℕ) = lba sector := by
    simp only [BitVec.toNat_setWidth, BitVec.toNat_ushiftRight, Nat.shiftRight_eq_div_pow]
    rw [hk32, lba]
    omega
  rw [outb_eq, written s₀ hidle, hchannel, hk]
  have hcommand : (0x20 : BitVec 32).setWidth 8 = 0x20 := by decide
  have hunit' : unit drive = (BitVec.ofNat 32 c).getLsbD 0 := by rw [unit, hchannel]
  rw [AtaState.write, hidle, hcommand, if_neg (by exact Bool.false_ne_true)]
  change AtaState.phase (ite _ _ _) = _
  rw [if_pos ⟨rfl, hmode⟩]
  change AtaPhase.busy _ (_ + _ + _ + _ * (_ % _)) 1 = _
  rw [hnibble, hlba, hunit, hunit']

/-- All but the command go to other registers. -/
private theorem command_port (drive sector : BitVec 32) (hn : n < 5) :
    ∃ k v, (command drive sector)[n]? = some (port drive + k, v) ∧ k ≠ 7 := by
  have hcases : n = 0 ∨ n = 1 ∨ n = 2 ∨ n = 3 ∨ n = 4 := by omega
  rcases hcases with rfl | rfl | rfl | rfl | rfl
  · exact ⟨2, _, rfl, by decide⟩
  · exact ⟨3, _, rfl, by decide⟩
  · exact ⟨4, _, rfl, by decide⟩
  · exact ⟨5, _, rfl, by decide⟩
  · exact ⟨6, _, rfl, by decide⟩

theorem sectorWords_succ : sectorWords A drive sector (n + 1) =
    sectorWords A drive sector n ++ [A.word (unit drive) (lba sector) n] := by
  rw [sectorWords, List.range_succ, List.map_append]
  rfl

/-- The writes, one after the other, up to the command. -/
private theorem inside_out {rest : List (ℕ × BitVec 32)} {w : ℕ × BitVec 32}
    (h : Inside A drive sector ⟨.out (w :: rest), l.words⟩ s) :
    Inside A drive sector ⟨if rest.isEmpty then .status true else .out rest, l.words⟩ (outb drive s w.1 w.2) := by
  obtain ⟨hwords, hidle, n, hn, s₀, hs₀, hrest, hs⟩ := h
  have hget : (command drive sector)[n]? = some w := by
    rw [← List.head?_drop, ← hrest]
    rfl
  have hdrop : rest = (command drive sector).drop (n + 1) := by
    rw [← List.tail_drop, ← hrest]
    rfl
  have htake : outb drive s w.1 w.2 =
      ((command drive sector).take (n + 1)).foldl (fun s w => outb drive s w.1 w.2) s₀ := by
    rw [List.take_add_one, hget, List.foldl_append, ← hs]
    rfl
  by_cases hlast : n = 5
  · subst hlast
    have hnil : rest = [] := hdrop
    rw [hnil, List.isEmpty_nil, if_pos rfl]
    refine ⟨hwords, .inl ?_⟩
    have hw : (port drive + 7, 0x20#32) = w := Option.some.inj hget
    rw [← hw, hs]
    exact commanded s₀ hs₀
  · have hn' : n < 5 := by omega
    obtain ⟨k, v, hport, hk⟩ := command_port drive sector hn'
    obtain rfl := Option.some.inj (hget.symm.trans hport)
    have hne : rest.isEmpty = false := by
      rw [hdrop, ← Bool.not_eq_true, List.isEmpty_iff, List.drop_eq_nil_iff]
      change ¬ 6 ≤ n + 1
      omega
    rw [hne, if_neg Bool.false_ne_true]
    refine ⟨hwords, ?_, n + 1, by omega, s₀, hs₀, hdrop, htake⟩
    rw [outb_eq]
    exact write_idle hidle hk _

/-- The next word of the sector. -/
private theorem inside_data (h : Inside A drive sector ⟨.data, l.words⟩ s) (hdone : l.words.length ≠ 128) :
    Inside A drive sector ⟨.data, l.words ++ [(s.readWord A).1]⟩ (s.readWord A).2 := by
  obtain ⟨hwords, ⟨hlength, hphase⟩ | ⟨hlength, -⟩⟩ := h
  · change l.words.length < 128 at hlength
    have hread : s.readWord A = (A.word (unit drive) (lba sector) l.words.length, { s with
        phase := if l.words.length + 1 < 128 then .data (unit drive) (lba sector) 1 (l.words.length + 1) else .idle }) := by
      rw [AtaState.readWord, hphase]
      rfl
    rw [hread]
    change l.words ++ _ = sectorWords A drive sector (l.words ++ _).length ∧ _
    rw [List.length_append, List.length_singleton]
    constructor
    · rw [sectorWords_succ, ← hwords]
    · by_cases hmore : l.words.length + 1 < 128
      · exact .inl ⟨hmore, if_pos hmore⟩
      · exact .inr ⟨by omega, if_neg hmore⟩
  · exact absurd hlength hdone

private theorem inside_step (h : Inside A drive sector l s) (hdone : l.words.length ≠ 128) :
    Inside A drive sector (step A drive sector l s).1 (step A drive sector l s).2 := by
  obtain ⟨pc, words⟩ := l
  have hbusy : A.status s.phase &&& BSY ≠ 0 ↔ s.phase.isBusy = true := A.busy s.phase
  have hdrq : A.status s.phase &&& DRQ ≠ 0 ↔ s.phase.isData = true := A.drq s.phase
  cases pc with
  | status again =>
    simp only [step, getStatus_eq]
    rw [if_neg (not_not.mpr (A.ok _)), if_neg (A.ready _)]
    cases again with
    | false => exact h
    | true => exact h
  | busy again =>
    simp only [step, getStatus_eq]
    by_cases hb : A.status s.phase &&& BSY ≠ 0
    · rw [if_pos hb]
      exact h
    · rw [if_neg hb]
      cases again with
      | false => exact ⟨h.1, h.2, 0, by decide, s, h.2, rfl, rfl⟩
      | true =>
        rcases h with ⟨hwords, hphase | hphase⟩
        · exact absurd (hbusy.mpr (by rw [hphase]; rfl)) hb
        · exact ⟨hwords, hphase⟩
  | out rest =>
    cases rest with
    | nil => exact h
    | cons w rest => exact inside_out (l := ⟨.out (w :: rest), words⟩) h
  | drq =>
    obtain ⟨hwords, hphase⟩ := h
    have hready : A.status s.phase &&& DRQ ≠ 0 := hdrq.mpr (by rw [hphase]; rfl)
    simp only [step, getStatus_eq]
    rw [if_neg hready]
    change words = [] at hwords
    subst hwords
    exact ⟨rfl, .inl ⟨Nat.zero_lt_succ 127, hphase⟩⟩
  | data => exact inside_data (l := ⟨.data, words⟩) h hdone
  | panic => exact h

/-- Found is a sector that the drive was looking for. -/
private theorem inside_found (h : Inside A drive sector l s) (hfound : AtaState.Found s s') :
    Inside A drive sector l s' := by
  obtain ⟨unit', lba', left, hbusy⟩ := hfound
  have hnot : s.phase ≠ .idle := by
    rw [hbusy]
    exact AtaPhase.noConfusion
  obtain ⟨pc, words⟩ := l
  have hsearch (h : words = [] ∧ (s.phase = .busy (unit drive) (lba sector) 1 ∨
      s.phase = .data (unit drive) (lba sector) 1 0)) :
      words = [] ∧ (AtaPhase.data unit' lba' left 0 = .busy (unit drive) (lba sector) 1 ∨
        AtaPhase.data unit' lba' left 0 = .data (unit drive) (lba sector) 1 0) := by
    obtain ⟨hwords, hphase | hphase⟩ := h
    · rw [hbusy] at hphase
      injection hphase with hunit hlba hleft
      rw [hunit, hlba, hleft]
      exact ⟨hwords, .inr rfl⟩
    · rw [hbusy] at hphase
      cases hphase
  cases pc with
  | status again =>
    cases again with
    | false => exact absurd h.2 hnot
    | true => exact hsearch h
  | busy again =>
    cases again with
    | false => exact absurd h.2 hnot
    | true => exact hsearch h
  | out rest => exact absurd h.2.1 hnot
  | drq =>
    have hphase := h.2
    rw [hbusy] at hphase
    cases hphase
  | data =>
    obtain ⟨-, ⟨-, hphase⟩ | ⟨-, hphase⟩⟩ := h
    · rw [hbusy] at hphase
      cases hphase
    · exact absurd hphase hnot
  | panic => exact h

private theorem inside_done (h : Inside A drive sector l s) (hdone : l.words.length = 128) :
    s.phase = .idle ∧ l.words = sectorWords A drive sector 128 := by
  obtain ⟨pc, words⟩ := l
  have hnonempty : words ≠ [] := by
    rintro rfl
    cases hdone
  cases pc with
  | status again =>
    cases again with
    | false => exact absurd h.1 hnonempty
    | true => exact absurd h.1 hnonempty
  | busy again =>
    cases again with
    | false => exact absurd h.1 hnonempty
    | true => exact absurd h.1 hnonempty
  | out rest => exact absurd h.1 hnonempty
  | drq => exact absurd h.1 hnonempty
  | data =>
    obtain ⟨hwords, ⟨hlength, -⟩ | ⟨-, hphase⟩⟩ := h
    · exact absurd hdone (Nat.ne_of_lt hlength)
    · rw [hdone] at hwords
      exact ⟨hphase, hwords⟩
  | panic => exact h.elim

variable {T : Type}

theorem keeps : (guarded A drive).Keeps (T := T) (Quiet A drive) fun cs r l s =>
    (∀ c ∈ cs, c.2.2.words = sectorWords A drive c.2.1 128) ∧ Inside A drive r l s where
  start _ _ _ h := ⟨h.2, rfl, h.1⟩
  step _ _ _ _ h hdone := ⟨h.1, inside_step h.2 (of_decide_eq_false hdone)⟩
  own_quiet := by
    intro cs s s' h hfound
    obtain ⟨unit', lba', left, hbusy⟩ := hfound
    have hidle := h.1
    rw [hbusy] at hidle
    cases hidle
  own_inside _ _ _ _ _ h hfound := ⟨h.1, inside_found h.2 hfound⟩
  done := by
    intro cs t r l s h hdone
    obtain ⟨hidle, hwords⟩ := inside_done h.2 (of_decide_eq_true hdone)
    refine ⟨hidle, fun c hc => ?_⟩
    rcases List.mem_append.mp hc with hc | hc
    · exact h.1 c hc
    · rw [List.mem_singleton.mp hc]
      exact hwords

/-- How far a call is from its end. -/
def left (l : Call) (s : AtaState) : ℕ :=
  match l.pc with
  | .status false => 400
  | .busy false => 399
  | .out rest => 300 + rest.length
  | .status true => 299
  | .busy true => 200 + if s.phase.isBusy then 1 else 0
  | .drq => 199
  | .data => 128 - l.words.length
  | .panic => 0

theorem advances : (guarded A drive).Advances (T := T) (fun cs r l s =>
    (∀ c ∈ cs, c.2.2.words = sectorWords A drive c.2.1 128) ∧ Inside A drive r l s) left := by
  intro cs r l s h hdone
  replace h := h.2
  replace hdone : l.words.length ≠ 128 := of_decide_eq_false hdone
  obtain ⟨pc, words⟩ := l
  have hbusy : A.status s.phase &&& BSY ≠ 0 ↔ s.phase.isBusy = true := A.busy s.phase
  have hdrq : A.status s.phase &&& DRQ ≠ 0 ↔ s.phase.isData = true := A.drq s.phase
  cases pc with
  | status again =>
    left
    simp only [guarded, step, getStatus_eq]
    rw [if_neg (not_not.mpr (A.ok _)), if_neg (A.ready _)]
    cases again with
    | false => exact Nat.lt_succ_self 399
    | true =>
      change 200 + ite _ _ _ < 299
      split_ifs <;> omega
  | busy again =>
    cases again with
    | false =>
      left
      have hidle : ¬ A.status s.phase &&& BSY ≠ 0 := by
        rw [hbusy, h.2]
        exact Bool.false_ne_true
      simp only [guarded, step, getStatus_eq]
      rw [if_neg hidle]
      exact (by decide : 300 + 6 < 399)
    | true =>
      rcases h with ⟨-, hphase | hphase⟩
      · right
        refine ⟨_, .found s _ _ _ hphase, ?_⟩
        change 200 + 0 < 200 + ite _ _ _
        rw [hphase]
        exact Nat.lt_succ_self 200
      · left
        have hfound : ¬ A.status s.phase &&& BSY ≠ 0 := by
          rw [hbusy, hphase]
          exact Bool.false_ne_true
        simp only [guarded, step, getStatus_eq]
        rw [if_neg hfound]
        change 199 < 200 + _
        omega
  | out rest =>
    left
    cases rest with
    | nil =>
      obtain ⟨-, -, n, hn, -, -, hrest, -⟩ := h
      have hlength : 6 ≤ n := List.drop_eq_nil_iff.mp hrest.symm
      omega
    | cons w rest =>
      change left ⟨if rest.isEmpty then .status true else .out rest, words⟩ _ < 300 + (rest.length + 1)
      cases rest with
      | nil => exact (by decide : 299 < 301)
      | cons w' rest =>
        change 300 + (rest.length + 1) < 300 + (rest.length + 1 + 1)
        omega
  | drq =>
    left
    have hready : A.status s.phase &&& DRQ ≠ 0 := hdrq.mpr (by rw [h.2]; rfl)
    simp only [guarded, step, getStatus_eq]
    rw [if_neg hready]
    change 128 - _ < 199
    omega
  | data =>
    left
    have hless : words.length < 128 := by
      obtain ⟨-, ⟨hless, -⟩ | ⟨hlength, -⟩⟩ := h
      · exact hless
      · exact absurd hlength hdone
    change 128 - (words ++ [_]).length < 128 - words.length
    rw [List.length_append, List.length_singleton]
    omega
  | panic => exact h.elim

/-- Words in a row are their bytes in a row. -/
theorem storeWords_range (buffer n : ℕ) (f : ℕ → BitVec 32) :
    storeWords buffer ((List.range n).map f) = Stores.consecutive buffer (fun i => wordByte (f (i / 4)) (i % 4)) (4 * n) := by
  induction n generalizing buffer f with
  | zero => rfl
  | succ n ih =>
    have hfirst : Stores.consecutive buffer (wordByte (f 0)) 4 =
        Stores.consecutive buffer (fun i => wordByte (f (i / 4)) (i % 4)) 4 := by
      apply Stores.consecutive_congr
      intro i hi
      rw [Nat.div_eq_of_lt hi, Nat.mod_eq_of_lt hi]
    have hrest : (fun i => wordByte (f (i / 4 + 1)) (i % 4)) = fun i => wordByte (f ((4 + i) / 4)) ((4 + i) % 4) := by
      funext i
      rw [Nat.add_mod_left, Nat.add_div_left _ (by decide)]
    rw [List.range_succ_eq_map, List.map_cons, List.map_map, storeWords]
    change _ ++ storeWords _ ((List.range n).map fun i => f (i + 1)) = _
    rw [ih, hfirst, hrest, Stores.consecutive_append, Nat.mul_succ, Nat.add_comm]

theorem sectorWords_stores (buffer : ℕ) :
    storeWords buffer (sectorWords A drive sector 128) = (A.disk (unit drive)).readBlock sector.toNat buffer :=
  storeWords_range buffer 128 _

section
variable [DecidableEq T] {s : GuardedState T (BitVec 32) Call AtaState} {t : T}

theorem inv_reachable (h : ((guarded A drive).machine fun s => s.phase = .idle).Reachable s) :
    Guarded.Inv (guarded A drive) (Quiet A drive) (fun cs r l s =>
      (∀ c ∈ cs, c.2.2.words = sectorWords A drive c.2.1 128) ∧ Inside A drive r l s) s :=
  Guarded.inv_reachable keeps (fun _ hidle => ⟨hidle, fun _ hc => absurd hc List.not_mem_nil⟩) h

theorem finished_words (h : ((guarded A drive).machine fun s => s.phase = .idle).Reachable s)
    {c : T × BitVec 32 × Call} (hc : c ∈ s.finished) : c.2.2.words = sectorWords A drive c.2.1 128 := by
  have hinv := inv_reachable h
  by_cases hcritical : ∃ t, s.lock.pc t = .critical
  · obtain ⟨t, ht⟩ := hcritical
    exact (hinv.critical t ht).1 c hc
  · exact (hinv.quiet (not_exists.mp hcritical)).2 c hc

theorem ends (h : ((guarded A drive).machine fun s => s.phase = .idle).Reachable s) (hcritical : s.lock.pc t = .critical) :
    ∃ as s' l, ((guarded A drive).machine fun s => s.phase = .idle).Run s as s' ∧
      (∀ a ∈ as, Guarded.ByItself t a) ∧ s'.finished = s.finished ++ [(t, s.request t, l)] :=
  Guarded.completes keeps (fun _ hidle => ⟨hidle, fun _ hc => absurd hc List.not_mem_nil⟩) advances h hcritical

/-- Any number of threads call `read_block` on one drive: however they are interleaved and however long the drive takes,
each call that is over has stored the sector to its buffer, and no call panics. -/
theorem read_block_delivers (h : ((guarded A drive).machine fun s => s.phase = .idle).Reachable s) :
    (∀ c ∈ s.finished, ∀ buffer,
      storeWords buffer c.2.2.words = (A.disk (unit drive)).readBlock c.2.1.toNat buffer) ∧
    ∀ t, s.lock.pc t = .critical → (s.frame t).pc ≠ .panic := by
  constructor
  · intro c hc buffer
    rw [finished_words h hc, sectorWords_stores]
  · intro t ht hpanic
    have hinside := ((inv_reachable h).critical t ht).2
    unfold Inside at hinside
    rw [hpanic] at hinside
    exact hinside

/-- Thread `true` is about to write the registers for sector 7, while `false` has called. -/
private theorem reachable_critical : ∃ s : GuardedState Bool (BitVec 32) Call AtaState,
    ((guarded Ata.counting 1).machine fun s => s.phase = .idle).Reachable s ∧ s.lock.pc true = .critical ∧
      s.request true = 7 ∧ s.finished = [] := by
  have h₀ : ((guarded Ata.counting 1).machine (T := Bool) fun s => s.phase = .idle).Reachable
      ⟨⟨false, false, fun _ => false, fun _ => .out, fun _ => false⟩, fun _ => 0, fun _ => ⟨.data, []⟩,
        ⟨0, 0, 0, 0, 0, .idle⟩, []⟩ :=
    .init ⟨⟨rfl, rfl, fun _ => rfl⟩, rfl, rfl⟩
  have h₁ := h₀.step (a := GuardedAct.call true 7) rfl
  have h₂ := h₁.step (a := GuardedAct.lockStep true) rfl
  have h₃ := h₂.step (a := GuardedAct.lockStep true) rfl
  have h₄ := h₃.step (a := GuardedAct.lockStep true) rfl
  have h₅ := h₄.step (a := GuardedAct.call false 8) rfl
  have h₆ := h₅.step (a := GuardedAct.work true) ⟨rfl, rfl⟩
  have h₇ := h₆.step (a := GuardedAct.work true) ⟨rfl, rfl⟩
  exact ⟨_, h₇, rfl, rfl, rfl⟩

/-- Thread `true` has read sector 7. -/
theorem read_block_delivers_seven : ∃ (s : GuardedState Bool (BitVec 32) Call AtaState) (l : Call),
    (true, 7, l) ∈ s.finished ∧ storeWords 0x1000 l.words = (Ata.counting.disk true).readBlock 7 0x1000 := by
  obtain ⟨s, h, hcritical, hrequest, hfinished⟩ := reachable_critical
  obtain ⟨as, s', l, hrun, -, hlast⟩ := ends h hcritical
  rw [hrequest, hfinished] at hlast
  have hmem : (true, 7, l) ∈ s'.finished := by
    rw [hlast]
    exact List.mem_singleton_self _
  exact ⟨s', l, hmem, (read_block_delivers (hrun.reachable h)).1 _ hmem 0x1000⟩

/-- From wherever a call of `read_block` stands, it and the drive can bring it to its end without the other threads. -/
theorem read_block_ends (h : ((guarded A drive).machine fun s => s.phase = .idle).Reachable s)
    (hcritical : s.lock.pc t = .critical) :
    ∃ as s' l, ((guarded A drive).machine fun s => s.phase = .idle).Run s as s' ∧
      (∀ a ∈ as, Guarded.ByItself t a) ∧ s'.finished = s.finished ++ [(t, s.request t, l)] ∧
      ∀ buffer, storeWords buffer l.words = (A.disk (unit drive)).readBlock (s.request t).toNat buffer := by
  obtain ⟨as, s', l, hrun, hitself, hfinished⟩ := ends h hcritical
  refine ⟨as, s', l, hrun, hitself, hfinished, fun buffer => ?_⟩
  have hlast : (t, s.request t, l) ∈ s'.finished := by
    rw [hfinished]
    exact List.mem_append_right _ (List.mem_singleton_self _)
  have hwords := finished_words (hrun.reachable h) hlast
  change l.words = sectorWords A drive (s.request t) 128 at hwords
  rw [hwords, sectorWords_stores]

theorem read_block_ends_seven : ∃ (s s' : GuardedState Bool (BitVec 32) Call AtaState) (as : List _) (l : Call),
    ((guarded Ata.counting 1).machine fun s => s.phase = .idle).Run s as s' ∧
      (∀ a ∈ as, Guarded.ByItself true a) ∧ s'.finished = [(true, 7, l)] := by
  obtain ⟨s, h, hcritical, hrequest, hfinished⟩ := reachable_critical
  obtain ⟨as, s', l, hrun, hitself, hlast, -⟩ := read_block_ends h hcritical
  rw [hrequest, hfinished] at hlast
  exact ⟨s, s', as, l, hrun, hitself, hlast⟩

end

end Ide

end AudioKernel
