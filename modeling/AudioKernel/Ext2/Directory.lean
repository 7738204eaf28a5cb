import AudioKernel.Ext2.INode
import AudioKernel.Lib.Orbit

/-! `Node::entries` and what it is used for: `Node::find` and `Node::entry_count`. -/
namespace AudioKernel
open Lib

/-- What a record of a directory says. -/
structure DirRecord where
  inode : ℕ
  totalSize : ℕ
  name : List UInt8
  deriving DecidableEq

/-- The string that begins at the head of a buffer. -/
def cString (buffer : List UInt8) : List UInt8 := buffer.takeWhile (· ≠ 0)

/-- `K::streq`, for two buffers that each have a NUL. -/
def streq : List UInt8 → List UInt8 → Bool
  | x :: a, y :: b => if x ≠ y then false else if x = 0 then true else streq a b
  | _, _ => false

namespace BlockReader

variable {d : BlockReader}

/-- What a read of a number comes to. -/
theorem readUInt_cases (d : BlockReader) (offset n : ℕ) :
    (∃ r, d.readAll offset n 0 = .ok r ∧ r.count = n ∧
        d.readUInt offset n = .ok (uintAt (r.stores.apply fun _ => 0) 0 n)) ∨
      (∃ e, d.readAll offset n 0 = .error e ∧ d.readUInt offset n = .error e) ∨
      d.readUInt offset n = .error (.panic "cnt == sizeof(T)") := by
  unfold readUInt
  cases hread : d.readAll offset n 0 with
  | error e => exact .inr (.inl ⟨e, rfl, rfl⟩)
  | ok r =>
    by_cases hcount : r.count = n
    · refine .inl ⟨r, rfl, hcount, ?_⟩
      show (assert (decide (r.count = n)) _ >>= fun _ => _) = _
      rw [assert_pos hcount]
      rfl
    · refine .inr (.inr ?_)
      show (assert (decide (r.count = n)) _ >>= fun _ => _) = _
      rw [decide_eq_false hcount]
      rfl

/-- A number whose blocks can be read is read. -/
theorem readUInt_ok {offset n : ℕ} (hn : n < 2 ^ 32) (hend : offset + n ≤ d.sizeInBytes)
    (hreadable : d.ReadableAt offset n) (hbuffered : d.Buffered offset n) :
    d.readUInt offset n = .ok (uintAt d.byte offset n) := by
  have hmin : min n (d.sizeInBytes - offset) = n := by omega
  obtain ⟨blocks, hread⟩ := d.readAll_ok 0 hn (show offset ≤ d.sizeInBytes by omega) (by rwa [hmin]) (by rwa [hmin])
  rw [hmin] at hread
  have hbytes : uintAt ((d.slice offset 0 n).apply fun _ => 0) 0 n = uintAt d.byte offset n := by
    rw [← Nat.add_zero offset, ← uintAt_shift, Nat.add_zero]
    exact uintAt_congr fun i _ hi => Stores.consecutive_zero (Nat.le_of_lt hn) (by omega)
  rcases d.readUInt_cases offset n with ⟨r, hr, -, hok⟩ | ⟨e, he, -⟩ | hpanic
  · rw [hread] at hr
    obtain rfl := Except.ok.inj hr
    rw [hok, hbytes]
  · rw [hread] at he
    cases he
  · unfold readUInt at hpanic
    rw [hread] at hpanic
    change (assert (decide ((n : ℤ) = n)) _ >>= fun _ => _) = _ at hpanic
    rw [assert_pos rfl] at hpanic
    cases hpanic

theorem readableAt_of_readUInt {offset n v : ℕ} (hn : n < 2 ^ 32) (hend : offset + n ≤ d.sizeInBytes)
    (h : d.readUInt offset n = .ok v) : d.ReadableAt offset n := by
  have hmin : min n (d.sizeInBytes - offset) = n := by omega
  rcases d.readUInt_cases offset n with ⟨r, hr, -⟩ | ⟨e, -, herror⟩ | hpanic
  · have hreadable := (served_of_readAll hn (by omega) hr).1
    rwa [hmin] at hreadable
  · rw [herror] at h
    cases h
  · rw [hpanic] at h
    cases h

theorem readUInt_lt {offset n v : ℕ} (h : d.readUInt offset n = .ok v) : v < 256 ^ n := by
  rcases d.readUInt_cases offset n with ⟨r, -, -, hok⟩ | ⟨e, -, herror⟩ | hpanic
  · rw [← Except.ok.inj (hok.symm.trans h)]
    exact uintAt_lt _ _ _
  · rw [herror] at h
    cases h
  · rw [hpanic] at h
    cases h

/-- Numbers are read in bounded time if blocks are. -/
theorem readUInt_ne_diverge {offset n : ℕ} (hn : n < 2 ^ 32) (hblock : ∀ k, d.block k ≠ .error .diverge) :
    d.readUInt offset n ≠ .error .diverge := by
  refine bind_ne_diverge (readAll_ne_diverge hn hblock) ?_
  intro r _
  refine bind_ne_diverge (assert_ne_diverge _ _) ?_
  exact fun _ _ h => nomatch h

end BlockReader

namespace INode

variable (n : INode)

def readRecord (offset : ℕ) : Except Stop DirRecord := do
  let inode ← n.reader.readUInt offset 4
  let totalSize ← n.reader.readUInt ((offset + 4) % 2 ^ 32) 2
  let nameLength ← n.reader.readUInt ((offset + 6) % 2 ^ 32) 1
  let r ← n.reader.readAll ((offset + 8) % 2 ^ 32) nameLength 0
  assert (r.count = nameLength) "cnt == name_length"
  return ⟨inode, totalSize, (List.range nameLength).map (r.stores.apply fun _ => 0)⟩

variable {β : Type} (work : β → ℕ → List UInt8 → β)

/-- The loop of `entries`. `work` gets the name in a buffer with a NUL at its end. -/
def entriesLoop : ℕ → ℕ → β → Except Stop β
  | 0, _, _ => .error .diverge
  | fuel + 1, offset, b =>
    if offset < n.data.sizeLow then do
      let e ← n.readRecord offset
      entriesLoop fuel ((offset + e.totalSize) % 2 ^ 32) (work b e.inode (e.name ++ [0]))
    else .ok b

/-- There are `2 ^ 32` offsets: a loop that has not ended after as many turns goes on for ever. -/
def entries (b : β) : Except Stop β := do
  assert n.data.isDir "is_dir()"
  n.entriesLoop work (2 ^ 32) 0 b

def find (name : List UInt8) : Except Stop ℕ :=
  n.entries (fun out number nm => if streq name nm then number else out) 0

def entryCount : Except Stop ℕ := do
  assert n.data.isDir "is_dir()"
  n.entries (fun count _ _ => (count + 1) % 2 ^ 32) 0

/-- Where the loop goes on from an offset, if it does. -/
def advance (offset : ℕ) : Option ℕ :=
  if offset < n.data.sizeLow then (n.readRecord offset).toOption.map fun e => (offset + e.totalSize) % 2 ^ 32
  else none

/-- The offset at which turn `k` of the loop begins. -/
def cursor (k : ℕ) : Option ℕ := visit n.advance 0 k

variable {n work}

theorem block_ne_diverge (k : ℕ) : n.reader.block k ≠ .error .diverge := by
  rw [reader_block]
  by_cases hge : 512 ≤ n.blockSize
  · rcases n.readBlock_cases hge k with ⟨-, hok⟩ | ⟨-, msg, herror⟩
    · rw [hok]
      intro h
      cases h
    · rw [herror]
      intro h
      cases h
  · have hdiv : n.blockSize / 512 = 0 := Nat.div_eq_of_lt (by omega)
    rw [readBlock, readBlockIn, if_pos hdiv]
    intro h
    cases h

theorem readRecord_totalSize_lt {offset : ℕ} {e : DirRecord} (h : n.readRecord offset = .ok e) : e.totalSize < 2 ^ 16 := by
  unfold readRecord at h
  obtain ⟨inode, -, h⟩ := bind_eq_ok h
  obtain ⟨totalSize, hsize, h⟩ := bind_eq_ok h
  obtain ⟨nameLength, -, h⟩ := bind_eq_ok h
  obtain ⟨r, -, h⟩ := bind_eq_ok h
  obtain ⟨-, -, h⟩ := bind_eq_ok h
  rw [← Except.ok.inj h]
  exact BlockReader.readUInt_lt hsize

/-- A turn of the loop comes to an end. -/
theorem readRecord_ne_diverge (n : INode) (offset : ℕ) : n.readRecord offset ≠ .error .diverge := by
  have hnumber (offset : ℕ) {len : ℕ} (hlen : len < 2 ^ 32) : n.reader.readUInt offset len ≠ .error .diverge :=
    BlockReader.readUInt_ne_diverge hlen block_ne_diverge
  refine bind_ne_diverge (hnumber offset (by decide)) fun inode _ => ?_
  refine bind_ne_diverge (hnumber _ (by decide)) fun totalSize _ => ?_
  refine bind_ne_diverge (hnumber _ (by decide)) fun nameLength hlength => ?_
  have hlt := BlockReader.readUInt_lt hlength
  refine bind_ne_diverge (BlockReader.readAll_ne_diverge (by omega) block_ne_diverge) fun r _ => ?_
  refine bind_ne_diverge (assert_ne_diverge _ _) fun _ _ => ?_
  exact fun h => nomatch h

theorem advance_eq (n : INode) (offset : ℕ) (h : offset < n.data.sizeLow) :
    n.advance offset = (n.readRecord offset).toOption.map fun e => (offset + e.totalSize) % 2 ^ 32 := if_pos h

/-- The loop is cut off just when it can go on: its turns are the steps of `advance`. -/
theorem entriesLoop_diverges_iff (fuel offset : ℕ) (b : β) :
    n.entriesLoop work fuel offset b = .error .diverge ↔ visit n.advance offset fuel ≠ none := by
  induction fuel generalizing offset b with
  | zero => exact iff_of_true rfl fun h => nomatch h
  | succ fuel ih =>
    rw [entriesLoop, visit_succ]
    by_cases hin : offset < n.data.sizeLow
    · rw [if_pos hin, advance_eq n offset hin]
      cases hrecord : n.readRecord offset with
      | error e =>
        refine iff_of_false ?_ fun h => h rfl
        intro h
        rw [Except.error.inj h] at hrecord
        exact readRecord_ne_diverge n offset hrecord
      | ok e => exact ih _ _
    · rw [if_neg hin, advance, if_neg hin]
      exact iff_of_false (fun h => nomatch h) fun h => h rfl

theorem cursor_lt {k o : ℕ} (h : n.cursor k = some o) : o < 2 ^ 32 := by
  cases k with
  | zero =>
    obtain rfl : 0 = o := Option.some.inj h
    exact Nat.two_pow_pos 32
  | succ k =>
    obtain ⟨p, -, hp⟩ := Option.bind_eq_some_iff.mp h
    unfold advance at hp
    split_ifs at hp
    obtain ⟨e, -, rfl⟩ := Option.map_eq_some_iff.mp hp
    exact Nat.mod_lt _ (Nat.two_pow_pos 32)

theorem cursor_mem (k o : ℕ) (h : visit n.advance 0 k = some o) : o ∈ Finset.range (2 ^ 32) :=
  Finset.mem_range.mpr (cursor_lt h)

/-- A loop that is cut off goes on for ever. -/
theorem entries_ends_iff (hdir : n.data.isDir = true) (b : β) :
    n.entries work b ≠ .error .diverge ↔ Ends n.advance 0 := by
  have hloop : n.entries work b = n.entriesLoop work (2 ^ 32) 0 b := by
    rw [entries, hdir]
    rfl
  rw [hloop, Ne, entriesLoop_diverges_iff, not_not]
  constructor
  · exact fun h => ⟨_, h⟩
  · intro h
    have hcard := h.visit_card cursor_mem
    rwa [Finset.card_range] at hcard

/-- With offsets that cannot wrap the loop moves forward unless it stays where it is. -/
theorem cursor_lt_cursor (hsize : n.data.sizeLow + 2 ^ 16 ≤ 2 ^ 32)
    (hmoves : ∀ k o e, n.cursor k = some o → o < n.data.sizeLow → n.readRecord o = .ok e → e.totalSize ≠ 0)
    {i j o p : ℕ} (hij : i < j) (hi : n.cursor i = some o) (hj : n.cursor j = some p) : o < p := by
  induction j generalizing p with
  | zero => exact absurd hij (Nat.not_lt_zero i)
  | succ j ih =>
    obtain ⟨q, hq, hstep⟩ := Option.bind_eq_some_iff.mp hj
    have hforward : q < p := by
      unfold advance at hstep
      split_ifs at hstep with hin
      obtain ⟨e, he, rfl⟩ := Option.map_eq_some_iff.mp hstep
      have hrecord : n.readRecord q = .ok e := by
        cases hr : n.readRecord q with
        | error e' =>
          rw [hr] at he
          cases he
        | ok e' =>
          rw [hr] at he
          rw [Option.some.inj he]
      have hpos := hmoves j q e hq hin hrecord
      have hlt := readRecord_totalSize_lt hrecord
      rw [Nat.mod_eq_of_lt (by omega)]
      omega
    by_cases hlast : i = j
    · subst hlast
      have hsame : some o = some q := hi.symm.trans hq
      rw [Option.some.inj hsame]
      exact hforward
    · exact Nat.lt_trans (ih (by omega) hq) hforward

/-- `entries` comes to an end just when no offset is met twice; and in a directory whose offsets cannot wrap, just when
every record that is met has a `total_size`. -/
theorem entries_terminates_iff (n : INode) (hdir : n.data.isDir = true) (work : β → ℕ → List UInt8 → β) (b : β) :
    (n.entries work b ≠ .error .diverge ↔ ∀ i j o, i < j → n.cursor i = some o → n.cursor j ≠ some o) ∧
    (n.data.sizeLow + 2 ^ 16 ≤ 2 ^ 32 → (n.entries work b ≠ .error .diverge ↔
      ∀ k o e, n.cursor k = some o → o < n.data.sizeLow → n.readRecord o = .ok e → e.totalSize ≠ 0)) := by
  have honce : n.entries work b ≠ .error .diverge ↔ ∀ i j o, i < j → n.cursor i = some o → n.cursor j ≠ some o :=
    (entries_ends_iff hdir b).trans (ends_iff cursor_mem)
  refine ⟨honce, ?_⟩
  intro hsize
  rw [honce]
  constructor
  · intro hnever k o e hk hin hrecord hzero
    refine hnever k (k + 1) o (Nat.lt_succ_self k) hk ?_
    show (n.cursor k).bind n.advance = some o
    rw [hk, Option.bind_some, advance_eq n o hin, hrecord]
    show some ((o + e.totalSize) % 2 ^ 32) = some o
    rw [hzero, Nat.add_zero, Nat.mod_eq_of_lt (by omega)]
  · intro hmoves i j o hij hi hj
    exact absurd (cursor_lt_cursor hsize hmoves hij hi hj) (Nat.lt_irrefl o)

theorem directoryBlock_size : 512 < 2 ^ 32 := by decide

/-- A directory of one block, with the given bytes. -/
def blockDirectory (bytes : List UInt8) : INode where
  sectors _ i := bytes.getD (i % 512) 0
  blockSize := 1024
  data := {
    sizeLow := 512
    nSectors := 2
    direct := fun i => i.val + 1
    indirect1 := 0
    mode := 0x41ED
    indirect2 := 0
    indirect3 := 0
    sizeLow_lt := directoryBlock_size }
  blockSize_pos := smallestBlock_pos
  blockSize_le := smallestBlock_le

/-- One record that fills the directory: "a", with i-node 11. -/
def oneName : INode := blockDirectory [11, 0, 0, 0, 0, 2, 1, 2, 97]

theorem oneName_record : oneName.readRecord 0 = .ok ⟨11, 512, [97]⟩ := by
  have h : (oneName.readRecord 0).toOption = some ⟨11, 512, [97]⟩ := by decide +kernel
  cases hrecord : oneName.readRecord 0 with
  | error e =>
    rw [hrecord] at h
    cases h
  | ok e =>
    rw [hrecord] at h
    rw [Option.some.inj h]

theorem oneName_moves (k o : ℕ) (e : DirRecord) (hk : oneName.cursor k = some o) (hin : o < oneName.data.sizeLow)
    (hrecord : oneName.readRecord o = .ok e) : e.totalSize ≠ 0 := by
  have hfirst : oneName.advance 0 = some 512 := by
    rw [advance_eq oneName 0 (by decide), oneName_record]
    rfl
  have hend : oneName.advance 512 = none := by
    unfold advance
    exact if_neg (by decide)
  cases k with
  | zero =>
    obtain rfl : 0 = o := Option.some.inj hk
    rw [oneName_record] at hrecord
    rw [← Except.ok.inj hrecord]
    decide
  | succ k =>
    have hk' := hk
    unfold cursor at hk'
    rw [visit_succ, hfirst, Option.bind_some] at hk'
    cases k with
    | zero =>
      obtain rfl : 512 = o := Option.some.inj hk'
      exact absurd hin (by decide)
    | succ k =>
      rw [visit_succ, hend] at hk'
      cases hk'

theorem oneName_terminates : oneName.entryCount ≠ .error .diverge := by
  refine bind_ne_diverge (assert_ne_diverge _ _) fun _ _ => ?_
  exact ((entries_terminates_iff oneName rfl (fun count _ _ => (count + 1) % 2 ^ 32) 0).2 (by decide)).mpr oneName_moves

def noSize : INode := blockDirectory [11, 0, 0, 0, 0, 0, 1, 2, 97]

theorem noSize_diverges : noSize.data.isDir = true ∧ noSize.entryCount = .error .diverge := by
  have hrecord : (noSize.readRecord 0).toOption = some ⟨11, 0, [97]⟩ := by decide +kernel
  have hstay : noSize.advance 0 = some 0 := by
    rw [advance_eq noSize 0 (by decide), hrecord]
    rfl
  have hback : visit noSize.advance 0 1 = some 0 := by
    rw [visit_succ, hstay]
    rfl
  have hforever : ¬ Ends noSize.advance 0 := not_ends_of_repeat Nat.one_pos rfl hback
  have hentries : noSize.entries (fun count _ _ => (count + 1) % 2 ^ 32) 0 = .error .diverge := by
    by_contra hreturns
    exact hforever ((entries_ends_iff rfl 0).mp hreturns)
  refine ⟨rfl, ?_⟩
  unfold entryCount
  rw [hentries]
  rfl

end INode
end AudioKernel
