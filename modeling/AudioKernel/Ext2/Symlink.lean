import AudioKernel.Ext2.BlockTree

/-! `Node::get_symbol`, and the symbolic links of the ext2 format. -/
namespace AudioKernel
open Stores

namespace INodeData

variable (data : INodeData)

def isSymlink : Bool := data.mode / 2 ^ 12 = 0xa

/-- The block pointers, as they follow each other in the i-node. -/
def pointers (j : ℕ) : ℕ :=
  if h : j < 12 then data.direct ⟨j, h⟩
  else if j = 12 then data.indirect1
  else if j = 13 then data.indirect2
  else data.indirect3

/-- Byte `i` from `&data.direct0` on. -/
def area (i : ℕ) : UInt8 := UInt8.ofNat (data.pointers (i / 4) / 256 ^ (i % 4))

end INodeData

namespace INode

variable (n : INode)

def getSymbol (buffer : ℕ) : Except Stop Stores := do
  assert n.data.isSymlink "is_symlink()"
  let sz := n.data.sizeLow
  if sz ≤ 60 then return memcpy buffer n.data.area sz
  else
    let cnt ← n.reader.readAll 0 sz buffer
    assert (cnt.count = sz) "cnt == sz"
    return cnt.stores

/-- The data blocks of an i-node have these bytes, and lie on the device with the index block that lists them. -/
structure Holds (bytes : List UInt8) : Prop where
  counted : n.blocks * (n.blockSize / 512) ≤ n.data.nSectors
  onDisk : ∀ k < n.blocks, n.lookup k ≠ 0 ∧ (n.lookup k + 1) * n.blockSize < 2 ^ 32
  indexOnDisk : 12 < n.blocks → (n.data.indirect1 + 1) * n.blockSize < 2 ^ 32
  bytes : ∀ i < bytes.length,
    n.ide.byte (n.lookup (i / n.blockSize) * n.blockSize + i % n.blockSize) = bytes.getD i 0

/-- A symbolic link as the format stores it: a target of less than 60 bytes is in place of the block pointers. -/
structure Symlink (target : List UInt8) : Prop where
  powerOfTwo : ∃ e, n.blockSize = 2 ^ e
  blockSize_ge : 1024 ≤ n.blockSize
  symlink : n.data.isSymlink = true
  length : n.data.sizeLow = target.length
  inline : target.length < 60 → ∀ i < target.length, n.data.area i = target.getD i 0
  stored : 60 ≤ target.length → n.Holds target

/-- The target, and nothing else, is stored to the buffer. -/
def Fills (buffer : ℕ) (target : List UInt8) (x : Except Stop Stores) : Prop :=
  ∃ stores, x = .ok stores ∧ (∀ i < target.length, ∀ mem, stores.apply mem ((buffer + i) % 2 ^ 32) = target.getD i 0) ∧
    ∀ a ∈ stores.map Prod.fst, ∃ i < target.length, a = (buffer + i) % 2 ^ 32

variable {n} {target : List UInt8} {buffer k : ℕ}

/-- Stores from the buffer on fill it just when they store the bytes of the target. -/
theorem fills_consecutive_iff {src : ℕ → UInt8} (hlength : target.length < 2 ^ 32) :
    Fills buffer target (.ok (consecutive buffer src target.length)) ↔ ∀ i < target.length, src i = target.getD i 0 := by
  constructor
  · rintro ⟨stores, hstores, hbytes, -⟩ i hi
    obtain rfl := Except.ok.inj hstores
    rw [← hbytes i hi fun _ => 0]
    exact (apply_consecutive _ buffer src (Nat.le_of_lt hlength) hi).symm
  · intro hsrc
    refine ⟨_, rfl, ?_, fun a ha => mem_consecutive.mp ha⟩
    intro i hi mem
    rw [apply_consecutive mem buffer src (Nat.le_of_lt hlength) hi]
    exact hsrc i hi

/-- Within the driver's map, and on the device, the driver follows the format. -/
theorem Holds.pointer_eq (h : n.Holds target) (hk : k < n.blocks) (hmapped : k < 12 + n.refs) :
    n.pointer k = n.lookup k := by
  have hnonzero := (h.onDisk k hk).1
  unfold pointer lookup at *
  split_ifs at hnonzero ⊢ with hdirect
  · rfl
  · have hend := h.indexOnDisk (by omega)
    rw [Nat.add_mul, Nat.one_mul] at hend
    unfold refs at hmapped
    have hindirect : n.data.indirect1 ≠ 0 := by
      intro hzero
      rw [hzero] at hnonzero
      exact hnonzero rfl
    show _ = if n.data.indirect1 = 0 then 0 else n.entry n.data.indirect1 ((k - 12) / n.refs ^ 0)
    rw [if_neg hindirect, Nat.pow_zero, Nat.div_one, pointerOffset, Nat.mod_eq_of_lt (by omega), Nat.mul_comm (k - 12) 4,
      entry]

theorem Holds.reached (h : n.Holds target) (hge : 1024 ≤ n.blockSize) (hk : k < n.blocks) (hmapped : k < 12 + n.refs) :
    n.Reached k := by
  have hend := (h.onDisk k hk).2
  rw [Nat.add_mul, Nat.one_mul] at hend
  constructor
  · have hcounted := Nat.le_div_iff_mul_le (show 0 < n.blockSize / 512 by omega) |>.mpr h.counted
    omega
  · exact hmapped
  · intro hindirect
    have hindex := h.indexOnDisk (by omega)
    rw [Nat.add_mul, Nat.one_mul] at hindex
    unfold refs at hmapped
    rw [Nat.mod_eq_of_lt (by omega)]
    omega
  · rw [h.pointer_eq hk hmapped, Nat.mod_eq_of_lt (by omega)]
    omega

theorem Holds.byte_eq (h : n.Holds target) (hge : 1024 ≤ n.blockSize) (hlength : n.data.sizeLow = target.length)
    (hblocks : n.blocks ≤ 12 + n.refs) {i : ℕ} (hi : i < target.length) : n.reader.byte i = target.getD i 0 := by
  have hk : i / n.blockSize < n.blocks := lt_blocks_iff.mpr (by
    rw [hlength]
    exact Nat.lt_of_le_of_lt (Nat.div_mul_le_self ..) hi)
  have hend := (h.onDisk _ hk).2
  rw [Nat.add_mul, Nat.one_mul] at hend
  rw [reader_byte (by omega) (h.reached hge hk (by omega)), blockBytes, h.pointer_eq hk (by omega),
    Nat.mod_eq_of_lt (by omega)]
  exact h.bytes i hi

/-- A target of more blocks than the driver's map has is not read. -/
theorem Symlink.blocks_le (h : n.Symlink target) {r : ReadResult}
    (hread : n.reader.readAll 0 n.data.sizeLow buffer = .ok r) : n.blocks ≤ 12 + n.refs := by
  have hge := h.blockSize_ge
  by_contra hmany
  have hreadable := (BlockReader.served_of_readAll n.data.sizeLow_lt (Nat.zero_le _) hread).1
  have hmin : min n.data.sizeLow (n.reader.sizeInBytes - 0) = n.data.sizeLow := Nat.min_self _
  rw [hmin] at hreadable
  -- the first block of the double-indirect part begins before the end of the target
  have hblock := hreadable _ (lt_blocks_iff.mp (show 12 + n.refs < n.blocks by omega))
  have hdiv : (12 + n.refs) * n.blockSize / n.reader.blockSize = 12 + n.refs := Nat.mul_div_cancel _ n.blockSize_pos
  rw [Nat.zero_add, hdiv] at hblock
  exact absurd ((readable_iff (by omega)).mp hblock).mapped (Nat.lt_irrefl _)

/-- Any other target that is in data blocks is read from there. -/
theorem Symlink.readAll_ok (h : n.Symlink target) (hlong : 60 ≤ target.length) (hblocks : n.blocks ≤ 12 + n.refs)
    (buffer : ℕ) : ∃ blocks, n.reader.readAll 0 n.data.sizeLow buffer =
      .ok ⟨n.data.sizeLow, consecutive buffer (fun i => target.getD i 0) n.data.sizeLow, blocks⟩ := by
  have hholds := h.stored hlong
  have hge := h.blockSize_ge
  have hlength := h.length
  have hmin : min n.data.sizeLow (n.reader.sizeInBytes - 0) = n.data.sizeLow := Nat.min_self _
  have hreadable : n.reader.ReadableAt 0 (min n.data.sizeLow (n.reader.sizeInBytes - 0)) := by
    intro i hi
    rw [hmin] at hi
    have hk : (0 + i) / n.reader.blockSize < n.blocks := by
      rw [lt_blocks_iff, Nat.zero_add]
      exact Nat.lt_of_le_of_lt (Nat.div_mul_le_self ..) hi
    exact (readable_iff (by omega)).mpr (hholds.reached hge hk (by omega))
  obtain ⟨blocks, hread⟩ := n.reader.readAll_ok buffer n.data.sizeLow_lt (Nat.zero_le _) hreadable
    (n.reader_buffered _ _)
  have hbytes : n.reader.slice 0 buffer n.data.sizeLow = consecutive buffer (fun i => target.getD i 0) n.data.sizeLow := by
    apply consecutive_congr
    intro i hi
    rw [Nat.zero_add]
    exact hholds.byte_eq hge hlength hblocks (by omega)
  rw [hmin, hbytes] at hread
  exact ⟨blocks, hread⟩

/-- A target of 60 bytes is in a data block, where `get_symbol` does not look for it. -/
theorem getSymbol_fills_iff (n : INode) (target : List UInt8) (h : n.Symlink target) (buffer : ℕ) :
    Fills buffer target (n.getSymbol buffer) ↔ (target.length = 60 → ∀ i < 60, n.data.area i = target.getD i 0) ∧
      (60 < target.length → n.blocks ≤ 12 + n.refs) := by
  have hlt := n.data.sizeLow_lt
  have hlength := h.length
  unfold getSymbol
  rw [h.symlink]
  show Fills buffer target (if n.data.sizeLow ≤ 60 then .ok (memcpy buffer n.data.area n.data.sizeLow) else _) ↔ _
  by_cases hinline : n.data.sizeLow ≤ 60
  · rw [if_pos hinline, memcpy, if_pos (by omega), hlength, fills_consecutive_iff (by omega)]
    constructor
    · intro hbytes
      refine ⟨?_, fun hlong => absurd hlong (by omega)⟩
      intro hsixty i hi
      exact hbytes i (by omega)
    · rintro ⟨hsixty, -⟩ i hi
      by_cases hshort : target.length < 60
      · exact h.inline hshort i hi
      · exact hsixty (by omega) i (by omega)
  · rw [if_neg hinline]
    constructor
    · rintro ⟨stores, hstores, -⟩
      refine ⟨fun hsixty => absurd hsixty (by omega), fun _ => ?_⟩
      cases hread : n.reader.readAll 0 n.data.sizeLow buffer with
      | error e =>
        rw [hread] at hstores
        cases hstores
      | ok r => exact h.blocks_le hread
    · rintro ⟨-, hblocks⟩
      obtain ⟨blocks, hread⟩ := h.readAll_ok (by omega) (hblocks (by omega)) buffer
      rw [hread]
      show Fills buffer target (assert _ _ >>= fun _ => _)
      rw [assert_pos rfl, hlength]
      exact (fills_consecutive_iff (by omega)).mpr fun i _ => rfl

theorem letters_size (size : Fin 1024) : size.val < 2 ^ 32 := Nat.lt_trans size.isLt (by decide)

/-- A symbolic link of so many letters "a", in block 1 of a disk that is full of them. -/
def letters (size : Fin 1024) : INode where
  sectors _ _ := 97
  blockSize := 1024
  data := {
    sizeLow := size
    nSectors := 2
    direct := fun i => i.val + 1
    indirect1 := 0
    mode := 0xA1FF
    indirect2 := 0
    indirect3 := 0
    sizeLow_lt := letters_size size }
  blockSize_pos := smallestBlock_pos
  blockSize_le := smallestBlock_le

theorem letters_symlink (size : Fin 1024) (hsize : 60 ≤ size.val) :
    (letters size).Symlink (List.replicate size 97) := by
  have hblocks : (letters size).blocks ≤ 1 := by
    show (size.val + 1024 - 1) / 1024 ≤ 1
    omega
  constructor
  case powerOfTwo => exact ⟨10, rfl⟩
  case blockSize_ge => exact Nat.le_refl _
  case symlink =>
    simp [INodeData.isSymlink, letters]
  case length => exact (List.length_replicate ..).symm
  case inline =>
    intro hshort
    rw [List.length_replicate] at hshort
    omega
  case stored =>
    intro _
    constructor
    case counted =>
      show (letters size).blocks * (1024 / 512) ≤ 2
      omega
    case onDisk =>
      intro k hk
      obtain rfl : k = 0 := by omega
      have hfirst : (letters size).lookup 0 = 1 := rfl
      rw [hfirst]
      show 1 ≠ 0 ∧ (1 + 1) * 1024 < 2 ^ 32
      decide
    case indexOnDisk => exact fun hmany => absurd hmany (by omega)
    case bytes =>
      intro i hi
      rw [List.length_replicate] at hi
      rw [List.getD_eq_getElem?_getD, List.getElem?_replicate_of_lt hi]
      rfl

/-- One letter more, and the target is read from its block. -/
theorem letters_filled : Fills 0 (List.replicate 61 97) ((letters 61).getSymbol 0) :=
  ((letters 61).getSymbol_fills_iff _ (letters_symlink 61 (by decide)) 0).mpr ⟨by decide, by decide⟩

/-- The block pointers are stored to the buffer in place of the target. -/
theorem letters_not_filled : (letters 60).Symlink (List.replicate 60 97) ∧
    ¬ Fills 0 (List.replicate 60 97) ((letters 60).getSymbol 0) := by
  refine ⟨letters_symlink 60 (by decide), ?_⟩
  rintro ⟨stores, hstores, hbytes, -⟩
  have hfirst := hbytes 0 (by decide) fun _ => 0
  have hpointer : ((letters 60).getSymbol 0).toOption.map (fun stores => stores.apply (fun _ => 0) 0) = some 1 := by
    decide +kernel
  rw [hstores] at hpointer
  have hpointer : stores.apply (fun _ => 0) 0 = 1 := Option.some.inj hpointer
  rw [Nat.add_zero, Nat.zero_mod, hpointer] at hfirst
  exact absurd hfirst (by decide)

end INode
end AudioKernel
