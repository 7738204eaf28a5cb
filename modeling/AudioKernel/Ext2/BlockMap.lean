import AudioKernel.Ext2.INode

/-! Reads of a file that the driver's map of direct and single-indirect blocks describes. -/
namespace AudioKernel
open Stores

def sectorsOf (image : List UInt8) (s i : ℕ) : UInt8 := image.getD (512 * s + i) 0

namespace INode

variable (n : INode) (image : List UInt8)

def blocks : ℕ := (n.data.sizeLow + n.blockSize - 1) / n.blockSize

/-- The block pointer for block `k`: a direct one, or one that the indirect block lists. -/
def listed (k : ℕ) : ℕ :=
  if h : k < 12 then n.data.direct ⟨k, h⟩
  else uintAt (fun a => image.getD a 0) (n.data.indirect1 * n.blockSize + 4 * (k - 12)) 4

def blockList : List ℕ := (List.range n.blocks).map (n.listed image)

def concatenation : List UInt8 := (n.blockList image).flatMap fun p => (image.drop (p * n.blockSize)).take n.blockSize

/-- The file lies in blocks of the image that its i-node names and counts. -/
structure Mapped : Prop where
  disk : n.sectors = sectorsOf image
  image_lt : image.length < 2 ^ 32 - 1
  powerOfTwo : ∃ e, n.blockSize = 2 ^ e
  blockSize_ge : 1024 ≤ n.blockSize
  few : n.blocks ≤ 12 + n.blockSize / 4
  counted : n.blocks * (n.blockSize / 512) ≤ n.data.nSectors
  inside : ∀ p ∈ n.blockList image, p ≠ 0 ∧ (p + 1) * n.blockSize ≤ image.length
  indirectInside : 12 < n.blocks → n.data.indirect1 ≠ 0 ∧ (n.data.indirect1 + 1) * n.blockSize ≤ image.length

variable {n image} {k : ℕ}

theorem lt_blocks_iff : k < n.blocks ↔ k * n.blockSize < n.data.sizeLow := by
  have hpos := n.blockSize_pos
  rw [blocks, Nat.lt_iff_add_one_le, Nat.le_div_iff_mul_le hpos, Nat.add_mul]
  omega

theorem ide_byte (hdisk : n.sectors = sectorsOf image) (a : ℕ) : n.ide.byte a = image.getD a 0 := by
  show n.sectors (a / 512) (a % 512) = _
  rw [hdisk, sectorsOf, Nat.div_add_mod]

theorem Mapped.pointer_eq (h : n.Mapped image) (hk : k < n.blocks) : n.pointer k = n.listed image k := by
  unfold pointer listed
  split_ifs with hdirect
  · rfl
  · have hend := (h.indirectInside (by omega)).2
    have hfew := h.few
    have himage := h.image_lt
    rw [Nat.add_mul, Nat.one_mul] at hend
    rw [pointerOffset, Nat.mod_eq_of_lt (by omega), Nat.mul_comm (k - 12) 4]
    exact uintAt_congr fun a _ _ => ide_byte h.disk a

theorem Mapped.listed_inside (h : n.Mapped image) (hk : k < n.blocks) :
    n.listed image k * n.blockSize + n.blockSize ≤ image.length := by
  have hend := (h.inside _ (List.mem_map_of_mem (List.mem_range.mpr hk))).2
  rwa [Nat.add_mul, Nat.one_mul] at hend

/-- Nothing that `read_block` checks goes wrong with a block of the file. -/
theorem Mapped.reached (h : n.Mapped image) (hk : k < n.blocks) : n.Reached k := by
  have hfew := h.few
  have himage := h.image_lt
  have hge := h.blockSize_ge
  have hend := h.listed_inside hk
  constructor
  · have hcounted := Nat.le_div_iff_mul_le (show 0 < n.blockSize / 512 by omega) |>.mpr h.counted
    omega
  · omega
  · intro hindirect
    have hblock := (h.indirectInside (by omega)).2
    rw [Nat.add_mul, Nat.one_mul] at hblock
    rw [Nat.mod_eq_of_lt (by omega)]
    omega
  · rw [h.pointer_eq hk, Nat.mod_eq_of_lt (by omega)]
    omega

theorem getElem?_flatMap {α : Type} {b : ℕ} (hb : 0 < b) {l : List ℕ} {f : ℕ → List α}
    (hlength : ∀ p ∈ l, (f p).length = b) (j : ℕ) :
    (l.flatMap f)[j]? = (l[j / b]?).bind fun p => (f p)[j % b]? := by
  induction l generalizing j with
  | nil => rfl
  | cons p l ih =>
    rw [List.forall_mem_cons] at hlength
    rw [List.flatMap_cons]
    by_cases hfirst : j < b
    · rw [List.getElem?_append_left (by omega), Nat.div_eq_of_lt hfirst, Nat.mod_eq_of_lt hfirst]
      rfl
    · obtain ⟨i, rfl⟩ : ∃ i, j = i + b := ⟨j - b, by omega⟩
      rw [List.getElem?_append_right (by omega), hlength.1, Nat.add_sub_cancel, Nat.add_div_right _ hb,
        Nat.add_mod_right, ih hlength.2]
      rfl

theorem Mapped.concatenation_getD (h : n.Mapped image) {j : ℕ} (hj : j < n.data.sizeLow) :
    (n.concatenation image).getD j 0 =
      image.getD (n.listed image (j / n.blockSize) * n.blockSize + j % n.blockSize) 0 := by
  have hpos := n.blockSize_pos
  have hblock : j / n.blockSize < n.blocks :=
    lt_blocks_iff.mpr (Nat.lt_of_le_of_lt (Nat.div_mul_le_self ..) hj)
  have hlength : ∀ p ∈ n.blockList image, ((image.drop (p * n.blockSize)).take n.blockSize).length = n.blockSize := by
    intro p hp
    have hend := (h.inside p hp).2
    rw [Nat.add_mul, Nat.one_mul] at hend
    rw [List.length_take, List.length_drop]
    omega
  have hlist : (n.blockList image)[j / n.blockSize]? = some (n.listed image (j / n.blockSize)) := by
    rw [blockList, List.getElem?_map, List.getElem?_range hblock]
    rfl
  rw [concatenation, List.getD_eq_getElem?_getD, getElem?_flatMap hpos hlength, hlist, Option.bind_some,
    List.getElem?_take_of_lt (Nat.mod_lt _ hpos), List.getElem?_drop, List.getD_eq_getElem?_getD]

theorem Mapped.sectors_dvd (h : n.Mapped image) : 512 ∣ n.blockSize := by
  obtain ⟨e, he⟩ := h.powerOfTwo
  have hge := h.blockSize_ge
  rw [he] at hge ⊢
  have hlt : 9 < e := (Nat.pow_lt_pow_iff_right (by decide)).mp (show 2 ^ 9 < 2 ^ e by omega)
  exact Nat.pow_dvd_pow 2 (Nat.le_of_lt hlt)

/-- `malloc` finds the buffers that a read of `m` bytes from `offset` on asks for: one for each block that is read in
part, and one for the sector of each pointer that is not in the i-node. -/
def BuffersFor (n : INode) (b : Buffers) (offset m : ℕ) : Prop :=
  ∀ i < m, let k := (offset + i) / n.blockSize
    ((n.readerIn b).InPlace offset m k ∨ b.node k = true) ∧ (12 ≤ k → b.device k (n.pointerOffset k / 512) = true)

variable {b : Buffers}

theorem Mapped.lt_blocks {offset m i : ℕ} (hi : i < m) (hend : offset + m ≤ n.data.sizeLow) :
    (offset + i) / n.blockSize < n.blocks :=
  lt_blocks_iff.mpr (Nat.lt_of_le_of_lt (Nat.div_mul_le_self ..) (by omega))

/-- Nothing else than a buffer can be missing for a byte of the file. -/
theorem Mapped.served_iff (h : n.Mapped image) {offset m : ℕ} (hend : offset + m ≤ n.data.sizeLow) :
    (∀ i < m, (n.readerIn b).Served offset m i) ↔ n.BuffersFor b offset m := by
  have hge := h.blockSize_ge
  have hserved (i : ℕ) (hi : i < m) : (n.readerIn b).Served offset m i ↔
      ((n.readerIn b).InPlace offset m ((offset + i) / n.blockSize) ∨ b.node ((offset + i) / n.blockSize) = true) ∧
        (12 ≤ (offset + i) / n.blockSize → b.device ((offset + i) / n.blockSize)
          (n.pointerOffset ((offset + i) / n.blockSize) / 512) = true) := by
    rw [BlockReader.served_iff, ← granted_iff h.sectors_dvd]
    refine (and_congr_left fun _ => ?_).trans and_comm
    exact (n.readableIn_iff (by omega)).trans (and_iff_right (h.reached (lt_blocks hi hend)))
  exact forall₂_congr hserved

/-- The driver delivers the bytes of the blocks in a row. -/
theorem Mapped.byte_eq (h : n.Mapped image) {j : ℕ} (hj : j < n.data.sizeLow)
    (hreadable : (n.readerIn b).Readable (j / n.blockSize)) :
    (n.readerIn b).byte j = (n.concatenation image).getD j 0 := by
  have hge := h.blockSize_ge
  have himage := h.image_lt
  have hblock : j / n.blockSize < n.blocks := lt_blocks_iff.mpr (Nat.lt_of_le_of_lt (Nat.div_mul_le_self ..) hj)
  have hend := h.listed_inside hblock
  rw [h.concatenation_getD hj, readerIn_byte (by omega) hreadable, blockBytes, h.pointer_eq hblock,
    Nat.mod_eq_of_lt (by omega), ide_byte h.disk]

/-- A read with its buffers delivers that slice of the blocks in a row. -/
theorem Mapped.readAll_ok (h : n.Mapped image) {offset len : ℕ} (buffer : ℕ) (hlen : len < 2 ^ 32)
    (hoff : offset ≤ n.data.sizeLow) (hbuffers : n.BuffersFor b offset (min len (n.data.sizeLow - offset))) :
    ∃ blocks, (n.readerIn b).readAll offset len buffer = .ok ⟨(min len (n.data.sizeLow - offset) : ℕ),
      consecutive buffer (fun i => (n.concatenation image).getD (offset + i) 0) (min len (n.data.sizeLow - offset)),
      blocks⟩ := by
  have hserved := (h.served_iff (by omega)).mpr hbuffers
  obtain ⟨blocks, hread, -⟩ := (n.readerIn b).readAll_served buffer hlen hoff hserved
  refine ⟨blocks, hread.trans ?_⟩
  have hbytes : (n.readerIn b).slice offset buffer (min len (n.data.sizeLow - offset)) =
      consecutive buffer (fun i => (n.concatenation image).getD (offset + i) 0) (min len (n.data.sizeLow - offset)) := by
    refine consecutive_congr fun i hi => h.byte_eq (by omega) ?_
    exact (BlockReader.served_iff.mp (hserved i hi)).1
  rw [← hbytes]
  rfl

theorem file_byte (j : ℕ) : n.file.byte j = n.reader.byte j := rfl

theorem Mapped.file_byte (h : n.Mapped image) {j : ℕ} (hj : j < n.data.sizeLow) :
    n.file.byte j = (n.concatenation image).getD j 0 := by
  have hge := h.blockSize_ge
  have hblock : j / n.blockSize < n.blocks := lt_blocks_iff.mpr (Nat.lt_of_le_of_lt (Nat.div_mul_le_self ..) hj)
  rw [INode.file_byte]
  exact h.byte_eq hj ((readable_iff (by omega)).mpr (h.reached hblock))

/-- A file in blocks that the driver reaches can be taken for one whose blocks can all be read. -/
theorem Mapped.file_readAll (h : n.Mapped image) {offset len : ℕ} (buffer : ℕ) (hlen : len < 2 ^ 32)
    (hoff : offset ≤ n.data.sizeLow) (hbuffers : n.BuffersFor b offset (min len (n.data.sizeLow - offset))) :
    ∃ r blocks, n.file.readAll offset len buffer = .ok r ∧
      (n.readerIn b).readAll offset len buffer = .ok { r with blocks := blocks } := by
  obtain ⟨blocks, hread⟩ := h.readAll_ok buffer hlen hoff hbuffers
  obtain ⟨blocks', hread', -⟩ := n.file.readAll_spec buffer hlen hoff
  refine ⟨_, blocks, hread', hread.trans ?_⟩
  have hbytes : n.file.slice offset buffer (min len (n.data.sizeLow - offset)) =
      consecutive buffer (fun i => (n.concatenation image).getD (offset + i) 0) (min len (n.data.sizeLow - offset)) :=
    consecutive_congr fun i hi => h.file_byte (by omega)
  rw [← hbytes]
  rfl

/-- One without them ends with the panic of `operator new[]`. -/
theorem Mapped.readAll_unbuffered (h : n.Mapped image) {offset len : ℕ} (buffer : ℕ) (hlen : len < 2 ^ 32)
    (hoff : offset ≤ n.data.sizeLow) (hnot : ¬ n.BuffersFor b offset (min len (n.data.sizeLow - offset))) :
    (n.readerIn b).readAll offset len buffer = .error (.panic "out of memory") := by
  have hge := h.blockSize_ge
  obtain ⟨m, hm⟩ : ∃ m, min len (n.data.sizeLow - offset) = m := ⟨_, rfl⟩
  rw [hm] at hnot
  obtain ⟨more, -, -, ⟨hserved, -⟩ | ⟨e, j, hj, -, hfail, hcount, -⟩⟩ := (n.readerIn b).reading_delivers buffer hlen hoff
  · exact absurd ((h.served_iff (by omega)).mp (hm ▸ hserved)) hnot
  · have hj' : j < m := hm ▸ hj
    have hpanic : e = .panic "out of memory" := by
      rcases BlockReader.fetch_error hfail with hblock | ⟨hpanic, -⟩
      · rcases n.block_cases b (by omega) ((offset + j) / n.blockSize) with ⟨-, -, bytes, hok, -⟩ | ⟨-, -, herror⟩ |
          ⟨hnot, -⟩
        · cases hok.symm.trans hblock
        · exact (Except.error.inj (herror.symm.trans hblock)).symm
        · exact absurd (h.reached (lt_blocks hj' (by omega))) hnot
      · exact hpanic
    rw [BlockReader.readAll, Reading.returned, hcount, hpanic]
    rfl

/-- `read_all` returns the number of bytes that there are, and stores that slice of the blocks in a row, just when
`malloc` finds its buffers. -/
theorem readAll_slice (n : INode) (image : List UInt8) (b : Buffers) (h : n.Mapped image) (offset len buffer : ℕ)
    (hlen : 0 < len) (hlen' : len < 2 ^ 32) :
    (offset > n.data.sizeLow → (n.readerIn b).readAll offset len buffer = .ok ⟨-1, [], []⟩) ∧
      (offset ≤ n.data.sizeLow → n.BuffersFor b offset (min len (n.data.sizeLow - offset)) →
        ∃ blocks, (n.readerIn b).readAll offset len buffer =
          .ok ⟨(min len (n.data.sizeLow - offset) : ℕ),
            consecutive buffer (fun i => (n.concatenation image).getD (offset + i) 0) (min len (n.data.sizeLow - offset)),
            blocks⟩) ∧
      (offset ≤ n.data.sizeLow → ¬ n.BuffersFor b offset (min len (n.data.sizeLow - offset)) →
        (n.readerIn b).readAll offset len buffer = .error (.panic "out of memory")) :=
  ⟨(n.readerIn b).readAll_past_end buffer hlen, fun hoff => h.readAll_ok buffer hlen' hoff,
    fun hoff => h.readAll_unbuffered buffer hlen' hoff⟩

/-- The buffers that this heap has room for. -/
def buffersOf (h : Heap) (blockSize : ℕ) : Buffers := ⟨fun _ => h.grants blockSize, fun _ _ => h.grants 512⟩

theorem thirteenBlocks_size : 12388 < 2 ^ 32 := by decide

/-- A disk of fifteen blocks. The index block, number 1, lists block 14. -/
def fifteenBlocks : List UInt8 := List.replicate 1024 0 ++ ([14, 0, 0, 0] ++ List.replicate 13308 5 ++ List.replicate 1024 9)

def longFile : INode where
  sectors := sectorsOf fifteenBlocks
  blockSize := 1024
  data := {
    sizeLow := 12388
    nSectors := 28
    direct := fun i => i.val + 2
    indirect1 := 1
    mode := 0x81A4
    indirect2 := 0
    indirect3 := 0
    sizeLow_lt := thirteenBlocks_size }
  blockSize_pos := smallestBlock_pos
  blockSize_le := smallestBlock_le

theorem length_fifteenBlocks : fifteenBlocks.length = 15360 := by
  simp only [fifteenBlocks, List.length_append, List.length_replicate]
  rfl

theorem longFile_mapped : longFile.Mapped fifteenBlocks where
  disk := rfl
  image_lt := by
    rw [length_fifteenBlocks]
    decide
  powerOfTwo := ⟨10, rfl⟩
  blockSize_ge := Nat.le_refl _
  few := by decide +kernel
  counted := by decide +kernel
  inside := by
    have hlist : longFile.blockList fifteenBlocks = [2, 3, 4, 5, 6, 7, 8, 9, 10, 11, 12, 13, 14] := by decide +kernel
    rw [hlist, length_fifteenBlocks]
    decide +kernel
  indirectInside := by
    intro _
    rw [length_fifteenBlocks]
    decide +kernel

/-- A read across the last direct block and the first that the index block lists. -/
theorem longFile_read : ∃ blocks,
    (longFile.readerIn (buffersOf Heap.kernel 1024)).readAll 12287 2 0 = .ok ⟨2, [(0, 5), (1, 9)], blocks⟩ := by
  have hblock : Heap.kernel.grants 1024 = true := by decide +kernel
  have hsector : Heap.kernel.grants 512 = true := by decide +kernel
  obtain ⟨blocks, hread⟩ := (longFile.readAll_slice fifteenBlocks (buffersOf Heap.kernel 1024) longFile_mapped 12287 2 0
    (by decide) (by decide)).2.1 (by decide) fun _ _ => ⟨.inr hblock, fun _ => hsector⟩
  have hbytes : (longFile.concatenation fifteenBlocks).getD 12287 0 = 5 ∧
      (longFile.concatenation fifteenBlocks).getD 12288 0 = 9 := by
    rw [longFile_mapped.concatenation_getD (by decide), longFile_mapped.concatenation_getD (by decide)]
    decide +kernel
  refine ⟨blocks, hread.trans ?_⟩
  have hsize : min 2 (longFile.data.sizeLow - 12287) = 2 := by decide
  rw [hsize]
  show Except.ok (ReadResult.mk 2 [(0, (longFile.concatenation fifteenBlocks).getD 12287 0),
    (1, (longFile.concatenation fifteenBlocks).getD 12288 0)] blocks) = _
  rw [hbytes.1, hbytes.2]

theorem oneByte_size : 1 < 2 ^ 32 := by decide

theorem hugeBlock_pos : 0 < 2 ^ 23 := by decide

theorem hugeBlock_le : 2 ^ 23 ≤ 2 ^ 31 := by decide

def twoHugeBlocks : List UInt8 := List.replicate (2 ^ 24) 7

def hugeFile : INode where
  sectors := sectorsOf twoHugeBlocks
  blockSize := 2 ^ 23
  data := {
    sizeLow := 1
    nSectors := 16384
    direct := fun _ => 1
    indirect1 := 0
    mode := 0x81A4
    indirect2 := 0
    indirect3 := 0
    sizeLow_lt := oneByte_size }
  blockSize_pos := hugeBlock_pos
  blockSize_le := hugeBlock_le

theorem hugeFile_mapped : hugeFile.Mapped twoHugeBlocks where
  disk := rfl
  image_lt := by
    rw [twoHugeBlocks, List.length_replicate]
    decide
  powerOfTwo := ⟨23, rfl⟩
  blockSize_ge := by decide
  few := by decide
  counted := by decide
  inside := by
    have hlist : hugeFile.blockList twoHugeBlocks = [1] := rfl
    rw [hlist, twoHugeBlocks, List.length_replicate]
    decide
  indirectInside := fun h => absurd h (by decide)

/-- The heap of the kernel has no buffer for a block of eight megabytes. -/
theorem hugeFile_panics : hugeFile.Mapped twoHugeBlocks ∧
    (hugeFile.readerIn (buffersOf Heap.kernel (2 ^ 23))).readAll 0 1 0 = .error (.panic "out of memory") := by
  have hrefused : Heap.kernel.grants (2 ^ 23) = false := by decide +kernel
  refine ⟨hugeFile_mapped, hugeFile_mapped.readAll_unbuffered 0 (by decide) (by decide) ?_⟩
  intro hbuffers
  rcases (hbuffers 0 (by decide)).1 with hplace | hgranted
  · exact absurd hplace.2 (by decide)
  · exact absurd (hrefused.symm.trans hgranted) (by decide)

end INode
end AudioKernel
