import AudioKernel.Ext2.BlockMap

/-! The block tree of the ext2 format, with its holes, and how far the driver's `read_block` follows it. -/
namespace AudioKernel.INode
open Stores

variable (n : INode)

/-- How many pointers an index block has. -/
def refs : ℕ := n.blockSize / 4

/-- Pointer `j` in the index block `p`. -/
def entry (p j : ℕ) : ℕ := uintAt n.ide.byte (p * n.blockSize + 4 * j) 4

/-- The pointer to block `k` of the part of a file that is below `p`, so many levels up. Zero stands for a hole. -/
def follow : ℕ → ℕ → ℕ → ℕ
  | 0, p, _ => p
  | level + 1, p, k => if p = 0 then 0 else follow level (n.entry p (k / n.refs ^ level)) (k % n.refs ^ level)

/-- The pointer to block `k` of the file in the ext2 format. -/
def lookup (k : ℕ) : ℕ :=
  if h : k < 12 then n.data.direct ⟨k, h⟩
  else if k < 12 + n.refs then n.follow 1 n.data.indirect1 (k - 12)
  else if k < 12 + n.refs + n.refs ^ 2 then n.follow 2 n.data.indirect2 (k - 12 - n.refs)
  else n.follow 3 n.data.indirect3 (k - 12 - n.refs - n.refs ^ 2)

def Hole (k : ℕ) : Prop := n.lookup k = 0

/-- The blocks in use below `p` when `m` blocks of the file are left from there on. -/
def inUse : ℕ → ℕ → ℕ → ℕ
  | 0, p, m => if p = 0 ∨ m = 0 then 0 else 1
  | level + 1, p, m =>
    if p = 0 ∨ m = 0 then 0
    else 1 + ((List.range n.refs).map fun j => inUse level (n.entry p j) (m - j * n.refs ^ level)).sum

/-- The data blocks and the index blocks of the file. -/
def allocated : ℕ :=
  ((List.finRange 12).map fun i => n.inUse 0 (n.data.direct i) (n.blocks - i.val)).sum +
    n.inUse 1 n.data.indirect1 (n.blocks - 12) + n.inUse 2 n.data.indirect2 (n.blocks - 12 - n.refs) +
    n.inUse 3 n.data.indirect3 (n.blocks - 12 - n.refs - n.refs ^ 2)

/-- An i-node as the format has it: the tree has room for the file, and its blocks are counted in sectors. -/
structure WellFormed : Prop where
  powerOfTwo : ∃ e, n.blockSize = 2 ^ e
  blockSize_ge : 1024 ≤ n.blockSize
  room : n.blocks ≤ 12 + n.refs + n.refs ^ 2 + n.refs ^ 3
  counted : n.data.nSectors = n.allocated * (n.blockSize / 512)

/-- A read from `offset` on does not stop, and the bytes of a hole that it stores are zeros. -/
def Serves (offset buffer : ℕ) (x : Except Stop ReadResult) : Prop :=
  ∃ r, x = .ok r ∧ ∀ i : ℕ, i < r.count → n.Hole ((offset + i) / n.blockSize) →
    ∀ mem, r.stores.apply mem ((buffer + i) % 2 ^ 32) = 0

/-- Byte `j` of a hole comes out as zero: the block that the driver reads for it has a zero there. -/
def ZeroInHole (j : ℕ) : Prop := n.Hole (j / n.blockSize) → n.blockBytes (j / n.blockSize) (j % n.blockSize) = 0

variable {n} {b : Buffers}

/-- The bytes that are stored are those of the blocks that the driver reads. -/
theorem serves_slice_iff (hge : 512 ≤ n.blockSize) {offset buffer m : ℕ} {blocks : List ℕ} (hm : m ≤ 2 ^ 32)
    (hreadable : (n.readerIn b).ReadableAt offset m) :
    n.Serves offset buffer (.ok ⟨m, (n.readerIn b).slice offset buffer m, blocks⟩) ↔
      ∀ i < m, n.ZeroInHole (offset + i) := by
  have hbyte : ∀ i < m, ∀ mem, ((n.readerIn b).slice offset buffer m).apply mem ((buffer + i) % 2 ^ 32) =
      n.blockBytes ((offset + i) / n.blockSize) ((offset + i) % n.blockSize) := by
    intro i hi mem
    rw [← readerIn_byte hge (hreadable i hi)]
    exact apply_consecutive mem buffer (fun i => (n.readerIn b).byte (offset + i)) hm hi
  constructor
  · rintro ⟨r, hr, hzero⟩ i hi hhole
    obtain rfl := Except.ok.inj hr
    rw [← hbyte i hi fun _ => 0]
    exact hzero i (Int.ofNat_lt.mpr hi) hhole _
  · intro hzero
    refine ⟨_, rfl, ?_⟩
    intro i hi hhole mem
    have hi' : i < m := Int.ofNat_lt.mp hi
    rw [hbyte i hi' mem]
    exact hzero i hi' hhole

/-- Block `k` is delivered to a read of `m` bytes from `offset` on: the driver reaches it, and `malloc` finds the buffers
for the sectors and for the block if only a part of them is read. -/
structure ServedAt (n : INode) (b : Buffers) (offset m k : ℕ) : Prop where
  reached : n.Reached k
  sectors : n.Granted (b.device k) k
  block : (n.readerIn b).InPlace offset m k ∨ b.node k = true

theorem served_iff (hge : 512 ≤ n.blockSize) {offset m i : ℕ} :
    (n.readerIn b).Served offset m i ↔ n.ServedAt b offset m ((offset + i) / n.blockSize) := by
  rw [BlockReader.served_iff]
  show (n.readerIn b).Readable ((offset + i) / n.blockSize) ∧ _ ↔ _
  rw [n.readableIn_iff hge]
  exact ⟨fun h => ⟨h.1.1, h.1.2, h.2⟩, fun h => ⟨⟨h.reached, h.sectors⟩, h.block⟩⟩

/-- `read` serves an offset just when its block is delivered, and zero where it is a hole; and `read_all` just when this
is so for all the bytes. -/
theorem serves_iff (n : INode) (b : Buffers) (offset len buffer : ℕ) (hge : 512 ≤ n.blockSize) (hlen : len < 2 ^ 32)
    (hoff : offset < n.data.sizeLow) :
    (n.Serves offset buffer ((n.readerIn b).read offset len buffer) ↔
      n.ServedAt b offset (min len (n.data.sizeLow - offset)) (offset / n.blockSize) ∧
        ∀ i < (n.readerIn b).chunk offset len, n.ZeroInHole (offset + i)) ∧
    (n.Serves offset buffer ((n.readerIn b).readAll offset len buffer) ↔ ∀ i < min len (n.data.sizeLow - offset),
      n.ServedAt b offset (min len (n.data.sizeLow - offset)) ((offset + i) / n.blockSize) ∧
        n.ZeroInHole (offset + i)) := by
  have hsize : (n.readerIn b).sizeInBytes = n.data.sizeLow := rfl
  constructor
  · have hread := (n.readerIn b).read_spec len buffer hoff
    have hserved : (n.readerIn b).Served offset (min len (n.data.sizeLow - offset)) 0 ↔ _ := n.served_iff hge
    obtain ⟨hin, -, hle⟩ := (n.readerIn b).chunk_bounds len hoff
    rw [hsize] at hread
    rw [Nat.add_zero] at hserved
    rw [hread, ← hserved]
    cases hfetch : (n.readerIn b).fetch offset (min len (n.data.sizeLow - offset)) (offset / n.blockSize) with
    | error e =>
      refine iff_of_false ?_ ?_
      · rintro ⟨r, hr, -⟩
        change Except.map _ ((n.readerIn b).fetch _ _ (offset / n.blockSize)) = _ at hr
        rw [hfetch] at hr
        cases hr
      · rintro ⟨⟨bytes, hbytes⟩, -⟩
        change (n.readerIn b).fetch _ _ (offset / n.blockSize) = _ at hbytes
        rw [hfetch] at hbytes
        cases hbytes
    | ok bytes =>
      have hreadable : (n.readerIn b).ReadableAt offset ((n.readerIn b).chunk offset len) := by
        intro i hi
        rw [(BlockReader.div_in_block (d := n.readerIn b) offset i (by omega)).1]
        exact ⟨bytes, (BlockReader.fetch_eq_ok_iff.mp hfetch).1⟩
      show n.Serves offset buffer (Except.map _ ((n.readerIn b).fetch _ _ (offset / n.blockSize))) ↔ _
      rw [hfetch]
      exact (serves_slice_iff hge (by omega) hreadable).trans (and_iff_right ⟨bytes, hfetch⟩).symm
  · simp only [← served_iff hge]
    by_cases hall : ∀ i < min len (n.data.sizeLow - offset),
        (n.readerIn b).Served offset (min len (n.data.sizeLow - offset)) i
    · obtain ⟨blocks, hread, -⟩ := (n.readerIn b).readAll_served buffer hlen (Nat.le_of_lt hoff) hall
      rw [hread, hsize]
      refine (serves_slice_iff hge (by omega) (BlockReader.forall_served_iff.mp hall).1).trans ?_
      exact ⟨fun hzero i hi => ⟨hall i hi, hzero i hi⟩, fun h i hi => (h i hi).2⟩
    · refine iff_of_false ?_ fun h => hall fun i hi => (h i hi).1
      rintro ⟨r, hr, -⟩
      exact hall (BlockReader.forall_served_iff.mpr (BlockReader.served_of_readAll hlen (Nat.le_of_lt hoff) hr))

theorem twoBlocks_size : 2048 < 2 ^ 32 := by decide

/-- Two blocks of which the first is a hole. -/
def sparseFile : INode where
  sectors _ _ := 0
  blockSize := 1024
  data := {
    sizeLow := 2048
    nSectors := 2
    direct := fun i => if i.val = 1 then 100 else 0
    indirect1 := 0
    mode := 0x81A4
    indirect2 := 0
    indirect3 := 0
    sizeLow_lt := twoBlocks_size }
  blockSize_pos := smallestBlock_pos
  blockSize_le := smallestBlock_le

/-- The first block can be read; it is a hole, and block 0 of the disk is empty. -/
theorem sparseFile_serves :
    sparseFile.Serves 3 0 ((sparseFile.readerIn (buffersOf Heap.kernel 1024)).read 3 5 0) := by
  have hblock : Heap.kernel.grants 1024 = true := by decide +kernel
  refine ((sparseFile.serves_iff (buffersOf Heap.kernel 1024) 3 5 0 (by decide) (by decide) (by decide)).1).mpr
    ⟨⟨⟨?_, ?_, ?_, ?_⟩, ?_, .inr hblock⟩, ?_⟩
  · decide
  · decide
  · decide
  · decide
  · exact (granted_iff (n := sparseFile) (by decide)).mpr fun h => absurd h (by decide)
  · exact fun i _ _ => rfl

/-- The second block has its data, but only one block is counted. -/
theorem sparseFile_stops : sparseFile.WellFormed ∧ 1024 < sparseFile.data.sizeLow ∧
    ¬ sparseFile.Serves 1024 0 ((sparseFile.readerIn (buffersOf Heap.kernel 1024)).read 1024 1 0) := by
  refine ⟨⟨⟨10, rfl⟩, by decide, by decide, by decide +kernel⟩, by decide, ?_⟩
  rintro ⟨r, hr, -⟩
  have hstops : ((sparseFile.readerIn (buffersOf Heap.kernel 1024)).read 1024 1 0).toOption.isSome = false := by
    decide +kernel
  rw [hr] at hstops
  cases hstops

end AudioKernel.INode
