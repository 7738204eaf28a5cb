import AudioKernel.BlockIO
import Mathlib.Data.Fin.VecNotation
import Mathlib.Tactic.Ring

/-! `Node::read_block` of `ext2.cc`: the blocks of a file, as the disk has them, and where it stops. -/
namespace AudioKernel

/-- The disk. It says that it is as large as a `uint32_t` can tell. -/
def Ide (sectors : ℕ → ℕ → UInt8) : BlockIO where
  blockSize := 512
  sizeInBytes := 2 ^ 32 - 1
  block := sectors
  blockSize_pos := by decide
  blockSize_le := by decide
  sizeInBytes_lt := by decide

/-- A read from the disk ends at the end of the disk. -/
theorem Ide_readAll (sectors : ℕ → ℕ → UInt8) {offset len : ℕ} (buffer : ℕ) (hlen : len < 2 ^ 32) (hoff : offset < 2 ^ 32) :
    ∃ blocks, (Ide sectors).readAll offset len buffer = .ok ⟨(min len (2 ^ 32 - 1 - offset) : ℕ),
      Stores.consecutive buffer (fun i => (Ide sectors).byte (offset + i)) (min len (2 ^ 32 - 1 - offset)), blocks⟩ := by
  have hsize : (Ide sectors).sizeInBytes = 2 ^ 32 - 1 := rfl
  have hle : offset ≤ (Ide sectors).sizeInBytes := by omega
  obtain ⟨blocks, hread, -⟩ := (Ide sectors).readAll_spec buffer hlen hle
  exact ⟨blocks, hread⟩

/-- An i-node as it is on the disk, with the index blocks that this driver does not follow. -/
structure INodeData where
  sizeLow : ℕ
  nSectors : ℕ
  direct : Fin 12 → ℕ
  indirect1 : ℕ
  mode : ℕ
  indirect2 : ℕ
  indirect3 : ℕ
  sizeLow_lt : sizeLow < 2 ^ 32

def INodeData.isDir (data : INodeData) : Bool := data.mode / 2 ^ 12 = 4

/-- A wrapper around an i-node. -/
structure INode where
  sectors : ℕ → ℕ → UInt8
  blockSize : ℕ
  data : INodeData
  blockSize_pos : 0 < blockSize
  blockSize_le : blockSize ≤ 2 ^ 31

/-- Whether `malloc` finds the buffers of `BlockIO::read`: `node k` when a part of block `k` of the file is read, and
`device k s` when a part of sector `s` is read on the way to block `k`. -/
structure Buffers where
  node : ℕ → Bool
  device : ℕ → ℕ → Bool

namespace INode

variable (n : INode)

def ide : BlockIO := Ide n.sectors

/-- Where the pointer to block `index` lies on the disk when it is not in the i-node itself. -/
def pointerOffset (index : ℕ) : ℕ := (n.data.indirect1 * n.blockSize + (index - 12) * 4) % 2 ^ 32

def blockIndex (granted : ℕ → Bool) (index : ℕ) : Except Stop ℕ :=
  if h : index < 12 then .ok (n.data.direct ⟨index, h⟩)
  else if index < 12 + n.blockSize / 4 then (n.ide.readerIn granted).readUInt (n.pointerOffset index) 4
  else .error (.panic s!"index = {index}\n")

/-- `read_block`. The kernel has no handler for a division by zero. -/
def readBlockIn (granted : ℕ → Bool) (index buffer : ℕ) : Except Stop Stores :=
  if n.blockSize / 512 = 0 then .error .wild
  else do
    assert (index < n.data.nSectors / (n.blockSize / 512)) "index < data.n_sectors / (block_size / 512)"
    let blockIndex ← n.blockIndex granted index
    let r ← (n.ide.readerIn granted).readAll (blockIndex * n.blockSize % 2 ^ 32) n.blockSize buffer
    assert (r.count = n.blockSize) "cnt == block_size"
    return r.stores

/-- `read_block` when `malloc` finds every buffer. -/
def readBlock (index buffer : ℕ) : Except Stop Stores := n.readBlockIn (fun _ => true) index buffer

/-- The node as what `read` and `read_all` work on. -/
def readerIn (b : Buffers) : BlockReader where
  blockSize := n.blockSize
  sizeInBytes := n.data.sizeLow
  block k := (n.readBlockIn (b.device k) k 0).map fun stores => stores.apply fun _ => 0
  granted := b.node
  blockSize_pos := n.blockSize_pos
  blockSize_le := n.blockSize_le
  sizeInBytes_lt := n.data.sizeLow_lt

/-- The same when `malloc` finds every buffer. -/
def reader : BlockReader := n.readerIn ⟨fun _ => true, fun _ _ => true⟩

/-- The node as a file whose blocks can all be read. -/
def file : BlockIO where
  blockSize := n.blockSize
  sizeInBytes := n.data.sizeLow
  block k i := match n.reader.block k with
    | .ok bytes => bytes i
    | .error _ => 0
  blockSize_pos := n.blockSize_pos
  blockSize_le := n.blockSize_le
  sizeInBytes_lt := n.data.sizeLow_lt

/-- The block that the driver takes for block `k` of the file. -/
def pointer (k : ℕ) : ℕ :=
  if h : k < 12 then n.data.direct ⟨k, h⟩ else uintAt n.ide.byte (n.pointerOffset k) 4

/-- What the `ASSERT`s and the panic of `read_block` ask for: the block is counted in `n_sectors`, the map of the
driver reaches it, and what is read lies before the end of the device. -/
structure Reached (k : ℕ) : Prop where
  counted : k < n.data.nSectors / (n.blockSize / 512)
  mapped : k < 12 + n.blockSize / 4
  indirectOnDisk : 12 ≤ k → (n.data.indirect1 * n.blockSize + (k - 12) * 4) % 2 ^ 32 + 4 < 2 ^ 32
  onDisk : n.pointer k * n.blockSize % 2 ^ 32 + n.blockSize < 2 ^ 32

/-- The sectors of which only a part is read for block `k` get their buffers. -/
structure Granted (granted : ℕ → Bool) (k : ℕ) : Prop where
  pointer : 12 ≤ k → (n.ide.readerIn granted).Buffered (n.pointerOffset k) 4
  block : (n.ide.readerIn granted).Buffered (n.pointer k * n.blockSize % 2 ^ 32) n.blockSize

def blockBytes (k i : ℕ) : UInt8 := n.ide.byte (n.pointer k * n.blockSize % 2 ^ 32 + i)

variable {n} {k : ℕ} {granted : ℕ → Bool}

theorem pointerOffset_lt (k : ℕ) : n.pointerOffset k < 2 ^ 32 := Nat.mod_lt _ (by decide)

theorem ide_size (granted : ℕ → Bool) : (n.ide.readerIn granted).sizeInBytes = 2 ^ 32 - 1 := rfl

/-- A read that the device can serve, and that gets its buffers. -/
theorem ide_readAll {offset len : ℕ} (buffer : ℕ) (hend : offset + len < 2 ^ 32)
    (hbuffered : (n.ide.readerIn granted).Buffered offset len) :
    ∃ blocks, (n.ide.readerIn granted).readAll offset len buffer =
      .ok ⟨len, Stores.consecutive buffer (fun i => n.ide.byte (offset + i)) len, blocks⟩ := by
  have hmin : min len ((n.ide.readerIn granted).sizeInBytes - offset) = len := by
    rw [ide_size]
    omega
  have hle : offset ≤ (n.ide.readerIn granted).sizeInBytes := by
    rw [ide_size]
    omega
  obtain ⟨blocks, hread⟩ := (n.ide.readerIn granted).readAll_ok buffer (show len < 2 ^ 32 by omega) hle
    (n.ide.readableAt _ _) (by rwa [hmin])
  rw [hmin] at hread
  exact ⟨blocks, hread⟩

/-- One that does not get them. -/
theorem ide_unbuffered {offset len : ℕ} (buffer : ℕ) (hend : offset + len < 2 ^ 32)
    (hnot : ¬ (n.ide.readerIn granted).Buffered offset len) :
    (n.ide.readerIn granted).readAll offset len buffer = .error (.panic "out of memory") := by
  have hmin : min len ((n.ide.readerIn granted).sizeInBytes - offset) = len := by
    rw [ide_size]
    omega
  have hle : offset ≤ (n.ide.readerIn granted).sizeInBytes := by
    rw [ide_size]
    omega
  exact (n.ide.readerIn granted).readAll_unbuffered buffer (show len < 2 ^ 32 by omega) hle (n.ide.readableAt _ _)
    (by rwa [hmin])

/-- One that goes over the end of the device comes back short, if at all. -/
theorem ide_short (granted : ℕ → Bool) {offset len : ℕ} (hlen : len < 2 ^ 32) (hoff : offset < 2 ^ 32) (hend : ¬ offset + len < 2 ^ 32) :
    (∃ r : ℕ → ReadResult, (∀ buffer, (n.ide.readerIn granted).readAll offset len buffer = .ok (r buffer)) ∧
        ∀ buffer, (r buffer).count ≠ len) ∨
      ∀ buffer, (n.ide.readerIn granted).readAll offset len buffer = .error (.panic "out of memory") := by
  have hle : offset ≤ (n.ide.readerIn granted).sizeInBytes := by
    rw [ide_size]
    omega
  have hsize := n.ide_size granted
  by_cases hbuffered : (n.ide.readerIn granted).Buffered offset (min len ((n.ide.readerIn granted).sizeInBytes - offset))
  · have hread := fun buffer => (n.ide.readerIn granted).readAll_ok buffer hlen hle (n.ide.readableAt _ _) hbuffered
    refine .inl ⟨fun buffer => ⟨_, _, (hread buffer).choose⟩, fun buffer => (hread buffer).choose_spec, ?_⟩
    intro buffer
    dsimp only
    omega
  · exact .inr fun buffer =>
      (n.ide.readerIn granted).readAll_unbuffered buffer hlen hle (n.ide.readableAt _ _) hbuffered

/-- A number is read, unless its sector gets no buffer or it goes over the end of the device. -/
theorem ide_readUInt (granted : ℕ → Bool) {offset : ℕ} (hoff : offset < 2 ^ 32) :
    (offset + 4 < 2 ^ 32 → (n.ide.readerIn granted).Buffered offset 4 →
        (n.ide.readerIn granted).readUInt offset 4 = .ok (uintAt n.ide.byte offset 4)) ∧
      (offset + 4 < 2 ^ 32 → ¬ (n.ide.readerIn granted).Buffered offset 4 →
        (n.ide.readerIn granted).readUInt offset 4 = .error (.panic "out of memory")) ∧
      (¬ offset + 4 < 2 ^ 32 → ∃ msg, (n.ide.readerIn granted).readUInt offset 4 = .error (.panic msg)) := by
  unfold BlockReader.readUInt
  refine ⟨?_, ?_, ?_⟩
  · intro hend hbuffered
    obtain ⟨blocks, hread⟩ := n.ide_readAll 0 hend hbuffered
    have hbytes : uintAt ((Stores.consecutive 0 (fun i => n.ide.byte (offset + i)) 4).apply fun _ => 0) 0 4 =
        uintAt n.ide.byte offset 4 := by
      rw [← Nat.add_zero offset, ← uintAt_shift, Nat.add_zero]
      exact uintAt_congr fun i _ hi => Stores.consecutive_zero (by decide) hi
    rw [hread, ← hbytes]
    rfl
  · intro hend hnot
    rw [n.ide_unbuffered 0 hend hnot]
    rfl
  · intro hend
    rcases n.ide_short granted (by decide) hoff hend with ⟨r, hread, hshort⟩ | hpanic
    · refine ⟨"cnt == sizeof(T)", ?_⟩
      rw [hread 0, ok_bind, decide_eq_false (hshort 0)]
      rfl
    · exact ⟨_, by rw [hpanic 0, error_bind]⟩

theorem blockIndex_direct (hdirect : k < 12) : n.blockIndex granted k = .ok (n.pointer k) := by
  rw [blockIndex, pointer, dif_pos hdirect, dif_pos hdirect]

theorem blockIndex_indirect (hindirect : ¬ k < 12) (hmapped : k < 12 + n.blockSize / 4) :
    n.blockIndex granted k = (n.ide.readerIn granted).readUInt (n.pointerOffset k) 4 := by
  rw [blockIndex, dif_neg hindirect, if_pos hmapped]

/-- The pointer of a block that the driver's map reaches. -/
theorem blockIndex_cases (granted : ℕ → Bool) (hmapped : k < 12 + n.blockSize / 4) :
    ((12 ≤ k → n.pointerOffset k + 4 < 2 ^ 32) ∧ (12 ≤ k → (n.ide.readerIn granted).Buffered (n.pointerOffset k) 4) ∧
        n.blockIndex granted k = .ok (n.pointer k)) ∨
      ((12 ≤ k → n.pointerOffset k + 4 < 2 ^ 32) ∧ ¬ (12 ≤ k → (n.ide.readerIn granted).Buffered (n.pointerOffset k) 4) ∧
        n.blockIndex granted k = .error (.panic "out of memory")) ∨
      ¬ (12 ≤ k → n.pointerOffset k + 4 < 2 ^ 32) ∧ ∃ msg, n.blockIndex granted k = .error (.panic msg) := by
  by_cases hdirect : k < 12
  · exact .inl ⟨fun h => absurd hdirect (Nat.not_lt.mpr h), fun h => absurd hdirect (Nat.not_lt.mpr h),
      blockIndex_direct hdirect⟩
  · have hle : 12 ≤ k := Nat.not_lt.mp hdirect
    obtain ⟨hread, hunbuffered, hshort⟩ := n.ide_readUInt granted (n.pointerOffset_lt k)
    rw [blockIndex_indirect hdirect hmapped, pointer, dif_neg hdirect]
    simp only [hle, forall_const]
    by_cases hend : n.pointerOffset k + 4 < 2 ^ 32
    · by_cases hbuffered : (n.ide.readerIn granted).Buffered (n.pointerOffset k) 4
      · exact .inl ⟨hend, hbuffered, hread hend hbuffered⟩
      · exact .inr (.inl ⟨hend, hbuffered, hunbuffered hend hbuffered⟩)
    · exact .inr (.inr ⟨hend, hshort hend⟩)

/-- `read_block` stores the block of the driver's map, or stops at the first of its checks that fails or at a buffer
that is not there. -/
theorem readBlockIn_cases (n : INode) (granted : ℕ → Bool) (hge : 512 ≤ n.blockSize) (k : ℕ) :
    (n.Reached k ∧ n.Granted granted k ∧
        ∀ buffer, n.readBlockIn granted k buffer = .ok (Stores.consecutive buffer (n.blockBytes k) n.blockSize)) ∨
      (n.Reached k ∧ ¬ n.Granted granted k ∧
        ∀ buffer, n.readBlockIn granted k buffer = .error (.panic "out of memory")) ∨
      ¬ n.Reached k ∧ ∃ msg, ∀ buffer, n.readBlockIn granted k buffer = .error (.panic msg) := by
  have hle := n.blockSize_le
  have hdiv : ¬ n.blockSize / 512 = 0 := by omega
  simp only [readBlockIn, if_neg hdiv]
  by_cases hcounted : k < n.data.nSectors / (n.blockSize / 512)
  case neg =>
    refine .inr (.inr ⟨fun h => hcounted h.counted, "index < data.n_sectors / (block_size / 512)", ?_⟩)
    intro buffer
    rw [decide_eq_false hcounted]
    rfl
  simp only [assert_pos hcounted, ok_bind]
  by_cases hmapped : k < 12 + n.blockSize / 4
  case neg =>
    refine .inr (.inr ⟨fun h => hmapped h.mapped, s!"index = {k}\n", ?_⟩)
    intro buffer
    rw [blockIndex, dif_neg (by omega), if_neg hmapped]
    rfl
  obtain ⟨offset, hoffset⟩ : ∃ offset, n.pointer k * n.blockSize % 2 ^ 32 = offset := ⟨_, rfl⟩
  have hoff : offset < 2 ^ 32 := hoffset ▸ Nat.mod_lt _ (by decide)
  rcases n.blockIndex_cases granted hmapped with ⟨hend, hpointer, hindex⟩ | ⟨hend, hpointer, hindex⟩ | ⟨hend, msg, hindex⟩
  · simp only [hindex, ok_bind, hoffset]
    by_cases hdisk : offset + n.blockSize < 2 ^ 32
    · have hreached : n.Reached k := ⟨hcounted, hmapped, hend, by rwa [hoffset]⟩
      by_cases hbuffered : (n.ide.readerIn granted).Buffered offset n.blockSize
      · refine .inl ⟨hreached, ⟨hpointer, by rwa [hoffset]⟩, ?_⟩
        intro buffer
        obtain ⟨blocks, hread⟩ := n.ide_readAll buffer hdisk hbuffered
        rw [hread, ok_bind, assert_pos rfl]
        unfold blockBytes
        rw [hoffset]
        rfl
      · refine .inr (.inl ⟨hreached, fun h => hbuffered (by rw [← hoffset]; exact h.block), ?_⟩)
        intro buffer
        rw [n.ide_unbuffered buffer hdisk hbuffered, error_bind]
    · have hnot : ¬ n.Reached k := fun h => hdisk (by rw [← hoffset]; exact h.onDisk)
      rcases n.ide_short granted (by omega) hoff hdisk with ⟨r, hread, hshort⟩ | hpanic
      · refine .inr (.inr ⟨hnot, "cnt == block_size", ?_⟩)
        intro buffer
        rw [hread, ok_bind, decide_eq_false (hshort buffer)]
        rfl
      · exact .inr (.inr ⟨hnot, _, fun buffer => by rw [hpanic buffer, error_bind]⟩)
  · by_cases hdisk : offset + n.blockSize < 2 ^ 32
    · refine .inr (.inl ⟨⟨hcounted, hmapped, hend, by rwa [hoffset]⟩, fun h => hpointer h.pointer, ?_⟩)
      intro buffer
      rw [hindex, error_bind]
    · refine .inr (.inr ⟨fun h => hdisk (by rw [← hoffset]; exact h.onDisk), "out of memory", ?_⟩)
      intro buffer
      rw [hindex, error_bind]
  · refine .inr (.inr ⟨fun h => hend h.indirectOnDisk, msg, ?_⟩)
    intro buffer
    rw [hindex, error_bind]

/-- Where `malloc` finds the buffers, what is read gets them. -/
theorem granted_of_forall (hgranted : ∀ s, granted s = true) (k : ℕ) : n.Granted granted k where
  pointer _ := BlockReader.buffered_of_granted hgranted _ _
  block := BlockReader.buffered_of_granted hgranted _ _

/-- With blocks of whole sectors, only the sector of the pointer asks for a buffer. -/
theorem granted_iff (hsectors : 512 ∣ n.blockSize) :
    n.Granted granted k ↔ (12 ≤ k → granted (n.pointerOffset k / 512) = true) := by
  obtain ⟨c, hc⟩ := hsectors
  have hpointer : n.pointerOffset k % 4 = 0 := by
    have hblock : n.data.indirect1 * n.blockSize = 4 * (128 * (n.data.indirect1 * c)) := by
      rw [hc]
      ring
    unfold pointerOffset
    omega
  have hside (i : ℕ) (hi : i < 4) : (n.pointerOffset k + i) / 512 = n.pointerOffset k / 512 := by omega
  constructor
  · intro h hindirect
    rcases h.pointer hindirect 0 (by decide) with ⟨hlo, hhi⟩ | hgranted
    · change n.pointerOffset k ≤ _ * 512 at hlo
      change (_ + 1) * 512 ≤ _ at hhi
      omega
    · exact hgranted
  · intro h
    refine ⟨?_, ?_⟩
    · intro hindirect i hi
      right
      show granted ((n.pointerOffset k + i) / 512) = true
      rw [hside i hi]
      exact h hindirect
    · intro i hi
      left
      have hstart : n.pointer k * n.blockSize % 2 ^ 32 % 512 = 0 := by
        have hblock : n.pointer k * n.blockSize = 512 * (n.pointer k * c) := by
          rw [hc]
          ring
        omega
      show _ ≤ _ / 512 * 512 ∧ (_ / 512 + 1) * 512 ≤ _
      omega

theorem readBlock_cases (n : INode) (hge : 512 ≤ n.blockSize) (k : ℕ) :
    (n.Reached k ∧ ∀ buffer, n.readBlock k buffer = .ok (Stores.consecutive buffer (n.blockBytes k) n.blockSize)) ∨
      ¬ n.Reached k ∧ ∃ msg, ∀ buffer, n.readBlock k buffer = .error (.panic msg) := by
  rcases n.readBlockIn_cases (fun _ => true) hge k with ⟨hreached, -, hok⟩ | ⟨-, hnot, -⟩ | hstops
  · exact .inl ⟨hreached, hok⟩
  · exact absurd (granted_of_forall (fun _ => rfl) k) hnot
  · exact .inr hstops

variable {b : Buffers}

theorem reader_block (n : INode) (k : ℕ) :
    n.reader.block k = (n.readBlock k 0).map fun stores => stores.apply fun _ => 0 := rfl

theorem reader_buffered (n : INode) (offset m : ℕ) : n.reader.Buffered offset m :=
  n.reader.buffered_of_granted (fun _ => rfl) offset m

/-- The bytes of a block, where `read_block` does not stop. -/
theorem block_cases (n : INode) (b : Buffers) (hge : 512 ≤ n.blockSize) (k : ℕ) :
    (n.Reached k ∧ n.Granted (b.device k) k ∧
        ∃ bytes, (n.readerIn b).block k = .ok bytes ∧ ∀ i < n.blockSize, bytes i = n.blockBytes k i) ∨
      (n.Reached k ∧ ¬ n.Granted (b.device k) k ∧ (n.readerIn b).block k = .error (.panic "out of memory")) ∨
      ¬ n.Reached k ∧ ∃ msg, (n.readerIn b).block k = .error (.panic msg) := by
  have hle := n.blockSize_le
  have hblock : (n.readerIn b).block k =
      (n.readBlockIn (b.device k) k 0).map fun stores => stores.apply fun _ => 0 := rfl
  rw [hblock]
  rcases n.readBlockIn_cases (b.device k) hge k with ⟨hreached, hgranted, hok⟩ | ⟨hreached, hnot, herror⟩ |
    ⟨hnot, msg, herror⟩
  · rw [hok]
    exact .inl ⟨hreached, hgranted, _, rfl, fun i hi => Stores.consecutive_zero (by omega) hi⟩
  · rw [herror]
    exact .inr (.inl ⟨hreached, hnot, rfl⟩)
  · rw [herror]
    exact .inr (.inr ⟨hnot, msg, rfl⟩)

theorem readableIn_iff (hge : 512 ≤ n.blockSize) :
    (n.readerIn b).Readable k ↔ n.Reached k ∧ n.Granted (b.device k) k := by
  rcases n.block_cases b hge k with ⟨hreached, hgranted, bytes, hok, -⟩ | ⟨-, hnot, herror⟩ | ⟨hnot, msg, herror⟩
  · exact iff_of_true ⟨bytes, hok⟩ ⟨hreached, hgranted⟩
  · refine iff_of_false ?_ fun h => hnot h.2
    rintro ⟨bytes, hbytes⟩
    rw [herror] at hbytes
    cases hbytes
  · refine iff_of_false ?_ fun h => hnot h.1
    rintro ⟨bytes, hbytes⟩
    rw [herror] at hbytes
    cases hbytes

theorem readable_iff (hge : 512 ≤ n.blockSize) : n.reader.Readable k ↔ n.Reached k :=
  (n.readableIn_iff hge).trans (and_iff_left (granted_of_forall (fun _ => rfl) k))

theorem readerIn_byte (hge : 512 ≤ n.blockSize) {j : ℕ} (h : (n.readerIn b).Readable (j / n.blockSize)) :
    (n.readerIn b).byte j = n.blockBytes (j / n.blockSize) (j % n.blockSize) := by
  obtain ⟨hreached, hgranted⟩ := (n.readableIn_iff hge).mp h
  rcases n.block_cases b hge (j / n.blockSize) with ⟨-, -, bytes, hok, hbytes⟩ | ⟨-, hnot, -⟩ | ⟨hnot, -⟩
  · have hlt : j % n.blockSize < n.blockSize := Nat.mod_lt _ n.blockSize_pos
    rw [BlockReader.byte_of_block hok]
    exact hbytes _ hlt
  · exact absurd hgranted hnot
  · exact absurd hreached hnot

theorem reader_byte (hge : 512 ≤ n.blockSize) {j : ℕ} (h : n.Reached (j / n.blockSize)) :
    n.reader.byte j = n.blockBytes (j / n.blockSize) (j % n.blockSize) :=
  readerIn_byte hge ((n.readable_iff hge).mpr h)

/-- The virtual `read_block` does what the model of `read_all` takes it to do. -/
theorem readBlock_eq (hge : 512 ≤ n.blockSize) (buffer : ℕ) : n.readBlockIn (b.device k) k buffer =
    ((n.readerIn b).block k).map fun bytes => Stores.consecutive buffer bytes n.blockSize := by
  have hle := n.blockSize_le
  have hblock : (n.readerIn b).block k =
      (n.readBlockIn (b.device k) k 0).map fun stores => stores.apply fun _ => 0 := rfl
  rw [hblock]
  rcases n.readBlockIn_cases (b.device k) hge k with ⟨-, -, hok⟩ | ⟨-, -, herror⟩ | ⟨-, msg, herror⟩
  · rw [hok, hok]
    exact congrArg Except.ok (Stores.consecutive_congr fun i hi => (Stores.consecutive_zero (by omega) hi).symm)
  · rw [herror, herror]
    rfl
  · rw [herror, herror]
    rfl

end INode
end AudioKernel
