import AudioKernel.Ext2.Mount

/-! Which disks can be mounted and read without a division by zero or a shift by too much. -/
namespace AudioKernel.Ext2

variable {sectors : ℕ → ℕ → UInt8} {s : HeapRun}

/-- The constructor, then `get_node(number)`, and `read_block(index, buffer)` of the node. -/
def mountAndRead (sectors : ℕ → ℕ → UInt8) (h : Heap) (number index buffer : ℕ) : Except Stop (Ext2 × Stores) := do
  let (fs, _, _) ← mount sectors h
  let node ← fs.getNode number
  let stores ← node.readBlock index buffer
  return (fs, stores)

/-- A run ends in a panic, or it returns and nothing that it has divided by is zero. -/
def Sound (sectors : ℕ → ℕ → UInt8) (x : Except Stop (Ext2 × Stores)) : Prop :=
  (∃ msg, x = .error (.panic msg)) ∨ ∃ fs stores, x = .ok (fs, stores) ∧
    (superBlock sectors).blocksPerGroup ≠ 0 ∧ fs.iNodesPerGroup ≠ 0 ∧ fs.blockSize ≠ 0 ∧ fs.blockSize / 512 ≠ 0

/-- The record of the root is where the tables can lead to: in a group that there is, in a block that there is, and
before the end of the device. -/
def RootStored (sectors : ℕ → ℕ → UInt8) : Prop :=
  let sb := superBlock sectors
  1 / sb.inodesPerGroup < sb.nGroups ∧ sb.inodeTable sectors (1 / sb.inodesPerGroup) ≤ sb.blocksCount ∧
    recordOffset sectors 2 % 2 ^ 32 + 128 < 2 ^ 32

/-- The shift and the first division are defined; and a check or an allocation stops the constructor, or the other
divisors are not zero. -/
def Mountable (sectors : ℕ → ℕ → UInt8) (h : Heap) : Prop :=
  let sb := superBlock sectors
  (sb.shift < 32 ∧ sb.blocksPerGroup ≠ 0) ∧
    (2 ^ 32 < sb.blocksCount + sb.blocksPerGroup ∨ sb.TablesStop h ∨ sb.nGroups ≤ 2 ^ 26 ∧
      (sb.inodesCount < 2 ∨ sb.inodesPerGroup ≠ 0 ∧ (9 ≤ sb.shift ∨ ¬ RootStored sectors)))

section
variable {h h' : Heap} {fs : Ext2} {root node : INode} {msg : String} {e : Stop}

theorem mountAndRead_error (hmount : mount sectors h = .error e) (number index buffer : ℕ) :
    mountAndRead sectors h number index buffer = .error e := by
  unfold mountAndRead
  rw [hmount, error_bind]

theorem mountAndRead_ok (hmount : mount sectors h = .ok (fs, root, h')) (number index buffer : ℕ) :
    mountAndRead sectors h number index buffer =
      fs.getNode number >>= fun node => (node.readBlock index buffer).map fun stores => (fs, stores) := by
  unfold mountAndRead
  rw [hmount, ok_bind]
  dsimp only
  cases fs.getNode number with
  | error e => rfl
  | ok node => cases node.readBlock index buffer <;> rfl

theorem readBlock_small {index buffer : ℕ} (hsmall : node.blockSize / 512 = 0) :
    node.readBlock index buffer = .error .wild := by
  unfold INode.readBlock INode.readBlockIn
  exact if_pos hsmall

theorem not_sound_wild : ¬ Sound sectors (.error .wild) := by
  rintro (⟨msg, h⟩ | ⟨fs, stores, h, -⟩)
  · cases h
  · cases h

end

/-- The checks of `get_node` on the root are those on the disk. -/
theorem hasNode_root_iff {sb : SuperBlock} (hsb : superBlock sectors = sb) (hshift : sb.shift < 32) {tables : ℕ → ℕ}
    (htables : ∀ g < sb.nGroups, tables g = sb.inodeTable sectors g) :
    (sb.fileSystem sectors hshift tables).HasNode 2 ↔
      2 ≤ sb.inodesCount ∧ sb.inodesPerGroup ≠ 0 ∧ RootStored sectors := by
  have hoffset (hgroup : 1 / sb.inodesPerGroup < sb.nGroups) :
      (sb.fileSystem sectors hshift tables).nodeOffset 2 = recordOffset sectors 2 % 2 ^ 32 := by
    show (tables (1 / sb.inodesPerGroup) * sb.blockSize + 1 % sb.inodesPerGroup * sb.inodeSize) % 2 ^ 32 = _
    unfold recordOffset
    rw [htables _ hgroup, hsb]
  unfold RootStored
  rw [hsb]
  constructor
  · intro h
    have hgroup : 1 / sb.inodesPerGroup < sb.nGroups := h.inGroups
    have hblocks : tables (1 / sb.inodesPerGroup) ≤ sb.blocksCount := h.inBlocks
    have hdisk := h.onDisk
    rw [htables _ hgroup] at hblocks
    rw [hoffset hgroup] at hdisk
    exact ⟨h.numbered, h.grouped, hgroup, hblocks, hdisk⟩
  · rintro ⟨hnodes, hper, hgroup, hblocks, hdisk⟩
    constructor
    case positive => exact Nat.two_pos
    case numbered => exact hnodes
    case grouped => exact hper
    case inGroups => exact hgroup
    case inBlocks =>
      show tables (1 / sb.inodesPerGroup) ≤ sb.blocksCount
      rw [htables _ hgroup]
      exact hblocks
    case onDisk =>
      rw [hoffset hgroup]
      exact hdisk

/-- `get_node` and `read_block` of a file system with large enough blocks either panic or return. -/
theorem sound_of_mount {h h' : Heap} {fs : Ext2} {root : INode} (hmount : mount sectors h = .ok (fs, root, h'))
    (hgroup : (superBlock sectors).blocksPerGroup ≠ 0) (hper : fs.iNodesPerGroup ≠ 0) (hsize : 512 ≤ fs.blockSize)
    (number index buffer : ℕ) : Sound sectors (mountAndRead sectors h number index buffer) := by
  rw [mountAndRead_ok hmount]
  rcases fs.getNode_cases number with ⟨-, hnode⟩ | ⟨hzero, -⟩ | ⟨-, -, msg, hpanic⟩
  · rw [hnode, ok_bind]
    rcases (fs.node fun i => fs.ide.byte (fs.nodeOffset number + i)).readBlock_cases hsize index with
      ⟨-, hread⟩ | ⟨-, msg, hpanic⟩
    · rw [hread]
      exact .inr ⟨fs, _, rfl, hgroup, hper, by omega, by omega⟩
    · rw [hpanic]
      exact .inl ⟨msg, rfl⟩
  · exact absurd hzero.2.2 hper
  · rw [hpanic, error_bind]
    exact .inl ⟨msg, rfl⟩

/-- Once the constructor has the tables, what is left is the root: it is there and can be read, or is refused. -/
theorem sound_iff_root {sb : SuperBlock} {h h' : Heap} {tables : ℕ → ℕ} (hsb : superBlock sectors = sb)
    (hper : sb.blocksPerGroup ≠ 0) (hshift : sb.shift < 32) (htables : ∀ g < sb.nGroups, tables g = sb.inodeTable sectors g)
    (hroot : mount sectors h = ((sb.fileSystem sectors hshift tables).getNode 2).map fun root =>
      (sb.fileSystem sectors hshift tables, root, h')) :
    (∀ number index buffer, Sound sectors (mountAndRead sectors h number index buffer)) ↔
      sb.inodesCount < 2 ∨ sb.inodesPerGroup ≠ 0 ∧ (9 ≤ sb.shift ∨ ¬ RootStored sectors) := by
  have hstored := hasNode_root_iff hsb hshift htables
  rcases (sb.fileSystem sectors hshift tables).getNode_cases 2 with ⟨hnode, hread⟩ | ⟨hzero, hwild⟩ | ⟨hnot, hnonzero,
    msg, hpanic⟩
  · obtain ⟨hnodes, hnodesPer, hfound⟩ := hstored.mp hnode
    rw [hread] at hroot
    by_cases hsize : 9 ≤ sb.shift
    · refine iff_of_true ?_ (.inr ⟨hnodesPer, .inl hsize⟩)
      have hlarge : 512 ≤ sb.blockSize := Nat.pow_le_pow_right Nat.two_pos hsize
      exact sound_of_mount hroot (by rw [hsb]; exact hper) hnodesPer hlarge
    · refine iff_of_false ?_ ?_
      · intro hall
        -- the size of a block divided by 512 is zero
        have hsmall : sb.blockSize / 512 = 0 := by
          have hle : sb.blockSize ≤ 2 ^ 8 := Nat.pow_le_pow_right Nat.two_pos (by omega)
          omega
        have hfirst := hall 2 0 0
        rw [mountAndRead_ok hroot, hread, ok_bind] at hfirst
        rw [readBlock_small hsmall] at hfirst
        exact not_sound_wild hfirst
      · rintro (hfew | ⟨-, hlarge | hlost⟩)
        · omega
        · exact hsize hlarge
        · exact hlost hfound
  · rw [hwild] at hroot
    have hnodes : 2 ≤ sb.inodesCount := hzero.2.1
    refine iff_of_false ?_ ?_
    · intro hall
      have hfirst := hall 2 0 0
      rw [mountAndRead_error hroot] at hfirst
      exact not_sound_wild hfirst
    · rintro (hfew | ⟨hnodesPer, -⟩)
      · omega
      · exact hnodesPer hzero.2.2
  · rw [hpanic] at hroot
    refine iff_of_true ?_ ?_
    · intro number index buffer
      rw [mountAndRead_error hroot]
      exact .inl ⟨msg, rfl⟩
    · by_cases hnodes : sb.inodesCount < 2
      · exact .inl hnodes
      · have hnodesPer : sb.inodesPerGroup ≠ 0 := fun h => hnonzero ⟨Nat.two_pos, Nat.not_lt.mp hnodes, h⟩
        exact .inr ⟨hnodesPer, .inr fun hfound => hnot (hstored.mpr ⟨Nat.not_lt.mp hnodes, hnodesPer, hfound⟩)⟩

/-- Mounting a disk and reading from it is sound just when the disk is one of those, or the heap stops it. -/
theorem mount_sound_iff (sectors : ℕ → ℕ → UInt8) (s : HeapRun) (hs : heapMachine.Reachable s) :
    (∀ number index buffer, Sound sectors (mountAndRead sectors s.heap number index buffer)) ↔
      Mountable sectors s.heap := by
  unfold Mountable
  obtain ⟨sb, hsb⟩ : ∃ sb, superBlock sectors = sb := ⟨_, rfl⟩
  have hmount := mount_cases sectors hs
  rw [hsb] at hmount ⊢
  dsimp only at hmount ⊢
  rcases hmount with ⟨⟨hdefined, hstops⟩, msg, hpanic⟩ | ⟨hfault, hwild⟩ | ⟨⟨hper, hsum, hgo, hfew⟩, hshift, tables, h,
    htables, hroot⟩
  · refine iff_of_true ?_ ⟨hdefined, ?_⟩
    · intro number index buffer
      rw [mountAndRead_error hpanic]
      exact .inl ⟨msg, rfl⟩
    · rcases hstops with hsum | hstop
      · exact .inl hsum
      · exact .inr (.inl hstop)
  · refine iff_of_false ?_ ?_
    · intro hall
      have hfirst := hall 2 0 0
      rw [mountAndRead_error hwild] at hfirst
      exact not_sound_wild hfirst
    · rintro ⟨hdefined, hrest⟩
      exact hfault ⟨hdefined, hrest.imp_right fun h => h.imp_right And.left⟩
  · rw [sound_iff_root hsb hper hshift htables hroot]
    constructor
    · exact fun h => ⟨⟨hshift, hper⟩, .inr (.inr ⟨hfew, h⟩)⟩
    · rintro ⟨-, h | h | h⟩
      · omega
      · exact absurd h hgo
      · exact h.2

/-- The root of a sound disk can be read. -/
theorem oneGroup_sound : Mountable oneGroup HeapRun.smallHeap.heap ∧
    Sound oneGroup (mountAndRead oneGroup HeapRun.smallHeap.heap 2 0 0) := by
  have hmountable : Mountable oneGroup HeapRun.smallHeap.heap :=
    ⟨by decide +kernel, .inr (.inr ⟨by decide +kernel, .inr ⟨by decide +kernel, .inl (by decide +kernel)⟩⟩)⟩
  have hsound := mount_sound_iff oneGroup HeapRun.smallHeap (.init HeapRun.smallHeap_booted)
  exact ⟨hmountable, hsound.mpr hmountable 2 0 0⟩

/-- An empty disk has no blocks per group, and the constructor divides by that. -/
theorem empty_not_sound : ¬ ∀ sectors s, heapMachine.Reachable s → ∀ number index buffer,
    Sound sectors (mountAndRead sectors s.heap number index buffer) := by
  intro hall
  have hempty := hall (fun _ _ => 0) HeapRun.smallHeap (.init HeapRun.smallHeap_booted) 2 0 0
  have hwild : mount (fun _ _ => 0) HeapRun.smallHeap.heap = .error .wild := by
    rw [SuperBlock.mount_eq, SuperBlock.mount, dif_pos (by decide +kernel), if_pos (by decide +kernel)]
  rw [mountAndRead_error hwild] at hempty
  exact not_sound_wild hempty

end AudioKernel.Ext2
