import AudioKernel.Ext2.Find
import AudioKernel.Heap.Placement

/-! The constructor of `Ext2`, and where the records of the i-nodes lie. -/
namespace AudioKernel

/-- What the constructor takes from the super block. -/
structure SuperBlock where
  inodesCount : ℕ
  blocksCount : ℕ
  logBlockSize : ℕ
  blocksPerGroup : ℕ
  inodesPerGroup : ℕ
  inodeSize : ℕ

/-- The bytes that `new T[count]` asks for. From half of the address space on, the compiler asks for as many as there
can be, since the kernel has no exceptions. -/
def arrayBytes (count size : ℕ) : ℕ := if count * size ≤ 2 ^ 31 then count * size else 2 ^ 32 - 1

namespace SuperBlock

def ofBytes (buffer : ℕ → UInt8) : SuperBlock where
  inodesCount := uintAt buffer 0 4
  blocksCount := uintAt buffer 4 4
  logBlockSize := uintAt buffer 24 4
  blocksPerGroup := uintAt buffer 32 4
  inodesPerGroup := uintAt buffer 40 4
  inodeSize := uintAt buffer 88 2

variable (sb : SuperBlock)

/-- How far the constructor shifts `uint32_t(1)`. -/
def shift : ℕ := (sb.logBlockSize + 10) % 2 ^ 32

def blockSize : ℕ := 2 ^ sb.shift

def nGroups : ℕ := (sb.blocksCount + sb.blocksPerGroup + 2 ^ 32 - 1) % 2 ^ 32 / sb.blocksPerGroup

def groupTable : ℕ :=
  let superBlockNumber := 1024 / sb.blockSize
  let groupTableNumber := superBlockNumber + 1
  groupTableNumber * sb.blockSize % 2 ^ 32

/-- The constructor from `new BlockGroup[nGroups]` to the end of its loop: `iNodeTables`. A store or a load outside of
the blocks that the heap has granted goes wild. -/
def loadTables (ide : BlockIO) (h : Heap) : Except Stop ((ℕ → ℕ) × Heap) := do
  let groupTableSize := 32 * sb.nGroups % 2 ^ 32
  let (groupTable, h) ← Heap.operatorNew h (arrayBytes sb.nGroups 32)
  let room := Heap.capacity h groupTable
  let r ← ide.readAll sb.groupTable groupTableSize 0
  if r.stores.length > room then .error .wild
  else do
    assert (r.count = groupTableSize) "cnt == groupTableSize"
    let (iNodeTables, h) ← Heap.operatorNew h (arrayBytes sb.nGroups 4)
    if 32 * sb.nGroups > room ∨ 4 * sb.nGroups > Heap.capacity h iNodeTables then .error .wild
    else return (fun i => uintAt (r.stores.apply fun _ => 0) (32 * i + 8) 4, h)

theorem blockSize_pos : 0 < sb.blockSize := Nat.two_pow_pos _

theorem blockSize_le {sb : SuperBlock} (hshift : sb.shift < 32) : sb.blockSize ≤ 2 ^ 31 :=
  Nat.pow_le_pow_right (by decide) (by omega)

def fileSystem (sectors : ℕ → ℕ → UInt8) (hshift : sb.shift < 32) (iNodeTables : ℕ → ℕ) : Ext2 where
  sectors := sectors
  blockSize := sb.blockSize
  numberOfNodes := sb.inodesCount
  numberOfBlocks := sb.blocksCount
  iNodeSize := sb.inodeSize
  nGroups := sb.nGroups
  iNodeTables := iNodeTables
  iNodesPerGroup := sb.inodesPerGroup
  blockSize_pos := sb.blockSize_pos
  blockSize_le := blockSize_le hshift

/-- The constructor from the shift on. The kernel has no handler for a division by zero, and a shift by 32 or more is
not defined. -/
def mount (sectors : ℕ → ℕ → UInt8) (h : Heap) : Except Stop (Ext2 × INode × Heap) :=
  if hshift : sb.shift < 32 then
    if sb.blocksPerGroup = 0 then .error .wild
    else do
      assert (sb.nGroups * sb.blocksPerGroup % 2 ^ 32 ≥ sb.blocksCount) "nGroups * sb.blocks_per_group >= sb.blocks_count"
      let (iNodeTables, h) ← sb.loadTables (Ide sectors) h
      let fs := sb.fileSystem sectors hshift iNodeTables
      let root ← fs.getNode 2
      return (fs, root, h)
  else .error .wild

end SuperBlock

/-- `Ext2(ide)`, with `root`. -/
def Ext2.mount (sectors : ℕ → ℕ → UInt8) (h : Heap) : Except Stop (Ext2 × INode × Heap) := do
  let r ← (Ide sectors).readAll 1024 140 0
  assert (r.count = 140) "cnt == sizeof(T)"
  let sb := SuperBlock.ofBytes (r.stores.apply fun _ => 0)
  sb.mount sectors h

def superBlock (sectors : ℕ → ℕ → UInt8) : SuperBlock := .ofBytes fun i => (Ide sectors).byte (1024 + i)

/-- The `inode_table` of a group, as the disk has it. -/
def SuperBlock.inodeTable (sb : SuperBlock) (sectors : ℕ → ℕ → UInt8) (g : ℕ) : ℕ :=
  uintAt (Ide sectors).byte (sb.groupTable + (32 * g + 8)) 4

namespace SuperBlock

variable {sb : SuperBlock} {sectors : ℕ → ℕ → UInt8} {s : HeapRun}

theorem ofBytes_congr {b b' : ℕ → UInt8} (h : ∀ i < 140, b i = b' i) : ofBytes b = ofBytes b' := by
  have hnumber (a n : ℕ) (hend : a + n ≤ 140) : uintAt b a n = uintAt b' a n :=
    uintAt_congr fun i _ hi => h i (by omega)
  unfold ofBytes
  rw [hnumber 0 4 (by decide), hnumber 4 4 (by decide), hnumber 24 4 (by decide), hnumber 32 4 (by decide),
    hnumber 40 4 (by decide), hnumber 88 2 (by decide)]

theorem ofBytes_lt (buffer : ℕ → UInt8) :
    (ofBytes buffer).blocksCount < 2 ^ 32 ∧ (ofBytes buffer).blocksPerGroup < 2 ^ 32 :=
  ⟨uintAt_lt buffer 4 4, uintAt_lt buffer 32 4⟩

theorem groupTable_lt : sb.groupTable < 2 ^ 32 := Nat.mod_lt _ (by decide)

end SuperBlock

/-- There is no block for an array of so many bytes. -/
def Heap.Refuses (h : Heap) (bytes : ℕ) : Prop := operatorNew h bytes = .error (.panic "out of memory")

/-- The heap once a block of so many bytes has been granted. -/
def Heap.afterNew (h : Heap) (bytes : ℕ) : Heap :=
  match operatorNew h bytes with
  | .ok (_, h') => h'
  | .error _ => h

namespace SuperBlock

/-- The allocation of an array fails, or the group table goes over the end of the device. Beyond 2²⁶ groups the first
array gets a block of a few bytes, which is too small unless the size of the table wraps to zero. -/
def TablesStop (sb : SuperBlock) (h : Heap) : Prop :=
  h.Refuses (arrayBytes sb.nGroups 32) ∨
    if sb.nGroups ≤ 2 ^ 26 then
      2 ^ 32 ≤ sb.groupTable + 32 * sb.nGroups ∨
        (h.afterNew (arrayBytes sb.nGroups 32)).Refuses (arrayBytes sb.nGroups 4)
    else 32 * sb.nGroups % 2 ^ 32 = 0 ∧ (h.afterNew (arrayBytes sb.nGroups 32)).Refuses (arrayBytes sb.nGroups 4)

theorem arrayBytes_lt (count size : ℕ) : arrayBytes count size < 2 ^ 32 := by
  unfold arrayBytes
  split_ifs <;> omega

variable {sb : SuperBlock} {sectors : ℕ → ℕ → UInt8} {s : HeapRun}

theorem groupTable_le (hshift : sb.shift < 32) : sb.groupTable ≤ 2 ^ 31 + 1024 := by
  have hsize := blockSize_le hshift
  have hnumber : 1024 / sb.blockSize * sb.blockSize ≤ 1024 := Nat.div_mul_le_self ..
  have hmod : (1024 / sb.blockSize + 1) * sb.blockSize % 2 ^ 32 ≤ (1024 / sb.blockSize + 1) * sb.blockSize :=
    Nat.mod_le ..
  rw [Nat.add_mul, Nat.one_mul] at hmod
  show (1024 / sb.blockSize + 1) * sb.blockSize % 2 ^ 32 ≤ _
  rw [Nat.add_mul, Nat.one_mul]
  omega

/-- `iNodeTables`, when the whole group table has been read. -/
theorem inodeTable_eq {g m : ℕ} (hg : 32 * g + 32 ≤ m) (hm : m ≤ 2 ^ 32) :
    uintAt ((Stores.consecutive 0 (fun i => (Ide sectors).byte (sb.groupTable + i)) m).apply fun _ => 0) (32 * g + 8) 4 =
      sb.inodeTable sectors g := by
  unfold inodeTable
  rw [← uintAt_shift]
  exact uintAt_congr fun i _ hi => Stores.consecutive_zero hm (by omega)

section
variable {h h' : Heap} {p : ℕ}

theorem loadTables_refused (ide : BlockIO) (hnew : h.Refuses (arrayBytes sb.nGroups 32)) :
    sb.loadTables ide h = .error (.panic "out of memory") := by
  unfold Heap.Refuses at hnew
  unfold loadTables
  rw [hnew, error_bind]

/-- The rest of `loadTables`, when the first array has got a block of `room` bytes and `m` bytes have been read. -/
theorem loadTables_granted (sectors : ℕ → ℕ → UInt8) {room m : ℕ}
    (hnew : Heap.operatorNew h (arrayBytes sb.nGroups 32) = .ok (p, h')) (hroom : Heap.capacity h' p = room)
    (hm : min (32 * sb.nGroups % 2 ^ 32) (2 ^ 32 - 1 - sb.groupTable) = m) :
    sb.loadTables (Ide sectors) h = if m > room then .error .wild else do
      assert ((m : ℤ) = (32 * sb.nGroups % 2 ^ 32 : ℕ)) "cnt == groupTableSize"
      let (iNodeTables, h) ← Heap.operatorNew h' (arrayBytes sb.nGroups 4)
      if 32 * sb.nGroups > room ∨ 4 * sb.nGroups > Heap.capacity h iNodeTables then .error .wild
      else return (fun i => uintAt ((Stores.consecutive 0 (fun i => (Ide sectors).byte (sb.groupTable + i)) m).apply
        fun _ => 0) (32 * i + 8) 4, h) := by
  obtain ⟨blocks, hread⟩ := Ide_readAll sectors 0 (show 32 * sb.nGroups % 2 ^ 32 < 2 ^ 32 from Nat.mod_lt _ (by decide))
    sb.groupTable_lt
  rw [hm] at hread
  have hlength : (Stores.consecutive 0 (fun i => (Ide sectors).byte (sb.groupTable + i)) m).length = m := by
    simp [Stores.consecutive]
  unfold loadTables
  rw [hnew, ok_bind]
  dsimp only
  rw [hread, ok_bind]
  dsimp only
  rw [hlength, hroom]

end

/-- What `loadTables` comes to: a panic, a wild access, or the tables of all groups. -/
theorem loadTables_cases (sectors : ℕ → ℕ → UInt8) (hs : heapMachine.Reachable s) (hshift : sb.shift < 32) :
    (sb.TablesStop s.heap ∧ ∃ msg, sb.loadTables (Ide sectors) s.heap = .error (.panic msg)) ∨
    (¬ sb.TablesStop s.heap ∧ 2 ^ 26 < sb.nGroups ∧ sb.loadTables (Ide sectors) s.heap = .error .wild) ∨
    (¬ sb.TablesStop s.heap ∧ sb.nGroups ≤ 2 ^ 26 ∧ ∃ tables h,
      sb.loadTables (Ide sectors) s.heap = .ok (tables, h) ∧ ∀ g < sb.nGroups, tables g = sb.inodeTable sectors g) := by
  rcases HeapRun.operatorNew_cases hs (arrayBytes_lt sb.nGroups 32) with
    hrefused | ⟨p, t, hnew, ht, hcovers, hsmall, -⟩
  · exact .inl ⟨.inl hrefused, _, loadTables_refused _ hrefused⟩
  have hgranted : ¬ s.heap.Refuses (arrayBytes sb.nGroups 32) := by
    intro hrefused
    rw [Heap.Refuses, hnew] at hrefused
    cases hrefused
  have hafter : s.heap.afterNew (arrayBytes sb.nGroups 32) = t.heap := by rw [Heap.afterNew, hnew]
  have hoffset := groupTable_le hshift
  obtain ⟨m, hm⟩ : ∃ m, min (32 * sb.nGroups % 2 ^ 32) (2 ^ 32 - 1 - sb.groupTable) = m := ⟨_, rfl⟩
  have hrest := loadTables_granted sectors hnew rfl hm
  have hsecond := HeapRun.operatorNew_cases ht (arrayBytes_lt sb.nGroups 4)
  unfold TablesStop
  rw [hafter]
  by_cases hfew : sb.nGroups ≤ 2 ^ 26
  · have hbytes : arrayBytes sb.nGroups 32 = 32 * sb.nGroups := by
      rw [arrayBytes, if_pos (by omega), Nat.mul_comm]
    have hbytes' : arrayBytes sb.nGroups 4 = 4 * sb.nGroups := by
      rw [arrayBytes, if_pos (by omega), Nat.mul_comm]
    have hroom := hcovers (by omega)
    rw [hbytes] at hroom
    rw [if_neg (by omega)] at hrest
    rw [if_pos hfew]
    by_cases hcut : 2 ^ 32 ≤ sb.groupTable + 32 * sb.nGroups
    · have hshort : (m : ℤ) ≠ (32 * sb.nGroups % 2 ^ 32 : ℕ) := by omega
      rw [decide_eq_false hshort] at hrest
      exact .inl ⟨.inr (.inl hcut), _, hrest⟩
    · have hwhole : (m : ℤ) = (32 * sb.nGroups % 2 ^ 32 : ℕ) := by omega
      rw [assert_pos hwhole, ok_bind] at hrest
      rcases hsecond with hrefused | ⟨q, t', hnew', -, hcovers', -⟩
      · rw [hrefused, error_bind] at hrest
        exact .inl ⟨.inr (.inr hrefused), _, hrest⟩
      · have hroom' := hcovers' (by omega)
        rw [hnew', ok_bind] at hrest
        dsimp only at hrest
        rw [if_neg (by omega)] at hrest
        refine .inr (.inr ⟨?_, hfew, _, _, hrest, ?_⟩)
        · rintro (h | h | h)
          · exact hgranted h
          · exact hcut h
          · rw [Heap.Refuses, hnew'] at h
            cases h
        · intro g hg
          exact inodeTable_eq (by omega) (by omega)
  · have hbytes : arrayBytes sb.nGroups 32 = 2 ^ 32 - 1 := by rw [arrayBytes, if_neg (by omega)]
    have hroom := hsmall (by omega)
    rw [if_neg hfew]
    by_cases hwrap : 32 * sb.nGroups % 2 ^ 32 = 0
    · have hnone : m = 0 := by omega
      have hwhole : (m : ℤ) = (32 * sb.nGroups % 2 ^ 32 : ℕ) := by omega
      rw [if_neg (by omega), assert_pos hwhole, ok_bind] at hrest
      rcases hsecond with hrefused | ⟨q, t', hnew', -⟩
      · rw [hrefused, error_bind] at hrest
        exact .inl ⟨.inr ⟨hwrap, hrefused⟩, _, hrest⟩
      · rw [hnew', ok_bind] at hrest
        dsimp only at hrest
        rw [if_pos (by omega)] at hrest
        refine .inr (.inl ⟨?_, by omega, hrest⟩)
        rintro (h | ⟨-, h⟩)
        · exact hgranted h
        · rw [Heap.Refuses, hnew'] at h
          cases h
    · rw [if_pos (by omega)] at hrest
      refine .inr (.inl ⟨?_, by omega, hrest⟩)
      rintro (h | ⟨h, -⟩)
      · exact hgranted h
      · exact hwrap h

/-- The constructor up to the shift: the super block is always there. -/
theorem mount_eq (sectors : ℕ → ℕ → UInt8) (h : Heap) : Ext2.mount sectors h = (superBlock sectors).mount sectors h := by
  obtain ⟨blocks, hread⟩ := Ide_readAll sectors 0 (show 140 < 2 ^ 32 by decide) (show 1024 < 2 ^ 32 by decide)
  have hmin : min 140 (2 ^ 32 - 1 - 1024) = 140 := by decide
  have hbytes : ofBytes ((Stores.consecutive 0 (fun i => (Ide sectors).byte (1024 + i)) 140).apply fun _ => 0) =
      superBlock sectors := ofBytes_congr fun i hi => Stores.consecutive_zero (by decide) hi
  rw [hmin] at hread
  unfold Ext2.mount
  rw [hread, ok_bind]
  dsimp only
  have hwhole : ((140 : ℕ) : ℤ) = 140 := rfl
  rw [assert_pos hwhole, ok_bind, hbytes]

/-- The assertion on the number of groups holds just when the sum that rounds it up does not wrap. -/
theorem groups_iff (hblocks : sb.blocksCount < 2 ^ 32) (hgroup : sb.blocksPerGroup < 2 ^ 32)
    (hpos : sb.blocksPerGroup ≠ 0) :
    sb.blocksCount ≤ sb.nGroups * sb.blocksPerGroup % 2 ^ 32 ↔ sb.blocksCount + sb.blocksPerGroup ≤ 2 ^ 32 := by
  obtain ⟨x, hx⟩ : ∃ x, (sb.blocksCount + sb.blocksPerGroup + 2 ^ 32 - 1) % 2 ^ 32 = x := ⟨_, rfl⟩
  have hle : sb.nGroups * sb.blocksPerGroup ≤ x := by
    unfold nGroups
    rw [hx]
    exact Nat.div_mul_le_self ..
  have hlt : x < (sb.nGroups + 1) * sb.blocksPerGroup := by
    unfold nGroups
    rw [hx]
    exact (Nat.div_lt_iff_lt_mul (Nat.pos_of_ne_zero hpos)).mp (Nat.lt_succ_self _)
  rw [Nat.add_mul, Nat.one_mul] at hlt
  constructor
  · intro hassert
    have hmod : sb.nGroups * sb.blocksPerGroup % 2 ^ 32 ≤ sb.nGroups * sb.blocksPerGroup := Nat.mod_le ..
    omega
  · intro hsum
    rw [Nat.mod_eq_of_lt (by omega)]
    omega

end SuperBlock

namespace Ext2

variable {fs : Ext2} {number : ℕ}

def nodeOffset (fs : Ext2) (number : ℕ) : ℕ :=
  (fs.iNodeTables ((number - 1) / fs.iNodesPerGroup) * fs.blockSize +
    (number - 1) % fs.iNodesPerGroup * fs.iNodeSize) % 2 ^ 32

/-- What `get_node` and its read ask for. -/
structure HasNode (fs : Ext2) (number : ℕ) : Prop where
  positive : number > 0
  numbered : number ≤ fs.numberOfNodes
  grouped : fs.iNodesPerGroup ≠ 0
  inGroups : (number - 1) / fs.iNodesPerGroup < fs.nGroups
  inBlocks : fs.iNodeTables ((number - 1) / fs.iNodesPerGroup) ≤ fs.numberOfBlocks
  onDisk : fs.nodeOffset number + 128 < 2 ^ 32

theorem node_congr {b b' : ℕ → UInt8} (h : ∀ i < 128, b i = b' i) : fs.node b = fs.node b' := by
  have hnumber (a n : ℕ) (hend : a + n ≤ 128) : uintAt b a n = uintAt b' a n :=
    uintAt_congr fun i _ hi => h i (by omega)
  have hdirect : (fun i : Fin 12 => uintAt b (40 + 4 * i.val) 4) = fun i : Fin 12 => uintAt b' (40 + 4 * i.val) 4 := by
    funext i
    exact hnumber _ _ (by omega)
  unfold node
  simp only [hdirect, hnumber 4 4 (by decide), hnumber 28 4 (by decide), hnumber 88 4 (by decide), hnumber 0 2 (by decide),
    hnumber 92 4 (by decide), hnumber 96 4 (by decide)]

/-- `get_node` reads the record, divides by zero, or stops at the first of its checks that fails. -/
theorem getNode_cases (fs : Ext2) (number : ℕ) :
    (fs.HasNode number ∧ fs.getNode number = .ok (fs.node fun i => fs.ide.byte (fs.nodeOffset number + i))) ∨
    ((number > 0 ∧ number ≤ fs.numberOfNodes ∧ fs.iNodesPerGroup = 0) ∧ fs.getNode number = .error .wild) ∨
    (¬ fs.HasNode number ∧ ¬ (number > 0 ∧ number ≤ fs.numberOfNodes ∧ fs.iNodesPerGroup = 0) ∧
      ∃ msg, fs.getNode number = .error (.panic msg)) := by
  unfold getNode
  by_cases hpositive : number > 0
  · rw [assert_pos hpositive, ok_bind]
    by_cases hnumbered : number ≤ fs.numberOfNodes
    · rw [assert_pos hnumbered, ok_bind]
      dsimp only
      by_cases hgrouped : fs.iNodesPerGroup = 0
      · rw [if_pos hgrouped]
        exact .inr (.inl ⟨⟨hpositive, hnumbered, hgrouped⟩, rfl⟩)
      have hnot : ¬ (number > 0 ∧ number ≤ fs.numberOfNodes ∧ fs.iNodesPerGroup = 0) := fun h => hgrouped h.2.2
      rw [if_neg hgrouped]
      by_cases hgroups : (number - 1) / fs.iNodesPerGroup < fs.nGroups
      · rw [assert_pos hgroups, ok_bind]
        by_cases hblocks : fs.iNodeTables ((number - 1) / fs.iNodesPerGroup) ≤ fs.numberOfBlocks
        · obtain ⟨blocks, hread⟩ := Ide_readAll fs.sectors 0 (show 128 < 2 ^ 32 by decide)
            (show fs.nodeOffset number < 2 ^ 32 from Nat.mod_lt _ (by decide))
          rw [assert_pos hblocks, ok_bind]
          unfold ide
          unfold nodeOffset at hread
          rw [hread, ok_bind]
          dsimp only
          by_cases hdisk : fs.nodeOffset number + 128 < 2 ^ 32
          · have hmin : min 128 (2 ^ 32 - 1 - fs.nodeOffset number) = 128 := by omega
            have hwhole : ((128 : ℕ) : ℤ) = 128 := rfl
            unfold nodeOffset at hmin
            rw [hmin, assert_pos hwhole, ok_bind]
            refine .inl ⟨⟨hpositive, hnumbered, hgrouped, hgroups, hblocks, hdisk⟩, ?_⟩
            exact congrArg Except.ok (node_congr fun i hi => Stores.consecutive_zero (by decide) hi)
          · have hmin : (min 128 (2 ^ 32 - 1 - fs.nodeOffset number) : ℕ) ≠ (128 : ℤ) := by omega
            unfold nodeOffset at hmin
            rw [decide_eq_false hmin]
            exact .inr (.inr ⟨fun h => hdisk h.onDisk, hnot, _, rfl⟩)
        · rw [decide_eq_false hblocks]
          exact .inr (.inr ⟨fun h => hblocks h.inBlocks, hnot, _, rfl⟩)
      · rw [decide_eq_false hgroups]
        exact .inr (.inr ⟨fun h => hgroups h.inGroups, hnot, _, rfl⟩)
    · rw [decide_eq_false hnumbered]
      exact .inr (.inr ⟨fun h => hnumbered h.numbered, fun h => hnumbered h.2.1, _, rfl⟩)
  · rw [decide_eq_false hpositive]
    exact .inr (.inr ⟨fun h => hpositive h.positive, fun h => hpositive h.1, _, rfl⟩)

variable {s : HeapRun} {sectors : ℕ → ℕ → UInt8}

/-- What the constructor comes to: a panic, a fault, or the file system of the disk, whose root is still to be read. -/
theorem mount_cases (sectors : ℕ → ℕ → UInt8) (hs : heapMachine.Reachable s) :
    let sb := superBlock sectors
    (((sb.shift < 32 ∧ sb.blocksPerGroup ≠ 0) ∧ (2 ^ 32 < sb.blocksCount + sb.blocksPerGroup ∨ sb.TablesStop s.heap)) ∧
      ∃ msg, mount sectors s.heap = .error (.panic msg)) ∨
    (¬ ((sb.shift < 32 ∧ sb.blocksPerGroup ≠ 0) ∧
      (2 ^ 32 < sb.blocksCount + sb.blocksPerGroup ∨ sb.TablesStop s.heap ∨ sb.nGroups ≤ 2 ^ 26)) ∧
      mount sectors s.heap = .error .wild) ∨
    ((sb.blocksPerGroup ≠ 0 ∧ sb.blocksCount + sb.blocksPerGroup ≤ 2 ^ 32 ∧ ¬ sb.TablesStop s.heap ∧
      sb.nGroups ≤ 2 ^ 26) ∧ ∃ (hshift : sb.shift < 32) (tables : ℕ → ℕ) (h : Heap),
        (∀ g < sb.nGroups, tables g = sb.inodeTable sectors g) ∧
        mount sectors s.heap = ((sb.fileSystem sectors hshift tables).getNode 2).map fun root =>
          (sb.fileSystem sectors hshift tables, root, h)) := by
  intro sb
  rw [SuperBlock.mount_eq]
  show (_ ∧ ∃ msg, sb.mount sectors s.heap = _) ∨ (_ ∧ sb.mount sectors s.heap = _) ∨
    (_ ∧ ∃ (_ : _) (_ : _) (_ : _), _ ∧ sb.mount sectors s.heap = _)
  unfold SuperBlock.mount
  by_cases hshift : sb.shift < 32
  · by_cases hgroup : sb.blocksPerGroup = 0
    · rw [dif_pos hshift, if_pos hgroup]
      exact .inr (.inl ⟨fun h => h.1.2 hgroup, rfl⟩)
    rw [dif_pos hshift, if_neg hgroup]
    obtain ⟨hblocks, hper⟩ := SuperBlock.ofBytes_lt fun i => (Ide sectors).byte (1024 + i)
    have hassert := SuperBlock.groups_iff hblocks hper hgroup
    by_cases hsum : sb.blocksCount + sb.blocksPerGroup ≤ 2 ^ 32
    · rw [assert_pos (show sb.nGroups * sb.blocksPerGroup % 2 ^ 32 ≥ sb.blocksCount from hassert.mpr hsum), ok_bind]
      rcases SuperBlock.loadTables_cases sectors hs hshift with
        ⟨hstop, msg, hload⟩ | ⟨hgo, hmany, hload⟩ | ⟨hgo, hfew, tables, h, hload, htables⟩
      · rw [hload, error_bind]
        exact .inl ⟨⟨⟨hshift, hgroup⟩, .inr hstop⟩, msg, rfl⟩
      · rw [hload, error_bind]
        refine .inr (.inl ⟨?_, rfl⟩)
        rintro ⟨-, h | h | h⟩
        · omega
        · exact hgo h
        · omega
      · refine .inr (.inr ⟨⟨hgroup, hsum, hgo, hfew⟩, hshift, tables, h, htables, ?_⟩)
        rw [hload, ok_bind]
        dsimp only
        cases (sb.fileSystem sectors hshift tables).getNode 2 <;> rfl
    · have hnot : ¬ sb.nGroups * sb.blocksPerGroup % 2 ^ 32 ≥ sb.blocksCount := fun h => hsum (hassert.mp h)
      rw [decide_eq_false hnot]
      exact .inl ⟨⟨⟨hshift, hgroup⟩, .inl (by omega)⟩, _, rfl⟩
  · rw [dif_neg hshift]
    exact .inr (.inl ⟨fun h => hshift h.1.1, rfl⟩)

/-- The byte where the record of an i-node begins, without any wrap. -/
def recordOffset (sectors : ℕ → ℕ → UInt8) (number : ℕ) : ℕ :=
  let sb := superBlock sectors
  sb.inodeTable sectors ((number - 1) / sb.inodesPerGroup) * sb.blockSize +
    (number - 1) % sb.inodesPerGroup * sb.inodeSize

/-- The super block and the group table of a disk on which every i-node has a record of its own. -/
structure Geometry (sectors : ℕ → ℕ → UInt8) (sb : SuperBlock) : Prop where
  blocksPerGroup_pos : 0 < sb.blocksPerGroup
  inodesPerGroup_pos : 0 < sb.inodesPerGroup
  inodeSize_ge : 128 ≤ sb.inodeSize
  inodesCount_le : sb.inodesCount ≤ sb.nGroups * sb.inodesPerGroup
  disjoint : ∀ g < sb.nGroups, ∀ g' < sb.nGroups, g ≠ g' →
    sb.inodeTable sectors g * sb.blockSize + sb.inodesPerGroup * sb.inodeSize ≤
        sb.inodeTable sectors g' * sb.blockSize ∨
      sb.inodeTable sectors g' * sb.blockSize + sb.inodesPerGroup * sb.inodeSize ≤
        sb.inodeTable sectors g * sb.blockSize
  begins : ∀ g < sb.nGroups, sb.inodeTable sectors g < sb.blocksCount
  ends : ∀ g < sb.nGroups,
    sb.inodeTable sectors g * sb.blockSize + sb.inodesPerGroup * sb.inodeSize ≤ 2 ^ 32 - 1

section
variable {n n' : ℕ}

theorem Geometry.group_lt (h : Geometry sectors (superBlock sectors)) (hpos : 1 ≤ n)
    (hn : n ≤ (superBlock sectors).inodesCount) : (n - 1) / (superBlock sectors).inodesPerGroup <
      (superBlock sectors).nGroups := by
  have hcount := h.inodesCount_le
  exact (Nat.div_lt_iff_lt_mul h.inodesPerGroup_pos).mpr (by omega)

/-- A record lies in the table of its group. -/
theorem Geometry.record_inside (h : Geometry sectors (superBlock sectors)) (n : ℕ) :
    (n - 1) % (superBlock sectors).inodesPerGroup * (superBlock sectors).inodeSize + 128 ≤
      (superBlock sectors).inodesPerGroup * (superBlock sectors).inodeSize := by
  have hmod := Nat.mod_lt (n - 1) h.inodesPerGroup_pos
  have hsize := h.inodeSize_ge
  have hnext := Nat.mul_le_mul_right (superBlock sectors).inodeSize (Nat.succ_le_of_lt hmod)
  rw [Nat.succ_mul] at hnext
  omega

theorem Geometry.records_apart (h : Geometry sectors (superBlock sectors)) (hpos : 1 ≤ n) (hpos' : 1 ≤ n')
    (hn : n ≤ (superBlock sectors).inodesCount) (hn' : n' ≤ (superBlock sectors).inodesCount) (hne : n ≠ n') :
    recordOffset sectors n + 128 ≤ recordOffset sectors n' ∨ recordOffset sectors n' + 128 ≤ recordOffset sectors n := by
  have hin := h.record_inside n
  have hin' := h.record_inside n'
  have hsize := h.inodeSize_ge
  unfold recordOffset
  dsimp only
  by_cases hgroup : (n - 1) / (superBlock sectors).inodesPerGroup = (n' - 1) / (superBlock sectors).inodesPerGroup
  · -- two entries of one table
    have hentry : (n - 1) % (superBlock sectors).inodesPerGroup ≠ (n' - 1) % (superBlock sectors).inodesPerGroup := by
      intro hmod
      have hdiv := Nat.div_add_mod (n - 1) (superBlock sectors).inodesPerGroup
      have hdiv' := Nat.div_add_mod (n' - 1) (superBlock sectors).inodesPerGroup
      rw [hgroup, hmod] at hdiv
      omega
    rw [hgroup]
    rcases Nat.lt_or_gt_of_ne hentry with hlt | hlt
    · have hnext := Nat.mul_le_mul_right (superBlock sectors).inodeSize (Nat.succ_le_of_lt hlt)
      rw [Nat.succ_mul] at hnext
      omega
    · have hnext := Nat.mul_le_mul_right (superBlock sectors).inodeSize (Nat.succ_le_of_lt hlt)
      rw [Nat.succ_mul] at hnext
      omega
  · have hapart := h.disjoint _ (h.group_lt hpos hn) _ (h.group_lt hpos' hn') hgroup
    omega

end

/-- Once the file system has been mounted, every i-node is read from its own record of 128 bytes. -/
theorem records_separate (sectors : ℕ → ℕ → UInt8) (hgeometry : Geometry sectors (superBlock sectors))
    (s : HeapRun) (hs : heapMachine.Reachable s) (fs : Ext2) (root : INode) (h : Heap)
    (hmount : mount sectors s.heap = .ok (fs, root, h)) :
    (∀ number, 1 ≤ number → number ≤ (superBlock sectors).inodesCount →
      fs.nodeOffset number = recordOffset sectors number ∧
      fs.getNode number = .ok (fs.node fun i => (Ide sectors).byte (recordOffset sectors number + i))) ∧
    ∀ number number', 1 ≤ number → 1 ≤ number' → number ≤ (superBlock sectors).inodesCount →
      number' ≤ (superBlock sectors).inodesCount → number ≠ number' →
      recordOffset sectors number + 128 ≤ recordOffset sectors number' ∨
        recordOffset sectors number' + 128 ≤ recordOffset sectors number := by
  refine ⟨?_, fun _ _ => hgeometry.records_apart⟩
  rcases mount_cases sectors hs with ⟨-, msg, herror⟩ | ⟨-, herror⟩ | ⟨-, hshift, tables, h', htables, hok⟩
  · rw [herror] at hmount
    cases hmount
  · rw [herror] at hmount
    cases hmount
  · have hfs : fs = (superBlock sectors).fileSystem sectors hshift tables := by
      rw [hok] at hmount
      cases hroot : ((superBlock sectors).fileSystem sectors hshift tables).getNode 2 with
      | error e =>
        rw [hroot] at hmount
        cases hmount
      | ok node =>
        rw [hroot] at hmount
        exact (Prod.mk.inj (Except.ok.inj hmount)).1.symm
    intro number hpos hnumber
    have hgroup := hgeometry.group_lt hpos hnumber
    have hinside := hgeometry.record_inside number
    have hend := hgeometry.ends _ hgroup
    have hbegin := hgeometry.begins _ hgroup
    have hoffset : fs.nodeOffset number = recordOffset sectors number := by
      rw [hfs]
      show (tables ((number - 1) / (superBlock sectors).inodesPerGroup) * (superBlock sectors).blockSize +
        (number - 1) % (superBlock sectors).inodesPerGroup * (superBlock sectors).inodeSize) % 2 ^ 32 = _
      unfold recordOffset
      rw [htables _ hgroup, Nat.mod_eq_of_lt (by omega)]
    have hnode : fs.HasNode number := by
      constructor
      case positive => exact hpos
      case onDisk =>
        rw [hoffset]
        unfold recordOffset
        dsimp only
        omega
      all_goals rw [hfs]
      case numbered => exact hnumber
      case grouped => exact Nat.ne_of_gt hgeometry.inodesPerGroup_pos
      case inGroups => exact hgroup
      case inBlocks =>
        show tables ((number - 1) / (superBlock sectors).inodesPerGroup) ≤ (superBlock sectors).blocksCount
        rw [htables _ hgroup]
        exact Nat.le_of_lt hbegin
    refine ⟨hoffset, ?_⟩
    rcases fs.getNode_cases number with ⟨-, hread⟩ | ⟨hzero, -⟩ | ⟨hnot, -⟩
    · have hide : fs.ide = Ide sectors := by rw [hfs]; rfl
      rw [hread, hoffset, hide]
    · exact absurd hzero.2.2 hnode.grouped
    · exact absurd hnode hnot

/-- A disk with the given super block and group table, and zeros elsewhere. -/
def diskOf (super groups : List UInt8) (sector i : ℕ) : UInt8 :=
  if sector = 2 then super.getD i 0 else if sector = 4 then groups.getD i 0 else 0

/-- One group of 64 blocks with 16 i-nodes, whose records begin in block 5. -/
def oneGroup : ℕ → ℕ → UInt8 :=
  diskOf ([16, 0, 0, 0, 64] ++ List.replicate 27 0 ++ [64, 0, 0, 0, 0, 0, 0, 0, 16] ++ List.replicate 47 0 ++ [128])
    [0, 0, 0, 0, 0, 0, 0, 0, 5]

theorem oneGroup_geometry : Geometry oneGroup (superBlock oneGroup) where
  blocksPerGroup_pos := by decide +kernel
  inodesPerGroup_pos := by decide +kernel
  inodeSize_ge := by decide +kernel
  inodesCount_le := by decide +kernel
  disjoint := by decide +kernel
  begins := by decide +kernel
  ends := by decide +kernel

/-- The last i-node of the group. -/
theorem oneGroup_records : ∃ fs root h, mount oneGroup HeapRun.smallHeap.heap = .ok (fs, root, h) ∧
    fs.nodeOffset 16 = 7040 ∧ recordOffset oneGroup 15 + 128 ≤ recordOffset oneGroup 16 := by
  have hok : (mount oneGroup HeapRun.smallHeap.heap).isOk = true := by decide +kernel
  cases hmount : mount oneGroup HeapRun.smallHeap.heap with
  | error e =>
    rw [hmount] at hok
    cases hok
  | ok x =>
    have hall := records_separate oneGroup oneGroup_geometry HeapRun.smallHeap (.init HeapRun.smallHeap_booted) x.1 x.2.1
      x.2.2 hmount
    have hlast : recordOffset oneGroup 16 = 7040 := by decide +kernel
    have hapart : recordOffset oneGroup 15 + 128 ≤ recordOffset oneGroup 16 := by decide +kernel
    refine ⟨x.1, x.2.1, x.2.2, rfl, ?_, hapart⟩
    rw [← hlast]
    exact (hall.1 16 (by decide) (by decide +kernel)).1

end Ext2
end AudioKernel
