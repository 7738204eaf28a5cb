import AudioKernel.Ext2.INode
import Mathlib.Algebra.Order.Floor.Div

/-! `BlockIO::size_in_blocks` of `block_io.h`, next to the block numbers that `BlockIO::read` asks for. -/
namespace AudioKernel

/-- What `BlockIO` knows of its blocks: `size_in_bytes()` and `block_size`, any two `uint32_t`s. -/
structure BlockShape where
  sizeInBytes : ℕ
  blockSize : ℕ
  sizeInBytes_lt : sizeInBytes < 2 ^ 32
  blockSize_pos : 0 < blockSize
  blockSize_lt : blockSize < 2 ^ 32

namespace BlockShape

variable (d : BlockShape)

def sizeInBlocks : ℕ := (d.sizeInBytes + d.blockSize - 1) % 2 ^ 32 / d.blockSize

/-- `block_number` in `read`. -/
def blockNumber (offset : ℕ) : ℕ := offset / d.blockSize

/-- Every byte is in one of the blocks that are counted, and no block is counted that has no byte. -/
def CountsBlocks : Prop :=
  (∀ offset < d.sizeInBytes, d.blockNumber offset < d.sizeInBlocks) ∧ d.sizeInBlocks = d.sizeInBytes ⌈/⌉ d.blockSize

/-- Below the end of the device the block numbers are below the number of blocks. -/
theorem blockNumber_lt_ceilDiv {offset : ℕ} (hoff : offset < d.sizeInBytes) :
    d.blockNumber offset < d.sizeInBytes ⌈/⌉ d.blockSize := by
  have hpos := d.blockSize_pos
  rw [blockNumber, Nat.ceilDiv_eq_add_pred_div, Nat.lt_iff_add_one_le, ← Nat.add_div_right offset hpos]
  exact Nat.div_le_div_right (by omega)

theorem sizeInBlocks_of_le (hfits : d.sizeInBytes + d.blockSize ≤ 2 ^ 32) :
    d.sizeInBlocks = d.sizeInBytes ⌈/⌉ d.blockSize := by
  have hpos := d.blockSize_pos
  rw [sizeInBlocks, Nat.ceilDiv_eq_add_pred_div, Nat.mod_eq_of_lt (by omega)]

/-- When the sum wraps, a whole number of blocks is lost and at least one. -/
theorem sizeInBlocks_lt (hwrap : 2 ^ 32 < d.sizeInBytes + d.blockSize) :
    d.sizeInBlocks < d.sizeInBytes ⌈/⌉ d.blockSize := by
  have hsize := d.sizeInBytes_lt
  have hblock := d.blockSize_lt
  have hrest : (d.sizeInBytes + d.blockSize - 1) % 2 ^ 32 + d.blockSize ≤ d.sizeInBytes + d.blockSize - 1 := by omega
  rw [sizeInBlocks, Nat.ceilDiv_eq_add_pred_div, Nat.lt_iff_add_one_le, ← Nat.add_div_right _ d.blockSize_pos]
  exact Nat.div_le_div_right hrest

/-- The count is right just when the rounding sum does not wrap. -/
theorem countsBlocks_iff : d.CountsBlocks ↔ d.sizeInBytes + d.blockSize ≤ 2 ^ 32 := by
  constructor
  · rintro ⟨-, hcount⟩
    by_contra hwrap
    have hlost := d.sizeInBlocks_lt (by omega)
    omega
  · intro hfits
    have hcount := d.sizeInBlocks_of_le hfits
    refine ⟨fun offset hoff => ?_, hcount⟩
    rw [hcount]
    exact d.blockNumber_lt_ceilDiv hoff

end BlockShape

namespace BlockReader

def shape (d : BlockReader) : BlockShape where
  sizeInBytes := d.sizeInBytes
  blockSize := d.blockSize
  sizeInBytes_lt := d.sizeInBytes_lt
  blockSize_pos := d.blockSize_pos
  blockSize_lt := Nat.lt_of_le_of_lt d.blockSize_le (by decide)

/-- `read` asks for the block of its offset and for no other. -/
theorem read_blockNumber {d : BlockReader} {offset n buffer : ℕ} {r : ReadResult} (hoff : offset < d.sizeInBytes)
    (hread : d.read offset n buffer = .ok r) : r.blocks = [d.shape.blockNumber offset] := by
  rw [d.read_spec n buffer hoff] at hread
  cases hfetch : d.fetch offset (min n (d.sizeInBytes - offset)) (offset / d.blockSize) with
  | error e =>
    rw [hfetch] at hread
    cases hread
  | ok bytes =>
    rw [hfetch] at hread
    obtain rfl := Except.ok.inj hread
    rfl

end BlockReader

/-- A disk claims 2³² − 1 bytes in sectors of 512: it has no block, and still reads block 0. -/
theorem ide_counts_no_block : (¬ ∀ d : BlockShape, d.CountsBlocks) ∧
    ∃ r, (Ide fun _ _ => 0).reader.read 0 512 0 = .ok r ∧ r.blocks = [0] := by
  constructor
  · intro hall
    have hide := (hall (Ide fun _ _ => 0).reader.shape).1 0 (by decide)
    exact absurd hide (by decide)
  · have hin : 0 < (Ide fun _ _ => 0).reader.sizeInBytes := by decide
    have hread : (Ide fun _ _ => 0).reader.read 0 512 0 = .ok _ := rfl
    exact ⟨_, hread, BlockReader.read_blockNumber hin hread⟩

end AudioKernel
