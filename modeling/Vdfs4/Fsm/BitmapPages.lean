import Vdfs4.Fsm.BitmapBlocks
import Vdfs4.Snapshot.Table
import Mathlib.Tactic.IntervalCases

/-!
# The pages of the space bitmap that are marked for commit

When blocks are allocated or freed, the **pages** of the space bitmap that hold their bits have to
be written with the next commit. `vdfs4_fsm_get_free_block` and `fsm_free_block_chunk` compute the
first and the last of these pages, the last one from the block **behind** the range.

* `pageOfBit` — the page that holds the bit of a block;
* `getFreeBlockPages`, `freeBlockChunkPages` — the pages the two functions mark;
* `BitmapVolume.pageCount` — how many pages `vdfs4_fsm_build_management` reads;
* `marked_pages_right_iff` — all pages of the range are marked and no other index is used than that
  of a page, **exactly** if the block behind the range has its bit in these pages, and an `unsigned
  int` counts the bitmap blocks up to it.
-/

namespace Vdfs4

/-- `FSM_BMP_MAGIC_LEN`. -/
def fsmBmpMagicLen : Nat := 12

/-- What the superblock says of the volume. Block sizes are 512, 1024, 2048 and 4096. -/
structure BitmapVolume where
  /-- `block_size_shift` -/
  blockSizeShift : Nat
  /-- `volume_blocks_count` -/
  volumeBlocksCount : Nat
  /-- other block sizes are refused when the volume is mounted -/
  shift_le : 9 ≤ blockSizeShift ∧ blockSizeShift ≤ 12
  /-- `volume_blocks_count` is a `__u64` -/
  volume_lt : volumeBlocksCount < 2 ^ 64

/-- A range of blocks of the volume, as it is allocated and freed. -/
structure BlockRange (V : BitmapVolume) where
  /-- `block_offset` -/
  blockOffset : Nat
  /-- `length_in_blocks` -/
  lengthInBlocks : Nat
  /-- there is a block -/
  pos : 0 < lengthInBlocks
  /-- `length_in_blocks` is a `__u32` -/
  length_lt : lengthInBlocks < 2 ^ 32
  /-- the range lies in the volume -/
  inside : blockOffset + lengthInBlocks ≤ V.volumeBlocksCount

namespace BitmapVolume

variable (V : BitmapVolume)

/-- `VDFS4_BIT_BLKSIZE(sbi->block_size, FSM_BMP_MAGIC_LEN)`. -/
def bitBlksize : Nat := blockBits fsmBmpMagicLen (2 ^ V.blockSizeShift)

/-- The number of blocks in a page. -/
def blocksPerPage : Nat := 2 ^ (pageShift - V.blockSizeShift)

/-- `fsm->page_count`: the pages are counted as if each were one bitmap block, and
`DIV_ROUND_UP_ULL` adds with 64 bits. -/
def pageCount : Nat :=
  (V.volumeBlocksCount + (blockBits fsmBmpMagicLen (2 ^ pageShift) - 1)) % 2 ^ 64 /
    blockBits fsmBmpMagicLen (2 ^ pageShift) % 2 ^ 32

/-- The page that holds the bit of block `x`. -/
def pageOfBit (x : Nat) : Nat :=
  bitPlace fsmBmpMagicLen (2 ^ V.blockSizeShift) x / 8 / 2 ^ pageShift

/-- The index of a page from a block: `do_div`, and a shift of an `unsigned int`. -/
def pageIndex (x : Nat) : Nat := x / V.bitBlksize % 2 ^ 32 / V.blocksPerPage

/-- `start_page` and `end_page` of a range. -/
def rangePages (blockOffset lengthInBlocks : Nat) : Nat × Nat :=
  (V.pageIndex blockOffset, V.pageIndex (blockOffset + lengthInBlocks))

/-- The pages that `vdfs4_fsm_get_free_block` marks. -/
def getFreeBlockPages (R : BlockRange V) : Nat × Nat :=
  V.rangePages R.blockOffset R.lengthInBlocks

/-- The pages that `fsm_free_block_chunk` marks. -/
def freeBlockChunkPages (R : BlockRange V) : Nat × Nat :=
  V.rangePages R.blockOffset R.lengthInBlocks

/-- From the first to the last of these pages: each page with a bit of the range is among them, and
each is a page of the bitmap. -/
structure PagesRight (R : BlockRange V) (pages : Nat × Nat) : Prop where
  covered : ∀ x, R.blockOffset ≤ x → x < R.blockOffset + R.lengthInBlocks →
    pages.1 ≤ V.pageOfBit x ∧ V.pageOfBit x ≤ pages.2
  exist : ∀ index, pages.1 ≤ index → index ≤ pages.2 → index < V.pageCount

variable {V}

theorem bitBlksize_pos : 0 < V.bitBlksize := by
  obtain ⟨hge, hle⟩ := V.shift_le
  unfold bitBlksize
  interval_cases V.blockSizeShift <;> decide

theorem blocksPerPage_pos : 0 < V.blocksPerPage := Nat.pow_pos (by decide)

/-- A page holds whole bitmap blocks. -/
theorem pageOfBit_eq (x : Nat) : V.pageOfBit x = x / V.bitBlksize / V.blocksPerPage := by
  obtain ⟨hge, hle⟩ := V.shift_le
  unfold pageOfBit bitPlace bitBlksize blocksPerPage blockBits fsmBmpMagicLen crc32Size pageShift
  interval_cases V.blockSizeShift <;> omega

/-- Shifting keeps the order against `2 ^ 32`. -/
theorem mod_div_lt_div (a : Nat) {q : Nat} (hq : 2 ^ 32 ≤ q) :
    a % 2 ^ 32 / V.blocksPerPage < q / V.blocksPerPage := by
  obtain ⟨hge, hle⟩ := V.shift_le
  unfold blocksPerPage pageShift
  interval_cases V.blockSizeShift <;> omega

/-- Without a wrap the page is that of the bit. -/
theorem pageIndex_eq {x : Nat} (h : x / V.bitBlksize < 2 ^ 32) : V.pageIndex x = V.pageOfBit x := by
  rw [pageIndex, Nat.mod_eq_of_lt h, pageOfBit_eq]

theorem pageOfBit_mono {x y : Nat} (h : x ≤ y) : V.pageOfBit x ≤ V.pageOfBit y := by
  rw [pageOfBit_eq, pageOfBit_eq]
  exact Nat.div_le_div_right (Nat.div_le_div_right h)

/-- If the number of the block behind the range wraps, its last page is not reached. -/
theorem pageIndex_lt_of_wraps {e : Nat} (he : 2 ^ 32 ≤ e / V.bitBlksize) :
    V.pageIndex e < V.pageOfBit (e - 1) := by
  have hpos := bitBlksize_pos (V := V)
  rw [pageOfBit_eq]
  obtain hwrap | hlast := Nat.lt_or_ge ((e - 1) / V.bitBlksize) (2 ^ 32)
  · -- the range ends with block number `2 ^ 32 - 1` of the bitmap, and the next number is zero
    have hle : e / V.bitBlksize ≤ (e - 1) / V.bitBlksize + 1 := by
      rw [← Nat.add_div_right _ hpos]
      exact Nat.div_le_div_right (by omega)
    have hzero : e / V.bitBlksize % 2 ^ 32 = 0 := by omega
    have hmax : (e - 1) / V.bitBlksize = 2 ^ 32 - 1 := by omega
    rw [pageIndex, hzero, Nat.zero_div, hmax]
    obtain ⟨hge, hle⟩ := V.shift_le
    unfold blocksPerPage pageShift
    interval_cases V.blockSizeShift <;> decide
  · exact mod_div_lt_div _ hlast

/-- Which pages `start_page` and `end_page` enclose. -/
theorem rangePages_right_iff (R : BlockRange V) :
    V.PagesRight R (V.rangePages R.blockOffset R.lengthInBlocks) ↔
      (R.blockOffset + R.lengthInBlocks) / V.bitBlksize < 2 ^ 32 ∧
      R.blockOffset + R.lengthInBlocks < V.pageCount * (V.blocksPerPage * V.bitBlksize) := by
  have hpos := R.pos
  have hend : V.pageOfBit (R.blockOffset + R.lengthInBlocks) < V.pageCount ↔
      R.blockOffset + R.lengthInBlocks < V.pageCount * (V.blocksPerPage * V.bitBlksize) := by
    rw [pageOfBit_eq, Nat.div_lt_iff_lt_mul blocksPerPage_pos,
      Nat.div_lt_iff_lt_mul bitBlksize_pos, Nat.mul_assoc]
  constructor
  · intro h
    have hlast := h.covered (R.blockOffset + R.lengthInBlocks - 1) (by omega) (by omega)
    have hsmall : (R.blockOffset + R.lengthInBlocks) / V.bitBlksize < 2 ^ 32 := by
      by_contra hlarge
      have := pageIndex_lt_of_wraps (V := V) (Nat.le_of_not_lt hlarge)
      exact absurd hlast.2 (by simp only [rangePages]; omega)
    refine ⟨hsmall, hend.mp ?_⟩
    rw [← pageIndex_eq hsmall]
    exact h.exist _ (hlast.1.trans hlast.2) (le_refl _)
  · rintro ⟨hsmall, hinside⟩
    have hstart : R.blockOffset / V.bitBlksize < 2 ^ 32 :=
      lt_of_le_of_lt (Nat.div_le_div_right (by omega)) hsmall
    have hpages : V.rangePages R.blockOffset R.lengthInBlocks =
        (V.pageOfBit R.blockOffset, V.pageOfBit (R.blockOffset + R.lengthInBlocks)) := by
      rw [rangePages, pageIndex_eq hstart, pageIndex_eq hsmall]
    rw [hpages]
    refine ⟨fun x hx hx' => ⟨pageOfBit_mono hx, pageOfBit_mono (by omega)⟩, ?_⟩
    intro index _ hle
    exact lt_of_le_of_lt hle (hend.mpr hinside)

end BitmapVolume

open BitmapVolume

/-- **The right pages are marked, if the block behind the range has its bit in them.** For an
allocated and for a freed range alike: all pages with a bit of the range and only pages of the
bitmap are marked, exactly if the end of the range lies below the last bit of these pages and in a
bitmap block whose number is an `unsigned int`. -/
theorem marked_pages_right_iff (V : BitmapVolume) (R : BlockRange V) :
    (V.PagesRight R (V.getFreeBlockPages R) ∧ V.PagesRight R (V.freeBlockChunkPages R)) ↔
      (R.blockOffset + R.lengthInBlocks) / V.bitBlksize < 2 ^ 32 ∧
      R.blockOffset + R.lengthInBlocks < V.pageCount * (V.blocksPerPage * V.bitBlksize) := by
  rw [getFreeBlockPages, freeBlockChunkPages, and_self_iff]
  exact rangePages_right_iff R

/-- A volume whose bitmap fills one page. -/
def onePageVolume : BitmapVolume where
  blockSizeShift := 12
  volumeBlocksCount := 32640
  shift_le := by decide
  volume_lt := by decide

/-- Its last block. -/
def lastBlockRange : BlockRange onePageVolume where
  blockOffset := 32639
  lengthInBlocks := 1
  pos := by decide
  length_lt := by decide
  inside := by decide

/-- The last block is allocated: page `1` is marked, and there is only page `0`. -/
theorem page_behind_bitmap_marked :
    onePageVolume.getFreeBlockPages lastBlockRange = (0, 1) ∧ onePageVolume.pageCount = 1 ∧
      onePageVolume.pageOfBit 32639 = 0 := by
  decide

end Vdfs4
