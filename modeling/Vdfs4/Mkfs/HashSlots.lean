import Vdfs4.Mkfs.MetadataLocated

/-!
# The slots of the meta hash table

A signed read-only image carries the checksums of its bnodes in the **meta hash table**.
`place_on_volume_subsystem` makes room for them, four bytes for each bnode in the order of the
trees. `flush_subsystem_tree` writes the checksum of a bnode behind the header at its meta block
number, taken as a **number of bytes**, and the kernel reads the slot by the number of the bnode. A
bnode has the blocks of a super page, so the two agree when a super page has four blocks.

* `MetaHashtable` — the size and the offsets of the table as mkfs grows it.
* `flushedSlot`, `checkedSlot` — where a checksum is written and where it is read.
* `slots_right_iff` — the super page size with which all checksums are found.
-/

namespace Vdfs4.Mkfs

open List MetadataSizes

/-! ### The table -/

/-- `sizeof(struct vdfs4_meta_hashtable)`. -/
def sizeofMetaHashtable : Nat := 56

/-- `CRC32_SIZE`. -/
def crc32Size : Nat := 4

/-- `buffer_size` of the hash table and the `hashtable_offsets` of its header. -/
structure MetaHashtable where
  size : Nat
  offsets : SpecialFile → Nat

/-- `init_hashtable`. -/
def MetaHashtable.start : MetaHashtable := ⟨sizeofMetaHashtable, fun _ => 0⟩

/-- The part of `place_on_volume_subsystem` that grows the hash table. -/
def MetaHashtable.place (k : Nat) (t : MetaHashtable) (file : SpecialFile × Nat) :
    MetaHashtable :=
  let iblockCount := blocksOf k file.1 file.2 % 2 ^ 32 / iblockSize k file.1
  let newSize :=
    match file.1 with
    | .spaceBitmap => t.size + iblockCount
    | .freeInodeBitmap =>
      ((t.size + iblockCount) % 2 ^ 32 + crc32Size - 1) / crc32Size * crc32Size
    | _ => t.size + iblockCount * crc32Size
  ⟨newSize % 2 ^ 32, Function.update t.offsets file.1 t.size⟩

/-- The hash table after all files were placed. -/
def metaHashtable (k : Nat) (files : List (SpecialFile × Nat)) : MetaHashtable :=
  files.foldl (MetaHashtable.place k) .start

/-- The byte of the table where `flush_subsystem_tree` writes the checksum of bnode `i`. -/
def flushedSlot (sb : MkfsSb) (tree : SpecialFile) (i : Nat) : Option Nat :=
  (sb.table.record? tree i).map fun record => sizeofMetaHashtable + record.metaIblock

/-- The byte of the table where `__get_checksum_for_bnode` reads the checksum of the bnode whose
first page is `page`. -/
def checkedSlot (log : Nat) (t : MetaHashtable) (tree : SpecialFile) (page : Nat) : Nat :=
  t.offsets tree + crc32Size * (page >>> log)

/-- What the signed image needs of the slots of its trees. -/
structure SlotsRight (log : Nat) (trees : List (SpecialFile × Nat)) (sb : MkfsSb)
    (t : MetaHashtable) : Prop where
  /-- a slot lies behind the header, inside the buffer, and is the one the kernel reads -/
  slot : ∀ f n, (f, n) ∈ trees → ∀ i < n, ∃ s, flushedSlot sb f i = some s ∧
    sizeofMetaHashtable ≤ s ∧ s + crc32Size ≤ t.size ∧ s = checkedSlot log t f (i * 2 ^ log)
  /-- different bnodes have disjoint slots -/
  disjoint : ∀ f n g m, (f, n) ∈ trees → (g, m) ∈ trees → ∀ i < n, ∀ j < m, (f, i) ≠ (g, j) →
    ∀ s s', flushedSlot sb f i = some s → flushedSlot sb g j = some s' →
      s + crc32Size ≤ s' ∨ s' + crc32Size ≤ s

/-! ### Where the trees start -/

variable {k : Nat} {sb : MkfsSb} {m : MetadataSizes} {regions : List Region}

/-- The bnodes of all trees. -/
def MetadataSizes.bnodes (m : MetadataSizes) : Nat := m.catTree + m.extentsTree + m.xattrTree

/-- The trees of a read-only image, one right behind the other. -/
def treeRegions (k : Nat) (m : MetadataSizes) : List Region :=
  [⟨.catTree, 0, m.catTree⟩, ⟨.extentsTree, m.catTree * k, m.extentsTree⟩,
    ⟨.xattrTree, m.catTree * k + m.extentsTree * k, m.xattrTree⟩]

theorem map_treeRegions (k : Nat) (m : MetadataSizes) :
    (treeRegions k m).map (fun r => (r.file, r.count)) = m.files true := rfl

/-- Three trees that fill the extent leave no gap. -/
theorem Layout.eq_treeRegions (hlayout : Layout k sb regions)
    (hregions : regions.map (fun r => (r.file, r.count)) = m.chunks true)
    (hblocks : sb.metadataExtent.blockCount =
      m.catTree * k + m.extentsTree * k + m.xattrTree * k) : regions = treeRegions k m := by
  obtain ⟨⟨_, c, _⟩, l, rfl, hcat, hl⟩ := map_eq_cons_iff.mp hregions
  obtain ⟨⟨_, e, _⟩, l, rfl, hext, hl⟩ := map_eq_cons_iff.mp hl
  obtain ⟨⟨_, x, _⟩, l, rfl, hxattr, hl⟩ := map_eq_cons_iff.mp hl
  obtain rfl := map_eq_nil_iff.mp hl
  obtain ⟨rfl, rfl⟩ := Prod.mk.inj hcat
  obtain ⟨rfl, rfl⟩ := Prod.mk.inj hext
  obtain ⟨rfl, rfl⟩ := Prod.mk.inj hxattr
  have hordered := hlayout.ordered
  have hinside := hlayout.inside
  simp [Region.stop, iblockSize, SpecialFile.isTree, chunkCount, hblocks] at hordered hinside
  simp [treeRegions, chunkCount, SpecialFile.isTree]
  omega

/-- A multiple of a super page is aligned. -/
theorem alignedCount_mul (hk : 0 < k) (file : SpecialFile) (n : Nat) :
    alignedCount k file (n * k) = n * k := by
  unfold alignedCount
  split
  · rw [Nat.add_sub_assoc hk, Nat.mul_comm n, Nat.mul_add_div hk, Nat.div_eq_of_lt (by omega),
      Nat.add_zero, Nat.mul_comm]
  · rfl

theorem foldl_nextCount_trees (hk : 0 < k) (m : MetadataSizes) :
    (m.files true).foldl (nextCount k) 0 =
      m.catTree * k + m.extentsTree * k + m.xattrTree * k := by
  have hzero := alignedCount_mul hk .catTree 0
  rw [Nat.zero_mul] at hzero
  simp only [files, if_true, nil_append, foldl_cons, foldl_nil, nextCount, hzero, blocksOf,
    SpecialFile.isTree, Nat.zero_add, alignedCount_mul hk, ← Nat.add_mul]

/-- The preallocation does not touch the table. -/
theorem placeMetadata_table {spaceManager : SpaceManager}
    (h : placeMetadata k spaceManager m = some (.ok sb)) :
    ∃ sb', placeSubsystems k (.start spaceManager) (m.files spaceManager.readOnlyImage) =
      some (.ok sb') ∧ sb.table = sb'.table := by
  unfold placeMetadata at h
  split at h
  · rename_i sb' hplaced
    refine ⟨sb', hplaced, ?_⟩
    unfold placeOnVolumePreallocation at h
    split at h
    · cases h
    split at h
    · cases h
    cases h
    rfl
  · rename_i hno
    exact absurd h (hno sb)

/-- **Where the checksums are written**: one super page behind the other. -/
theorem flushedSlot_eq {spaceManager : SpaceManager} (hk : 0 < k)
    (hro : spaceManager.readOnlyImage = true) (hsuper : ¬ spaceManager.IsFree 0)
    (hfit : m.blocks true k < 2 ^ 32) (h : placeMetadata k spaceManager m = some (.ok sb))
    {r : Region} (hr : r ∈ treeRegions k m) {i : Nat} (hi : i < r.count) :
    flushedSlot sb r.file i = some (sizeofMetaHashtable + (r.start + i * k)) := by
  obtain ⟨sb1, hplaced, htable⟩ := placeMetadata_table h
  rw [hro] at hplaced
  have hcat := m.catTree_two
  have hext := m.extentsTree_two
  have hxattr := m.xattrTree_two
  obtain ⟨regions, hlayout, hregions, hblocks⟩ :=
    (layout_start k spaceManager).placeAll hk (fun _ => hsuper) (by simp [files])
      (by simp [files, chunkCount, SpecialFile.isTree]; omega)
      (lt_of_le_of_lt (Nat.le_add_right _ _) hfit) hplaced
  rw [nil_append] at hlayout
  obtain rfl := hlayout.eq_treeRegions hregions (hblocks.trans (foldl_nextCount_trees hk m))
  have htree : iblockSize k r.file = k := by
    simp only [treeRegions, mem_cons, not_mem_nil, or_false] at hr
    rcases hr with rfl | rfl | rfl <;> rfl
  rw [flushedSlot, htable, hlayout.record?_of_mem hr hi, htree]
  rfl

/-! ### Where the kernel reads -/

theorem checkedSlot_mul (log : Nat) (t : MetaHashtable) (tree : SpecialFile) (i : Nat) :
    checkedSlot log t tree (i * 2 ^ log) = t.offsets tree + crc32Size * i := by
  rw [checkedSlot, Nat.shiftRight_eq_div_pow, Nat.mul_div_cancel _ (Nat.two_pow_pos log)]

/-- The table of a read-only image, in 32 bits. -/
theorem metaHashtable_readOnly (hk : 0 < k) (hfit : m.blocks true k < 2 ^ 32) :
    (metaHashtable k (m.files true)).offsets .catTree = 56 ∧
      (metaHashtable k (m.files true)).offsets .extentsTree = (56 + m.catTree * 4) % 2 ^ 32 ∧
      (metaHashtable k (m.files true)).offsets .xattrTree =
        (56 + m.catTree * 4 + m.extentsTree * 4) % 2 ^ 32 ∧
      (metaHashtable k (m.files true)).size = (56 + m.bnodes * 4) % 2 ^ 32 := by
  rw [blocks, foldl_nextCount_trees hk] at hfit
  have hcount : ∀ n, n * k < 2 ^ 32 → n * k % 4294967296 / k = n := fun n hn => by
    rw [Nat.mod_eq_of_lt (show n * k < 4294967296 from hn), Nat.mul_div_cancel _ hk]
  have hcat := hcount m.catTree (by omega)
  have hext := hcount m.extentsTree (by omega)
  have hxattr := hcount m.xattrTree (by omega)
  simp [metaHashtable, files, MetaHashtable.place, MetaHashtable.start, sizeofMetaHashtable,
    crc32Size, bnodes, blocksOf, iblockSize, SpecialFile.isTree, Function.update,
    hcat, hext, hxattr]
  omega

/-- **Only super pages of 16384 bytes give every checksum its slot.** In a read-only image with
block 0 taken and all metadata placed, in fewer than `2 ^ 32` blocks, the slots of all bnodes are
right exactly when a super page has four blocks and the table has a size below `2 ^ 32`. -/
theorem slots_right_iff (log : Nat) (spaceManager : SpaceManager) (m : MetadataSizes)
    (sb : MkfsSb) (hro : spaceManager.readOnlyImage = true) (hsuper : ¬ spaceManager.IsFree 0)
    (hfit : m.blocks true (2 ^ log) < 2 ^ 32)
    (h : placeMetadata (2 ^ log) spaceManager m = some (.ok sb)) :
    SlotsRight log (m.files true) sb (metaHashtable (2 ^ log) (m.files true)) ↔
      log = 2 ∧ sizeofMetaHashtable + m.bnodes * crc32Size < 2 ^ 32 := by
  have hslot := @flushedSlot_eq _ _ _ _ (Nat.two_pow_pos log) hro hsuper hfit h
  obtain ⟨hc, he, hx, hsize⟩ := metaHashtable_readOnly (Nat.two_pow_pos log) hfit
  have hcat := m.catTree_two
  have hxattr := m.xattrTree_two
  rw [← map_treeRegions (2 ^ log)]
  constructor
  · intro hright
    rw [map_treeRegions] at hright
    -- the second bnode of the catalog tree is a super page behind the first
    obtain ⟨s, hs, -, -, hread⟩ := hright.slot .catTree m.catTree (by simp [files]) 1 (by omega)
    rw [hslot (r := ⟨.catTree, 0, m.catTree⟩) mem_cons_self (show 1 < m.catTree by omega)] at hs
    rw [← Option.some.inj hs, checkedSlot_mul, hc, sizeofMetaHashtable, crc32Size] at hread
    obtain rfl : log = 2 :=
      Nat.pow_right_injective (le_refl 2) (show 2 ^ log = 2 ^ 2 by dsimp only at hread; omega)
    -- and the last one of all ends inside the table
    obtain ⟨s, hs, -, hin, -⟩ := hright.slot .xattrTree m.xattrTree (by simp [files])
      (m.xattrTree - 1) (by omega)
    rw [hslot (r := ⟨.xattrTree, m.catTree * 4 + m.extentsTree * 4, m.xattrTree⟩)
      (by simp [treeRegions]) (show m.xattrTree - 1 < m.xattrTree by omega)] at hs
    rw [← Option.some.inj hs, hsize] at hin
    refine ⟨rfl, ?_⟩
    simp only [sizeofMetaHashtable, crc32Size, bnodes] at hin ⊢
    omega
  · rintro ⟨rfl, htable⟩
    simp only [sizeofMetaHashtable, crc32Size, bnodes] at htable hsize
    refine ⟨fun f n hf i hi => ?_, fun f n g n' hf hg i hi j hj hne s s' hs hs' => ?_⟩
    · obtain ⟨r, hr, heq⟩ := mem_map.mp hf
      obtain ⟨rfl, rfl⟩ := Prod.mk.inj heq
      refine ⟨_, hslot hr hi, Nat.le_add_right _ _, ?_⟩
      rw [map_treeRegions, checkedSlot_mul, hsize, sizeofMetaHashtable, crc32Size]
      simp only [treeRegions, mem_cons, not_mem_nil, or_false] at hr
      rcases hr with rfl | rfl | rfl <;> simp only [hc, he, hx] at hi ⊢ <;> omega
    · obtain ⟨r, hr, heq⟩ := mem_map.mp hf
      obtain ⟨rfl, rfl⟩ := Prod.mk.inj heq
      obtain ⟨r', hr', heq⟩ := mem_map.mp hg
      obtain ⟨rfl, rfl⟩ := Prod.mk.inj heq
      rw [hslot hr hi] at hs
      rw [hslot hr' hj] at hs'
      rw [← Option.some.inj hs, ← Option.some.inj hs', crc32Size]
      simp only [treeRegions, mem_cons, not_mem_nil, or_false] at hr hr'
      rcases hr with rfl | rfl | rfl <;> rcases hr' with rfl | rfl | rfl <;>
        simp only [ne_eq, Prod.mk.injEq, true_and, reduceCtorEq, false_and,
          not_false_eq_true] at hi hj hne ⊢ <;> omega

/-- A small image with super pages of 16384 bytes. -/
theorem small_image_slots_right : ∃ sb, placeMetadata (2 ^ 2) readOnlySpace smallTrees =
      some (.ok sb) ∧
    SlotsRight 2 (smallTrees.files true) sb (metaHashtable (2 ^ 2) (smallTrees.files true)) := by
  have hsuper : ¬ readOnlySpace.IsFree 0 := by
    simp [SpaceManager.IsFree, readOnlySpace]
  obtain ⟨sb, hplaced, -⟩ : ∃ sb,
      placeMetadata (2 ^ 2) readOnlySpace smallTrees = some (.ok sb) ∧ sb.bufferSize = 200 ∧
        kernelChecksumOffset sb.table = 232 :=
    exists_of_tableSizes (by decide +kernel)
  exact ⟨sb, hplaced, (slots_right_iff 2 readOnlySpace smallTrees sb rfl hsuper
    (by decide +kernel) hplaced).mpr ⟨rfl, by decide⟩⟩

/-- With super pages of 8192 bytes the checksum of the second bnode of the catalog tree is written
over half of the first one, and the kernel reads it two bytes behind. -/
theorem slots_overlap : (placeMetadata (2 ^ 1) readOnlySpace smallTrees).map (fun r =>
      r.toOption.map fun sb => (flushedSlot sb .catTree 0, flushedSlot sb .catTree 1)) =
      some (some (some 56, some 58)) ∧
    checkedSlot 1 (metaHashtable (2 ^ 1) (smallTrees.files true)) .catTree (1 * 2 ^ 1) = 60 := by
  decide +kernel

end Vdfs4.Mkfs
