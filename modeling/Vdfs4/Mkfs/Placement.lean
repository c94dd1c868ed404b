import Vdfs4.Mkfs.SpaceManager

/-!
# Placing the metadata

mkfs places the special files one after another at the end of the **metadata extent**
(`place_on_volume_subsystem`): the blocks come from the allocator, and for each chunk of
the file a record with its position in the extent goes to the end of the **table
buffer**. Then it writes the chunks to the volume (`flush_subsystem`,
`flush_subsystem_tree`) and the buffer becomes the first base table. The kernel reads the
table with its own arithmetic.

* `TableBuffer` — the base table as mkfs grows it.
* `MkfsSb` — the table buffer, the metadata extent and the allocator.
* `placeOnVolumeSubsystem`, `placeMetadata` — the writer's placement.
* `flushedBlock` — the volume block a page of a special file is written to.
* `getMetaBlock`, `kernelBlock` — the volume block the kernel reads it from.
-/

namespace Vdfs4.Mkfs

/-! ### The table buffer -/

/-- `sizeof(struct vdfs4_base_table)`. -/
def sizeofBaseTable : Nat := 104

/-- `sizeof(struct vdfs4_base_table_record)`. -/
def sizeofRecord : Nat := 16

/-- The buffer of `snapshot_subsystem`: the header fields, and the records that follow the
header. -/
structure TableBuffer where
  /-- byte offsets into the buffer; 0 where nothing was placed -/
  translationTableOffsets : SpecialFile → Nat
  lastPageIndex : SpecialFile → Nat
  records : List BaseTableRecord

/-- The record at a byte offset of the buffer. -/
def TableBuffer.recordAt (t : TableBuffer) (offset : Nat) : Option BaseTableRecord :=
  if sizeofBaseTable ≤ offset ∧ (offset - sizeofBaseTable) % sizeofRecord = 0 then
    t.records[(offset - sizeofBaseTable) / sizeofRecord]?
  else none

/-- `table[i]` of the table `VDFS4_GET_TABLE` and `vdfs4_get_table` point to. -/
def TableBuffer.record? (t : TableBuffer) (file : SpecialFile) (i : Nat) :
    Option BaseTableRecord :=
  t.recordAt (t.translationTableOffsets file + sizeofRecord * i)

/-- The buffer of `init_snapshot`. -/
def TableBuffer.empty : TableBuffer := ⟨fun _ => 0, fun _ => 0, []⟩

/-! ### Placement -/

/-- `metadata_extent[0]`. -/
structure MetadataExtent where
  firstBlock : Nat
  blockCount : Nat
deriving DecidableEq, Repr

/-- The part of the mkfs superblock state that placement works on. -/
structure MkfsSb where
  spaceManager : SpaceManager
  /-- `snapshot_subsystem.buffer_size` -/
  bufferSize : Nat
  table : TableBuffer
  metadataExtent : MetadataExtent

/-- The state before the first file is placed. -/
def MkfsSb.start (spaceManager : SpaceManager) : MkfsSb :=
  ⟨spaceManager, sizeofBaseTable, .empty, ⟨0, 0⟩⟩

/-- `get_iblock_size`, where `k` is the number of blocks of a super page. -/
def iblockSize (k : Nat) (file : SpecialFile) : Nat := if file.isTree then k else 1

/-- The size of a special file in blocks, before it is stored in 32 bits. The size of a
tree is given as its number of bnodes, that of a bitmap in bytes. -/
def blocksOf (k : Nat) (file : SpecialFile) (size : Nat) : Nat :=
  if file.isTree then size * k else byteToBlock size

/-- The gap in front of a tree that aligns it to the super page size, in 32 bit
arithmetic. -/
def alignGap (k : Nat) (file : SpecialFile) (blockCount : Nat) : Nat :=
  if file.isTree then
    ((blockCount + k - 1) % 2 ^ 32 / k * k + 2 ^ 32 - blockCount) % 2 ^ 32
  else 0

/-- The records of a file whose first chunk is at meta block `start`. -/
def chunkRecords (k : Nat) (file : SpecialFile) (start iblockCount : Nat) :
    List BaseTableRecord :=
  (List.range iblockCount).map fun count => ⟨start + count * iblockSize k file, 1, 0⟩

/-- `place_on_volume_subsystem` for a special file. `none`: the records do not fit the
reallocated buffer, or an assertion fails. -/
def placeOnVolumeSubsystem (k : Nat) (sb : MkfsSb) (file : SpecialFile) (size : Nat) :
    Option (Except Errno MkfsSb) :=
  let sizeInBlocks := blocksOf k file size % 2 ^ 32
  let iblockCount := sizeInBlocks / iblockSize k file
  let tableSize := sizeofRecord * iblockCount % 2 ^ 32
  let newSize := (sb.bufferSize + tableSize) % 2 ^ 32
  let offset := alignGap k file sb.metadataExtent.blockCount
  if newSize < sb.bufferSize + sizeofRecord * iblockCount then none
  else
    match allocateSpace sb.spaceManager
        (sb.metadataExtent.firstBlock + sb.metadataExtent.blockCount) (sizeInBlocks + offset) with
    | none => some (.error .enospc)
    | some (startBlock, spaceManager) =>
      if sb.metadataExtent.firstBlock ≠ 0 ∧
          sb.metadataExtent.firstBlock + sb.metadataExtent.blockCount ≠ startBlock then none
      else
        let firstBlock :=
          if sb.metadataExtent.firstBlock = 0 then startBlock else sb.metadataExtent.firstBlock
        some (.ok {
          spaceManager := spaceManager
          bufferSize := newSize
          table := {
            translationTableOffsets :=
              Function.update sb.table.translationTableOffsets file sb.bufferSize
            lastPageIndex :=
              Function.update sb.table.lastPageIndex file ((iblockCount + 2 ^ 32 - 1) % 2 ^ 32)
            records := sb.table.records ++
              chunkRecords k file (startBlock - firstBlock + offset) iblockCount }
          metadataExtent :=
            ⟨firstBlock, (sb.metadataExtent.blockCount + (sizeInBlocks + offset)) % 2 ^ 32⟩ })

/-- The placement calls of `main`, one after another; the first failure ends mkfs. -/
def placeSubsystems (k : Nat) (sb : MkfsSb) :
    List (SpecialFile × Nat) → Option (Except Errno MkfsSb)
  | [] => some (.ok sb)
  | (file, size) :: rest =>
    match placeOnVolumeSubsystem k sb file size with
    | some (.ok sb') => placeSubsystems k sb' rest
    | some (.error err) => some (.error err)
    | none => none

/-- `place_on_volume_preallocation`. -/
def placeOnVolumePreallocation (sb : MkfsSb) (preallocationLen : Nat) :
    Option (Except Errno MkfsSb) :=
  match allocateSpace sb.spaceManager
      (sb.metadataExtent.firstBlock + sb.metadataExtent.blockCount) preallocationLen with
  | none => some (.error .enospc)
  | some (metadataAddr, spaceManager) =>
    if metadataAddr ≠ sb.metadataExtent.firstBlock + sb.metadataExtent.blockCount then none
    else some (.ok { sb with
      spaceManager := spaceManager
      metadataExtent := ⟨sb.metadataExtent.firstBlock,
        (sb.metadataExtent.blockCount + preallocationLen) % 2 ^ 32⟩ })

/-- The metadata of an image: the two bitmaps in bytes, the trees in bnodes. -/
structure MetadataSizes where
  spaceBitmap : UInt32
  inodeBitmap : UInt32
  catTree : Nat
  extentsTree : Nat
  xattrTree : Nat
  /-- `preallocation_len` -/
  preallocation : Nat
  spaceBitmap_pos : spaceBitmap ≠ 0
  inodeBitmap_pos : inodeBitmap ≠ 0
  catTree_two : 2 ≤ catTree
  extentsTree_two : 2 ≤ extentsTree
  xattrTree_two : 2 ≤ xattrTree

/-- The special files in the order `main` places them; a read-only image has no
bitmaps. -/
def MetadataSizes.files (m : MetadataSizes) (readOnlyImage : Bool) :
    List (SpecialFile × Nat) :=
  (if readOnlyImage then []
    else [(.spaceBitmap, m.spaceBitmap.toNat), (.freeInodeBitmap, m.inodeBitmap.toNat)]) ++
  [(.catTree, m.catTree), (.extentsTree, m.extentsTree), (.xattrTree, m.xattrTree)]

/-- The placement of all metadata by `main`. -/
def placeMetadata (k : Nat) (spaceManager : SpaceManager) (m : MetadataSizes) :
    Option (Except Errno MkfsSb) :=
  match placeSubsystems k (.start spaceManager) (m.files spaceManager.readOnlyImage) with
  | some (.ok sb) => placeOnVolumePreallocation sb m.preallocation
  | r => r

/-! ### Writer and reader -/

/-- The block of the volume to which `flush_subsystem` or `flush_subsystem_tree` writes
page `page` of a special file of `size`. A bitmap goes to consecutive blocks from its
first record on, a tree bnode by bnode. -/
def flushedBlock (k : Nat) (sb : MkfsSb) (file : SpecialFile) (size page : Nat) : Option Nat :=
  if file.isTree then
    if page / k < size then
      (sb.table.record? file (page / k)).map fun record =>
        record.metaIblock + sb.metadataExtent.firstBlock + page % k
    else none
  else
    if page < sb.table.lastPageIndex file + 1 then
      (sb.table.record? file 0).map fun record =>
        record.metaIblock + sb.metadataExtent.firstBlock + page
    else none

/-- `VDFS4_META_BTREE_EXTENTS`. -/
def metaBtreeExtents : Nat := 96

/-- `exsb.meta` as `fill_ext_superblock` writes it: the first extent, the others zero. -/
def metaExtents (sb : MkfsSb) : List (Nat × Nat) :=
  (sb.metadataExtent.firstBlock, sb.metadataExtent.blockCount) ::
    List.replicate (metaBtreeExtents - 1) (0, 0)

/-- The loop of `get_meta_block` from an extent whose first iblock is `firstIblock`. -/
def getMetaBlock (iblock : Nat) : Nat → List (Nat × Nat) → Except Errno Nat
  | _, [] => .error .einval
  | firstIblock, (begin, length) :: extents =>
    if firstIblock ≤ iblock ∧ iblock < firstIblock + length then
      .ok (begin + (iblock - firstIblock))
    else getMetaBlock iblock (firstIblock + length) extents

/-- The kernel's runtime superblock of a volume with super pages of `2 ^ log` blocks. -/
def kernelSbInfo (log : Nat) : SbInfo := ⟨log, 0, pageShift, 0⟩

/-- `get_block_meta_wrapper` for `VDFS4_META_READ`: `vdfs4_get_meta_iblock`, the page
inside the bnode, `get_meta_block`. -/
def kernelBlock (log : Nat) (sb : MkfsSb) (file : SpecialFile) (page : Nat) :
    Except Errno Nat := do
  let tableIndex := getTableIndex (kernelSbInfo log) file page
  if sb.table.lastPageIndex file < tableIndex then throw .einval
  match sb.table.record? file tableIndex with
  | none => throw .efault
  | some record =>
    let inChunk := if file.isTree then page % 2 ^ log else 0
    getMetaBlock (record.metaIblock + inChunk) 0 (metaExtents sb)

/-- The table size `fill_descriptor_and_calculate_crc` computes from the last indexes. -/
def kernelChecksumOffset (t : TableBuffer) : Nat :=
  (SpecialFile.all.map fun file => sizeofRecord * (t.lastPageIndex file + 1)).sum +
    sizeofBaseTable

end Vdfs4.Mkfs
