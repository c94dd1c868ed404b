import Vdfs4.Fsm.Tree

/-!
# The free space manager: allocation, release, rebuild

The functions that work on the whole state: the **scan** of the bitmap that fills the tree
(`fsm_build_tree`) and the erase block counters, the **rebuild** of the tree in the middle
of a transaction (`fsm_rebuild_tree`, `fsm_cut_next_free`), and the calls of the rest of
the file system: `vdfs4_fsm_get_free_block`, `vdfs4_fsm_put_free_block`,
`vdfs4_reserve_space`, `vdfs4_free_reserved_space`, `vdfs4_commit_free_space` and
`vdfs4_fsm_build_management`.

Discard requests succeed or are not supported.
-/

namespace Vdfs4

open RunSet

/-! ### Self-check -/

/-- The node checks of `fsm_verify_state` along a tree, behind the node `prev`. -/
def fsmCheckNodes : Option FsmNode → List FsmNode → Bool
  | _, [] => true
  | prev, node :: rest =>
    node.length ≠ 0 &&
      prev.all (fun p => p.start + p.length < node.start &&
        !fsmIntersects p node.start node.length) &&
      fsmCheckNodes (some node) rest

namespace FsmInfo

/-- The nodes of all free lists. -/
def listedNodes (fsm : FsmInfo) : List FsmNode :=
  (List.range (fsmMaxOrder + 1)).flatMap fsm.freeList

/-- `fsm_verify_state`. -/
def fsmVerifyState (fsm : FsmInfo) : Bool :=
  fsmCheckNodes none (treeOrder fsm.nextFreeList) &&
    (size fsm.nextFreeList : Int) = fsm.nextFreeBlocks - fsm.untrackedNextFree &&
    fsm.nextFreeList.length = fsm.nextFreeNodes &&
    fsmCheckNodes none fsm.freeArea &&
    fsm.freeArea.all (· ∈ fsm.listedNodes) &&
    (List.range (fsmMaxOrder + 1)).all (fun order =>
      (fsm.freeList order).all fun node => fsmOrder node.length = order) &&
    (size fsm.listedNodes : Int) =
      fsm.freeBlocksCount + fsm.reservedBlocksCount - fsm.untrackedBlocks &&
    fsm.listedNodes.length = fsm.freeAreaNodes

/-- Stop with a bug unless `fsm_verify_state` passes; without `CONFIG_VDFS4_DEBUG` it is
empty. -/
def verified (g : FsmGeometry) (fsm : FsmInfo) : Except FsmBug FsmInfo :=
  if g.configDebug && !fsm.fsmVerifyState then .error .verifyState else .ok fsm

end FsmInfo

/-! ### Erase block counters -/

/-- `fsm_inc_erase_blocks_counters`. -/
def fsmIncEraseBlocksCounters (g : FsmGeometry) :
    List Nat → Nat → Nat → Except FsmBug (List Nat)
  | counters, _, 0 => .ok counters
  | counters, block, length + 1 =>
    let num := block >>> g.logEraseBlockSizeInBlocks
    let count := counters.getD num 0
    if count = delayedDiscardMagic then
      fsmIncEraseBlocksCounters g (counters.set num 1) (block + 1) length
    else if g.eraseBlockSizeInBlocks < count + 1 then .error .eraseBlocksCounter
    else fsmIncEraseBlocksCounters g (counters.set num (count + 1)) (block + 1) length

/-- `fsm_dec_erase_blocks_counters`; the counters are `u32`. -/
def fsmDecEraseBlocksCounters (g : FsmGeometry) :
    List Nat → Nat → Nat → Except FsmBug (List Nat)
  | counters, _, 0 => .ok counters
  | counters, block, length + 1 =>
    let num := block >>> g.logEraseBlockSizeInBlocks
    let count := if counters.getD num 0 = 0 then 2 ^ 32 - 1 else counters.getD num 0 - 1
    if count = 0 then
      fsmDecEraseBlocksCounters g (counters.set num delayedDiscardMagic) (block + 1) length
    else if g.eraseBlockSizeInBlocks < count then .error .eraseBlocksCounter
    else fsmDecEraseBlocksCounters g (counters.set num count) (block + 1) length

/-- `fsm_delayed_discard`: the emptied erase blocks are discarded. -/
def fsmDelayedDiscard (counters : List Nat) : List Nat :=
  counters.map fun count => if count = delayedDiscardMagic then 0 else count

/-! ### The scan of the bitmap -/

/-- One round of the scan: set bits up to `freeStart`, then clear bits up to `stop`. -/
structure ScanPiece where
  dataStart : Nat
  freeStart : Nat
  stop : Nat

/-- The loop of `fsm_build_tree` and `fsm_init_erase_blocks_counters`: no piece crosses
the end of a bitmap block. Each round moves `dataStart` up, so `fuel` above the number of
bits is never used up. -/
def fsmScan (g : FsmGeometry) (data : Bitmap) : Nat → Nat → Nat → List ScanPiece
  | 0, _, _ => []
  | fuel + 1, blockStart, dataStart =>
    if blockStart < g.volumeBlocksCount then
      -- cut size of last bitmap block
      let blockSize := min g.bitBlksize (g.volumeBlocksCount - blockStart)
      let block : Bitmap := fun i => data (blockStart + i)
      let freeStart := blockStart + block.findNextZeroBit blockSize (dataStart - blockStart)
      let stop := blockStart + block.findNextBit blockSize (freeStart - blockStart)
      ⟨dataStart, freeStart, stop⟩ ::
        fsmScan g data fuel (if stop = blockStart + blockSize then stop else blockStart) stop
    else []

/-- The pieces of the whole bitmap. -/
def fsmPieces (g : FsmGeometry) (data : Bitmap) : List ScanPiece :=
  fsmScan g data (g.volumeBlocksCount + 1) 0 0

/-- `fsm_init_erase_blocks_counters`. -/
def fsmInitEraseBlocksCounters (g : FsmGeometry) (data : Bitmap) : Except FsmBug (List Nat) :=
  (fsmPieces g data).foldlM
    (fun counters piece =>
      fsmIncEraseBlocksCounters g counters piece.dataStart (piece.freeStart - piece.dataStart))
    (List.replicate (g.volumeBlocksCount / g.eraseBlockSizeInBlocks + 1) 0)

namespace FsmInfo

/-- The body of `fsm_build_tree`. -/
def fsmBuildPiece (o : FsmOracle) (s : FsmInfo × Option FsmNode) (piece : ScanPiece) :
    FsmInfo × Option FsmNode :=
  if piece.freeStart < piece.stop then
    s.1.fsmAppendFreeSpace o s.2 piece.freeStart (piece.stop - piece.freeStart)
  else s

/-- `fsm_build_tree`. -/
def fsmBuildTree (g : FsmGeometry) (o : FsmOracle) (fsm : FsmInfo) : FsmInfo :=
  let s := (fsmPieces g fsm.data).foldl (fsmBuildPiece o) (fsm, none)
  match s.2 with
  | none => s.1
  | some last => s.1.fsmHash last

/-- `fsm_init_tree`. -/
def fsmInitTree (fsm : FsmInfo) : FsmInfo :=
  { fsm with freeAreaNodes := 0, freeArea := [], freeList := fun _ => [] }

/-! ### Rebuilding the tree -/

/-- `fsm_find_node`. -/
def fsmFindNode (fsm : FsmInfo) (start : Nat) : Option FsmNode :=
  fsm.freeArea.find? fun node => node.start ≤ start && start < node.start + node.length

/-- One round of `fsm_cut_next_free`. -/
def fsmCutNode (o : FsmOracle) (fsm : FsmInfo) (next : FsmNode) : Except FsmBug FsmInfo :=
  match fsm.fsmFindNode next.start with
  | none =>
    -- it might absent only if something off a tree
    if fsm.untrackedBlocks < next.length then .error .cutUntracked
    else .ok (fsm.addUntracked (-next.length))
  | some node =>
    -- otherwise whole extent must be in the tree
    if fsmMaxLength node next.start < next.length then .error .cutPartial
    else fsm.fsmAllocateFromNode o node next.start next.length

/-- `fsm_cut_next_free`. -/
def fsmCutNextFree (o : FsmOracle) (fsm : FsmInfo) : Except FsmBug FsmInfo :=
  fsm.nextFreeList.foldlM (fsmCutNode o) fsm

/-- `fsm_rebuild_tree`. -/
def fsmRebuildTree (g : FsmGeometry) (o : FsmOracle) (fsm : FsmInfo) : Except FsmBug FsmInfo :=
  if fsm.untrackedNextFree ≠ 0 ∧ fsm.reservedBlocksCount = 0 then .ok fsm
  else
    -- forget about some of unlinked data
    let fsm :=
      { fsm with
        nextFreeBlocks := fsm.nextFreeBlocks - fsm.untrackedNextFree
        untrackedNextFree := 0 }
    let fsm := { fsm.fsmInitTree with untrackedBlocks := 0, freeBlocksCount := 0 }
    let fsm := fsm.fsmBuildTree g o
    let fsm :=
      { fsm with freeBlocksCount :=
          fsm.freeBlocksCount - fsm.nextFreeBlocks - fsm.reservedBlocksCount }
    (fsm.fsmCutNextFree o).bind (verified g)

/-! ### Allocation -/

/-- `fsm_choose_node`: the first node of the order of `length`, of a higher order, or of a
lower one. -/
def fsmChooseNode (fsm : FsmInfo) (length : Nat) : Option FsmNode :=
  let order := fsmOrder length
  (List.range' order (fsmMaxOrder + 1 - order) ++ (List.range fsmMaxOrder).reverse).findSome?
    fun order => (fsm.freeList order).head?

/-- The node `fsm_allocate_space` allocates from, the position in it and the room there. -/
def fsmPickNode (fsm : FsmInfo) (start minLength length : Nat) :
    Option (FsmNode × Nat × Nat) :=
  let hinted := if start = 0 then none else
    (fsm.fsmFindNode start).filter fun node => minLength ≤ fsmMaxLength node start
  match hinted with
  | some node => some (node, start, fsmMaxLength node start)
  | none =>
    match fsm.fsmChooseNode length with
    | none => none
    | some node =>
      if node.length < minLength then none else some (node, node.start % 2 ^ 32, node.length)

/-- `allocate:` in `fsm_allocate_space`: the state, the block and the length. -/
def fsmAllocateAt (o : FsmOracle) (fsm : FsmInfo) (length : Nat) (pick : FsmNode × Nat × Nat) :
    Except FsmBug (FsmInfo × Nat × Nat) :=
  let (node, start, maxLength) := pick
  (fsm.fsmAllocateFromNode o node start (min length maxLength)).map
    fun fsm => (fsm, start, min length maxLength)

/-- `fsm_allocate_space`: the state, the block (0 without space) and the length. -/
def fsmAllocateSpace (g : FsmGeometry) (o : FsmOracle) (fsm : FsmInfo)
    (start minLength length : Nat) : Except FsmBug (FsmInfo × Nat × Nat) :=
  match fsm.fsmPickNode start minLength length with
  | some pick => fsm.fsmAllocateAt o length pick
  | none =>
    if fsm.untrackedBlocks ≠ 0 then
      (fsm.fsmRebuildTree g o).bind fun fsm =>
        match fsm.fsmPickNode start minLength length with
        | some pick => fsm.fsmAllocateAt o length pick
        | none => (fsm.verified g).map fun fsm => (fsm, 0, length)
    else (fsm.verified g).map fun fsm => (fsm, 0, length)

/-- `fsm_get_longest_node`. -/
def fsmGetLongestNode (fsm : FsmInfo) : Option FsmNode :=
  fsm.freeArea.foldl
    (fun best node => match best with
      | none => some node
      | some b => if b.length < node.length then some node else some b) none

end FsmInfo

/-- `VDFS4_FSM_ALLOC_*`. -/
structure FsmAllocFlags where
  delayed : Bool
  aligned : Bool

/-- `VDFS4_FSM_FREE_*`. -/
structure FsmFreeFlags where
  unused : Bool
  reserve : Bool

namespace FsmInfo

/-- A range of the bitmap is marked and taken from the free or the reserved blocks. -/
def markRange (fsm : FsmInfo) (delayed : Bool) (blockOffset length : Nat)
    (counters : List Nat) : FsmInfo :=
  { fsm with
    reservedBlocksCount :=
      if delayed then fsm.reservedBlocksCount - length else fsm.reservedBlocksCount
    freeBlocksCount :=
      if delayed then fsm.freeBlocksCount else fsm.freeBlocksCount - length
    data := fsm.data.setRange (blockOffset % 2 ^ 32) length
    eraseBlocksCounters := counters }

/-- The end of `vdfs4_fsm_get_free_block`: the range is marked; block 0 says that there is no
range. -/
def fsmMarkAllocated (g : FsmGeometry) (fsm : FsmInfo) (delayed : Bool)
    (blockOffset length : Nat) : Except FsmBug (FsmInfo × Nat × Nat) :=
  if blockOffset = 0 then .ok (fsm, 0, length)
  else if g.volumeBlocksCount < blockOffset + length then .error .beyondVolume
  else if fsm.data.anySet (blockOffset % 2 ^ 32) length then .error .bitSet
  else
    (fsmIncEraseBlocksCounters g fsm.eraseBlocksCounters blockOffset length).map fun counters =>
      (fsm.markRange delayed blockOffset length counters, blockOffset, length)

/-- The superpage part of `vdfs4_fsm_get_free_block`, behind an allocation of `length` blocks
at `blockOffset`: the range is trimmed to whole superpages, `lengthInBlocks` long. -/
def fsmTrimAligned (g : FsmGeometry) (fsm : FsmInfo) (delayed : Bool)
    (blockOffset length minimal optimal lengthInBlocks : Nat) :
    Except FsmBug (FsmInfo × Nat × Nat) :=
  if length < minimal ∨ optimal < length then .error .lengthBounds
  else
    (fsm.addUntracked g.blocksPerSuperpage).fsmMarkAllocated g delayed
      (Bitmap.alignMask blockOffset (g.blocksPerSuperpage - 1)) lengthInBlocks

/-- "Space is so fragmented that our attempt failed": an aligned request takes as much as
possible from the longest node. -/
def fsmGetLongest (g : FsmGeometry) (o : FsmOracle) (fsm : FsmInfo) (delayed : Bool)
    (lengthInBlocks minimal optimal : Nat) : Except FsmBug (FsmInfo × Nat × Nat) :=
  match fsm.fsmGetLongestNode with
  | none => .ok (fsm, 0, lengthInBlocks)
  | some node =>
    let length := min (node.length / g.blocksPerSuperpage * g.blocksPerSuperpage) optimal
    -- usually it will be much longer than minimum
    if length < (minimal + g.blocksPerSuperpage) % 2 ^ 32 then .ok (fsm, 0, lengthInBlocks)
    else
      (fsm.fsmAllocateFromNode o node node.start length).bind fun fsm =>
        fsm.fsmTrimAligned g delayed node.start length minimal optimal
          (length - g.blocksPerSuperpage)

/-- `VDFS4_FSM_ALLOC_ALIGNED` in `vdfs4_fsm_get_free_block`. -/
def fsmGetAligned (g : FsmGeometry) (o : FsmOracle) (fsm : FsmInfo) (delayed : Bool)
    (blockOffset lengthInBlocks minBlkCount : Nat) : Except FsmBug (FsmInfo × Nat × Nat) :=
  let optimal := (lengthInBlocks + g.blocksPerSuperpage) % 2 ^ 32
  let minimal := (minBlkCount + g.blocksPerSuperpage) % 2 ^ 32
  if lengthInBlocks % g.blocksPerSuperpage ≠ 0 then .error .lengthUnaligned
  else
    -- try to allocate length desired by caller first
    (fsm.fsmAllocateSpace g o (blockOffset % 2 ^ 32) optimal optimal).bind
    fun (fsm, start, length) =>
      if start ≠ 0 then
        fsm.fsmTrimAligned g delayed start length minimal optimal lengthInBlocks
      else fsm.fsmGetLongest g o delayed lengthInBlocks minimal optimal

/-- `vdfs4_fsm_get_free_block`: the state, the block (0 without space) and the length. -/
def vdfs4FsmGetFreeBlock (g : FsmGeometry) (o : FsmOracle) (fsm : FsmInfo)
    (blockOffset lengthInBlocks minBlkCount : Nat) (flags : FsmAllocFlags) :
    Except FsmBug (FsmInfo × Nat × Nat) :=
  let blockOffset :=
    if g.volumeBlocksCount ≤ blockOffset + lengthInBlocks then 0 else blockOffset
  -- for delay allocation case, this check is made in write_begin function
  if fsm.freeBlocksCount < lengthInBlocks ∧ flags.delayed = false then
    .ok (fsm, 0, lengthInBlocks)
  else if flags.aligned then
    fsm.fsmGetAligned g o flags.delayed blockOffset lengthInBlocks minBlkCount
  else
    (fsm.fsmAllocateSpace g o (blockOffset % 2 ^ 32) 1 lengthInBlocks).bind
    fun (fsm, start, length) =>
      fsm.fsmMarkAllocated g flags.delayed start length

/-! ### Release, reservation, commit -/

/-- `vdfs4_fsm_put_free_block` (`fsm_free_block_chunk`) on a mounted volume. -/
def vdfs4FsmPutFreeBlock (g : FsmGeometry) (o : FsmOracle) (fsm : FsmInfo)
    (blockOffset lengthInBlocks : Nat) (flags : FsmFreeFlags) : Except FsmBug FsmInfo :=
  if g.volumeBlocksCount < blockOffset + lengthInBlocks then .error .freeBeyondVolume
  else
    let cleared := fsm.data.allSet (blockOffset % 2 ^ 32) lengthInBlocks
    let fsm := { fsm with data := fsm.data.clearRange (blockOffset % 2 ^ 32) lengthInBlocks }
    -- let them pass through even if there is some error while doing clear
    if !cleared then .ok fsm
    else
      -- return failed delayed-allocation back to reserve
      let fsm :=
        if flags.reserve then
          { fsm with reservedBlocksCount := fsm.reservedBlocksCount + lengthInBlocks }
        else if flags.unused then
          { fsm with freeBlocksCount := fsm.freeBlocksCount + lengthInBlocks }
        else fsm
      -- release unused allocations in current transaction
      let fsm :=
        if flags.unused then fsm.addUntracked lengthInBlocks
        else fsm.fsmAddFreeSpace o blockOffset lengthInBlocks
      (fsmDecEraseBlocksCounters g fsm.eraseBlocksCounters blockOffset lengthInBlocks).map
        fun counters => { fsm with eraseBlocksCounters := counters }

/-- `vdfs4_reserve_space`; without space nothing changes. -/
def vdfs4ReserveSpace (fsm : FsmInfo) (count : Nat) : Option FsmInfo :=
  if (count : Int) ≤ fsm.freeBlocksCount then
    some { fsm with
      freeBlocksCount := fsm.freeBlocksCount - count
      reservedBlocksCount := fsm.reservedBlocksCount + count }
  else none

/-- `vdfs4_free_reserved_space`. -/
def vdfs4FreeReservedSpace (fsm : FsmInfo) (count : Nat) : Except FsmBug FsmInfo :=
  if count = 0 then .ok fsm
  else if fsm.reservedBlocksCount < count then .error .reservedUnderflow
  else
    .ok { fsm with
      reservedBlocksCount := fsm.reservedBlocksCount - count
      freeBlocksCount := fsm.freeBlocksCount + count }

/-- `fsm_commit_free_space`. -/
def fsmCommitFreeSpace (g : FsmGeometry) (o : FsmOracle) (fsm : FsmInfo) :
    Except FsmBug FsmInfo :=
  (fsm.verified g).bind fun fsm =>
    (fsm.nextFreeList.foldl (fsmCommitNode o) fsm).fsmCommitUntracked.fsmInitNextTree.verified g

/-- `vdfs4_commit_free_space`. -/
def vdfs4CommitFreeSpace (g : FsmGeometry) (o : FsmOracle) (fsm : FsmInfo) :
    Except FsmBug FsmInfo :=
  (fsm.fsmCommitFreeSpace g o).map fun fsm =>
    { fsm with eraseBlocksCounters := fsmDelayedDiscard fsm.eraseBlocksCounters }

/-- A manager without nodes, over a bitmap. -/
def blank (data : Bitmap) (counters : List Nat) : FsmInfo :=
  ⟨[], fun _ => [], 0, [], 0, 0, 0, 0, 0, 0, data, counters, false⟩

/-- `vdfs4_fsm_build_management`, with the bitmap read. -/
def vdfs4FsmBuildManagement (g : FsmGeometry) (o : FsmOracle) (data : Bitmap) :
    Except FsmBug FsmInfo :=
  (fsmInitEraseBlocksCounters g data).bind fun counters =>
    ((blank data counters).fsmBuildTree g o).verified g

end FsmInfo

end Vdfs4
