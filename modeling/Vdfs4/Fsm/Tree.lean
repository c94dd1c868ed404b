import Mathlib.Data.List.Sort
import Vdfs4.Lib.Bitmap
import Vdfs4.Lib.RunSet

/-!
# The free space manager: state and trees

The free space manager keeps the space bitmap, a tree of free extents (`free_area`, with
the extents hashed by their order in `free_list`) and a tree of extents that become free
at the next commit (`next_free_area`). Here are its state and the functions on the trees:
`fsm_add_free_space`, `fsm_append_free_space`, `fsm_commit_free_space` and
`fsm_allocate_from_node`.

* A **tree** is the list of its nodes in the order of their starts. A node of
  `next_free_area` is linked in `next_free_list` too, so the list is stored and the tree
  is the list sorted.
* An `FsmOracle` says what the environment decides in one call: which node allocations
  succeed, and which of two adjacent nodes a search meets first.
* An `FsmBug` names the assertion that stopped a call.

The length of a node is a `__u32`, and some calls cut a block number to 32 bits.
-/

namespace Vdfs4

/-- `fsm_node`: an extent of free space. -/
abbrev FsmNode := Run

/-- `VDFS4_FSM_MAX_ORDER`. -/
def fsmMaxOrder : Nat := 16

/-- `VDFS4_FSM_MAX_FREE_NODES`. -/
def fsmMaxFreeNodes : Nat := 20480

/-- `VDFS4_DELAYED_DISCARD_MAGIC`: an erase block that became empty since the last commit. -/
def delayedDiscardMagic : Nat := 0xDEEDDCAD

/-- What the free space manager reads of the superblock, and how it was built. -/
structure FsmGeometry where
  /-- `block_size`, in bytes -/
  blockSize : Nat
  /-- `volume_blocks_count` -/
  volumeBlocksCount : Nat
  /-- `log_super_page_size - log_block_size` -/
  logBlocksInSuperpage : Nat
  /-- `log_erase_block_size_in_blocks` -/
  logEraseBlockSizeInBlocks : Nat
  /-- `CONFIG_VDFS4_DEBUG`: `fsm_verify_state` is part of the build -/
  configDebug : Bool
  /-- a bitmap block has room behind magic, version and checksum -/
  blockSize_gt : 16 < blockSize
  /-- the erase block size is a 32-bit power of two -/
  logEraseBlockSize_le : logEraseBlockSizeInBlocks ≤ 31

namespace FsmGeometry

theorem page_gt : 16 < 4096 := by decide

/-- `VDFS4_BIT_BLKSIZE`: the bits of one bitmap block. -/
def bitBlksize (g : FsmGeometry) : Nat := 8 * (g.blockSize - 16)

/-- `blocks_per_superpage`. -/
def blocksPerSuperpage (g : FsmGeometry) : Nat := 2 ^ g.logBlocksInSuperpage

/-- `erase_block_size_in_blocks`. -/
def eraseBlockSizeInBlocks (g : FsmGeometry) : Nat := 2 ^ g.logEraseBlockSizeInBlocks

end FsmGeometry

/-- What the environment decides in one call. -/
structure FsmOracle where
  /-- `fsm_alloc_node` succeeds for a node that starts at a block -/
  allocNode : Nat → Bool
  /-- of two nodes adjacent to an extent, the search meets the one behind it first -/
  frontFirst : FsmNode → Bool

/-- The assertions of the free space manager. -/
inductive FsmBug where
  /-- `fsm_allocate_from_node`: "allocation must be inside" -/
  | allocationOutside
  /-- `vdfs4_fsm_get_free_block`: the length is no multiple of the superpage -/
  | lengthUnaligned
  /-- `vdfs4_fsm_get_free_block`: the length is below the minimum or above the optimum -/
  | lengthBounds
  /-- `vdfs4_fsm_get_free_block`: the range ends behind the volume -/
  | beyondVolume
  /-- `vdfs4_set_bits` met a set bit -/
  | bitSet
  /-- `fsm_free_block_chunk`: "[boundary check]" -/
  | freeBeyondVolume
  /-- `fsm_cut_next_free`: fewer untracked blocks than an extent off the tree has -/
  | cutUntracked
  /-- `fsm_cut_next_free`: an extent is partly in a node -/
  | cutPartial
  /-- an erase block counter above the erase block size -/
  | eraseBlocksCounter
  /-- `fsm_verify_state` -/
  | verifyState
  /-- `vdfs4_free_reserved_space`: fewer reserved blocks -/
  | reservedUnderflow
deriving DecidableEq, Repr

/-- `vdfs4_fsm_info`, with the counters it keeps in the superblock. -/
structure FsmInfo where
  /-- free extents sorted by start block -/
  freeArea : List FsmNode
  /-- free extents hashed by log2(length) -/
  freeList : Nat → List FsmNode
  /-- count of extents in `free_area` tree -/
  freeAreaNodes : Nat
  /-- list of will-be-freed extents -/
  nextFreeList : List FsmNode
  /-- count of extents in `next_free_area` tree -/
  nextFreeNodes : Nat
  /-- will be freed after metadata commit -/
  nextFreeBlocks : Int
  /-- free space not present in `free_area` for some reason -/
  untrackedBlocks : Int
  /-- next free space not present in `next_free_area` -/
  untrackedNextFree : Int
  /-- `sbi->free_blocks_count` -/
  freeBlocksCount : Int
  /-- `sbi->reserved_blocks_count` -/
  reservedBlocksCount : Int
  /-- the space bitmap, by block -/
  data : Bitmap
  /-- `sbi->erase_blocks_counters` -/
  eraseBlocksCounters : List Nat
  /-- a fatal error turned the file system read-only -/
  msRdonly : Bool

/-- `fsm_intersects`. -/
def fsmIntersects (node : FsmNode) (start length : Nat) : Bool :=
  (node.start ≤ start && start < node.start + node.length) ||
    (node.start < start + length && start + length ≤ node.start + node.length)

/-- `fsm_max_length`: the length of an allocation from this position. -/
def fsmMaxLength (node : FsmNode) (start : Nat) : Nat := node.length - (start - node.start)

/-- `fsm_order`: the order of a length, base 2 and rounded down. -/
def fsmOrder (length : Nat) : Nat := min (Nat.log2 length) fsmMaxOrder

/-- The nodes of a list in the order of a tree. -/
def treeOrder (l : List FsmNode) : List FsmNode :=
  l.insertionSort fun a b => a.start ≤ b.start

/-- `fsm_prev`. -/
def fsmPrev (tree : List FsmNode) (node : FsmNode) : Option FsmNode :=
  (tree.filter fun n => n.start < node.start).getLast?

/-- `fsm_next`. -/
def fsmNext (tree : List FsmNode) (node : FsmNode) : Option FsmNode :=
  (tree.filter fun n => node.start < n.start).head?

namespace FsmInfo

/-! ### Nodes of `free_area` -/

/-- `fsm_hash`. -/
def fsmHash (fsm : FsmInfo) (node : FsmNode) : FsmInfo :=
  { fsm with freeList := fun order =>
      if order = fsmOrder node.length then fsm.freeList order ++ [node] else fsm.freeList order }

/-- `fsm_unhash`. -/
def fsmUnhash (fsm : FsmInfo) (node : FsmNode) : FsmInfo :=
  { fsm with freeList := fun order => (fsm.freeList order).erase node }

/-- `fsm_drop`. -/
def fsmDrop (fsm : FsmInfo) (node : FsmNode) : FsmInfo :=
  { fsm with
    freeArea := fsm.freeArea.erase node
    freeAreaNodes := fsm.freeAreaNodes - 1 }

/-- A new node of the tree. -/
def insertNode (fsm : FsmInfo) (node : FsmNode) : FsmInfo :=
  { fsm with
    freeArea := fsm.freeArea.orderedInsert (fun a b => a.start ≤ b.start) node
    freeAreaNodes := fsm.freeAreaNodes + 1 }

/-- A node of the tree gets a new start or length. -/
def setNode (fsm : FsmInfo) (node node' : FsmNode) : FsmInfo :=
  { fsm with freeArea :=
      (fsm.freeArea.erase node).orderedInsert (fun a b => a.start ≤ b.start) node' }

/-- `untracked_blocks += n`. -/
def addUntracked (fsm : FsmInfo) (n : Int) : FsmInfo :=
  { fsm with untrackedBlocks := fsm.untrackedBlocks + n }

end FsmInfo

/-! ### Merging -/

/-- `fsm_front_merge`: the node grown to the left by `length`, and the node before it if
the two became one. -/
def fsmFrontMerge (tree : List FsmNode) (node : FsmNode) (length : Nat) :
    FsmNode × Option FsmNode :=
  let node' : FsmNode := ⟨node.start - length, (node.length + length) % 2 ^ 32⟩
  match fsmPrev tree node with
  | none => (node', none)
  | some prev =>
    if prev.start + prev.length = node'.start then
      (⟨node'.start - prev.length, (node'.length + prev.length) % 2 ^ 32⟩, some prev)
    else (node', none)

/-- `fsm_back_merge`: the node grown to the right by `length`, and the node behind it if
the two became one. -/
def fsmBackMerge (tree : List FsmNode) (node : FsmNode) (length : Nat) :
    FsmNode × Option FsmNode :=
  let node' : FsmNode := ⟨node.start, (node.length + length) % 2 ^ 32⟩
  match fsmNext tree node with
  | none => (node', none)
  | some next =>
    if node'.start + node'.length = next.start then
      (⟨node'.start, (node'.length + next.length) % 2 ^ 32⟩, some next)
    else (node', none)

/-- The search loop of `fsm_add_free_space` and `fsm_commit_free_space`: the node the
extent is merged with, what it becomes, and the node dropped. -/
def fsmTouch (o : FsmOracle) (tree : List FsmNode) (start length : Nat) :
    Option (FsmNode × FsmNode × Option FsmNode) :=
  let front := tree.find? fun cur => start + length = cur.start
  let back := tree.find? fun cur => cur.start + cur.length = start
  match front, back with
  | none, none => none
  | some cur, none => some (cur, fsmFrontMerge tree cur length)
  | none, some cur => some (cur, fsmBackMerge tree cur length)
  | some cur, some cur' =>
    if o.frontFirst ⟨start, length⟩ then some (cur, fsmFrontMerge tree cur length)
    else some (cur', fsmBackMerge tree cur' length)

namespace FsmInfo

/-- `fsm_add_free_space`. -/
def fsmAddFreeSpace (o : FsmOracle) (fsm : FsmInfo) (start length : Nat) : FsmInfo :=
  let tree := treeOrder fsm.nextFreeList
  if tree.any (fsmIntersects · start length) then
    -- "freeing already free space"
    { fsm with msRdonly := true }
  else
    match fsmTouch o tree start length with
    | some (cur, cur', none) =>
      { fsm with
        nextFreeBlocks := fsm.nextFreeBlocks + length
        nextFreeList := fsm.nextFreeList.replace cur cur' }
    | some (cur, cur', some drop) =>
      { fsm with
        nextFreeBlocks := fsm.nextFreeBlocks + length
        nextFreeList := (fsm.nextFreeList.erase drop).replace cur cur'
        nextFreeNodes := fsm.nextFreeNodes - 1 }
    | none =>
      if o.allocNode start then
        { fsm with
          nextFreeBlocks := fsm.nextFreeBlocks + length
          nextFreeList := fsm.nextFreeList ++ [⟨start, length⟩]
          nextFreeNodes := fsm.nextFreeNodes + 1 }
      else
        { fsm with
          nextFreeBlocks := fsm.nextFreeBlocks + length
          untrackedNextFree := fsm.untrackedNextFree + length }

/-- `fsm_append_free_space`; the last node is not hashed yet. -/
def fsmAppendFreeSpace (o : FsmOracle) (fsm : FsmInfo) (last : Option FsmNode)
    (start length : Nat) : FsmInfo × Option FsmNode :=
  let fsm := { fsm with freeBlocksCount := fsm.freeBlocksCount + length }
  let append : FsmInfo × Option FsmNode :=
    if fsm.freeAreaNodes < fsmMaxFreeNodes ∧ o.allocNode start = true then
      let fsm := match last with
        | none => fsm
        | some node => fsm.fsmHash node
      (fsm.insertNode ⟨start, length % 2 ^ 32⟩, some ⟨start, length % 2 ^ 32⟩)
    else (fsm.addUntracked length, last)
  match last with
  | none => append
  | some node =>
    if node.start + node.length = start then
      (fsm.setNode node ⟨node.start, (node.length + length % 2 ^ 32) % 2 ^ 32⟩,
        some ⟨node.start, (node.length + length % 2 ^ 32) % 2 ^ 32⟩)
    else append

/-- One round of `fsm_commit_free_space`. -/
def fsmCommitNode (o : FsmOracle) (fsm : FsmInfo) (node : FsmNode) : FsmInfo :=
  if fsm.freeArea.any (fsmIntersects · node.start node.length) then
    -- "freeing already free space"
    { fsm.addUntracked node.length with msRdonly := true }
  else
    let fsm := { fsm with freeBlocksCount := fsm.freeBlocksCount + node.length }
    match fsmTouch o fsm.freeArea node.start node.length with
    | some (cur, cur', none) => ((fsm.fsmUnhash cur).setNode cur cur').fsmHash cur'
    | some (cur, cur', some drop) =>
      ((((fsm.fsmUnhash cur).fsmUnhash drop).fsmDrop drop).setNode cur cur').fsmHash cur'
    | none =>
      if fsm.freeAreaNodes < fsmMaxFreeNodes then (fsm.insertNode node).fsmHash node
      else fsm.addUntracked node.length

/-- `fsm_init_next_tree`. -/
def fsmInitNextTree (fsm : FsmInfo) : FsmInfo :=
  { fsm with nextFreeBlocks := 0, nextFreeNodes := 0, nextFreeList := [] }

/-- The end of `fsm_commit_free_space`: "After metadata commit all newly freed blocks might
be reused." -/
def fsmCommitUntracked (fsm : FsmInfo) : FsmInfo :=
  { fsm with
    freeBlocksCount := fsm.freeBlocksCount + fsm.untrackedNextFree
    untrackedBlocks := fsm.untrackedBlocks + fsm.untrackedNextFree
    untrackedNextFree := 0 }

/-! ### Allocating from a node -/

/-- A node that gave up blocks at an end: hashed again, or dropped when empty. -/
def fsmShrink (fsm : FsmInfo) (node node' : FsmNode) : FsmInfo :=
  if node'.length ≠ 0 then (fsm.setNode node node').fsmHash node' else fsm.fsmDrop node

/-- `fsm_allocate_from_node`. -/
def fsmAllocateFromNode (o : FsmOracle) (fsm : FsmInfo) (node : FsmNode) (start length : Nat) :
    Except FsmBug FsmInfo :=
  let maxLength := fsmMaxLength node start
  if start < node.start ∨ node.start + node.length ≤ start ∨ maxLength < length then
    .error .allocationOutside
  else
    let fsm := fsm.fsmUnhash node
    if length = maxLength then .ok (fsm.fsmShrink node ⟨node.start, node.length - length⟩)
    else if start = node.start then
      .ok (fsm.fsmShrink node ⟨node.start + length, node.length - length⟩)
    else
      let head : FsmNode := ⟨node.start, node.length - maxLength⟩
      let tail : FsmNode := ⟨start + length, maxLength - length⟩
      let fsm := fsm.setNode node head
      let fsm :=
        if fsm.freeAreaNodes < fsmMaxFreeNodes ∧ o.allocNode tail.start = true then
          (fsm.insertNode tail).fsmHash tail
        else fsm.addUntracked tail.length
      .ok (fsm.fsmHash head)

end FsmInfo

end Vdfs4
