import Vdfs4.File.BlockMap
import Vdfs4.File.RuntimeExtents
import Vdfs4.Fsm.Manager

/-!
# Delayed allocation

A block of a file is written in two steps. `vdfs4_get_block_prep_da` **reserves** a block of
the volume and puts the logical block on the inode's list of runtime extents; later
`vdfs4_allocate_space` (or `vdfs4_get_int_block` with the delayed flag) **places** it: a block
is taken from the reserve, the logical block is mapped and leaves the list. Truncation,
eviction and the error paths of `vdfs4_fallocate` and `vdfs4_symlink` give reservations back.

All functions that touch the reserve are here. What the environment decides in a call (which
memory allocations, tree operations and checks fail) is a parameter of it; an operation that
stops at an assertion ends with a `FileBug`.

The inodes are regular files and symlinks of the catalog.
-/

namespace Vdfs4

/-- The assertions of the file operations. -/
inductive FileBug where
  /-- an assertion of the free space manager -/
  | fsm (bug : FsmBug)
  /-- the result lies behind its extent or behind the device -/
  | badBlock
  /-- `vdfs4_get_int_block`: the block was not delayed, or the buffer says it is -/
  | notDelayed
  /-- `vdfs4_get_int_block`: the block cannot be taken off the list -/
  | runtimeExtentDel
  /-- `vdfs4_allocate_space`: "it shouldn't happen because space was reserved early" -/
  | noReservedSpace
  /-- there is no such inode -/
  | noInode
deriving DecidableEq, Repr

/-- What the file operations read of the superblock. -/
structure FileGeometry where
  fsm : FsmGeometry
  /-- `block_size_shift` -/
  blockSizeShift : Nat
  /-- the size of the device, in blocks -/
  deviceBlocks : Nat
  /-- `IS_MOUNT_FINISHED` -/
  isMountFinished : Bool
  blockSize_eq : fsm.blockSize = 2 ^ blockSizeShift

/-- `vdfs4_inode_info`, as far as delayed allocation uses it. -/
structure InodeInfo where
  /-- `S_ISLNK`; other inodes are regular files -/
  isSymlink : Bool
  map : BlockMap
  runtimeExtents : List RuntimeExtent

/-- What a call leaves: the free space manager, the inode, and the error returned. -/
abbrev InodeResult := FsmInfo × InodeInfo × Option Errno

/-- `VDFS4_FSM_ALLOC_DELAYED` -/
def allocDelayed : FsmAllocFlags := ⟨true, false⟩

/-- `VDFS4_FSM_FREE_UNUSED | VDFS4_FSM_FREE_RESERVE` -/
def freeToReserve : FsmFreeFlags := ⟨true, true⟩

/-- `done:` in the `get_block` functions: the check of the block found. -/
def checkResBlock (g : FileGeometry) (extent : ExtentInfo) (iblock : Nat) :
    Except FileBug (Option Errno) :=
  let resBlock := extent.firstBlock + (iblock - extent.iblock)
  if extent.firstBlock + extent.blockCount < resBlock then .error .badBlock
  else if g.deviceBlocks < resBlock then
    if g.isMountFinished then .error .badBlock else .ok (some .efault)
  else .ok none

/-! ### Reserving -/

/-- What the environment decides in `vdfs4_get_block_prep_da`. -/
structure PrepEnv where
  /-- `vdfs4_get_iblock_extent` fails -/
  getError : Option Errno
  /-- `buffer_delay` -/
  bufferDelay : Bool
  /-- `vdfs4_check_meta_space` fails -/
  metaSpaceError : Option Errno
  /-- an entry of the runtime list can be allocated -/
  kzalloc : Bool

/-- One block is reserved and put on the runtime list. -/
def reserveBlock (fsm : FsmInfo) (inode : InodeInfo) (iblock allocHint : Nat) (kzalloc : Bool) :
    Except FileBug InodeResult :=
  match fsm.vdfs4ReserveSpace 1 with
  | none => .ok (fsm, inode, some .enospc)
  | some fsm =>
    match vdfs4RuntimeExtentAdd iblock allocHint kzalloc inode.runtimeExtents with
    | .error err =>
      ((fsm.vdfs4FreeReservedSpace 1).mapError .fsm).map fun fsm => (fsm, inode, some err)
    | .ok list => .ok (fsm, { inode with runtimeExtents := list }, none)

/-- `vdfs4_get_block_prep_da`. -/
def vdfs4GetBlockPrepDa (g : FileGeometry) (fsm : FsmInfo) (inode : InodeInfo) (iblock : Nat)
    (env : PrepEnv) : Except FileBug InodeResult :=
  match env.getError with
  | some err => .ok (fsm, inode, some err)
  | none =>
    let (extent, hint) := vdfs4GetIblockExtent inode.map iblock
    if extent.firstBlock ≠ 0 then
      (checkResBlock g extent iblock).map fun err => (fsm, inode, err)
    else if env.bufferDelay then .ok (fsm, inode, none)
    else
      match env.metaSpaceError with
      | some err => .ok (fsm, inode, some err)
      | none =>
        -- already reserved in vdfs4_symlink()
        if inode.isSymlink && !inode.runtimeExtents.isEmpty &&
            vdfs4RuntimeExtentExists iblock inode.runtimeExtents then .ok (fsm, inode, none)
        else reserveBlock fsm inode iblock (hint.getD 0) env.kzalloc

/-! ### Placing -/

/-- What the environment decides in `vdfs4_get_int_block`. -/
structure PlaceEnv where
  getError : Option Errno
  bufferDelay : Bool
  oracle : FsmOracle
  /-- an insertion into the overflow tree fails -/
  treeError : Option Errno
  kzalloc : Bool

/-- `vdfs4_get_int_block`, with `VDFS4_FSM_ALLOC_DELAYED` or without flags. -/
def vdfs4GetIntBlock (g : FileGeometry) (fsm : FsmInfo) (inode : InodeInfo) (iblock : Nat)
    (create delayed : Bool) (env : PlaceEnv) : Except FileBug InodeResult :=
  match env.getError with
  | some err => .ok (fsm, inode, some err)
  | none =>
    let (extent, hint) := vdfs4GetIblockExtent inode.map iblock
    if extent.firstBlock ≠ 0 then
      (checkResBlock g extent iblock).map fun err => (fsm, inode, err)
    else if !create then .ok (fsm, inode, none)
    else if (if delayed then !vdfs4RuntimeExtentExists iblock inode.runtimeExtents
        else env.bufferDelay) then .error .notDelayed
    else
      ((fsm.vdfs4FsmGetFreeBlock g.fsm env.oracle (hint.getD 0) 1 1 ⟨delayed, false⟩).mapError
          .fsm).bind fun (fsm, firstBlock, count) =>
        if firstBlock = 0 then .ok (fsm, inode, some .enospc)
        else
          let extent : ExtentInfo := ⟨firstBlock, iblock, count⟩
          match insertExtent inode.map extent none env.treeError with
          | .error err =>
            ((fsm.vdfs4FsmPutFreeBlock g.fsm env.oracle firstBlock count ⟨true, delayed⟩).mapError
              .fsm).map fun fsm => (fsm, inode, some err)
          | .ok map =>
            if delayed then
              match vdfs4RuntimeExtentDel iblock env.kzalloc inode.runtimeExtents with
              | .error _ => .error .runtimeExtentDel
              | .ok list =>
                (checkResBlock g extent iblock).map fun err =>
                  (fsm, { inode with map := map, runtimeExtents := list }, err)
            else
              (checkResBlock g extent iblock).map fun err => (fsm, { inode with map := map }, err)

/-- What the environment decides in one round of `vdfs4_allocate_space`. -/
structure RoundEnv where
  oracle : FsmOracle
  /-- the erase of the new blocks fails, if it is asked for -/
  eraseError : Option Errno
  treeError : Option Errno

/-- The loop of `vdfs4_allocate_space`. An entry that is used up leaves the list, so the
current one is always the first. Each round takes a block off the list, so `fuel` above
their number is never used up. -/
def vdfs4AllocateSpaceLoop (g : FileGeometry) (doErase : Bool) (env : Nat → RoundEnv) :
    Nat → FsmInfo → InodeInfo → Except FileBug InodeResult
  | 0, fsm, inode => .ok (fsm, inode, none)
  | fuel + 1, fsm, inode =>
    match inode.runtimeExtents with
    | [] => .ok (fsm, inode, none)
    | entry :: rest =>
      ((fsm.vdfs4FsmGetFreeBlock g.fsm (env fuel).oracle entry.allocHint entry.blockCount
          entry.blockCount allocDelayed).mapError .fsm).bind fun (fsm, firstBlock, count) =>
        if firstBlock = 0 then .error .noReservedSpace
        else
          match insertExtent inode.map ⟨firstBlock, entry.iblock, count⟩
              (if doErase then (env fuel).eraseError else none) (env fuel).treeError with
          | .error err =>
            ((fsm.vdfs4FsmPutFreeBlock g.fsm (env fuel).oracle firstBlock count
              freeToReserve).mapError .fsm).map fun fsm => (fsm, inode, some err)
          | .ok map =>
            vdfs4AllocateSpaceLoop g doErase env fuel fsm
              { inode with map := map, runtimeExtents := takeFront entry rest count }

/-- `vdfs4_allocate_space`. -/
def vdfs4AllocateSpace (g : FileGeometry) (fsm : FsmInfo) (inode : InodeInfo) (doErase : Bool)
    (env : Nat → RoundEnv) : Except FileBug InodeResult :=
  vdfs4AllocateSpaceLoop g doErase env (vdfs4RuntimeExtentCount inode.runtimeExtents + 1) fsm inode

/-! ### Giving back -/

/-- The runtime part of a truncation: the delayed blocks behind the new size are taken off the
list and out of the reserve. -/
def releaseDelayed (fsm : FsmInfo) (inode : InodeInfo) (newSizeIblocks : Nat) :
    Except FileBug (FsmInfo × InodeInfo) :=
  let (list, total) := vdfs4TruncateRuntimeBlocks newSizeIblocks inode.runtimeExtents
  ((fsm.vdfs4FreeReservedSpace total).mapError .fsm).map fun fsm =>
    (fsm, { inode with runtimeExtents := list })

/-- What the environment decides in `vdfs4_truncate_blocks`. -/
structure TruncateEnv where
  oracle : FsmOracle
  /-- the search for a record, or the return of a range, fails -/
  stopError : Nat → Option Errno
  /-- the removals from the overflow tree that fail -/
  removeFails : List Bool

/-- `vdfs4_truncate_blocks`, to a size in bytes. -/
def vdfs4TruncateBlocks (g : FileGeometry) (fsm : FsmInfo) (inode : InodeInfo) (newSize : Nat)
    (env : TruncateEnv) : Except FileBug InodeResult :=
  let newSizeIblocks := (newSize + g.fsm.blockSize - 1) >>> g.blockSizeShift
  (releaseDelayed fsm inode newSizeIblocks).bind fun (fsm, inode) =>
    let t := vdfs4TruncateBlockMap inode.map newSizeIblocks env.stopError env.removeFails
    ((t.freed.foldlM (fun (fsm : FsmInfo) (e : ExtentInfo) =>
        fsm.vdfs4FsmPutFreeBlock g.fsm env.oracle e.firstBlock e.blockCount ⟨false, false⟩)
      fsm).mapError .fsm).map fun fsm => (fsm, { inode with map := t.map }, t.error)

/-- What the environment decides in `vdfs4_evict_inode`. -/
structure EvictEnv where
  /-- the inode has links -/
  nlink : Bool
  /-- the extended attributes cannot be removed -/
  xattrError : Option Errno
  truncate : TruncateEnv

/-- `vdfs4_evict_inode`, up to the end of the inode's blocks. -/
def vdfs4EvictInode (g : FileGeometry) (fsm : FsmInfo) (inode : InodeInfo) (env : EvictEnv) :
    Except FileBug InodeResult :=
  (releaseDelayed fsm inode 0).bind fun (fsm, inode) =>
    if env.nlink then .ok (fsm, inode, none)
    else
      match env.xattrError with
      | some err => .ok (fsm, inode, some err)
      | none => vdfs4TruncateBlocks g fsm inode 0 env.truncate

/-! ### `vdfs4_fallocate` -/

/-- What the environment decides in `vdfs4_fallocate`. -/
structure FallocateEnv where
  /-- `i_size_read` -/
  iSize : Nat
  /-- `inode_newsize_ok` fails -/
  newsizeError : Option Errno
  metaSpaceError : Option Errno
  /-- `vdfs4_get_iblock_extent` fails for a block of the range -/
  getError : Nat → Option Errno
  /-- the entry of a block of the range can be allocated -/
  addKzalloc : Nat → Bool
  rounds : Nat → RoundEnv
  /-- an entry can be allocated when a block of the range is taken back -/
  delKzalloc : Nat → Bool

/-- The loop of `vdfs4_fallocate` from block `i` of the range: the state, the block it ended
with and the error. `hint` keeps its value when a lookup does not set it. -/
def fallocateReserve (lblk : Nat) (env : FallocateEnv) :
    Nat → Nat → Nat → FsmInfo → InodeInfo →
    Except FileBug (FsmInfo × InodeInfo × Nat × Option Errno)
  | 0, i, _, fsm, inode => .ok (fsm, inode, i, none)
  | n + 1, i, hint, fsm, inode =>
    match env.getError i with
    | some err => .ok (fsm, inode, i, some err)
    | none =>
      let (extent, hint') := vdfs4GetIblockExtent inode.map (u32Add lblk i)
      let hint := hint'.getD hint
      if extent.firstBlock ≠ 0 then fallocateReserve lblk env n (i + 1) hint fsm inode
      else
        (reserveBlock fsm inode (u32Add lblk i) hint (env.addKzalloc i)).bind
          fun (fsm, inode, err) =>
            match err with
            | some err => .ok (fsm, inode, i, some err)
            | none => fallocateReserve lblk env n (i + 1) hint fsm inode

/-- `err_reserve:` in `vdfs4_fallocate`: the blocks of the range before block `i` are taken
back. -/
def fallocateRollback (lblk : Nat) (env : FallocateEnv) :
    Nat → FsmInfo → InodeInfo → Except FileBug (FsmInfo × InodeInfo)
  | 0, fsm, inode => .ok (fsm, inode)
  | i + 1, fsm, inode =>
    if vdfs4RuntimeExtentExists (u32Add lblk i) inode.runtimeExtents then
      match vdfs4RuntimeExtentDel (u32Add lblk i) (env.delKzalloc i) inode.runtimeExtents with
      | .error _ => fallocateRollback lblk env i fsm inode
      | .ok list =>
        ((fsm.vdfs4FreeReservedSpace 1).mapError .fsm).bind fun fsm =>
          fallocateRollback lblk env i fsm { inode with runtimeExtents := list }
    else fallocateRollback lblk env i fsm inode

/-- The first block of the range of `vdfs4_fallocate`, an `unsigned int`. -/
def fallocateLblk (g : FileGeometry) (offset : Nat) : Nat := (offset >>> g.blockSizeShift) % 2 ^ 32

/-- The number of blocks of the range. -/
def fallocateMaxBlocks (g : FileGeometry) (offset len : Nat) : Nat :=
  u32Sub ((offset + len + g.fsm.blockSize - 1) >>> g.blockSizeShift) (fallocateLblk g offset)

/-- `vdfs4_fallocate`; a mode is `FALLOC_FL_KEEP_SIZE` and whether other bits are set. When
`vdfs4_check_meta_space` fails the call returns 0. -/
def vdfs4Fallocate (g : FileGeometry) (fsm : FsmInfo) (inode : InodeInfo)
    (keepSize otherMode : Bool) (offset len : Nat) (env : FallocateEnv) :
    Except FileBug InodeResult :=
  let lblk := fallocateLblk g offset
  let maxBlocks := fallocateMaxBlocks g offset len
  let newsizeError := if keepSize then none else env.newsizeError
  let rollback (i : Nat) (fsm : FsmInfo) (inode : InodeInfo) (ret : Option Errno) :
      Except FileBug InodeResult :=
    (fallocateRollback lblk env i fsm inode).map fun (fsm, inode) => (fsm, inode, ret)
  if inode.isSymlink then .ok (fsm, inode, some .einval)
  else if otherMode then .ok (fsm, inode, some .eopnotsupp)
  else if offset + len ≤ env.iSize then .ok (fsm, inode, none)
  else if newsizeError.isSome then .ok (fsm, inode, newsizeError)
  else if maxBlocks = 0 then .ok (fsm, inode, none)
  else if env.metaSpaceError.isSome then rollback 0 fsm inode none
  else
    (fallocateReserve lblk env maxBlocks 0 0 fsm inode).bind fun (fsm, inode, i, err) =>
      match err with
      | some err => rollback i fsm inode (some err)
      | none =>
        (vdfs4AllocateSpace g fsm inode true env.rounds).bind fun (fsm, inode, err) =>
          match err with
          | some err => rollback i fsm inode (some err)
          | none => .ok (fsm, inode, none)

/-! ### `vdfs4_symlink` -/

/-- `VDFS4_FULL_PATH_LEN`. -/
def fullPathLen : Nat := 1023

/-- `VDFS4_FILE_NAME_LEN`. -/
def fileNameLen : Nat := 255

/-- What the environment decides in `vdfs4_symlink`. -/
structure SymlinkEnv where
  /-- `vdfs4_create` fails -/
  createError : Option Errno
  kzalloc : Bool
  /-- the blocks `page_symlink` asks `vdfs4_get_block_prep_da` for -/
  calls : List (Nat × PrepEnv)
  /-- `page_symlink` fails for another reason -/
  pageError : Option Errno

/-- `page_symlink`, as far as blocks go. -/
def pageSymlink (g : FileGeometry) (pageError : Option Errno) :
    List (Nat × PrepEnv) → FsmInfo → InodeInfo → Except FileBug InodeResult
  | [], fsm, inode => .ok (fsm, inode, pageError)
  | (iblock, env) :: calls, fsm, inode =>
    (vdfs4GetBlockPrepDa g fsm inode iblock env).bind fun (fsm, inode, err) =>
      match err with
      | some err => .ok (fsm, inode, some err)
      | none => pageSymlink g pageError calls fsm inode

/-- `vdfs4_symlink`, for a path and a name of given lengths: the free space manager, the inode
created if there is one, and the error. -/
def vdfs4Symlink (g : FileGeometry) (fsm : FsmInfo) (len nameLen : Nat) (env : SymlinkEnv) :
    Except FileBug (FsmInfo × Option InodeInfo × Option Errno) :=
  if fullPathLen < len ∨ fileNameLen < nameLen then .ok (fsm, none, some .enametoolong)
  else
    match fsm.vdfs4ReserveSpace 1 with
    | none => .ok (fsm, none, some .enospc)
    | some fsm =>
      match env.createError with
      | some err =>
        ((fsm.vdfs4FreeReservedSpace 1).mapError .fsm).map fun fsm => (fsm, none, some err)
      | none =>
        let created : InodeInfo := ⟨true, BlockMap.empty, []⟩
        match vdfs4RuntimeExtentAdd 0 0 env.kzalloc created.runtimeExtents with
        | .error err =>
          ((fsm.vdfs4FreeReservedSpace 1).mapError .fsm).map fun fsm =>
            (fsm, some created, some err)
        | .ok list =>
          (pageSymlink g env.pageError env.calls fsm { created with runtimeExtents := list }).bind
            fun (fsm, inode, err) =>
              match err with
              | none => .ok (fsm, some inode, none)
              | some err =>
                -- the runtime extents are counted "for safety sake"
                (releaseDelayed fsm inode 0).map fun (fsm, inode) => (fsm, some inode, some err)

end Vdfs4
