import Vdfs4.Lib.ExtentMap
import Vdfs4.Snapshot.Table

/-!
# The block map of a file

A file's blocks are found through its **fork** (nine extent slots in the inode) and,
when all slots are used, through the inode's records in the **extents overflow tree**.
The functions here are `vdfs4_get_iblock_extent`, `insert_extent`, `truncate_exttree`,
`truncate_fork` and the block part of `vdfs4_truncate_blocks`.

The overflow tree is the ordered map it is for the file: its records sorted by logical
block (`vdfs4_exttree_find_record_strict_obj` returns a record of the inode only). An
insertion into the tree, a removal from it and the return of blocks to the free space
manager may fail; the outcome is a parameter of the call.
-/

namespace Vdfs4

/-- `vdfs4_extent_info`. -/
abbrev ExtentInfo := Extent

/-- A blank slot: all bytes zero. -/
def ExtentInfo.zero : ExtentInfo := ⟨0, 0, 0⟩

/-- `VDFS4_EXTENTS_COUNT_IN_FORK`. -/
def extentsCountInFork : Nat := 9

/-- `IBLOCK_MAX_NUMBER`: the logical block to search for the last record with. -/
def iblockMaxNumber : Nat := 0xFFFFFFFE

/-- Addition in `u32`. -/
def u32Add (a b : Nat) : Nat := (a + b) % 2 ^ 32

/-- Subtraction in `u32`. -/
def u32Sub (a b : Nat) : Nat := (((a : Int) - b) % 2 ^ 32).toNat

/-- `vdfs4_fork_info`, as far as the block map uses it. -/
structure ForkInfo where
  /-- blocks of the file, a `u32` -/
  totalBlockCount : Nat
  /-- the extent slots -/
  extents : List ExtentInfo
  /-- used slots -/
  usedExtents : Nat
  /-- there are nine slots -/
  length_extents : extents.length = extentsCountInFork

namespace ForkInfo

/-- A fork without blocks. -/
def empty : ForkInfo := ⟨0, List.replicate extentsCountInFork ExtentInfo.zero, 0, rfl⟩

/-- `fork->extents[i]`. -/
def slot (fork : ForkInfo) (i : Nat) : ExtentInfo := fork.extents.getD i ExtentInfo.zero

/-- `fork->extents[i] = …`. -/
def setSlot (fork : ForkInfo) (i : Nat) (e : ExtentInfo) : ForkInfo :=
  { fork with
    extents := fork.extents.set i e
    length_extents := by rw [List.length_set, fork.length_extents] }

/-- The loop that shifts the slots from `pos` up to `count` by one to the right. -/
def shiftRight (pos : Nat) : Nat → ForkInfo → ForkInfo
  | 0, fork => fork
  | count + 1, fork =>
    if pos < count + 1 then shiftRight pos count (fork.setSlot (count + 1) (fork.slot count))
    else fork

end ForkInfo

/-- The block map of one inode: its fork and its records of the overflow tree. -/
structure BlockMap where
  fork : ForkInfo
  /-- the inode's records of the extents overflow tree, sorted by logical block -/
  exttree : List ExtentInfo

/-- An inode without blocks. -/
def BlockMap.empty : BlockMap := ⟨ForkInfo.empty, []⟩

/-! ### The overflow tree -/

/-- `vdfs4_exttree_find_record_strict_obj`: the record with the greatest logical block
not above `iblock`. -/
def exttreeFind (tree : List ExtentInfo) (iblock : Nat) : Option ExtentInfo :=
  (tree.filter fun r => r.iblock ≤ iblock).getLast?

/-- `vdfs4_exttree_get_extent`: the nearest record to the left, blank without one. -/
def vdfs4ExttreeGetExtent (tree : List ExtentInfo) (iblock : Nat) : ExtentInfo :=
  (exttreeFind tree iblock).getD ExtentInfo.zero

/-- `vdfs4_extree_insert_extent`; `treeError` is what the tree's own insertion returns. -/
def vdfs4ExtreeInsertExtent (tree : List ExtentInfo) (extent : ExtentInfo)
    (treeError : Option Errno) : Except Errno (List ExtentInfo) :=
  match treeError with
  | some err => .error err
  | none =>
    if ∃ r ∈ tree, r.iblock = extent.iblock then .error .eexist
    else .ok (tree.takeWhile (·.iblock < extent.iblock) ++
      extent :: tree.dropWhile (·.iblock < extent.iblock))

/-! ### Lookup -/

/-- The `not_found:` end of `vdfs4_get_iblock_extent`: a blank extent, and the block
behind `result` as a hint if `iblock` is just behind it. -/
def extentNotFound (iblock : Nat) (result : ExtentInfo) : ExtentInfo × Option Nat :=
  ({ result with firstBlock := 0 },
    some (if iblock = result.iblock + result.blockCount
      then result.firstBlock + result.blockCount else 0))

/-- `vdfs4_get_iblock_extent` with a blank `result` passed in: the extent of `iblock`
(first block 0 when there is none) and the value of `*hint_block` if it is set. -/
def vdfs4GetIblockExtent (m : BlockMap) (iblock : Nat) : ExtentInfo × Option Nat :=
  if m.fork.totalBlockCount = 0 ∨ m.fork.usedExtents = 0 then (ExtentInfo.zero, none)
  else
    match (m.fork.extents.take m.fork.usedExtents).find? fun e => decide (e.Covers iblock) with
    | some e => (e, none)
    | none =>
      if m.fork.usedExtents < extentsCountInFork then
        extentNotFound iblock (m.fork.slot (m.fork.usedExtents - 1))
      else
        let result := vdfs4ExttreeGetExtent m.exttree iblock
        if result.firstBlock = 0 then
          extentNotFound iblock (m.fork.slot (extentsCountInFork - 1))
        else if result.Covers iblock then (result, none)
        else extentNotFound iblock result

/-! ### Insertion -/

/-- `update_on_disk_layout:`: the fork's block counter. -/
def ForkInfo.addBlocks (fork : ForkInfo) (n : Nat) : ForkInfo :=
  { fork with totalBlockCount := u32Add fork.totalBlockCount n }

/-- `insert_in_fork:` at slot `pos`. -/
def insertInFork (m : BlockMap) (extent : ExtentInfo) (pos : Nat) (treeError : Option Errno) :
    Except Errno BlockMap :=
  if pos < extentsCountInFork ∧ (m.fork.slot pos).firstBlock = 0 then
    -- 1. a blank slot
    let fork := { m.fork.setSlot pos extent with usedExtents := m.fork.usedExtents + 1 }
    .ok { m with fork := fork.addBlocks extent.blockCount }
  else if pos = extentsCountInFork then
    -- 2. behind a full fork
    match vdfs4ExtreeInsertExtent m.exttree extent treeError with
    | .error err => .error err
    | .ok tree => .ok ⟨m.fork.addBlocks extent.blockCount, tree⟩
  else if m.fork.usedExtents = extentsCountInFork then
    -- 3a. the rightmost extent goes to the tree
    match vdfs4ExtreeInsertExtent m.exttree (m.fork.slot (extentsCountInFork - 1)) treeError with
    | .error err => .error err
    | .ok tree =>
      let fork := (m.fork.shiftRight pos (m.fork.usedExtents - 1)).setSlot pos extent
      .ok ⟨fork.addBlocks extent.blockCount, tree⟩
  else
    -- 3b. shift to the right
    let fork := { m.fork with usedExtents := m.fork.usedExtents + 1 }
    let fork := (fork.shiftRight pos (fork.usedExtents - 1)).setSlot pos extent
    .ok { m with fork := fork.addBlocks extent.blockCount }

/-- `insert_extent`; `eraseError` is the outcome of the erase asked for with `do_erase`,
`treeError` that of an insertion into the overflow tree. -/
def insertExtent (m : BlockMap) (extent : ExtentInfo) (eraseError treeError : Option Errno) :
    Except Errno BlockMap :=
  match eraseError with
  | some err => .error err
  | none =>
    if m.fork.usedExtents = 0 then
      let fork := { m.fork with usedExtents := m.fork.usedExtents + 1 }
      .ok { m with fork := (fork.setSlot 0 extent).addBlocks extent.blockCount }
    else if extent.iblock < (m.fork.slot 0).iblock then insertInFork m extent 0 treeError
    else
      let pos := (m.fork.extents.take m.fork.usedExtents).findIdx (extent.iblock < ·.iblock)
      let prev := m.fork.slot (pos - 1)
      if prev.iblock + prev.blockCount = extent.iblock ∧
          prev.firstBlock + prev.blockCount = extent.firstBlock then
        let fork := m.fork.setSlot (pos - 1)
          { prev with blockCount := u32Add prev.blockCount extent.blockCount }
        .ok { m with fork := fork.addBlocks extent.blockCount }
      else insertInFork m extent pos treeError

/-! ### Truncation -/

/-- The part of an extent at and behind logical block `newSize`. -/
def ExtentInfo.tail (e : ExtentInfo) (newSize : Nat) : ExtentInfo :=
  ⟨e.firstBlock + (newSize - e.iblock), newSize, e.iblock + e.blockCount - newSize⟩

/-- The part of an extent before logical block `newSize`. -/
def ExtentInfo.head (e : ExtentInfo) (newSize : Nat) : ExtentInfo :=
  { e with blockCount := e.blockCount - (e.iblock + e.blockCount - newSize) }

/-- What a truncation leaves: the map, the ranges given back to the free space manager,
and the error that stopped it. -/
structure Truncated where
  map : BlockMap
  freed : List ExtentInfo
  error : Option Errno

/-- `fork->total_block_count -= n`. -/
def BlockMap.subBlocks (m : BlockMap) (n : Nat) : BlockMap :=
  { m with fork := { m.fork with totalBlockCount := u32Sub m.fork.totalBlockCount n } }

/-- The loop of `truncate_exttree`; `putError` is the outcome of the call of
`vdfs4_fsm_put_free_block` for the range that begins at a logical block, `removeFails` says
round by round whether `vdfs4_exttree_remove` fails (and at the end of the list it does
not). Each round removes a record or is one of the failed ones, so `fuel` above their
number is never used up. -/
def truncateExttreeLoop (newSize : Nat) (putError : Nat → Option Errno) :
    Nat → List Bool → BlockMap → List ExtentInfo → Truncated
  | 0, _, m, freed => ⟨m, freed, none⟩
  | fuel + 1, removeFails, m, freed =>
    match exttreeFind m.exttree iblockMaxNumber with
    | none => ⟨m, freed, none⟩
    | some r =>
      if newSize ≤ r.iblock then
        match putError r.iblock with
        | some err => ⟨m, freed, some err⟩
        | none =>
          let m := m.subBlocks r.blockCount
          match removeFails with
          | true :: removeFails =>
            -- the error is not looked at: the same record is met again
            truncateExttreeLoop newSize putError fuel removeFails m (freed ++ [r])
          | _ =>
            truncateExttreeLoop newSize putError fuel removeFails.tail
              { m with exttree := m.exttree.filter (·.iblock ≠ r.iblock) } (freed ++ [r])
      else if newSize < r.iblock + r.blockCount then
        match putError newSize with
        | some err => ⟨m, freed, some err⟩
        | none =>
          let m := m.subBlocks (r.tail newSize).blockCount
          ⟨{ m with exttree := m.exttree.map fun x =>
              if x.iblock = r.iblock then r.head newSize else x }, freed ++ [r.tail newSize], none⟩
      else ⟨m, freed, none⟩

/-- `truncate_exttree`. -/
def truncateExttree (m : BlockMap) (newSize : Nat) (putError : Nat → Option Errno)
    (removeFails : List Bool) : Truncated :=
  truncateExttreeLoop newSize putError (m.exttree.length + removeFails.length + 1) removeFails m []

/-- The slot loop of `truncate_fork`, from slot `i` down; it ends with the last slot it
looked at. -/
def truncateForkLoop (newSize : Nat) (putError : Nat → Option Errno) :
    Nat → BlockMap → List ExtentInfo → Truncated × Nat
  | 0, m, freed => (⟨m, freed, none⟩, 0)
  | i + 1, m, freed =>
    let extent := m.fork.slot i
    if newSize ≤ extent.iblock then
      match putError extent.iblock with
      | some err => (⟨m, freed, some err⟩, i)
      | none =>
        let m := m.subBlocks extent.blockCount
        let fork := { m.fork with usedExtents := m.fork.usedExtents - 1 }
        truncateForkLoop newSize putError i { m with fork := fork.setSlot i ExtentInfo.zero }
          (freed ++ [extent])
    else (⟨m, freed, none⟩, i)

/-- `truncate_fork`. -/
def truncateFork (m : BlockMap) (newSize : Nat) (putError : Nat → Option Errno) : Truncated :=
  let last := m.fork.slot (m.fork.usedExtents - 1)
  if m.fork.usedExtents = 0 ∨ last.iblock + last.blockCount ≤ newSize then ⟨m, [], none⟩
  else
    let (t, i) := truncateForkLoop newSize putError m.fork.usedExtents m []
    match t.error with
    | some _ => t
    | none =>
      let extent := t.map.fork.slot i
      if newSize < extent.iblock + extent.blockCount then
        match putError newSize with
        | some err => { t with error := some err }
        | none =>
          let m := t.map.subBlocks (extent.tail newSize).blockCount
          ⟨{ m with fork := m.fork.setSlot i (extent.head newSize) },
            t.freed ++ [extent.tail newSize], none⟩
      else t

/-- The block part of `vdfs4_truncate_blocks`: the overflow tree first, then the fork. -/
def vdfs4TruncateBlockMap (m : BlockMap) (newSize : Nat) (putError : Nat → Option Errno)
    (removeFails : List Bool) : Truncated :=
  if m.fork.usedExtents = extentsCountInFork then
    let t := truncateExttree m newSize putError removeFails
    match t.error with
    | some _ => t
    | none =>
      let t' := truncateFork t.map newSize putError
      ⟨t'.map, t.freed ++ t'.freed, t'.error⟩
  else truncateFork m newSize putError

end Vdfs4
