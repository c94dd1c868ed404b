import Vdfs4.Lib.ByteMemory
import Vdfs4.Lib.CountedLoop
import Vdfs4.Snapshot.Table

/-!
# Bnodes

A **bnode** holds the records of one B-tree node. Behind its descriptor lie the records, in the
order in which they were added; from the end of the node a table of **offsets** grows down, in
the order of the keys: cell `i` gives the start of record `i`, and the cell behind the last
record the start of the free space. The descriptor counts the records and the bytes that are
free between the records and the table.

* `offsetAddr`, `getOffset`, `checkSetOffset`, `getRecord` — the cells of the table;
* `initNewNodeDescr` — an empty bnode;
* `insertIntoNode`, `placeIntoNode`, `deleteFromNode` — the editing functions;
* `bnodeSanityCheck` — the check of every bnode that is read or written.

A function that runs into `VDFS4_BUG` has no result (`none`); otherwise it returns an error code
or none, and the bnode as it left it.
-/

namespace Vdfs4

open ByteMemory

/-! ### The tree a bnode belongs to -/

/-- The B-trees of a volume. -/
inductive BtreeType where
  | catalog | extents | xattrs
deriving DecidableEq, Repr

/-- `VDFS4_CAT_KEY_MAX_LEN`: the size of `struct vdfs4_cattree_key`. -/
def catKeyMaxLen : Nat := 288

/-- `VDFS4_MAX_BTREE_REC_LEN`: the longest key and a `struct vdfs4_catalog_file_record`. -/
def maxBtreeRecLen : Nat := catKeyMaxLen + 312

/-- `max_record_len` of each tree. -/
def BtreeType.maxRecordLen : BtreeType → Nat
  | catalog => catKeyMaxLen + 312
  | extents => 24 + 40
  | xattrs => 224 + 200

/-- The values of `struct vdfs4_btree` that stay fixed while the volume is mounted. -/
structure BtreeInfo where
  /-- `btree_type` -/
  btreeType : BtreeType
  /-- `log_pages_per_node` -/
  logPagesPerNode : Nat
  /-- `pages_per_node << PAGE_SHIFT` is an `unsigned int` -/
  fits : logPagesPerNode < 20
  /-- the flag `IS_MOUNT_FINISHED` of the volume -/
  mountFinished : Bool

/-- `node_size_bytes`. -/
def BtreeInfo.nodeSizeBytes (t : BtreeInfo) : Nat := 2 ^ (pageShift + t.logPagesPerNode)

/-- `max_record_len`. -/
def BtreeInfo.maxRecordLen (t : BtreeInfo) : Nat := t.btreeType.maxRecordLen

/-! ### The data of a bnode -/

/-- `enum vdfs4_node_type`. -/
inductive NodeType where
  | index | leaf
deriving DecidableEq, Repr

/-- `struct vdfs4_bnode` with its descriptor and the bytes behind the descriptor. -/
structure Bnode where
  /-- `node_id` of the runtime structure -/
  nodeId : Nat
  /-- `free_space` -/
  freeSpace : UInt16
  /-- `recs_count` -/
  recsCount : UInt16
  /-- `node_id` of the descriptor -/
  descrNodeId : Nat
  /-- `prev_node_id` -/
  prevNodeId : Nat
  /-- `next_node_id` -/
  nextNodeId : Nat
  /-- `type` -/
  type : NodeType
  /-- the bytes of the node, by their offset from its start -/
  mem : ByteMemory

/-- `sizeof(struct vdfs4_gen_node_descr)`. -/
def sizeofDescr : Nat := 32

/-- `VDFS4_BNODE_FIRST_OFFSET`: the checksum at the end of the node. -/
def bnodeFirstOffset : Nat := 4

/-- `sizeof(vdfs4_bt_off_t)`. -/
def sizeofOffset : Nat := 4

/-- `VDFS4_BT_INVALID_OFFSET`. -/
def btInvalidOffset : Nat := 2 ^ 32 - 1

/-- `VDFS4_INVALID_NODE_ID`. -/
def invalidNodeId : Nat := 0

/-- Subtraction of `__u32` numbers. -/
def subU32 (a b : Nat) : Nat := (a + 2 ^ 32 - b) % 2 ^ 32

/-- `key_len` of the key at address `a`. -/
def keyLenAt (m : ByteMemory) (a : Nat) : Nat := loadLE m (a + 4) 2

/-- `record_len` of the key at address `a`. -/
def recordLenAt (m : ByteMemory) (a : Nat) : Nat := loadLE m (a + 6) 2

variable (t : BtreeInfo)

/-! ### The offset table -/

/-- What the functions do where a pointer leaves the node: an error while the volume is being
mounted, `VDFS4_BUG` afterwards. -/
def bugOnceMounted {α : Type} (a : α) : Option α := if t.mountFinished then none else some a

/-- `vdfs4_get_offset_addr`: the address of a cell. -/
def offsetAddr (index : Nat) : Option (Except Errno Nat) :=
  if bnodeFirstOffset + sizeofOffset * (index + 1) ≤ t.nodeSizeBytes then
    some (.ok (t.nodeSizeBytes - bnodeFirstOffset - sizeofOffset * (index + 1)))
  else bugOnceMounted t (.error .efault)

/-- `__get_offset`. -/
def getOffset (b : Bnode) (index : Nat) : Option Nat :=
  (offsetAddr t index).map fun
    | .error _ => btInvalidOffset
    | .ok addr => loadLE b.mem addr sizeofOffset

/-- `is_offset_correct`. -/
def isOffsetCorrect (offset : Nat) : Bool := offset != 0 && decide (offset < t.nodeSizeBytes)

/-- `get_record`: the address of a record. -/
def getRecord (b : Bnode) (index : Nat) : Option (Except Errno Nat) :=
  if b.recsCount.toNat < index then some (.error .einval)
  else (getOffset t b index).map fun offset =>
    if isOffsetCorrect t offset then .ok offset else .error .einval

/-- `check_set_offset`. -/
def checkSetOffset (b : Bnode) (index newVal : Nat) : Option (Option Errno × Bnode) :=
  (offsetAddr t index).map fun
    | .error _ => (some .efault, b)
    | .ok addr =>
      if isOffsetCorrect t newVal then
        (none, { b with mem := storeLE b.mem addr sizeofOffset newVal })
      else (some .efault, b)

/-! ### Editing -/

/-- `is_node_full` for a record of the given length. -/
def isNodeFull (b : Bnode) (recordLen : Nat) : Bool :=
  decide (b.freeSpace.toNat < recordLen + sizeofOffset)

/-- `vdfs4_init_new_node_descr`. -/
def initNewNodeDescr (b : Bnode) (type : NodeType) : Option Bnode :=
  let b := { b with
    freeSpace := UInt16.ofNat (t.nodeSizeBytes - sizeofDescr - sizeofOffset - bnodeFirstOffset)
    recsCount := 0
    type := type
    descrNodeId := b.nodeId
    nextNodeId := invalidNodeId
    prevNodeId := invalidNodeId }
  match checkSetOffset t b 0 sizeofDescr with
  | some (none, b) => some b
  | _ => none

/-- The second half of both insertions: a cell for the record at `off` is opened at `pos`, and the
counters take the `len` bytes of the record into account. -/
def enterOffset (b : Bnode) (addr off len pos : Nat) : Option (Option Errno × Bnode) :=
  let b := { b with
    mem := memmove b.mem addr (addr + sizeofOffset) (sizeofOffset * (b.recsCount.toNat - pos)) }
  match checkSetOffset t b pos off with
  | none => none
  | some (some e, b) => some (some e, b)
  | some (none, b) =>
    if b.freeSpace.toNat < len + sizeofOffset then none
    else
      let b := { b with
        recsCount := b.recsCount + 1
        freeSpace := UInt16.ofNat (b.freeSpace.toNat - (len + sizeofOffset)) }
      checkSetOffset t b b.recsCount.toNat (off + len)

/-- `vdfs4_insert_into_node` of the record `newRecord` points to. -/
def insertIntoNode (b : Bnode) (newRecord : ByteMemory) (insertPos : Nat) :
    Option (Option Errno × Bnode) :=
  let len := recordLenAt newRecord 0
  if b.freeSpace.toNat < len then none
  else
    match offsetAddr t b.recsCount.toNat with
    | none => none
    | some (.error e) => some (some e, b)
    | some (.ok addr) =>
      let off := loadLE b.mem addr sizeofOffset
      if isOffsetCorrect t off then
        enterOffset t { b with mem := memcpy b.mem off newRecord len } addr off len insertPos
      else some (some .efault, b)

/-- `__place_into_node`: room for a record of `newRecLen` bytes, filled with the key only or with
the whole record; its `record_len` is set to the new length. -/
def placeIntoNode (b : Bnode) (newKey : ByteMemory) (newRecLen insertPos : Nat)
    (placeOnlyKey : Bool) : Option (Option Errno × Bnode) :=
  let dataLen := if placeOnlyKey then keyLenAt newKey 0 else newRecLen
  if b.freeSpace.toNat < newRecLen + sizeofOffset then none
  else
    match offsetAddr t b.recsCount.toNat with
    | none => none
    | some (.error e) => some (some e, b)
    | some (.ok addr) =>
      let off := loadLE b.mem addr sizeofOffset
      if isOffsetCorrect t off then
        enterOffset t
          { b with mem := storeLE (memcpy b.mem off newKey dataLen) (off + 6) 2 newRecLen }
          addr off newRecLen insertPos
      else some (some .efault, b)

/-- A round of the first loop of `delete_from_node`: an offset above the hole goes down. -/
def lowerOffset (delOffset recLen i : Nat) (b : Bnode) : Option (Option Errno × Bnode) :=
  match getOffset t b i with
  | none => none
  | some curOffs =>
    if delOffset < curOffs then checkSetOffset t b i (subU32 curOffs recLen) else some (none, b)

/-- The first loop of `delete_from_node`. -/
def lowerOffsets (b : Bnode) (delOffset recLen : Nat) : Option (Option Errno × Bnode) :=
  countedLoop (lowerOffset t delOffset recLen) b.recsCount.toNat 0 b

/-- A round of the second loop: a cell takes the offset of the next one. -/
def moveOffset (i : Nat) (b : Bnode) : Option (Option Errno × Bnode) :=
  match getOffset t b (i + 1) with
  | none => none
  | some nextOffset => checkSetOffset t b i nextOffset

/-- The second loop of `delete_from_node`: the cells above the deleted one move. -/
def moveOffsets (b : Bnode) (delIndex : Nat) : Option (Option Errno × Bnode) :=
  countedLoop (moveOffset t) (b.recsCount.toNat - delIndex) delIndex b

/-- `delete_from_node`. -/
def deleteFromNode (b : Bnode) (delIndex : Nat) : Option (Option Errno × Bnode) :=
  match getRecord t b delIndex with
  | none => none
  | some (.error _) => bugOnceMounted t (some .efault, b)
  | some (.ok delKey) =>
    let recLen := recordLenAt b.mem delKey
    match getOffset t b b.recsCount.toNat, getOffset t b delIndex with
    | some freeSpaceOffset, some delOffset =>
      if !isOffsetCorrect t freeSpaceOffset || !isOffsetCorrect t delOffset then
        some (some .efault, b)
      else if maxBtreeRecLen < recLen then bugOnceMounted t (some .efault, b)
      else
        let b := { b with
          mem := memmove b.mem delKey (delKey + recLen)
            (subU32 (subU32 freeSpaceOffset delOffset) recLen) }
        match lowerOffsets t b delOffset recLen with
        | none => none
        | some (some e, b) => some (some e, b)
        | some (none, b) =>
          match moveOffsets t b delIndex with
          | none => none
          | some (some e, b) => some (some e, b)
          | some (none, b) =>
            let b := { b with
              recsCount := b.recsCount - 1
              freeSpace := UInt16.ofNat (b.freeSpace.toNat + recLen + sizeofOffset) }
            checkSetOffset t b b.recsCount.toNat (subU32 freeSpaceOffset recLen)
    | _, _ => none

/-! ### The sanity check -/

/-- A round of the first loop of the check: the offset is correct; the least one so far. -/
def checkOffset (b : Bnode) (i minOffset : Nat) : Option (Option Unit × Nat) :=
  match getOffset t b i with
  | none => none
  | some offset =>
    if isOffsetCorrect t offset then
      some (none, if offset < minOffset then offset else minOffset)
    else some (some (), minOffset)

/-- A round of the second loop: from a record to the next one by its length. -/
def walkRecord (b : Bnode) (_count offset : Nat) : Option (Option Unit × Nat) :=
  let next := offset + recordLenAt b.mem offset
  if isOffsetCorrect t next then some (none, next) else some (some (), next)

/-- `vdfs4_bnode_sanity_check`. -/
def bnodeSanityCheck (b : Bnode) : Option Bool :=
  if b.nodeId = 0 then some true
  else if b.recsCount = 0 then (getOffset t b 0).map fun offset => offset == sizeofDescr
  else if t.nodeSizeBytes < b.freeSpace.toNat then some false
  else if 1000 < b.recsCount.toNat then some false
  else
    match countedLoop (checkOffset t b) b.recsCount.toNat 0 t.nodeSizeBytes with
    | none => none
    | some (some (), _) => some false
    | some (none, minOffset) =>
      match countedLoop (walkRecord t b) b.recsCount.toNat 0 minOffset with
      | none => none
      | some (some (), _) => some false
      | some (none, offset) =>
        (getOffset t b b.recsCount.toNat).map fun freeSpaceOffset => offset == freeSpaceOffset

end Vdfs4
