import Vdfs4.Btree.BnodeRecords

/-!
# Splitting a bnode

A record that finds no room in its bnode is placed by a **split**: the records of the bnode and
the new one are dealt out again, in order, to the bnode itself and to a new right neighbour. The
cut lies where the bytes counted so far first pass the middle of the node; they are counted by
the `record_len` of each key, for the new key too, although its record is written with another
length. Then the two bnodes and the old right neighbour are chained.

* `splitRound`, `splitLoop` — one record dealt out, and all of them;
* `chainSplit` — the links of the bnodes;
* `splitBnode` — the whole function, with the **outcome of fetching the right neighbour** as an
  argument.
-/

namespace Vdfs4

open ByteMemory

/-- `struct vdfs4_btree_record_info` of a record placed by a split. -/
structure RecordInfo where
  /-- `rec_pos.bnode`: the new right bnode, or the old one -/
  inRight : Bool
  /-- `rec_pos.pos` -/
  pos : Nat
  /-- `gen_record.key`, as an offset into the bnode -/
  key : Nat
deriving DecidableEq

/-- The variables of the loop of `split_bnode`. -/
structure SplitState where
  left : Bnode
  right : Bnode
  usedSpace : Nat
  i : Nat
  partToInsert : Bool
  inserted : Bool
  info : Option RecordInfo

namespace SplitState

/-- `ins_bnode`. -/
def insBnode (s : SplitState) : Bnode := if s.partToInsert then s.right else s.left

/-- The state with `ins_bnode` replaced. -/
def setInsBnode (s : SplitState) (b : Bnode) : SplitState :=
  if s.partToInsert then { s with right := b } else { s with left := b }

end SplitState

variable (t : BtreeInfo)

/-- `new_rec_select`. -/
def newRecSelect (insertPos : Nat) (s : SplitState) : Bool := s.i == insertPos && !s.inserted

/-- The key of one round: the new one or the next of the original bnode. -/
def splitKey (orig : Bnode) (newKey : ByteMemory) (insertPos : Nat) (s : SplitState) :
    Option (Except Errno ByteMemory) :=
  if newRecSelect insertPos s then some (.ok newKey)
  else (getRecord t orig s.i).map fun r => r.map fun a => orig.mem.view a

/-- The variables after a round that placed a record, counted with `recordLen` bytes, in
`ins_bnode`. -/
def SplitState.advance (s : SplitState) (b : Bnode) (recordLen : Nat) (select : Bool) :
    SplitState :=
  let usedSpace := s.usedSpace + recordLen + sizeofOffset
  let pos := s.insBnode.recsCount.toNat
  { s.setInsBnode b with
    usedSpace := usedSpace
    partToInsert := s.partToInsert || decide (t.nodeSizeBytes / 2 < usedSpace)
    i := if select then s.i else s.i + 1
    inserted := s.inserted || select
    info := if select then
        some ⟨s.partToInsert, pos, loadLE s.insBnode.mem
          (t.nodeSizeBytes - bnodeFirstOffset - sizeofOffset * (pos + 1)) sizeofOffset⟩
      else s.info }

/-- One round of the loop of `split_bnode`. -/
def splitRound (orig : Bnode) (newKey : ByteMemory) (newRecLen insertPos : Nat) (s : SplitState) :
    Option (Option Errno × SplitState) :=
  match splitKey t orig newKey insertPos s with
  | none => none
  | some (.error e) => some (some e, s)
  | some (.ok key) =>
    let select := newRecSelect insertPos s
    match placeIntoNode t s.insBnode key (if select then newRecLen else recordLenAt key 0)
        s.insBnode.recsCount.toNat select with
    | none => none
    | some (some e, b) => some (some e, s.setInsBnode b)
    | some (none, b) => some (none, s.advance t b (recordLenAt key 0) select)

/-- The loop of `split_bnode`, run until the records of the original bnode and the new one are
dealt out. -/
def splitLoop (orig : Bnode) (newKey : ByteMemory) (newRecLen insertPos : Nat) :
    Nat → SplitState → Option (Option Errno × SplitState)
  | 0, _ => none
  | fuel + 1, s =>
    if s.i < orig.recsCount.toNat ∨ s.inserted = false then
      match splitRound t orig newKey newRecLen insertPos s with
      | none => none
      | some (some e, s) => some (some e, s)
      | some (none, s) => splitLoop orig newKey newRecLen insertPos fuel s
    else some (none, s)

/-- What `split_bnode` returns and leaves behind. -/
structure SplitResult where
  err : Option Errno
  left : Bnode
  right : Bnode
  /-- the old right neighbour, where it was changed -/
  next : Option Bnode
  info : Option RecordInfo

/-- The end of `split_bnode`: the bnodes are chained. A failure to fetch the right neighbour goes to
the label that restores the left bnode from the buffer, with `err` still zero. -/
def chainSplit (left : Bnode) (nextRight : Except Errno Bnode) (s : SplitState) : SplitResult :=
  let left₁ := { s.left with
    prevNodeId := left.prevNodeId, nextNodeId := s.right.descrNodeId }
  let right₁ := { s.right with
    prevNodeId := s.left.descrNodeId, nextNodeId := left.nextNodeId }
  if left.nextNodeId = invalidNodeId then ⟨none, left₁, right₁, none, s.info⟩
  else
    match nextRight with
    | .error _ => ⟨none, left, right₁, none, s.info⟩
    | .ok next =>
      ⟨none, left₁, right₁, some { next with prevNodeId := s.right.descrNodeId }, s.info⟩

/-- What follows the loop of `split_bnode`. A failure inside the loop restores the left bnode from
the buffer. -/
def afterSplitLoop (left : Bnode) (nextRight : Except Errno Bnode) :
    Option (Option Errno × SplitState) → Option SplitResult
  | none => none
  | some (some e, s) => some ⟨some e, left, s.right, none, s.info⟩
  | some (none, s) => some (chainSplit left nextRight s)

/-- `split_bnode`. -/
def splitBnode (left right : Bnode) (newKey : ByteMemory) (newRecLen insertPos : Nat)
    (nextRight : Except Errno Bnode) : Option SplitResult :=
  match initNewNodeDescr t right left.type, initNewNodeDescr t left left.type with
  | some right₀, some left₀ =>
    if left.recsCount = 0 then none
    else
      afterSplitLoop left nextRight
        (splitLoop t left newKey newRecLen insertPos (left.recsCount.toNat + 2)
          ⟨left₀, right₀, t.nodeSizeBytes - left₀.freeSpace.toNat, 0, false, false, none⟩)
  | _, _ => none

end Vdfs4
