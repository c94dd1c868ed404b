import Vdfs4.Btree.Bnode
import Vdfs4.Lib.Bitmap
import Vdfs4.Lib.Comp

/-!
# The ids of bnodes

The bnodes of a tree are addressed by their **id**; a bitmap says which ids are in use, and the
special file of the tree provides the bnodes below a number that only grows.

* `Btree` — what is kept of the ids, with the **failures** the environment will cause: every call
  that needs memory, space or the disk asks `fails` once;
* `allocNewBnode`, `destroyBnode` — bnodes and their ids.
-/

namespace Vdfs4

/-- The bitmap of bnode ids of `struct vdfs4_btree`. -/
structure Btree where
  /-- `bitmap->data` -/
  used : Bitmap
  /-- `bitmap->bits_num` -/
  bitsNum : Nat
  /-- `bitmap->free_num` -/
  freeNum : Nat
  /-- `bitmap->first_free_id` -/
  firstFreeId : Nat
  /-- `VDFS4_LAST_TABLE_INDEX + 1`: the bnodes the special file provides -/
  available : Nat
  /-- the calls so far that could fail -/
  calls : Nat
  /-- whether such a call fails -/
  fails : Nat → Bool

/-- The functions of the tree. -/
abbrev TreeM (α : Type) : Type := Comp Btree Errno α

open Comp (get modify fail)

/-! ### Bnodes and their ids -/

/-- A call that can fail, with its error code. -/
def fallible (e : Errno) : TreeM Unit := fun t =>
  some (if t.fails t.calls then .error e else .ok (), { t with calls := t.calls + 1 })

/-- `vdfs4_check_page_offset`: the special file is extended up to the bnode. -/
def checkPageOffset (id : Nat) : TreeM Unit := do
  let t ← get
  if id < t.available then pure ()
  else
    fallible .enospc
    modify fun t => { t with available := id + 1 }

/-- `read_or_create_bnode_data`. -/
def readOrCreateBnodeData (id : Nat) : TreeM Unit := do
  checkPageOffset id
  fallible .eio

/-- The bitmap and its counters after `vdfs4_alloc_new_bnode`. -/
def Btree.takeId (t : Btree) (id : Nat) : Btree :=
  let used := t.used.setRange id 1
  { t with
    used := used
    firstFreeId := used.findNextZeroBit t.bitsNum id
    freeNum := t.freeNum - 1 }

/-- `vdfs4_alloc_new_bnode`. The bit of the id is cleared again when the bnode cannot be created. -/
def allocNewBnode : TreeM Nat := do
  let t ← get
  if t.freeNum = 0 then fail .enospc
  else if t.used t.firstFreeId then fail .efault
  else
    fallible .enomem
    readOrCreateBnodeData t.firstFreeId
    modify fun t' => t'.takeId t.firstFreeId
    pure t.firstFreeId

/-- The bitmap and its counters after `vdfs4_destroy_bnode`. -/
def Btree.releaseId (t : Btree) (id : Nat) : Btree :=
  { t with
    used := t.used.clearRange id 1
    firstFreeId := min t.firstFreeId id
    freeNum := t.freeNum + 1 }

/-- `vdfs4_destroy_bnode` of a bnode that nobody else holds. -/
def destroyBnode (id : Nat) : TreeM Unit := do
  let t ← get
  if id = invalidNodeId then fail .einval
  else if t.used id = false then fail .efault
  else modify fun t => t.releaseId id

end Vdfs4
