import Vdfs4.Lib.CString
import Vdfs4.Lib.OrderedMap
import Vdfs4.Snapshot.Table

/-!
# The extended attribute store

Extended attributes live in one B-tree whose **key** is the inode number and the attribute's
name, and whose value is a **length byte** followed by the bytes of the attribute. The tree
is never empty: mkfs puts a record of inode number 0 in front of all others.

* `xattrtreeInsert`, `vdfs4XattrtreeFind`, `xattrtreeGetFirstRecord` — the tree accesses;
* `vdfs4Setxattr` — a replacement is a **removal followed by an insertion**, each with its
  own checks;
* `vdfs4Getxattr`, `vdfs4Listxattr`, `vdfs4XattrtreeRemoveAll`.

The two POSIX ACL names go to other functions; they are modelled as in a build without ACLs.
-/

namespace Vdfs4

open OrderedMap CString

/-- `VDFS4_XATTR_NAME_MAX_LEN`. -/
def xattrNameMaxLen : Nat := 200

/-- `VDFS4_XATTR_VAL_MAX_LEN`. -/
def xattrValMaxLen : Nat := 200

/-- The key of an attribute. -/
structure XattrtreeKey where
  objectId : Nat
  name : CString
deriving DecidableEq

/-- `struct vdfs4_xattrtree_key` with any bytes as its name. -/
structure XattrtreeKeyBytes where
  objectId : Nat
  name : List UInt8

/-- `vdfs4_xattrtree_cmpfn`. -/
def xattrtreeCmpfnBytes (key1 key2 : XattrtreeKeyBytes) : Int :=
  if key1.objectId < key2.objectId then -1
  else if key2.objectId < key1.objectId then 1
  else compareLengths memcmp key1.name key2.name

/-- The function on names without zero bytes. -/
def vdfs4XattrtreeCmpfn (key1 key2 : XattrtreeKey) : Int :=
  xattrtreeCmpfnBytes ⟨key1.objectId, key1.name.bytes⟩ ⟨key2.objectId, key2.name.bytes⟩

/-- The leaf records of the tree: a key, and the length byte with the bytes of the value. -/
abbrev XattrTree := List (XattrtreeKey × List UInt8)

/-- `vdfs4_xattr_prefixes`: `user.`, `system.`, `trusted.`, `security.`. -/
def vdfs4XattrPrefixes : List (List UInt8) :=
  [[117, 115, 101, 114, 46],
   [115, 121, 115, 116, 101, 109, 46],
   [116, 114, 117, 115, 116, 101, 100, 46],
   [115, 101, 99, 117, 114, 105, 116, 121, 46]]

/-- `system.posix_acl_`, the common part of the two ACL names. -/
def posixAclStem : List UInt8 :=
  [115, 121, 115, 116, 101, 109, 46, 112, 111, 115, 105, 120, 95, 97, 99, 108, 95]

/-- `XATTR_NAME_POSIX_ACL_DEFAULT` and `XATTR_NAME_POSIX_ACL_ACCESS`. -/
def posixAclNames : List (List UInt8) :=
  [posixAclStem ++ [100, 101, 102, 97, 117, 108, 116],
   posixAclStem ++ [97, 99, 99, 101, 115, 115]]

/-- `check_xattr_prefix` succeeds. -/
def checkXattrPrefix (name : CString) : Bool :=
  vdfs4XattrPrefixes.any fun p => p.isPrefixOf name.bytes

/-- One of the names with functions of their own. -/
def isAclName (name : CString) : Bool := posixAclNames.contains name.bytes

/-- `xattrtree_insert`: the value is stored behind its length byte. -/
def xattrtreeInsert (tree : XattrTree) (objectId : Nat) (name : CString)
    (value : List UInt8) : Except Errno XattrTree :=
  if xattrNameMaxLen ≤ name.length ∨ xattrValMaxLen - 1 ≤ value.length then .error .einval
  else
    match place vdfs4XattrtreeCmpfn ⟨objectId, name⟩
        (UInt8.ofNat value.length :: value) tree with
    | none => .error .eexist
    | some tree => .ok tree

/-- `xattrtree_alloc_key`. -/
def xattrtreeAllocKey (objectId : Nat) (name : CString) : Except Errno XattrtreeKey :=
  if xattrNameMaxLen ≤ name.length then .error .einval else .ok ⟨objectId, name⟩

/-- `vdfs4_xattrtree_find`: the record of the name, or, for the empty name, the last record
in front of the inode's. -/
def vdfs4XattrtreeFind (tree : XattrTree) (objectId : Nat) (name : CString) :
    Except Errno (Cursor XattrtreeKey (List UInt8)) :=
  match xattrtreeAllocKey objectId name with
  | .error e => .error e
  | .ok key =>
    match seek vdfs4XattrtreeCmpfn key tree with
    | none => .error .enodata
    | some record =>
      if name ≠ empty ∧ vdfs4XattrtreeCmpfn key record.1.1 ≠ 0 then .error .enodata
      else .ok record

/-- `xattrtree_remove_record`. -/
def xattrtreeRemoveRecord (tree : XattrTree) (objectId : Nat) (name : CString) :
    Except Errno XattrTree :=
  match xattrtreeAllocKey objectId name with
  | .error e => .error e
  | .ok key =>
    match remove vdfs4XattrtreeCmpfn key tree with
    | none => .error .enoent
    | some tree => .ok tree

/-- `xattrtree_get_first_record`. -/
def xattrtreeGetFirstRecord (tree : XattrTree) (objectId : Nat) :
    Except Errno (Cursor XattrtreeKey (List UInt8)) :=
  match vdfs4XattrtreeFind tree objectId empty with
  | .error e => .error e
  | .ok record =>
    match next record with
    | none => .error .enoent
    | some record => if record.1.1.objectId ≠ objectId then .error .enoent else .ok record

/-- The value argument of a set: a null pointer with any size, or bytes. -/
inductive XattrValue where
  | null (size : Nat)
  | bytes (value : List UInt8)
deriving DecidableEq

/-- The size argument that comes with a value. -/
def XattrValue.size : XattrValue → Nat
  | .null size => size
  | .bytes value => value.length

/-- The flags of a set that the code looks at. -/
structure XattrFlags where
  create : Bool
  replace : Bool
deriving DecidableEq

/-- The label `insert_xattr` of `vdfs4_setxattr`. -/
def insertXattr (tree : XattrTree) (ino : Nat) (name : CString) :
    XattrValue → Option Errno × XattrTree
  | .null _ => (none, tree)
  | .bytes value =>
    match xattrtreeInsert tree ino name value with
    | .error e => (some e, tree)
    | .ok tree => (none, tree)

/-- `vdfs4_setxattr`: the error it returns, if any, and the tree it leaves. -/
def vdfs4Setxattr (tree : XattrTree) (ino : Nat) (name : CString) (value : XattrValue)
    (flags : XattrFlags) : Option Errno × XattrTree :=
  if xattrNameMaxLen ≤ name.length ∨ xattrValMaxLen ≤ value.size then (some .einval, tree)
  else if !checkXattrPrefix name then (some .eopnotsupp, tree)
  else if isAclName name then (some .eopnotsupp, tree)
  else
    match vdfs4XattrtreeFind tree ino name with
    | .ok _ =>
      if flags.create then (some .eexist, tree)
      else
        match xattrtreeRemoveRecord tree ino name with
        | .error e => (some e, tree)
        | .ok tree => insertXattr tree ino name value
    | .error .enodata =>
      if flags.replace then (some .enodata, tree) else insertXattr tree ino name value
    | .error e => (some e, tree)

/-- The end of `vdfs4_getxattr`: the size from the length byte, and the bytes copied to the
buffer, if there is one. -/
def copyXattr (buffer : Option Nat) (record : Cursor XattrtreeKey (List UInt8)) :
    Except Errno (Nat × List UInt8) :=
  let size := (record.1.2.headD 0).toNat
  match buffer with
  | none => .ok (size, [])
  | some bufSize =>
    if bufSize < size then .error .erange else .ok (size, record.1.2.tail.take size)

/-- `vdfs4_getxattr` with a buffer of a given size, or a null pointer: the size it returns
and the bytes it copies. -/
def vdfs4Getxattr (tree : XattrTree) (ino : Nat) (name : CString) (buffer : Option Nat) :
    Except Errno (Nat × List UInt8) :=
  if name = empty then .error .einval
  else if !checkXattrPrefix name then .error .eopnotsupp
  else if isAclName name then .error .eopnotsupp
  else (vdfs4XattrtreeFind tree ino name).bind (copyXattr buffer)

/-- The loop of `vdfs4_listxattr` over the records from the first one of the inode on: the
size of the list, and the names written to the buffer. -/
def listxattrLoop (ino : Nat) : Option Nat → XattrTree → Except Errno (Nat × List CString)
  | _, [] => .ok (0, [])
  | buffer, record :: rest =>
    if record.1.objectId ≠ ino then .ok (0, [])
    else
      let nameLen := record.1.name.length + 1
      match buffer with
      | none => (listxattrLoop ino none rest).map fun r => (nameLen + r.1, r.2)
      | some bufSize =>
        if bufSize < nameLen then .error .erange
        else
          (listxattrLoop ino (some (bufSize - nameLen)) rest).map fun r =>
            (nameLen + r.1, record.1.name :: r.2)

/-- `vdfs4_listxattr`. -/
def vdfs4Listxattr (tree : XattrTree) (ino : Nat) (buffer : Option Nat) :
    Except Errno (Nat × List CString) :=
  match xattrtreeGetFirstRecord tree ino with
  | .error .enoent => .ok (0, [])
  | .error e => .error e
  | .ok record => listxattrLoop ino buffer (record.1 :: record.2)

/-- The loop of `vdfs4_xattrtree_remove_all`, for at most `fuel` rounds; `none` says that it
did not end. -/
def removeAllLoop (objectId : Nat) : Nat → XattrTree → Option (Option Errno × XattrTree)
  | 0, _ => none
  | fuel + 1, tree =>
    match xattrtreeGetFirstRecord tree objectId with
    | .error .enoent => some (none, tree)
    | .error e => some (some e, tree)
    | .ok record =>
      match remove vdfs4XattrtreeCmpfn record.1.1 tree with
      | none => some (some .enoent, tree)
      | some tree => removeAllLoop objectId fuel tree

/-- `vdfs4_xattrtree_remove_all`: every round removes a record, so one more round than there
are records is enough. -/
def vdfs4XattrtreeRemoveAll (tree : XattrTree) (objectId : Nat) :
    Option (Option Errno × XattrTree) :=
  removeAllLoop objectId (tree.length + 1) tree

/-- `xattr_root`, the name of the record mkfs makes. -/
def xattrRootName : CString := ⟨[120, 97, 116, 116, 114, 95, 114, 111, 111, 116], by decide⟩

/-- The tree as mkfs makes it. -/
def xattrRoot : XattrTree := [(⟨0, xattrRootName⟩, [])]

/-! ### The order of the keys -/

/-- The rank of a key: the inode number, then the bytes of the name. -/
def XattrtreeKey.rank (k : XattrtreeKey) : ℕ ×ₗ List ℕ :=
  toLex (k.objectId, codes id k.name.bytes)

theorem XattrtreeKey.rank_inj {a b : XattrtreeKey} : a.rank = b.rank ↔ a = b := by
  constructor
  · intro h
    obtain ⟨hid, hname⟩ := Prod.mk.inj (toLex.injective h)
    obtain ⟨ia, ⟨na, ha⟩⟩ := a
    obtain ⟨ib, ⟨nb, hb⟩⟩ := b
    obtain rfl := codes_id_injective hname
    obtain rfl : ia = ib := hid
    rfl
  · rintro rfl
    rfl

/-- `vdfs4_xattrtree_cmpfn` decides the order of the ranks. -/
theorem xattrtree_rankedBy : RankedBy vdfs4XattrtreeCmpfn XattrtreeKey.rank := by
  have hnames : RankedBy (fun a b : XattrtreeKey => compareLengths memcmp a.name.bytes b.name.bytes)
      fun a => codes id a.name.bytes :=
    .of_neg_of_zero (fun _ _ => compareLengths_lt_iff ..) fun _ _ => compareLengths_eq_iff ..
  exact hnames.byNat XattrtreeKey.objectId

end Vdfs4
