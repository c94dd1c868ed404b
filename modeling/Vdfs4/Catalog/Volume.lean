import Vdfs4.Catalog.Lookup

/-!
# Directory operations on a volume

The directory operations change the **catalog** and the **inodes in memory** side by side. A
directory's `i_size` is the number of its entries. An unlinked inode goes to the **orphan list**,
whose order is also kept in the records: `next_orphan_id` of each inode is the number of the next
one, and the root is the first.

* `Volume` — the catalog, the inodes in memory, the orphan list, and whether a fatal error has
  made the volume **read-only**;
* the `…Faults` records say which insertions, removals, searches and allocations inside one call
  **fail**;
* `vdfs4WriteInode`, `vdfs4AddToOrphan`, `vdfs4DelFromOrphan`, `Volume.vdfs4EvictInode`,
  `vdfs4Unlink`, `vdfs4Rmdir`, `vdfs4Create`, `vdfs4Link`, `vdfs4Rename`, `vdfs4CrossRename` — the
  code. The result is the error, if any, and the volume left; `none` is an assertion that stops the
  kernel.
-/

namespace Vdfs4

open OrderedMap

/-! ### The volume -/

/-- The directory structure of a mounted volume. -/
structure Volume where
  /-- the catalog tree -/
  catalog : Catalog
  /-- the inodes in memory -/
  inodes : Nat → Option CatalogInode
  /-- `sbi->orphan_inodes` -/
  orphanInodes : List Nat
  /-- `vdfs4_fatal_error` was called -/
  readOnly : Bool

namespace Volume

/-- An inode in memory is replaced. -/
def setInode (v : Volume) (ino : Nat) (i : CatalogInode) : Volume :=
  { v with inodes := fun n => if n = ino then some i else v.inodes n }

/-- An inode in memory is changed. -/
def modifyInode (v : Volume) (ino : Nat) (f : CatalogInode → CatalogInode) : Volume :=
  { v with inodes := fun n => if n = ino then (v.inodes n).map f else v.inodes n }

/-- An inode leaves the memory. -/
def dropInode (v : Volume) (ino : Nat) : Volume :=
  { v with inodes := fun n => if n = ino then none else v.inodes n }

/-- `vdfs4_fatal_error`. -/
def fatalError (v : Volume) : Volume := { v with readOnly := true }

variable (v : Volume) (i : CatalogInode) (f : CatalogInode → CatalogInode) {n ino : Nat}

@[simp] theorem setInode_self : (v.setInode ino i).inodes ino = some i := if_pos rfl

@[simp] theorem setInode_of_ne (h : n ≠ ino) : (v.setInode ino i).inodes n = v.inodes n := if_neg h

@[simp] theorem modifyInode_self : (v.modifyInode ino f).inodes ino = (v.inodes ino).map f :=
  if_pos rfl

@[simp] theorem modifyInode_of_ne (h : n ≠ ino) : (v.modifyInode ino f).inodes n = v.inodes n :=
  if_neg h

@[simp] theorem dropInode_self : (v.dropInode ino).inodes ino = none := if_pos rfl

@[simp] theorem dropInode_of_ne (h : n ≠ ino) : (v.dropInode ino).inodes n = v.inodes n := if_neg h

end Volume

/-- The result of an operation; `none` when an assertion stops it. -/
abbrev Outcome := Option (Option Errno × Volume)

/-- Where the attributes of an inode stand. -/
def CatalogInode.recordKey (ino : Nat) (i : CatalogInode) : CattreeKey :=
  if i.hardLink then bodyKey ino else ⟨i.parentId, i.name, ino⟩

/-- `vdfs4_fill_cattree_value`. -/
def CatalogInode.fillCattreeValue (i : CatalogInode) (r : CatalogRecord) : CatalogRecord :=
  { recordType := r.recordType
    fileMode := i.kind
    orphan := i.orphan
    hardLink := i.hardLink
    linksCount := i.nlink
    totalItemsCount := if i.kind = .chr ∨ i.kind = .blk then i.rdev else i.isize
    nextOrphanId := i.nextOrphanId }

/-- The value `vdfs4_fill_cattree_record` writes. -/
def CatalogInode.fillRecord (i : CatalogInode) (r : CatalogRecord) : CatalogRecord :=
  if r.recordType = .hlink then { r with fileMode := i.kind } else i.fillCattreeValue r

/-- `VDFS4_LINK_MAX`. -/
def vdfs4LinkMax : Nat := 65000

/-- `FINAL_ORPHAN_ID`. -/
def finalOrphanId : Nat := 2 ^ 64 - 1

section

variable (comp : Comparison)

/-- `__vdfs4_write_inode`: `fault` is a failure of the search. -/
def vdfs4WriteInode (fault : Option Errno) (v : Volume) (ino : Nat) (i : CatalogInode) :
    Option Errno × Volume :=
  let key := i.recordKey ino
  match fault.elim (vdfs4CattreeFindInode comp v.catalog ino key.parentId key.name) .error with
  | .error e => (some e, v.fatalError)
  | .ok (record, _) =>
    (none, { v with catalog := modify comp.compFn record.1 i.fillCattreeValue v.catalog })

/-! ### Orphans -/

/-- The begin of `vdfs4_add_to_orphan`: the flag, the end of the chain and the end of the list. -/
def Volume.withOrphan (v : Volume) (ino : Nat) : Volume :=
  { v.modifyInode ino fun i => { i with orphan := true, nextOrphanId := 0 } with
    orphanInodes := v.orphanInodes ++ [ino] }

/-- Its undoing after the predecessor could not be written. -/
def Volume.withoutOrphan (v : Volume) (prevIno ino : Nat) : Volume :=
  let v := { v with orphanInodes := v.orphanInodes.dropLast }
  let v := v.modifyInode prevIno fun i => { i with nextOrphanId := 0 }
  v.modifyInode ino fun i => { i with orphan := false }

/-- `vdfs4_add_to_orphan`; `fault` is a failure of the write of the predecessor. -/
def vdfs4AddToOrphan (fault : Option Errno) (v : Volume) (ino : Nat) : Outcome :=
  match v.orphanInodes.getLast? with
  | none => none
  | some prevIno =>
    match (v.withOrphan ino).inodes prevIno with
    | none => none
    | some prev =>
      if prev.nextOrphanId ≠ 0 then none
      else
        let prev := { prev with nextOrphanId := ino }
        match vdfs4WriteInode comp fault ((v.withOrphan ino).setInode prevIno prev)
          prevIno prev with
        | (some e, v) => some (some e, v.withoutOrphan prevIno ino)
        | (none, v) => some (none, v)

/-- `prev_orphan`: the inode in front; `none` for the first one. -/
def prevOrphan (ino : Nat) : List Nat → Option Nat
  | a :: b :: l => if b = ino then some a else prevOrphan ino (b :: l)
  | _ => none

/-- `vdfs4_del_from_orphan`; a failed write of the predecessor is a fatal error and nothing
else. -/
def vdfs4DelFromOrphan (fault : Option Errno) (v : Volume) (ino : Nat) : Option Volume :=
  if ino ∈ v.orphanInodes then
    match prevOrphan ino v.orphanInodes with
    | none => none
    | some prevIno =>
      match v.inodes prevIno, v.inodes ino with
      | some prev, some i =>
        if prev.nextOrphanId ≠ ino then none
        else
          let prev := { prev with nextOrphanId := i.nextOrphanId }
          let v := (vdfs4WriteInode comp fault (v.setInode prevIno prev) prevIno prev).2
          let v := v.modifyInode ino fun i =>
            { i with orphan := false, nextOrphanId := finalOrphanId }
          some { v with orphanInodes := v.orphanInodes.erase ino }
      | _, _ => none
  else some v

/-- The failures inside one `vdfs4_evict_inode`. -/
structure EvictFaults where
  xattr : Option Errno := none
  truncate : Option Errno := none
  remove : RemoveFaults := {}
  orphan : Option Errno := none
deriving DecidableEq

/-- `vdfs4_evict_inode`: an inode without links leaves the catalog and the orphan list. -/
def Volume.vdfs4EvictInode (f : EvictFaults) (v : Volume) (ino : Nat) : Option Volume :=
  match v.inodes ino with
  | none => none
  | some i =>
    if i.nlink ≠ 0 then some (v.dropInode ino)
    else if f.xattr ≠ none then some (v.fatalError.dropInode ino)
    else if (i.kind = .reg ∨ i.kind = .lnk) ∧ f.truncate ≠ none then
      some (v.fatalError.dropInode ino)
    else
      let key := i.recordKey ino
      match vdfs4CattreeRemove comp f.remove v.catalog ino key.parentId key.name i.recordType with
      | (some _, c) => some ({ v with catalog := c }.fatalError.dropInode ino)
      | (none, c) =>
        (vdfs4DelFromOrphan comp f.orphan { v with catalog := c } ino).map (·.dropInode ino)

/-! ### Unlinking -/

/-- The failures inside one `vdfs4_unlink`: the removal of a hard link reference, the write of
the predecessor in the orphan list and the write of the inode. -/
structure UnlinkFaults where
  ref : RemoveFaults := {}
  orphan : Option Errno := none
  write : Option Errno := none
deriving DecidableEq

/-- The label `exit_inc_nlink`. -/
def exitIncNlink (e : Errno) (v : Volume) (ino : Nat) : Outcome :=
  some (some e, v.modifyInode ino fun i => { i with nlink := i.nlink + 1 })

/-- The label `keep`: the directory has one entry less. -/
def unlinkKeep (v : Volume) (dir : Nat) : Outcome :=
  some (none, v.modifyInode dir fun d => { d with isize := d.isize - 1 })

/-- The second half of `vdfs4_unlink`: the last link makes an orphan. -/
def unlinkTail (f : UnlinkFaults) (v : Volume) (dir ino nlink : Nat) : Outcome :=
  if nlink ≠ 0 then unlinkKeep v dir
  else
    match vdfs4AddToOrphan comp f.orphan v ino with
    | none => none
    | some (some e, v) => exitIncNlink e v ino
    | some (none, v) =>
      match v.inodes ino with
      | none => none
      | some i =>
        match vdfs4WriteInode comp f.write v ino i with
        | (some e, v) => exitIncNlink e v.fatalError ino
        | (none, v) => unlinkKeep v dir

/-- `vdfs4_unlink` of the entry `name` of `dir`, whose inode is `ino`. -/
def vdfs4Unlink (f : UnlinkFaults) (v : Volume) (dir : Nat) (name : CString) (ino : Nat) :
    Outcome :=
  match v.inodes ino with
  | none => none
  | some i =>
    if i.nlink = 0 then some (some .efault, v)
    else if vdfs4LinkMax < i.nlink - 1 then none
    else
      let v := v.setInode ino { i with nlink := i.nlink - 1 }
      if i.hardLink then
        match vdfs4CattreeRemove comp f.ref v.catalog ino dir name .hlink with
        | (some e, c) => exitIncNlink e { v with catalog := c } ino
        | (none, c) => unlinkTail comp f { v with catalog := c } dir ino (i.nlink - 1)
      else if i.nlink - 1 ≠ 0 then exitIncNlink .efault v ino
      else unlinkTail comp f v dir ino (i.nlink - 1)

/-- `vdfs4_rmdir`. -/
def vdfs4Rmdir (f : UnlinkFaults) (v : Volume) (dir : Nat) (name : CString) (ino : Nat) :
    Outcome :=
  match v.inodes ino with
  | none => none
  | some i =>
    if i.isize ≠ 0 then some (some .enotempty, v) else vdfs4Unlink comp f v dir name ino

/-! ### New entries -/

/-- `vdfs4_cattree_place_record` and `vdfs4_fill_cattree_record`: the record is filled from the
inode, which takes over its type. -/
def placeAndFill (f : PlaceFaults) (v : Volume) (ino : Nat) (i : CatalogInode) (dir : Nat)
    (name : CString) (recordType : RecordType) : Option Errno × Volume :=
  match vdfs4CattreePlaceRecord comp f v.catalog ino dir name recordType with
  | (some e, c) => (some e, { v with catalog := c })
  | (none, c) =>
    let v := v.modifyInode ino fun i => { i with recordType := recordType }
    (none, { v with catalog := modify comp.compFn ⟨dir, name, ino⟩ i.fillRecord c })

/-- The failures inside one `vdfs4_create`: the allocation of the name, the new inode, the record,
its access list, security label and entry in the inode cache, and those of the eviction that undoes
it. -/
structure CreateFaults where
  name : Bool := false
  inode : Option Errno := none
  place : PlaceFaults := {}
  acl : Option Errno := none
  security : Option Errno := none
  insert : Option Errno := none
  evict : EvictFaults := {}
deriving DecidableEq

/-- The first error after the record was placed; a missing security module is none. -/
def CreateFaults.late (f : CreateFaults) : Option Errno :=
  f.acl.or ((if f.security = some .eopnotsupp then none else f.security).or f.insert)

/-- `vdfs4_create`; `ino` is the free number that `vdfs4_get_free_inode` finds. -/
def vdfs4Create (f : CreateFaults) (v : Volume) (dir : Nat) (name : CString) (kind : FileKind)
    (ino : Nat) : Outcome :=
  if vdfs4FileNameLen < name.length then some (some .enametoolong, v)
  else if f.name then some (some .enomem, v)
  else
    match f.inode with
    | some e => some (some e, v)
    | none =>
      let i : CatalogInode := ⟨kind, 0, 1, 0, false, false, dir, name, .file, finalOrphanId⟩
      match i.getRecordTypeOnMode with
      | .error e => some (some e, v)
      | .ok recordType =>
        match placeAndFill comp f.place (v.setInode ino i) ino i dir name recordType with
        | (some e, v) => some (some e, v.dropInode ino)
        | (none, v) =>
          match f.late with
          | some e =>
            -- `clear_nlink` and the last reference
            let v := v.modifyInode ino fun i => { i with nlink := 0 }
            (Volume.vdfs4EvictInode comp f.evict v ino).map fun v => (some e, v)
          | none => some (none, v.modifyInode dir fun d => { d with isize := d.isize + 1 })

/-- The failures inside one `vdfs4_link`. -/
structure LinkFaults where
  transform : TransformFaults := {}
  place : PlaceFaults := {}
deriving DecidableEq

/-- `add_hlink_record` and the end of `vdfs4_link`. -/
def linkTail (f : LinkFaults) (v : Volume) (dir : Nat) (name : CString) (ino : Nat)
    (kind : FileKind) : Outcome :=
  match vdfs4CattreePlaceRecord comp f.place v.catalog ino dir name .hlink with
  | (some e, c) => some (some e, { v with catalog := c })
  | (none, c) =>
    let c := modify comp.compFn ⟨dir, name, ino⟩ (fun r => { r with fileMode := kind }) c
    let v := { v with catalog := c }.modifyInode ino fun i => { i with nlink := i.nlink + 1 }
    some (none, v.modifyInode dir fun d => { d with isize := d.isize + 1 })

/-- `vdfs4_link`: a new entry for an inode that has one. -/
def vdfs4Link (f : LinkFaults) (v : Volume) (dir : Nat) (name : CString) (ino : Nat) : Outcome :=
  match v.inodes ino with
  | none => none
  | some i =>
    if vdfs4FileNameLen < name.length then some (some .enametoolong, v)
    else if vdfs4LinkMax ≤ i.nlink then some (some .emlink, v)
    else if i.hardLink then linkTail comp f v dir name ino i.kind
    else
      match transformIntoHlink comp f.transform v.catalog ino i with
      | (some e, c, i) => some (some e, { v with catalog := c }.setInode ino i)
      | (none, c, i) => linkTail comp f ({ v with catalog := c }.setInode ino i) dir name ino i.kind

/-! ### Renaming -/

/-- The failures inside one `vdfs4_rename`: those of the removal of an existing target, the
allocation of the name, the new record, the removal of the old record and of the new one after
that, and with `RENAME_WHITEOUT` the dentry and the creation of the whiteout, the old record again
and the removal of the new one. -/
structure RenameFaults where
  target : UnlinkFaults := {}
  name : Bool := false
  place : PlaceFaults := {}
  remove : RemoveFaults := {}
  undo : RemoveFaults := {}
  dentry : Bool := false
  whiteout : CreateFaults := {}
  replace : PlaceFaults := {}
  removeNew : RemoveFaults := {}
deriving DecidableEq

/-- An entry: the directory, the name and the inode. -/
structure Dentry where
  dir : Nat
  name : CString
  ino : Nat
deriving DecidableEq

/-- The key of the record of an entry. -/
def Dentry.key (d : Dentry) : CattreeKey := ⟨d.dir, d.name, d.ino⟩

/-- `vdfs4_create_whiteout`; `ino` is the number of the new inode. -/
def vdfs4CreateWhiteout (f : RenameFaults) (v : Volume) (dir : Nat) (name : CString) (ino : Nat) :
    Outcome :=
  if f.dentry then some (some .enomem, v) else vdfs4Create comp f.whiteout v dir name .chr ino

/-- The label `error_whiteout` of `vdfs4_rename`. -/
def errorWhiteout (f : RenameFaults) (v : Volume) (e : Errno) (old : Dentry) (i : CatalogInode)
    (newDir : Nat) (newName : CString) (recordType : RecordType) : Outcome :=
  match placeAndFill comp f.replace v old.ino i old.dir old.name recordType with
  | (some _, v) => some (some e, v)
  | (none, v) =>
    let c := (vdfs4CattreeRemove comp f.removeNew v.catalog old.ino newDir newName recordType).2
    let v := { v with catalog := c }
    some (some e,
      if i.hardLink then v
      else v.modifyInode old.ino fun j => { j with parentId := old.dir, name := i.name })

/-- The end of `vdfs4_rename`: the sizes of both directories. -/
def renameSizes (v : Volume) (oldDir newDir : Nat) : Volume :=
  (v.modifyInode oldDir fun d => { d with isize := d.isize - 1 }).modifyInode newDir
    fun d => { d with isize := d.isize + 1 }

/-- The part of `vdfs4_rename` after an existing target is gone. -/
def renameTail (f : RenameFaults) (v : Volume) (old : Dentry) (newDir : Nat) (newName : CString)
    (whiteout : Option Nat) : Outcome :=
  match v.inodes old.ino with
  | none => none
  | some i =>
    if i.hardLink = false ∧ f.name = true then some (some .enomem, v)
    else
      match i.getRecordTypeOnMode with
      | .error e => some (some e, v)
      | .ok recordType =>
        match placeAndFill comp f.place v old.ino i newDir newName recordType with
        | (some e, v) => some (some e, v)
        | (none, v) =>
          match vdfs4CattreeRemove comp f.remove v.catalog old.ino old.dir old.name recordType with
          | (some e, c) =>
            let c := (vdfs4CattreeRemove comp f.undo c old.ino newDir newName recordType).2
            some (some e, { v with catalog := c })
          | (none, c) =>
            let v := { v with catalog := c }
            let v := if i.hardLink then v
              else v.modifyInode old.ino fun j => { j with parentId := newDir, name := newName }
            match whiteout with
            | none => some (none, renameSizes v old.dir newDir)
            | some ino =>
              match vdfs4CreateWhiteout comp f v old.dir old.name ino with
              | none => none
              | some (some e, v) => errorWhiteout comp f v e old i newDir newName recordType
              | some (none, v) => some (none, renameSizes v old.dir newDir)

/-- `vdfs4_rename`: `target` is the inode of the new entry, if there is one, and `whiteout` the
number for a whiteout, if one is asked for. -/
def vdfs4Rename (f : RenameFaults) (v : Volume) (old : Dentry) (newDir : Nat) (newName : CString)
    (target whiteout : Option Nat) : Outcome :=
  if vdfs4FileNameLen < newName.length then some (some .enametoolong, v)
  else
    match target with
    | none => renameTail comp f v old newDir newName whiteout
    | some t =>
      match v.inodes t with
      | none => none
      | some j =>
        match if j.kind = .dir then vdfs4Rmdir comp f.target v newDir newName t
          else vdfs4Unlink comp f.target v newDir newName t with
        | none => none
        | some (some e, v) => some (some e, v)
        | some (none, v) => renameTail comp f v old newDir newName whiteout

/-- The failures inside one `vdfs4_cross_rename`: the names, the two new records, the removals of
the two old ones, and the insertion and the removals that undo them. -/
structure CrossRenameFaults where
  newName : Bool := false
  oldName : Bool := false
  place₁ : PlaceFaults := {}
  place₂ : PlaceFaults := {}
  remove₁ : RemoveFaults := {}
  remove₂ : RemoveFaults := {}
  replace : PlaceFaults := {}
  undo₂ : RemoveFaults := {}
  undo₁ : RemoveFaults := {}
deriving DecidableEq

/-- The label `remove_record1` of `vdfs4_cross_rename`. -/
def removeRecord₁ (f : CrossRenameFaults) (v : Volume) (e : Errno) (old new : Dentry)
    (oldType : RecordType) : Outcome :=
  let c := (vdfs4CattreeRemove comp f.undo₁ v.catalog old.ino new.dir new.name oldType).2
  some (some e, { v with catalog := c })

/-- The label `remove_record2`. -/
def removeRecord₂ (f : CrossRenameFaults) (v : Volume) (e : Errno) (old new : Dentry)
    (oldType newType : RecordType) : Outcome :=
  let c := (vdfs4CattreeRemove comp f.undo₂ v.catalog new.ino old.dir old.name newType).2
  removeRecord₁ comp f { v with catalog := c } e old new oldType

/-- `vdfs4_cross_rename`. The two records are filled after both are placed, and the record that
`remove_record3` places again is not checked before it is filled. -/
def vdfs4CrossRename (f : CrossRenameFaults) (v : Volume) (old new : Dentry) : Outcome :=
  match v.inodes old.ino, v.inodes new.ino with
  | some i, some j =>
    if i.hardLink = false ∧ f.newName = true then some (some .enomem, v)
    else if j.hardLink = false ∧ f.oldName = true then some (some .enomem, v)
    else
      match i.getRecordTypeOnMode, j.getRecordTypeOnMode with
      | .error e, _ => some (some e, v)
      | .ok _, .error e => some (some e, v)
      | .ok oldType, .ok newType =>
        match vdfs4CattreePlaceRecord comp f.place₁ v.catalog old.ino new.dir new.name oldType with
        | (some e, c) => some (some e, { v with catalog := c })
        | (none, c) =>
          match vdfs4CattreePlaceRecord comp f.place₂ c new.ino old.dir old.name newType with
          | (some e, c) => removeRecord₁ comp f { v with catalog := c } e old new oldType
          | (none, c) =>
            let c := modify comp.compFn ⟨new.dir, new.name, old.ino⟩ i.fillRecord c
            let c := modify comp.compFn ⟨old.dir, old.name, new.ino⟩ j.fillRecord c
            let v := { v with catalog := c }.setInode old.ino { i with recordType := oldType }
            let v := v.setInode new.ino { j with recordType := newType }
            match vdfs4CattreeRemove comp f.remove₁ v.catalog old.ino old.dir old.name oldType with
            | (some e, c) => removeRecord₂ comp f { v with catalog := c } e old new oldType newType
            | (none, c) =>
              let v := { v with catalog := c }
              match vdfs4CattreeRemove comp f.remove₂ v.catalog new.ino new.dir
                new.name newType with
              | (some e, c) =>
                match placeAndFill comp f.replace { v with catalog := c } old.ino i old.dir old.name
                    oldType with
                | (some _, _) => none
                | (none, v) => removeRecord₂ comp f v e old new oldType newType
              | (none, c) =>
                let v := { v with catalog := c }
                let v := if i.hardLink then v
                  else v.modifyInode old.ino fun i =>
                  { i with parentId := new.dir, name := new.name }
                let v := if j.hardLink then v
                  else v.modifyInode new.ino fun j =>
                  { j with parentId := old.dir, name := old.name }
                some (none, v)
  | _, _ => none

end

end Vdfs4
