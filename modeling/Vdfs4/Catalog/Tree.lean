import Vdfs4.Catalog.Key
import Vdfs4.Snapshot.Table

/-!
# The catalog tree

The catalog holds the directory structure of a volume. A **file or folder record** under
(directory, name, inode) carries the attributes of an inode, and a **back link** (ilink) under
(inode, name, directory) leads from the inode's number to it. A **hard link reference** stands
in a directory without a back link; the attributes are then in the hard link **body** under
(inode, empty name, inode).

* `CatalogRecord`, `Catalog` — records and the leaves of the tree in key order;
* `vdfs4CattreePlaceRecord`, `vdfs4CattreeRemove` — each up to two updates of the tree, any of
  which may **fail with nothing inserted or removed** as its fault argument says;
* `vdfs4CattreeFind`, `vdfs4CattreeFindInode`, `vdfs4CattreeGetFirstChild`, `vdfs4Iget` — the
  searches;
* `transformIntoHlink` — a file record becomes a reference and a body.
-/

namespace Vdfs4

open OrderedMap

/-- `VDFS4_CATALOG_FOLDER_RECORD` and the other record types. -/
inductive RecordType where
  | folder | file | hlink | ilink
deriving DecidableEq

/-- The file type in a mode. -/
inductive FileKind where
  | dir | reg | lnk | chr | blk | fifo | sock | other
deriving DecidableEq

/-- The value of a record: `struct vdfs4_catalog_folder_record` with the flags
`ORPHAN_INODE` and `HARD_LINK`; a hard link reference uses the mode only, an ilink nothing. -/
structure CatalogRecord where
  recordType : RecordType
  fileMode : FileKind
  orphan : Bool
  hardLink : Bool
  linksCount : Nat
  totalItemsCount : Nat
  nextOrphanId : Nat
deriving DecidableEq

/-- A record as it is placed, all zero but its type. -/
def CatalogRecord.blank (recordType : RecordType) : CatalogRecord :=
  ⟨recordType, .other, false, false, 0, 0, 0⟩

/-- The record carries the attributes of an inode. -/
def CatalogRecord.IsInode (r : CatalogRecord) : Prop :=
  r.recordType = .folder ∨ r.recordType = .file

instance (r : CatalogRecord) : Decidable r.IsInode := inferInstanceAs (Decidable (_ ∨ _))

/-- `vdfs4_cattree_is_orphan`. -/
def CatalogRecord.isOrphan (r : CatalogRecord) : Bool :=
  match r.recordType with
  | .folder => r.orphan
  | .file => r.orphan
  | _ => false

/-- A live directory entry: neither a back link nor an orphan. -/
def CatalogRecord.Live (r : CatalogRecord) : Prop :=
  r.recordType ≠ .ilink ∧ r.isOrphan = false

instance (r : CatalogRecord) : Decidable r.Live := inferInstanceAs (Decidable (_ ∧ _))

/-- The leaves of the catalog tree. -/
abbrev Catalog := List (CattreeKey × CatalogRecord)

/-- The key of the back link of a record. -/
def CattreeKey.ilinkKey (k : CattreeKey) : CattreeKey := ⟨k.objectId, k.name, k.parentId⟩

/-- The key of the body of a hard link. -/
def bodyKey (objectId : Nat) : CattreeKey := ⟨objectId, CString.empty, objectId⟩

/-- `VDFS4_ROOT_INO`. -/
def rootIno : Nat := 1

/-- The record of the root directory: parent `VDFS4_ROOTDIR_OBJ_ID`, name `root`. -/
def rootKey : CattreeKey := ⟨0, ⟨[114, 111, 111, 116], by decide⟩, rootIno⟩

/-! ### Names of one letter -/

def nameA : CString := ⟨[97], by decide⟩

def nameB : CString := ⟨[98], by decide⟩

def nameC : CString := ⟨[99], by decide⟩

def nameD : CString := ⟨[100], by decide⟩

def nameP : CString := ⟨[112], by decide⟩

/-! ### Updates -/

/-- The failures inside one `vdfs4_cattree_remove`: the allocation of the key, the removal of
the back link and the removal of the record. -/
structure RemoveFaults where
  alloc : Bool := false
  ilink : Option Errno := none
  record : Option Errno := none
deriving DecidableEq

/-- The failures inside one `vdfs4_cattree_place_record`: the insertion of the back link and of
the record (or the allocation of their keys), and the failures of the removal that undoes the
first. -/
structure PlaceFaults where
  ilink : Option Errno := none
  insert : Option Errno := none
  undo : RemoveFaults := {}
deriving DecidableEq

section

variable (comp : Comparison)

/-- `vdfs4_btree_place_data` for a key that could be allocated, or `fault`. -/
def vdfs4BtreePlaceData (fault : Option Errno) (c : Catalog) (key : CattreeKey)
    (r : CatalogRecord) : Except Errno Catalog :=
  match fault with
  | some e => .error e
  | none =>
    match place comp.compFn key r c with
    | none => .error .eexist
    | some c => .ok c

/-- `vdfs4_btree_remove`, or `fault`. -/
def vdfs4BtreeRemove (fault : Option Errno) (c : Catalog) (key : CattreeKey) :
    Except Errno Catalog :=
  match fault with
  | some e => .error e
  | none =>
    match remove comp.compFn key c with
    | none => .error .enoent
    | some c => .ok c

/-- The removal of the record at the end of `vdfs4_cattree_remove`. -/
def removeRecord (fault : Option Errno) (c : Catalog) (key : CattreeKey) :
    Option Errno × Catalog :=
  match vdfs4BtreeRemove comp fault c key with
  | .error e => (some e, c)
  | .ok c => (none, c)

/-- `vdfs4_cattree_remove`: the error it returns, if any, and the catalog it leaves. -/
def vdfs4CattreeRemove (f : RemoveFaults) (c : Catalog) (objectId parentId : Nat)
    (name : CString) (recordType : RecordType) : Option Errno × Catalog :=
  if f.alloc then (some .enomem, c)
  else if objectId ≠ parentId ∧ recordType ≠ .hlink ∧ recordType ≠ .ilink then
    match vdfs4BtreeRemove comp f.ilink c ⟨objectId, name, parentId⟩ with
    | .error e => (some e, c)
    | .ok c => removeRecord comp f.record c ⟨parentId, name, objectId⟩
  else removeRecord comp f.record c ⟨parentId, name, objectId⟩

/-- `vdfs4_cattree_remove_ilink`. -/
def vdfs4CattreeRemoveIlink (f : RemoveFaults) (c : Catalog) (objectId parentId : Nat)
    (name : CString) : Option Errno × Catalog :=
  vdfs4CattreeRemove comp f c parentId objectId name .ilink

/-- `vdfs4_cattree_insert_ilink`: the parent is stored as object and the object as parent. -/
def vdfs4CattreeInsertIlink (fault : Option Errno) (c : Catalog) (objectId parentId : Nat)
    (name : CString) : Option Errno × Catalog :=
  match vdfs4BtreePlaceData comp fault c ⟨objectId, name, parentId⟩ (.blank .ilink) with
  | .error e => (some e, c)
  | .ok c => (none, c)

/-- The second half of `vdfs4_cattree_place_record`; a failure removes a back link **whether
or not one was inserted**. -/
def placeMain (f : PlaceFaults) (c : Catalog) (objectId parentId : Nat) (name : CString)
    (recordType : RecordType) : Option Errno × Catalog :=
  match vdfs4BtreePlaceData comp f.insert c ⟨parentId, name, objectId⟩ (.blank recordType) with
  | .error e => (some e, (vdfs4CattreeRemoveIlink comp f.undo c objectId parentId name).2)
  | .ok c => (none, c)

/-- `vdfs4_cattree_place_record`. -/
def vdfs4CattreePlaceRecord (f : PlaceFaults) (c : Catalog) (objectId parentId : Nat)
    (name : CString) (recordType : RecordType) : Option Errno × Catalog :=
  if objectId ≠ parentId ∧ recordType ≠ .hlink then
    match vdfs4CattreeInsertIlink comp f.ilink c objectId parentId name with
    | (some e, c) => (some e, c)
    | (none, c) => placeMain comp f c objectId parentId name recordType
  else placeMain comp f c objectId parentId name recordType

/-! ### Searches -/

/-- `vdfs4_cattree_find_inode`: the record of a key that is known in full. -/
def vdfs4CattreeFindInode (c : Catalog) (objectId parentId : Nat) (name : CString) :
    Except Errno (Cursor CattreeKey CatalogRecord) :=
  match seek comp.compFn ⟨parentId, name, objectId⟩ c with
  | none => .error .enoent
  | some record =>
    if comp.compFn record.1.1 ⟨parentId, name, objectId⟩ ≠ 0 then .error .enoent else .ok record

/-- `GREATEST_AVAIL_ID`. -/
def greatestAvailId : Nat := 2 ^ 64 - 1

/-- The loop of `vdfs4_cattree_find`: the first record of the name that is not an orphan. -/
def findLoop (key : CattreeKey) : Catalog → Except Errno (Cursor CattreeKey CatalogRecord)
  | [] => .error .enoent
  | record :: rest =>
    if comp.compFn record.1 { key with objectId := record.1.objectId } ≠ 0 then .error .enoent
    else if record.2.isOrphan then findLoop key rest
    else .ok (record, rest)

/-- `vdfs4_cattree_find`: a record of the name that is not an orphan, looked for at the last
record of the name and then from the first one on. -/
def vdfs4CattreeFind (c : Catalog) (parentId : Nat) (name : CString) :
    Except Errno (Cursor CattreeKey CatalogRecord) :=
  let key : CattreeKey := ⟨parentId, name, greatestAvailId⟩
  match seek comp.compFn key c with
  | none => .error .enoent
  | some record =>
    if comp.compFn record.1.1 { key with objectId := record.1.1.objectId } ≠ 0 then .error .enoent
    else if !record.1.2.isOrphan then .ok record
    else
      match seek comp.compFn { key with objectId := 0 } c with
      | none => .error .enoent
      | some record => findLoop comp key record.2

/-- `vdfs4_cattree_get_first_child`. -/
def vdfs4CattreeGetFirstChild (c : Catalog) (catalogId : Nat) :
    Except Errno (Cursor CattreeKey CatalogRecord) :=
  match seek comp.compFn ⟨catalogId, CString.empty, 0⟩ c with
  | none => .error .enoent
  | some record =>
    match next record with
    | none => .error .enoent
    | some record => .ok record

/-- The loop of `__vdfs4_iget` over the records from the first child on: the record an inode is
made from. -/
def igetLoop (c : Catalog) (ino : Nat) : Catalog → Except Errno (CattreeKey × CatalogRecord)
  | [] => .error .enoent
  | record :: rest =>
    if record.1.parentId ≠ ino then .error .enoent
    else if record.2.recordType = .ilink then
      (vdfs4CattreeFindInode comp c ino record.1.objectId record.1.name).map Prod.fst
    else if record.1.objectId = ino then .ok record
    else igetLoop c ino rest

/-- `__vdfs4_iget`: the record of an inode that is not in memory. -/
def vdfs4Iget (c : Catalog) (ino : Nat) : Except Errno (CattreeKey × CatalogRecord) :=
  match vdfs4CattreeGetFirstChild comp c ino with
  | .error e => .error e
  | .ok record => igetLoop comp c ino (record.1 :: record.2)

end

/-! ### Inodes in memory -/

/-- `struct inode` with `struct vdfs4_inode_info`: what the directory operations read and
write. The name of a hard linked inode is `NULL`, here the empty name. -/
structure CatalogInode where
  kind : FileKind
  rdev : Nat
  nlink : Nat
  isize : Nat
  hardLink : Bool
  orphan : Bool
  parentId : Nat
  name : CString
  recordType : RecordType
  nextOrphanId : Nat
deriving DecidableEq

/-- `__get_record_type_on_mode`. -/
def CatalogInode.getRecordTypeOnMode (i : CatalogInode) : Except Errno RecordType :=
  if i.hardLink then .ok .hlink
  else
    match i.kind with
    | .dir | .fifo | .sock | .chr | .blk => .ok .folder
    | .reg | .lnk => .ok .file
    | .other => .error .einval

/-- The failures inside one `transform_into_hlink`: the removal of the back link, the insertion
of the body, the search of the record, the removal of the body after that and the insertion of
the back link at the end. -/
structure TransformFaults where
  ilink : RemoveFaults := {}
  body : PlaceFaults := {}
  find : Option Errno := none
  undo : RemoveFaults := {}
  relink : Option Errno := none
deriving DecidableEq

section

variable (comp : Comparison)

/-- The label `out_hlink` of `transform_into_hlink`: **an insertion undoes the removal**, and
its result is not looked at. -/
def outHlink (f : TransformFaults) (e : Errno) (c : Catalog) (ino : Nat) (i : CatalogInode) :
    Option Errno × Catalog × CatalogInode :=
  (some e, (vdfs4CattreeInsertIlink comp f.relink c ino i.parentId i.name).2, i)

/-- The end of `transform_into_hlink`: the value moves to the body and the record becomes a
reference. -/
def moveToBody (c : Catalog) (ino : Nat) (i : CatalogInode)
    (record : CattreeKey × CatalogRecord) : Option Errno × Catalog × CatalogInode :=
  let c := modify comp.compFn (bodyKey ino)
    (fun hlink => { record.2 with recordType := hlink.recordType }) c
  let c := modify comp.compFn record.1
    (fun _ => { CatalogRecord.blank .hlink with fileMode := i.kind }) c
  (none, c, { i with parentId := 0, name := CString.empty, hardLink := true })

/-- `transform_into_hlink`. -/
def transformIntoHlink (f : TransformFaults) (c : Catalog) (ino : Nat) (i : CatalogInode) :
    Option Errno × Catalog × CatalogInode :=
  match vdfs4CattreeRemoveIlink comp f.ilink c ino i.parentId i.name with
  | (some e, c) => (some e, c, i)
  | (none, c) =>
    match i.getRecordTypeOnMode with
    | .error e => outHlink comp f e c ino i
    | .ok recordType =>
      match vdfs4CattreePlaceRecord comp f.body c ino ino CString.empty recordType with
      | (some e, c) => outHlink comp f e c ino i
      | (none, c) =>
        match f.find.elim (vdfs4CattreeFindInode comp c ino i.parentId i.name) .error with
        | .error e =>
          let c := (vdfs4CattreeRemove comp f.undo c ino ino CString.empty i.recordType).2
          outHlink comp f e c ino i
        | .ok record => moveToBody comp c ino i record.1

end

/-! ### What one update does -/

/-- The catalog in the order of its comparison function. -/
abbrev Catalog.Ordered (comp : Comparison) (c : Catalog) : Prop := Sorted comp.rank c

/-- A record came in under a new key. -/
structure Inserted (comp : Comparison) (c c' : Catalog) (k : CattreeKey) (r : CatalogRecord) :
    Prop where
  ordered : c'.Ordered comp
  fresh : ∀ x ∈ c, comp.rank x.1 ≠ comp.rank k
  mem_iff : ∀ x, x ∈ c' ↔ x = (k, r) ∨ x ∈ c

/-- The record of a key went. -/
structure Erased (comp : Comparison) (c c' : Catalog) (k : CattreeKey) : Prop where
  ordered : c'.Ordered comp
  present : ∃ x ∈ c, comp.rank x.1 = comp.rank k
  mem_iff : ∀ x, x ∈ c' ↔ x ∈ c ∧ comp.rank x.1 ≠ comp.rank k

variable {comp : Comparison} {c c' : Catalog} {k : CattreeKey} {r : CatalogRecord}

/-- To insert and to remove again changes nothing. -/
theorem Inserted.erased_eq (hc : c.Ordered comp) {c'' : Catalog} (hi : Inserted comp c c' k r)
    (he : Erased comp c' c'' k) : c'' = c := by
  refine he.ordered.ext hc fun x => ?_
  rw [he.mem_iff, hi.mem_iff]
  constructor
  · rintro ⟨rfl | hx, hne⟩
    · exact absurd rfl hne
    · exact hx
  · intro hx
    exact ⟨.inr hx, hi.fresh x hx⟩

/-- An insertion is done, refused by the tree, or refused because the key is taken. -/
theorem placeData_cases (hc : c.Ordered comp) (fault : Option Errno) (k : CattreeKey)
    (r : CatalogRecord) :
    (∃ c', vdfs4BtreePlaceData comp fault c k r = .ok c' ∧ fault = none ∧ Inserted comp c c' k r) ∨
      ∃ e, vdfs4BtreePlaceData comp fault c k r = .error e ∧
        (fault = some e ∨ fault = none ∧ ∃ x ∈ c, comp.rank x.1 = comp.rank k) := by
  cases fault with
  | some e => exact .inr ⟨e, rfl, .inl rfl⟩
  | none =>
    rw [vdfs4BtreePlaceData]
    cases hplace : place comp.compFn k r c with
    | none =>
      exact .inr ⟨.eexist, rfl, .inr ⟨rfl, (hc.place_eq_none_iff comp.rankedBy _ _).mp hplace⟩⟩
    | some c' =>
      refine .inl ⟨c', rfl, rfl, hc.place comp.rankedBy hplace, fun x hx hrank => ?_,
        fun x => mem_place hplace x⟩
      have hnone := (hc.place_eq_none_iff comp.rankedBy k r).mpr ⟨x, hx, hrank⟩
      rw [hplace] at hnone
      cases hnone

/-- A removal is done, refused by the tree, or there is nothing to remove. -/
theorem btreeRemove_cases (hc : c.Ordered comp) (fault : Option Errno) (k : CattreeKey) :
    (∃ c', vdfs4BtreeRemove comp fault c k = .ok c' ∧ fault = none ∧ Erased comp c c' k) ∨
      ∃ e, vdfs4BtreeRemove comp fault c k = .error e ∧
        (fault = some e ∨ fault = none ∧ ∀ x ∈ c, comp.rank x.1 ≠ comp.rank k) := by
  cases fault with
  | some e => exact .inr ⟨e, rfl, .inl rfl⟩
  | none =>
    rw [vdfs4BtreeRemove]
    cases hrem : remove comp.compFn k c with
    | none =>
      exact .inr ⟨.enoent, rfl,
        .inr ⟨rfl, (remove_eq_none_iff comp.rankedBy _ _).mp hrem⟩⟩
    | some c' =>
      refine .inl ⟨c', rfl, rfl, hc.remove hrem, ?_,
        fun x => hc.mem_remove comp.rankedBy hrem x⟩
      by_contra habs
      have hnone := (remove_eq_none_iff comp.rankedBy c k).mpr
        fun x hx hrank => habs ⟨x, hx, hrank⟩
      rw [hrem] at hnone
      cases hnone

theorem removeRecord_cases (hc : c.Ordered comp) (fault : Option Errno) (k : CattreeKey) :
    (∃ c', removeRecord comp fault c k = (none, c') ∧ fault = none ∧ Erased comp c c' k) ∨
      ∃ e, removeRecord comp fault c k = (some e, c) ∧
        (fault = some e ∨ fault = none ∧ ∀ x ∈ c, comp.rank x.1 ≠ comp.rank k) := by
  rw [removeRecord]
  rcases btreeRemove_cases hc fault k with ⟨c', h, hf, he⟩ | ⟨e, h, hf⟩
  · exact .inl ⟨c', by rw [h], hf, he⟩
  · exact .inr ⟨e, by rw [h], hf⟩

variable {o p : Nat} {n : CString} {t : RecordType}

section

variable (hc : c.Ordered comp)

include hc

/-- **Removal of a record with a back link**: not begun, only the back link, or both. -/
theorem cattreeRemove_linked (f : RemoveFaults) (n : CString) (hop : o ≠ p)
    (ht : t ≠ .hlink ∧ t ≠ .ilink) :
    (∃ e, vdfs4CattreeRemove comp f c o p n t = (some e, c) ∧
        (f.alloc = true ∨ f.ilink ≠ none ∨
          ∀ x ∈ c, comp.rank x.1 ≠ comp.rank ⟨o, n, p⟩)) ∨
      (∃ e c1, vdfs4CattreeRemove comp f c o p n t = (some e, c1) ∧ Erased comp c c1 ⟨o, n, p⟩ ∧
        (f.record ≠ none ∨ ∀ x ∈ c1, comp.rank x.1 ≠ comp.rank ⟨p, n, o⟩)) ∨
      ∃ c1 c2, vdfs4CattreeRemove comp f c o p n t = (none, c2) ∧
        Erased comp c c1 ⟨o, n, p⟩ ∧ Erased comp c1 c2 ⟨p, n, o⟩ := by
  rw [vdfs4CattreeRemove]
  by_cases halloc : f.alloc = true
  · exact .inl ⟨.enomem, by rw [if_pos halloc], .inl halloc⟩
  rw [if_neg halloc, if_pos ⟨hop, ht⟩]
  rcases btreeRemove_cases hc f.ilink ⟨o, n, p⟩ with ⟨c1, h1, -, he1⟩ | ⟨e, h1, hf⟩
  · right
    rw [h1]
    rcases removeRecord_cases he1.ordered f.record ⟨p, n, o⟩ with ⟨c2, h2, -, he2⟩ | ⟨e, h2, hf⟩
    · exact .inr ⟨c1, c2, h2, he1, he2⟩
    · refine .inl ⟨e, c1, h2, he1, ?_⟩
      rcases hf with hf | ⟨-, habs⟩
      · exact .inl (by simp [hf])
      · exact .inr habs
  · left
    rw [h1]
    rcases hf with hf | ⟨-, habs⟩
    · exact ⟨e, rfl, .inr (.inl (by simp [hf]))⟩
    · exact ⟨e, rfl, .inr (.inr habs)⟩

/-- **Removal of a record without a back link.** -/
theorem cattreeRemove_single (f : RemoveFaults) (n : CString)
    (h : ¬ (o ≠ p ∧ t ≠ .hlink ∧ t ≠ .ilink)) :
    (∃ e, vdfs4CattreeRemove comp f c o p n t = (some e, c) ∧
        (f.alloc = true ∨ f.record ≠ none ∨
          ∀ x ∈ c, comp.rank x.1 ≠ comp.rank ⟨p, n, o⟩)) ∨
      ∃ c', vdfs4CattreeRemove comp f c o p n t = (none, c') ∧ Erased comp c c' ⟨p, n, o⟩ := by
  rw [vdfs4CattreeRemove]
  by_cases halloc : f.alloc = true
  · exact .inl ⟨.enomem, by rw [if_pos halloc], .inl halloc⟩
  rw [if_neg halloc, if_neg h]
  rcases removeRecord_cases hc f.record ⟨p, n, o⟩ with ⟨c', h', -, he⟩ | ⟨e, h', hf⟩
  · exact .inr ⟨c', h', he⟩
  · left
    rcases hf with hf | ⟨-, habs⟩
    · exact ⟨e, h', .inr (.inl (by simp [hf]))⟩
    · exact ⟨e, h', .inr (.inr habs)⟩

/-- The removal of a back link is the removal of its key alone. -/
theorem removeIlink_cases (f : RemoveFaults) (o p : Nat) (n : CString) :
    (∃ e, vdfs4CattreeRemoveIlink comp f c o p n = (some e, c) ∧
        (f.alloc = true ∨ f.record ≠ none ∨
          ∀ x ∈ c, comp.rank x.1 ≠ comp.rank ⟨o, n, p⟩)) ∨
      ∃ c', vdfs4CattreeRemoveIlink comp f c o p n = (none, c') ∧ Erased comp c c' ⟨o, n, p⟩ :=
  cattreeRemove_single hc f n (by simp)

/-- The end of a placement: done, or refused with a back link removed if there was one. -/
theorem placeMain_cases (f : PlaceFaults) (o p : Nat) (n : CString) (t : RecordType) :
    (∃ c', placeMain comp f c o p n t = (none, c') ∧ f.insert = none ∧
        Inserted comp c c' ⟨p, n, o⟩ (.blank t)) ∨
      ∃ e c', placeMain comp f c o p n t = (some e, c') ∧
        (f.insert ≠ none ∨ ∃ x ∈ c, comp.rank x.1 = comp.rank ⟨p, n, o⟩) ∧
        (c' = c ∧ (f.undo.alloc = true ∨ f.undo.record ≠ none ∨
            ∀ x ∈ c, comp.rank x.1 ≠ comp.rank ⟨o, n, p⟩) ∨
          Erased comp c c' ⟨o, n, p⟩) := by
  rw [placeMain]
  rcases placeData_cases hc f.insert ⟨p, n, o⟩ (.blank t) with ⟨c', h, hf, hi⟩ | ⟨e, h, hf⟩
  · exact .inl ⟨c', by rw [h], hf, hi⟩
  right
  have hwhy : f.insert ≠ none ∨ ∃ x ∈ c, comp.rank x.1 = comp.rank ⟨p, n, o⟩ := by
    rcases hf with hf | ⟨-, hx⟩
    · exact .inl (by simp [hf])
    · exact .inr hx
  rw [h]
  rcases removeIlink_cases hc f.undo o p n with ⟨e', h', hwhy'⟩ | ⟨c', h', he⟩
  · exact ⟨e, c, by rw [h'], hwhy, .inl ⟨rfl, hwhy'⟩⟩
  · exact ⟨e, c', by rw [h'], hwhy, .inr he⟩

/-- **Placement of a record with a back link**: nothing, a back link whose removal failed, or
both. -/
theorem placeRecord_linked (f : PlaceFaults) (n : CString) (hop : o ≠ p) (ht : t ≠ .hlink) :
    (∃ e, vdfs4CattreePlaceRecord comp f c o p n t = (some e, c) ∧
        (f.ilink ≠ none ∨ f.insert ≠ none ∨
          ∃ x ∈ c, comp.rank x.1 = comp.rank ⟨o, n, p⟩ ∨ comp.rank x.1 = comp.rank ⟨p, n, o⟩)) ∨
      (∃ e c1, vdfs4CattreePlaceRecord comp f c o p n t = (some e, c1) ∧
        Inserted comp c c1 ⟨o, n, p⟩ (.blank .ilink) ∧
        (f.undo.alloc = true ∨ f.undo.record ≠ none) ∧
        (f.insert ≠ none ∨ ∃ x ∈ c, comp.rank x.1 = comp.rank ⟨p, n, o⟩)) ∨
      ∃ c1 c2, vdfs4CattreePlaceRecord comp f c o p n t = (none, c2) ∧
        Inserted comp c c1 ⟨o, n, p⟩ (.blank .ilink) ∧
        Inserted comp c1 c2 ⟨p, n, o⟩ (.blank t) := by
  rw [vdfs4CattreePlaceRecord, if_pos ⟨hop, ht⟩, vdfs4CattreeInsertIlink]
  rcases placeData_cases hc f.ilink ⟨o, n, p⟩ (.blank .ilink) with ⟨c1, h1, -, hi1⟩ | ⟨e, h1, hf⟩
  · rw [h1]
    -- what took the key of the record was there before
    have hbefore : (f.insert ≠ none ∨ ∃ x ∈ c1, comp.rank x.1 = comp.rank ⟨p, n, o⟩) →
        f.insert ≠ none ∨ ∃ x ∈ c, comp.rank x.1 = comp.rank ⟨p, n, o⟩ := by
      rintro (hfault | ⟨x, hx, hrank⟩)
      · exact .inl hfault
      · rcases (hi1.mem_iff x).mp hx with rfl | hx
        · exact absurd (Comparison.rank_eq_iff.mp hrank).1 hop
        · exact .inr ⟨x, hx, hrank⟩
    rcases placeMain_cases hi1.ordered f o p n t with
      ⟨c2, h2, -, hi2⟩ | ⟨e, c2, h2, hwhy, ⟨rfl, hundo⟩ | he⟩
    · exact .inr (.inr ⟨c1, c2, h2, hi1, hi2⟩)
    · -- the back link that was just inserted is there, so the undoing itself failed
      refine .inr (.inl ⟨e, c2, h2, hi1, ?_, hbefore hwhy⟩)
      rcases hundo with hundo | hundo | habs
      · exact .inl hundo
      · exact .inr hundo
      · exact absurd rfl (habs _ ((hi1.mem_iff _).mpr (.inl rfl)))
    · refine .inl ⟨e, by rw [← hi1.erased_eq hc he]; exact h2, .inr ?_⟩
      exact (hbefore hwhy).imp_right fun ⟨x, hx, hrank⟩ => ⟨x, hx, .inr hrank⟩
  · rw [h1]
    refine .inl ⟨e, rfl, ?_⟩
    rcases hf with hf | ⟨-, x, hx, hrank⟩
    · exact .inl (by simp [hf])
    · exact .inr (.inr ⟨x, hx, .inl hrank⟩)

/-- **Placement of a record without a back link**; a refusal may remove the record under the
key of the back link. -/
theorem placeRecord_single (f : PlaceFaults) (n : CString) (h : ¬ (o ≠ p ∧ t ≠ .hlink)) :
    (∃ c', vdfs4CattreePlaceRecord comp f c o p n t = (none, c') ∧
        Inserted comp c c' ⟨p, n, o⟩ (.blank t)) ∨
      ∃ e c', vdfs4CattreePlaceRecord comp f c o p n t = (some e, c') ∧
        (f.insert ≠ none ∨ ∃ x ∈ c, comp.rank x.1 = comp.rank ⟨p, n, o⟩) ∧
        (c' = c ∨ Erased comp c c' ⟨o, n, p⟩) := by
  rw [vdfs4CattreePlaceRecord, if_neg h]
  rcases placeMain_cases hc f o p n t with ⟨c', h', -, hi⟩ | ⟨e, c', h', hwhy, ⟨hc', -⟩ | he⟩
  · exact .inl ⟨c', h', hi⟩
  · exact .inr ⟨e, c', h', hwhy, .inl hc'⟩
  · exact .inr ⟨e, c', h', hwhy, .inr he⟩

/-! ### What the searches find -/

/-- The search of a key ends at a record of this key, or there is none. -/
theorem findInode_cases (o p : Nat) (n : CString) :
    (∃ x ∈ c, ∃ rest, comp.rank x.1 = comp.rank ⟨p, n, o⟩ ∧
        vdfs4CattreeFindInode comp c o p n = .ok (x, rest)) ∨
      (∀ x ∈ c, comp.rank x.1 ≠ comp.rank ⟨p, n, o⟩) ∧
        vdfs4CattreeFindInode comp c o p n = .error .enoent := by
  rw [vdfs4CattreeFindInode]
  rcases hc.seek_spec comp.rankedBy ⟨p, n, o⟩ with
    ⟨hseek, habove⟩ | ⟨lo, e, hi, rfl, hseek, hle, hhi⟩
  · exact .inr ⟨fun x hx => (habove x hx).ne', by rw [hseek]⟩
  by_cases hzero : comp.compFn e.1 ⟨p, n, o⟩ = 0
  · refine .inl ⟨e, by simp, hi, (comp.rankedBy.eq_zero_iff _ _).mp hzero, ?_⟩
    rw [hseek]
    simp [hzero]
  have hne : comp.rank e.1 ≠ comp.rank ⟨p, n, o⟩ := mt (comp.rankedBy.eq_zero_iff _ _).mpr hzero
  refine .inr ⟨fun x hx => ?_, by rw [hseek]; simp [hzero]⟩
  rcases List.mem_append.mp hx with hx | hx
  · have hlt := (Sorted.append_iff.mp hc).2.2 x hx e List.mem_cons_self
    exact (hlt.trans_le hle).ne
  · rcases List.mem_cons.mp hx with rfl | hx
    · exact hne
    · exact (hhi x hx).ne'

end

end Vdfs4
