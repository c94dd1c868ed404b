import Mathlib.Data.Set.Card

/-!
# Special files and the translation table

The metadata of a volume lives in five **special files** (three B-trees and two
bitmaps). Each special file is cut into chunks (a B-tree node, or a page), and the
**translation table** gives each chunk its place in the metadata area: the record
at a table index holds the first *meta iblock* of the chunk and the mount and sync
counters of the commit that wrote it.

* `SpecialFile`, `isTree` — the inodes `VDFS4_FSFILE … VDFS4_LSFILE`.
* `SbInfo` — what stays fixed during one mount.
* `BaseTable` — the records of every special file; each file has at least one.
* `BaseTable.Maps` — iblock `b` lies in the range of a record.
-/

namespace Vdfs4

/-- The error codes the modelled functions return. -/
inductive Errno where
  | einval | enospc | enomem | enoent | eexist | eio | efault | eopnotsupp | enametoolong
  | enodata | erange | enotempty | emlink | ebusy | eperm | enotcompr
deriving DecidableEq, Repr

/-- The special files, in the order of their inode numbers. -/
inductive SpecialFile where
  | catTree | spaceBitmap | extentsTree | freeInodeBitmap | xattrTree
deriving DecidableEq, Repr

namespace SpecialFile

/-- `VDFS4_FSFILE … VDFS4_LSFILE`. -/
def all : List SpecialFile := [catTree, spaceBitmap, extentsTree, freeInodeBitmap, xattrTree]

@[simp] theorem mem_all (f : SpecialFile) : f ∈ all := by
  cases f <;> decide

/-- `is_tree`. -/
def isTree : SpecialFile → Bool
  | catTree | extentsTree | xattrTree => true
  | spaceBitmap | freeInodeBitmap => false

end SpecialFile

/-- `PAGE_SHIFT`. -/
def pageShift : Nat := 12

/-- The values of `vdfs4_sb_info` that one mount never changes. -/
structure SbInfo where
  /-- `log_blocks_in_leb`: blocks of a B-tree node -/
  logBlocksInLeb : Nat
  /-- `log_blocks_in_page` -/
  logBlocksInPage : Nat
  /-- `block_size_shift` -/
  blockSizeShift : Nat
  /-- `exsb.mount_counter`, raised once when the volume is mounted -/
  mountCounter : Nat
deriving DecidableEq, Repr

/-- The order of a chunk of the file: `log_blocks_in_leb` or `log_blocks_in_page`. -/
def SbInfo.order (sbi : SbInfo) (ino : SpecialFile) : Nat :=
  if ino.isTree then sbi.logBlocksInLeb else sbi.logBlocksInPage

/-- The blocks of one chunk of the file. -/
def SbInfo.nr (sbi : SbInfo) (ino : SpecialFile) : Nat := 2 ^ sbi.order ino

theorem SbInfo.nr_pos (sbi : SbInfo) (ino : SpecialFile) : 0 < sbi.nr ino :=
  Nat.two_pow_pos _

/-- `GET_TABLE_INDEX`. -/
def getTableIndex (sbi : SbInfo) (ino : SpecialFile) (pageIndex : Nat) : Nat :=
  if ino.isTree then pageIndex / 2 ^ (sbi.logBlocksInLeb + sbi.blockSizeShift - pageShift)
  else pageIndex

/-- `vdfs4_base_table_record`. -/
structure BaseTableRecord where
  /-- the first meta iblock of the chunk -/
  metaIblock : Nat
  /-- the sync counter of the commit that wrote the chunk -/
  syncCount : Nat
  /-- the mount counter of that commit -/
  mountCount : Nat
deriving DecidableEq, Repr

/-- The translation table: for each special file its records by table index. -/
structure BaseTable where
  /-- the records of each file -/
  records : SpecialFile → List BaseTableRecord
  /-- `last_page_index` names a record, so no file is without one -/
  records_ne : ∀ ino, records ino ≠ []

namespace BaseTable

theorem ext {t u : BaseTable} (h : ∀ ino, t.records ino = u.records ino) : t = u := by
  cases t; cases u
  simp only [mk.injEq]
  exact funext h

/-- `VDFS4_LAST_TABLE_INDEX`. -/
def lastTableIndex (t : BaseTable) (ino : SpecialFile) : Nat := (t.records ino).length - 1

theorem lastTableIndex_add_one (t : BaseTable) (ino : SpecialFile) :
    t.lastTableIndex ino + 1 = (t.records ino).length := by
  have := List.length_pos_of_ne_nil (t.records_ne ino)
  unfold lastTableIndex
  omega

/-- The record at a table index. -/
def record? (t : BaseTable) (ino : SpecialFile) (i : Nat) : Option BaseTableRecord :=
  (t.records ino)[i]?

/-- `table[table_index] = …`: replace the record at a table index of a file. -/
def modifyRecord (t : BaseTable) (ino : SpecialFile) (i : Nat)
    (g : BaseTableRecord → BaseTableRecord) : BaseTable where
  records ino' := if ino' = ino then (t.records ino).modify i g else t.records ino'
  records_ne ino' := by
    split
    · have := t.records_ne ino
      rwa [ne_eq, ← List.length_eq_zero_iff, List.length_modify, List.length_eq_zero_iff]
    · exact t.records_ne ino'

/-- A new record behind the last one of a file. -/
def appendRecord (t : BaseTable) (ino : SpecialFile) (r : BaseTableRecord) : BaseTable where
  records ino' := if ino' = ino then t.records ino ++ [r] else t.records ino'
  records_ne ino' := by
    split
    · simp
    · exact t.records_ne ino'

theorem record?_modifyRecord (t : BaseTable) (ino ino' : SpecialFile) (i j : Nat)
    (g : BaseTableRecord → BaseTableRecord) :
    (t.modifyRecord ino i g).record? ino' j =
      if ino' = ino ∧ j = i then (t.record? ino i).map g else t.record? ino' j := by
  unfold record? modifyRecord
  by_cases hf : ino' = ino
  · subst hf
    by_cases hj : j = i
    · subst hj; simp
    · simp [hj, Ne.symm hj]
  · simp [hf]

theorem record?_appendRecord (t : BaseTable) (ino ino' : SpecialFile) (j : Nat)
    (r : BaseTableRecord) :
    (t.appendRecord ino r).record? ino' j =
      if ino' = ino ∧ j = (t.records ino).length then some r else t.record? ino' j := by
  unfold record? appendRecord
  by_cases hf : ino' = ino
  · subst hf
    rcases Nat.lt_trichotomy j (t.records ino').length with hj | hj | hj
    · simp [List.getElem?_append_left hj, Nat.ne_of_lt hj]
    · simp [hj]
    · have hnone : (t.records ino')[j]? = none := List.getElem?_eq_none (Nat.le_of_lt hj)
      have hlen : (t.records ino' ++ [r]).length ≤ j := by simp; omega
      simp [List.getElem?_eq_none hlen, hnone, Nat.ne_of_gt hj]
  · simp [hf]

theorem record?_length (t : BaseTable) (ino : SpecialFile) :
    t.record? ino (t.records ino).length = none := by
  simp [record?]

/-- iblock `b` lies in the range of the record at table index `i` of `ino`. -/
def MapsAt (sbi : SbInfo) (t : BaseTable) (ino : SpecialFile) (i b : Nat) : Prop :=
  ∃ r, t.record? ino i = some r ∧ r.metaIblock ≤ b ∧ b < r.metaIblock + sbi.nr ino

/-- iblock `b` is mapped by some record of the table. -/
def Maps (sbi : SbInfo) (t : BaseTable) (b : Nat) : Prop :=
  ∃ ino i, t.MapsAt sbi ino i b

/-- The ranges of two different records never meet. -/
def RangesDisjoint (sbi : SbInfo) (t : BaseTable) : Prop :=
  ∀ ino i ino' j b, t.MapsAt sbi ino i b → t.MapsAt sbi ino' j b → ino = ino' ∧ i = j

section single

variable {sbi : SbInfo} {t : BaseTable} (place : SpecialFile → Nat)
  (ht : ∀ ino, t.records ino = [⟨place ino, 0, 0⟩])

include ht

theorem MapsAt.of_single {ino : SpecialFile} {i b : Nat} (h : t.MapsAt sbi ino i b) :
    i = 0 ∧ place ino ≤ b ∧ b < place ino + sbi.nr ino := by
  obtain ⟨r, hr, h1, h2⟩ := h
  rw [record?, ht] at hr
  obtain ⟨rfl, rfl⟩ : i = 0 ∧ ⟨place ino, 0, 0⟩ = r := by
    simpa [List.getElem?_singleton] using hr
  exact ⟨rfl, h1, h2⟩

/-- Where every file has one record, the files are compared two by two. -/
theorem rangesDisjoint_of_single (h : ∀ x ∈ SpecialFile.all, ∀ y ∈ SpecialFile.all, x = y ∨
    place x + sbi.nr x ≤ place y ∨ place y + sbi.nr y ≤ place x) : t.RangesDisjoint sbi := by
  intro x i y j b hx hy
  obtain ⟨rfl, hx1, hx2⟩ := hx.of_single place ht
  obtain ⟨rfl, hy1, hy2⟩ := hy.of_single place ht
  refine ⟨(h x (SpecialFile.mem_all x) y (SpecialFile.mem_all y)).resolve_right ?_, rfl⟩
  omega

theorem bounded_of_single {n : Nat} (h : ∀ x ∈ SpecialFile.all, place x + sbi.nr x ≤ n) (b : Nat)
    (hb : t.Maps sbi b) : b < n := by
  obtain ⟨x, _, hx⟩ := hb
  obtain ⟨-, -, hlt⟩ := hx.of_single place ht
  exact hlt.trans_le (h x (SpecialFile.mem_all x))

end single

/-- The ranges as values: the first iblock and the length of a record's range. -/
def range? (sbi : SbInfo) (t : BaseTable) (ino : SpecialFile) (i : Nat) : Option (Nat × Nat) :=
  (t.record? ino i).map fun r => (r.metaIblock, sbi.nr ino)

/-- Disjoint ranges make the map from (file, index) to ranges injective. -/
theorem RangesDisjoint.range?_injective {sbi : SbInfo} {t : BaseTable}
    (h : t.RangesDisjoint sbi) {ino ino' : SpecialFile} {i j : Nat} {range : Nat × Nat}
    (hi : t.range? sbi ino i = some range) (hj : t.range? sbi ino' j = some range) :
    ino = ino' ∧ i = j := by
  obtain ⟨r, hr, rfl⟩ := Option.map_eq_some_iff.mp hi
  obtain ⟨r', hr', heq⟩ := Option.map_eq_some_iff.mp hj
  simp only [Prod.mk.injEq] at heq
  have := sbi.nr_pos ino
  have := sbi.nr_pos ino'
  exact h ino i ino' j r.metaIblock ⟨r, hr, by omega, by omega⟩ ⟨r', hr', by omega, by omega⟩

end BaseTable

/-- `vdfs4_get_meta_iblock`. -/
def vdfs4GetMetaIblock (sbi : SbInfo) (t : BaseTable) (ino : SpecialFile) (pageIndex : Nat) :
    Except Errno Nat :=
  match t.record? ino (getTableIndex sbi ino pageIndex) with
  | none => .error .einval
  | some r => .ok r.metaIblock

end Vdfs4
