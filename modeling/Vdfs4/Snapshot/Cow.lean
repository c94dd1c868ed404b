import Vdfs4.Lib.Bitmap
import Vdfs4.Snapshot.Table

/-!
# Copy-on-write of metadata chunks

The in-memory snapshot manager (`vdfs4_snapshot_info`) and the functions that give
chunks a new place: `get_new_meta_iblock`, `move_iblock`, `update_extended_table`,
`vdfs4_add_chunk_no_lock`, `insert_new_iblocks`, `vdfs4_update_bitmaps`, and
`build_snapshot_bitmaps`, which sets the bitmaps up at mount.

A function whose `VDFS4_BUG_ON` fires returns `none`; every other return value of
the source is a value here. Three bitmaps over the meta iblocks are kept:

* `snapshotBitmap` — taken by the committed snapshot or by the next one,
* `nextSnapshotBitmap` — taken by the next snapshot,
* `movedIblock` — handed out since the last commit.
-/

namespace Vdfs4

open Bitmap

/-- `vdfs4_extended_record`: one move of a transaction. -/
@[ext]
structure ExtendedRecord where
  /-- the special file -/
  objectId : SpecialFile
  /-- the table index that moved -/
  tableIndex : Nat
  /-- its new place -/
  metaIblock : Nat
deriving DecidableEq, Repr

/-- `vdfs4_snapshot_info`. -/
structure SnapshotInfo where
  /-- the live translation table -/
  baseT : BaseTable
  /-- the records of the extended table page -/
  extendedTable : List ExtendedRecord
  /-- current and next snapshot -/
  snapshotBitmap : Bitmap
  /-- next snapshot -/
  nextSnapshotBitmap : Bitmap
  /-- iblocks moved since the last commit -/
  movedIblock : Bitmap
  /-- blocks moved since the last commit -/
  cowBlocks : Nat
  /-- size of the three bitmaps -/
  bitmapSizeInBits : Nat
  /-- last allocation place of B-tree nodes -/
  hintBtree : Nat
  /-- last allocation place of bitmap pages -/
  hintBitmaps : Nat
  /-- first free block of the tables area -/
  iblock : Nat
  /-- commits since mount -/
  syncCount : Nat
  /-- dirty pages since the last commit -/
  dirtyPagesCount : Nat
  /-- the next commit has to write a base table -/
  useBaseTable : Bool
  /-- extended tables behind the base table -/
  extenededTableCount : Nat

namespace SnapshotInfo

/-- The allocation hint of the file's kind. -/
def hint (s : SnapshotInfo) (ino : SpecialFile) : Nat :=
  if ino.isTree then s.hintBtree else s.hintBitmaps

/-- Store the allocation hint of the file's kind. -/
def setHint (s : SnapshotInfo) (ino : SpecialFile) (h : Nat) : SnapshotInfo :=
  if ino.isTree then { s with hintBtree := h } else { s with hintBitmaps := h }

/-- The search of `get_new_meta_iblock`: from the hint, then from the start. -/
def searchMetaIblock (sbi : SbInfo) (s : SnapshotInfo) (ino : SpecialFile) : Nat :=
  let size := s.bitmapSizeInBits
  let nr := sbi.nr ino
  let alignMask := 2 ^ sbi.order ino - 1
  let position := findNextZeroArea s.snapshotBitmap size (s.hint ino) nr alignMask
  if size < position then findNextZeroArea s.snapshotBitmap size 0 nr alignMask else position

/-- `get_new_meta_iblock`: on `-ENOSPC` only the hint is reset. -/
def getNewMetaIblock (sbi : SbInfo) (s : SnapshotInfo) (ino : SpecialFile) :
    SnapshotInfo × Except Errno Nat :=
  let position := s.searchMetaIblock sbi ino
  if s.bitmapSizeInBits < position then (s.setHint ino 0, .error .enospc)
  else
    ({ s with
        snapshotBitmap := s.snapshotBitmap.setRange position (sbi.nr ino)
        nextSnapshotBitmap := s.nextSnapshotBitmap.setRange position (sbi.nr ino)
        movedIblock := s.movedIblock.setRange position (sbi.nr ino) }.setHint ino
      (position + sbi.nr ino), .ok position)

/-- `move_iblock`: the state after the move and the new place. Without space the
chunk keeps its place and its bits are marked as moved. -/
def moveIblock (sbi : SbInfo) (s : SnapshotInfo) (ino : SpecialFile)
    (currentIblock pageIndex : Nat) : Option (SnapshotInfo × Nat) :=
  let tableIndex := getTableIndex sbi ino pageIndex
  if s.baseT.lastTableIndex ino < tableIndex then none
  else
    let (s, newPosition) :=
      match s.getNewMetaIblock sbi ino with
      | (s, .ok position) =>
        ({ s with
            nextSnapshotBitmap := s.nextSnapshotBitmap.clearRange currentIblock (sbi.nr ino)
            cowBlocks := s.cowBlocks + sbi.nr ino }, position)
      | (s, .error _) =>
        ({ s with movedIblock := s.movedIblock.setRange currentIblock (sbi.nr ino) },
          currentIblock)
    let baseT := s.baseT.modifyRecord ino tableIndex fun r => { r with metaIblock := newPosition }
    some ({ s with baseT := baseT }, newPosition)

/-- `sizeof(struct vdfs4_extended_record)`. -/
def sizeofExtendedRecord : Nat := 24

/-- `sizeof(struct vdfs4_extended_table)`. -/
def sizeofExtendedTable : Nat := 32

/-- `CRC32_SIZE`. -/
def crc32Size : Nat := 4

/-- `PAGE_SIZE`. -/
def pageSize : Nat := 2 ^ pageShift

/-- `update_extended_table`: log the move, unless a base table will be written
anyway; a full page asks for one. -/
def updateExtendedTable (sbi : SbInfo) (s : SnapshotInfo) (ino : SpecialFile)
    (pageIndex newIblock : Nat) : SnapshotInfo :=
  if s.useBaseTable then s
  else
    let newTableSize := (s.extendedTable.length + 1) * sizeofExtendedRecord +
      sizeofExtendedTable + crc32Size
    if pageSize < newTableSize then { s with useBaseTable := true }
    else { s with extendedTable := s.extendedTable ++
            [⟨ino, getTableIndex sbi ino pageIndex, newIblock⟩] }

/-- `vdfs4_add_chunk_no_lock`: move a chunk that was not moved since the last
commit. -/
def vdfs4AddChunkNoLock (sbi : SbInfo) (s : SnapshotInfo) (objectId : SpecialFile)
    (pageIndex : Nat) : Option SnapshotInfo :=
  match vdfs4GetMetaIblock sbi s.baseT objectId pageIndex with
  | .error _ => none
  | .ok metaIblock =>
    if s.movedIblock metaIblock then some s
    else
      match s.moveIblock sbi objectId metaIblock pageIndex with
      | none => none
      | some (s, newIblock) =>
        if objectId.isTree && newIblock % 2 ^ sbi.logBlocksInLeb != 0 then none
        else
          let s := s.updateExtendedTable sbi objectId pageIndex newIblock
          some { s with dirtyPagesCount := s.dirtyPagesCount +
                  if objectId.isTree then 2 ^ sbi.logBlocksInLeb else 1 }

/-- The record loop of `insert_new_iblocks`, for `count` new records. -/
def insertNewIblocksLoop (sbi : SbInfo) (ino : SpecialFile) :
    Nat → SnapshotInfo → Option SnapshotInfo
  | 0, s => some s
  | count + 1, s =>
    match s.getNewMetaIblock sbi ino with
    | (_, .error _) => none
    | (s, .ok newPosition) =>
      insertNewIblocksLoop sbi ino count
        { s with baseT := s.baseT.appendRecord ino
                  ⟨newPosition, s.syncCount, sbi.mountCounter⟩ }

/-- `insert_new_iblocks`: records up to `newLastTableIndex`, each with a fresh place. -/
def insertNewIblocks (sbi : SbInfo) (s : SnapshotInfo) (ino : SpecialFile)
    (newLastTableIndex : Nat) : Option SnapshotInfo :=
  let lastTableIndex := s.baseT.lastTableIndex ino
  if newLastTableIndex < lastTableIndex then none
  else
    match insertNewIblocksLoop sbi ino (newLastTableIndex - lastTableIndex) s with
    | none => none
    | some s =>
      some { s with dirtyPagesCount := s.dirtyPagesCount +
              (if ino.isTree then 2 ^ sbi.logBlocksInLeb else 1) *
                (newLastTableIndex - lastTableIndex) }

/-- The bitmaps' part of `expand_translation_tables`: bitmaps of `metaTbc` bits that
start with the old ones. -/
def growBitmaps (s : SnapshotInfo) (metaTbc : Nat) : SnapshotInfo :=
  if s.bitmapSizeInBits < metaTbc then { s with bitmapSizeInBits := metaTbc } else s

/-- `vdfs4_update_bitmaps`: the next snapshot becomes the current one. -/
def vdfs4UpdateBitmaps (s : SnapshotInfo) : SnapshotInfo :=
  { s with
    movedIblock := Bitmap.zero
    snapshotBitmap := s.nextSnapshotBitmap
    cowBlocks := 0 }

end SnapshotInfo

/-- `build_snapshot_bitmaps`: the bitmap of all iblocks the table maps. -/
def buildSnapshotBitmaps (sbi : SbInfo) (t : BaseTable) : Bitmap :=
  SpecialFile.all.foldl
    (fun bitmap ino => (t.records ino).foldl
      (fun bitmap r => bitmap.setRange r.metaIblock (sbi.nr ino)) bitmap)
    Bitmap.zero

/-- The state `vdfs4_build_snapshot_manager` leaves behind for a loaded table. -/
def SnapshotInfo.build (sbi : SbInfo) (t : BaseTable) (metaTbc iblock extCount : Nat) :
    SnapshotInfo where
  baseT := t
  extendedTable := []
  snapshotBitmap := buildSnapshotBitmaps sbi t
  nextSnapshotBitmap := buildSnapshotBitmaps sbi t
  movedIblock := Bitmap.zero
  cowBlocks := 0
  bitmapSizeInBits := metaTbc
  hintBtree := 0
  hintBitmaps := 0
  iblock := iblock
  syncCount := 0
  dirtyPagesCount := 0
  useBaseTable := false
  extenededTableCount := extCount

namespace SnapshotInfo

variable {sbi : SbInfo} {s s' : SnapshotInfo} {ino : SpecialFile} {pos : Nat}

/-! ### What one call does -/

/-- Only a hint is set. -/
@[simp] theorem setHint_eq (h : Nat) : s.setHint ino h = { s with
    hintBtree := if ino.isTree then h else s.hintBtree
    hintBitmaps := if ino.isTree then s.hintBitmaps else h } := by
  unfold setHint
  split <;> rfl

/-- Only the size grows. -/
@[simp] theorem growBitmaps_eq (metaTbc : Nat) : s.growBitmaps metaTbc =
    { s with bitmapSizeInBits := max s.bitmapSizeInBits metaTbc } := by
  unfold growBitmaps
  split
  next hlt => rw [Nat.max_eq_right (Nat.le_of_lt hlt)]
  next hle => rw [Nat.max_eq_left (Nat.le_of_not_lt hle)]

/-- The place a search returns is an aligned clear area of the snapshot bitmap. -/
theorem searchMetaIblock_isZeroArea
    (h : s.searchMetaIblock sbi ino ≤ s.bitmapSizeInBits) :
    IsZeroArea s.snapshotBitmap s.bitmapSizeInBits (sbi.nr ino) (2 ^ sbi.order ino - 1)
      (s.searchMetaIblock sbi ino) := by
  unfold searchMetaIblock at h ⊢
  simp only at h ⊢
  split at h
  · rename_i hlt
    rw [if_pos hlt]
    exact findNextZeroArea_isZeroArea (sbi.nr_pos ino) h
  · rename_i hle
    rw [if_neg hle]
    exact findNextZeroArea_isZeroArea (sbi.nr_pos ino) h

/-- `get_new_meta_iblock` has handed out the area at `pos`: the bits are set in all
three bitmaps, and the table is left to the caller. -/
structure Handed (sbi : SbInfo) (s : SnapshotInfo) (ino : SpecialFile) (pos : Nat)
    (s' : SnapshotInfo) : Prop where
  /-- the area was clear -/
  area : IsZeroArea s.snapshotBitmap s.bitmapSizeInBits (sbi.nr ino) (2 ^ sbi.order ino - 1) pos
  snapshotBitmap : s'.snapshotBitmap = s.snapshotBitmap.setRange pos (sbi.nr ino)
  nextSnapshotBitmap : s'.nextSnapshotBitmap = s.nextSnapshotBitmap.setRange pos (sbi.nr ino)
  movedIblock : s'.movedIblock = s.movedIblock.setRange pos (sbi.nr ino)
  bitmapSizeInBits : s'.bitmapSizeInBits = s.bitmapSizeInBits
  baseT : s'.baseT = s.baseT
  extendedTable : s'.extendedTable = s.extendedTable
  syncCount : s'.syncCount = s.syncCount
  useBaseTable : s'.useBaseTable = s.useBaseTable
  iblock : s'.iblock = s.iblock
  extenededTableCount : s'.extenededTableCount = s.extenededTableCount

theorem getNewMetaIblock_ok (h : s.getNewMetaIblock sbi ino = (s', .ok pos)) :
    Handed sbi s ino pos s' := by
  unfold getNewMetaIblock at h
  simp only at h
  split at h
  · cases h
  · rename_i hle
    obtain ⟨rfl, hpos⟩ := Prod.mk.inj h
    obtain rfl := Except.ok.inj hpos
    exact ⟨searchMetaIblock_isZeroArea (Nat.le_of_not_lt hle), by simp, by simp, by simp,
      by simp, by simp, by simp, by simp, by simp, by simp, by simp⟩

/-- **`-ENOSPC` is truthful**: it is returned only when no aligned area is clear. -/
theorem getNewMetaIblock_error {e : Errno} (h : s.getNewMetaIblock sbi ino = (s', .error e)) :
    e = .enospc ∧ s' = s.setHint ino 0 ∧ ∀ p, ¬ IsZeroArea s.snapshotBitmap s.bitmapSizeInBits
      (sbi.nr ino) (2 ^ sbi.order ino - 1) p := by
  unfold getNewMetaIblock at h
  simp only at h
  split at h
  · rename_i hlt
    obtain ⟨rfl, he⟩ := Prod.mk.inj h
    obtain rfl := Except.error.inj he
    refine ⟨rfl, rfl, fun p hp => ?_⟩
    have hle := findNextZeroArea_complete (sbi.nr_pos ino) hp (Nat.zero_le p)
    have hp' := hp.le_size
    unfold searchMetaIblock at hlt
    simp only at hlt
    split at hlt <;> omega
  · cases h

theorem updateExtendedTable_frame {p : Nat} : s.updateExtendedTable sbi ino p pos = { s with
    useBaseTable := (s.updateExtendedTable sbi ino p pos).useBaseTable
    extendedTable := (s.updateExtendedTable sbi ino p pos).extendedTable } := by
  unfold updateExtendedTable
  split
  · rfl
  · simp only
    split <;> rfl

/-- A move is logged, or the next commit writes a base table. -/
theorem updateExtendedTable_logs (sbi : SbInfo) (s : SnapshotInfo) (ino : SpecialFile)
    (p pos : Nat) :
    (s.updateExtendedTable sbi ino p pos).useBaseTable = true ∨
    s.useBaseTable = false ∧
      (s.updateExtendedTable sbi ino p pos).useBaseTable = false ∧
      (s.updateExtendedTable sbi ino p pos).extendedTable =
        s.extendedTable ++ [⟨ino, getTableIndex sbi ino p, pos⟩] := by
  unfold updateExtendedTable
  split
  · exact .inl ‹_›
  rename_i hu
  simp only
  split
  · exact .inl rfl
  · have hu : s.useBaseTable = false := by simpa using hu
    exact .inr ⟨hu, hu, rfl⟩

/-- The record at table index `i` of `ino` was given the place `pos`, and the move
was logged; `next` and `moved` are the bitmaps afterwards. -/
structure Moved (s : SnapshotInfo) (ino : SpecialFile) (i pos : Nat) (snapshot next moved : Bitmap)
    (s' : SnapshotInfo) : Prop where
  baseT : s'.baseT = s.baseT.modifyRecord ino i fun r => { r with metaIblock := pos }
  snapshotBitmap : s'.snapshotBitmap = snapshot
  nextSnapshotBitmap : s'.nextSnapshotBitmap = next
  movedIblock : s'.movedIblock = moved
  bitmapSizeInBits : s'.bitmapSizeInBits = s.bitmapSizeInBits
  syncCount : s'.syncCount = s.syncCount
  iblock : s'.iblock = s.iblock
  extenededTableCount : s'.extenededTableCount = s.extenededTableCount
  /-- the log has the move, or the next commit writes a base table -/
  logged : s'.useBaseTable = true ∨ s.useBaseTable = false ∧ s'.useBaseTable = false ∧
    s'.extendedTable = s.extendedTable ++ [⟨ino, i, pos⟩]

/-- **What `move_iblock` does**: a fresh area and the old range given back, or, without
space, the old place marked as moved. -/
theorem moveIblock_cases {cur p pos : Nat} {s1 : SnapshotInfo}
    (h : s.moveIblock sbi ino cur p = some (s1, pos)) :
    (∃ s0, Handed sbi s ino pos s0 ∧
      Moved s ino (getTableIndex sbi ino p) pos (s.snapshotBitmap.setRange pos (sbi.nr ino))
        ((s.nextSnapshotBitmap.setRange pos (sbi.nr ino)).clearRange cur (sbi.nr ino))
        (s.movedIblock.setRange pos (sbi.nr ino)) (s1.updateExtendedTable sbi ino p pos)) ∨
    ((s.getNewMetaIblock sbi ino).2 = .error .enospc ∧ pos = cur ∧
      Moved s ino (getTableIndex sbi ino p) cur s.snapshotBitmap s.nextSnapshotBitmap
        (s.movedIblock.setRange cur (sbi.nr ino)) (s1.updateExtendedTable sbi ino p pos)) := by
  unfold moveIblock at h
  simp only at h
  split at h
  · cases h
  rcases hg : s.getNewMetaIblock sbi ino with ⟨s0, e | position⟩
  · -- no space: the chunk keeps its place
    rw [hg] at h
    obtain ⟨rfl, hs0, -⟩ := getNewMetaIblock_error hg
    simp only [Option.some.injEq, Prod.mk.injEq] at h
    obtain ⟨rfl, rfl⟩ := h
    refine .inr ⟨rfl, rfl, ?_⟩
    subst hs0
    rw [updateExtendedTable_frame]
    exact ⟨by simp, by simp, by simp, by simp, by simp, by simp, by simp, by simp, by
      simpa using updateExtendedTable_logs sbi _ ino p _⟩
  · rw [hg] at h
    have hh := getNewMetaIblock_ok hg
    simp only [Option.some.injEq, Prod.mk.injEq] at h
    obtain ⟨rfl, rfl⟩ := h
    refine .inl ⟨s0, hh, ?_⟩
    rw [updateExtendedTable_frame]
    exact ⟨by simp [hh.baseT], by simp [hh.snapshotBitmap], by simp [hh.nextSnapshotBitmap],
      by simp [hh.movedIblock], by simp [hh.bitmapSizeInBits], by simp [hh.syncCount],
      by simp [hh.iblock], by simp [hh.extenededTableCount], by
      simpa [hh.useBaseTable, hh.extendedTable] using
        updateExtendedTable_logs sbi _ ino p _⟩

/-- **What `vdfs4_add_chunk_no_lock` does**: nothing for a chunk that was moved since
the last commit; otherwise the chunk moves. -/
theorem vdfs4AddChunkNoLock_cases {p : Nat} (h : s.vdfs4AddChunkNoLock sbi ino p = some s') :
    ∃ r, s.baseT.record? ino (getTableIndex sbi ino p) = some r ∧
      ((s.movedIblock r.metaIblock = true ∧ s' = s) ∨
       (s.movedIblock r.metaIblock = false ∧ ∃ pos s0, Handed sbi s ino pos s0 ∧
          Moved s ino (getTableIndex sbi ino p) pos
            (s.snapshotBitmap.setRange pos (sbi.nr ino))
            ((s.nextSnapshotBitmap.setRange pos (sbi.nr ino)).clearRange r.metaIblock
              (sbi.nr ino))
            (s.movedIblock.setRange pos (sbi.nr ino)) s') ∨
       (s.movedIblock r.metaIblock = false ∧ (s.getNewMetaIblock sbi ino).2 = .error .enospc ∧
          Moved s ino (getTableIndex sbi ino p) r.metaIblock s.snapshotBitmap
            s.nextSnapshotBitmap (s.movedIblock.setRange r.metaIblock (sbi.nr ino)) s')) := by
  unfold vdfs4AddChunkNoLock vdfs4GetMetaIblock at h
  rcases hr : s.baseT.record? ino (getTableIndex sbi ino p) with _ | r
  · rw [hr] at h
    cases h
  refine ⟨r, rfl, ?_⟩
  rw [hr] at h
  simp only at h
  split at h
  · -- moved before: the page is already in its new place
    rename_i hm
    exact .inl ⟨hm, (Option.some.inj h).symm⟩
  rename_i hm
  have hm : s.movedIblock r.metaIblock = false := by simpa using hm
  rcases hmv : s.moveIblock sbi ino r.metaIblock p with _ | ⟨s1, pos⟩
  · rw [hmv] at h
    cases h
  rw [hmv] at h
  simp only at h
  split at h
  · cases h
  obtain rfl := Option.some.inj h
  rcases moveIblock_cases hmv with ⟨s0, hh, hmoved⟩ | ⟨he, rfl, hmoved⟩
  · exact .inr (.inl ⟨hm, pos, s0, hh, ⟨hmoved.1, hmoved.2, hmoved.3, hmoved.4, hmoved.5,
      hmoved.6, hmoved.7, hmoved.8, hmoved.9⟩⟩)
  · exact .inr (.inr ⟨hm, he, ⟨hmoved.1, hmoved.2, hmoved.3, hmoved.4, hmoved.5,
      hmoved.6, hmoved.7, hmoved.8, hmoved.9⟩⟩)

/-- **The records that `insert_new_iblocks` adds, one by one**: what holds before and
survives the append of a record in a fresh area holds afterwards. -/
theorem insertNewIblocks_induction {I : SnapshotInfo → Prop} {newLast : Nat}
    (h : s.insertNewIblocks sbi ino newLast = some s') (h0 : I s)
    (hstep : ∀ t t0 pos, I t → Handed sbi t ino pos t0 →
      I { t0 with baseT := t0.baseT.appendRecord ino ⟨pos, t0.syncCount, sbi.mountCounter⟩ })
    (hcount : ∀ t n, I t → I { t with dirtyPagesCount := n }) : I s' := by
  have hloop : ∀ count t t', I t → insertNewIblocksLoop sbi ino count t = some t' → I t' := by
    intro count
    induction count with
    | zero =>
      intro t t' ht hc
      obtain rfl := Option.some.inj hc
      exact ht
    | succ count ih =>
      intro t t' ht hc
      simp only [insertNewIblocksLoop] at hc
      rcases hg : t.getNewMetaIblock sbi ino with ⟨t0, e | pos⟩
      · rw [hg] at hc
        cases hc
      · rw [hg] at hc
        exact ih _ _ (hstep t t0 pos ht (getNewMetaIblock_ok hg)) hc
  unfold insertNewIblocks at h
  simp only at h
  split at h
  · cases h
  rcases hc : insertNewIblocksLoop sbi ino (newLast - s.baseT.lastTableIndex ino) s with _ | s1
  · rw [hc] at h
    cases h
  · rw [hc] at h
    obtain rfl := Option.some.inj h
    exact hcount _ _ (hloop _ s s1 h0 hc)

end SnapshotInfo

end Vdfs4
