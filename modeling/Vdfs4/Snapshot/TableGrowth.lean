import Vdfs4.Snapshot.TableBytes

/-!
# One special file grows alone

`insert_new_iblocks` changes one table of the base table buffer and moves the others. Seen through
`vdfs4_get_table` **nothing else changes**: every other special file has its records, the file has
its old ones and new ones with fresh places, and `checksum_offset` is the end of the last table as
well as the value `fill_descriptor_and_calculate_crc` computes. The one condition is that the size
is a **32-bit value**, as `checksum_offset` and the offsets are read and written.

* `GrowsAlone` — what a call must do.
* `Shows`, `insertNewIblocks_refines` — the buffer shows a translation table, and the call does on
  the bytes what `SnapshotInfo.insertNewIblocks` does on the table.
-/

namespace Vdfs4

open List BaseTableBuffer
open Mkfs (sizeofBaseTable sizeofRecord)

namespace BaseTableBuffer

/-! ### What a call must do -/

/-- The other special files, the old records of the file, its new ones, and the size. -/
structure GrowsAlone (sbi : SbInfo) (s : SnapshotInfo) (b : BaseTableBuffer) (ino : SpecialFile)
    (n : Nat) (s' : SnapshotInfo) (b' : BaseTableBuffer) : Prop where
  others_last : ∀ f ≠ ino, b'.lastPageIndex f = b.lastPageIndex f
  others : ∀ f ≠ ino, ∀ i ≤ b.lastPageIndex f, b'.record f i = b.record f i
  lookups : ∀ f ≠ ino, ∀ pageIndex,
    b'.vdfs4GetMetaIblock sbi f pageIndex = b.vdfs4GetMetaIblock sbi f pageIndex
  old : ∀ i ≤ b.lastPageIndex ino, b'.record ino i = b.record ino i
  last : b'.lastPageIndex ino = n
  /-- the new records hold the places that were handed out -/
  fresh : ∃ positions, positions.length = n - b.lastPageIndex ino ∧
    FreshPlaces sbi ino s s' positions ∧ ∀ i, (hi : i < positions.length) →
      (b'.record ino (b.lastPageIndex ino + 1 + i)).metaIblock = positions[i]
  checksum_end : b'.EndsAt b'.checksumOffset
  checksum_fill : b'.checksumOffset = b'.fillChecksumOffset

section grows

variable {sbi : SbInfo} {s s' : SnapshotInfo} {b b' : BaseTableBuffer} {order : List SpecialFile}
  {ino f : SpecialFile} {n : Nat} {positions : List Nat}

/-- A last index for which the size is a 32-bit value is one itself. -/
theorem LaidOut.last_lt (h : b.LaidOut order) (hfits : b.checksumOffset + b.addSize ino n <
    2 ^ 32) : n < 2 ^ 32 := by
  have hend := h.endsAt.1 ino
  unfold tableSize at hend
  unfold addSize at hfits
  simp only [sizeofRecord_eq] at hend hfits
  omega

/-- **A call grows one file alone** if the size is a 32-bit value. -/
theorem Inserted.growsAlone (hins : Inserted sbi s b ino n positions s' b') (h : b.LaidOut order)
    (hsize : s.bitmapSizeInBits < 2 ^ 32) (hlt : b.lastPageIndex ino < n)
    (hfits : b.checksumOffset + b.addSize ino n < 2 ^ 32) : GrowsAlone sbi s b ino n s' b' := by
  have h' := h.inserted hlt hfits hins
  have hlast : ∀ f ≠ ino, b'.lastPageIndex f = b.lastPageIndex f := by
    intro f hf
    rw [hins.last f, if_neg hf]
  refine ⟨hlast, fun f _ i hi => hins.record_eq h h' hi, fun f hf pageIndex => ?_,
    fun i hi => hins.record_eq h h' hi, by rw [hins.last, if_pos rfl],
    ⟨positions, hins.length, hins.places, fun i hi => ?_⟩, h'.endsAt, h'.fill_eq⟩
  · unfold vdfs4GetMetaIblock
    simp only [hlast f hf]
    split
    · rfl
    · rw [hins.record_eq h h' (by omega)]
  · rw [hins.record_new h' hi]
    exact hins.places.mod_eq hsize hi

end grows

/-! ### The translation table a buffer shows -/

/-- The buffer holds the records of a translation table. -/
def Shows (b : BaseTableBuffer) (t : BaseTable) : Prop :=
  ∀ f, t.records f = (List.range (b.lastPageIndex f + 1)).map (b.record f)

section refines

open SnapshotInfo

variable {sbi : SbInfo} {s s' : SnapshotInfo} {b b' : BaseTableBuffer} {order : List SpecialFile}
  {ino f : SpecialFile} {n count : Nat} {positions : List Nat} {t : BaseTable}

/-- New records of one file. -/
def appendRecords (t : BaseTable) (ino : SpecialFile) (syncCount mountCount : Nat)
    (positions : List Nat) : BaseTable :=
  positions.foldl (fun t p => t.appendRecord ino ⟨p, syncCount, mountCount⟩) t

theorem records_appendRecords (t : BaseTable) (ino f : SpecialFile) (syncCount mountCount : Nat)
    (positions : List Nat) :
    (appendRecords t ino syncCount mountCount positions).records f =
      t.records f ++ if f = ino then positions.map (⟨·, syncCount, mountCount⟩) else [] := by
  induction positions generalizing t with
  | nil => simp [appendRecords]
  | cons p positions ih =>
    have hstep : appendRecords t ino syncCount mountCount (p :: positions) =
      appendRecords (t.appendRecord ino ⟨p, syncCount, mountCount⟩) ino syncCount mountCount
        positions := rfl
    rw [hstep, ih]
    by_cases hf : f = ino
    · subst hf
      simp [BaseTable.appendRecord]
    · simp [BaseTable.appendRecord, hf]

/-- `get_new_meta_iblock` does not look at the table. -/
theorem getNewMetaIblock_baseT (s : SnapshotInfo) (t : BaseTable) :
    ({ s with baseT := t } : SnapshotInfo).getNewMetaIblock sbi ino =
      ({ (s.getNewMetaIblock sbi ino).1 with baseT := t }, (s.getNewMetaIblock sbi ino).2) := by
  have hsearch : searchMetaIblock sbi { s with baseT := t } ino = searchMetaIblock sbi s ino := rfl
  unfold getNewMetaIblock
  simp only [hsearch]
  by_cases hpos : s.bitmapSizeInBits < searchMetaIblock sbi s ino
  · rw [if_pos hpos, if_pos hpos]
    cases htree : ino.isTree <;> simp [setHint, htree]
  · rw [if_neg hpos, if_neg hpos]
    cases htree : ino.isTree <;> simp [setHint, htree]

/-- **The record loop allocates as `newMetaIblocks` does** and appends the records. -/
theorem insertNewIblocksLoop_eq (s : SnapshotInfo) (t : BaseTable)
    (h : newMetaIblocks sbi ino count s = some (positions, s')) :
    insertNewIblocksLoop sbi ino count { s with baseT := t } =
      some { s' with baseT := appendRecords t ino s.syncCount sbi.mountCounter positions } := by
  induction count generalizing s t positions with
  | zero =>
    obtain ⟨rfl, rfl⟩ := Prod.mk.inj (Option.some.inj h)
    rfl
  | succ count ih =>
    simp only [newMetaIblocks] at h
    rw [insertNewIblocksLoop, getNewMetaIblock_baseT]
    rcases hget : s.getNewMetaIblock sbi ino with ⟨s1, e | pos⟩
    · rw [hget] at h
      cases h
    rw [hget] at h
    obtain ⟨⟨rest, s2⟩, hrest, heq⟩ := Option.map_eq_some_iff.mp h
    obtain ⟨rfl, rfl⟩ := Prod.mk.inj heq
    have hsync := (getNewMetaIblock_ok hget).syncCount
    have hnext := ih s1 (t.appendRecord ino ⟨pos, s1.syncCount, sbi.mountCounter⟩) hrest
    rw [hsync] at hnext
    simp only [hsync]
    exact hnext

/-- **The call on the bytes refines the call on the table**: when it completes, so does
`insert_new_iblocks` on the translation table the buffer shows, in the same state but for the
table, and the new buffer shows the new table. -/
theorem insertNewIblocks_refines (h : b.LaidOut order) (hshows : b.Shows s.baseT)
    (hsize : s.bitmapSizeInBits < 2 ^ 32) (hsync : s.syncCount < 2 ^ 32)
    (hmount : sbi.mountCounter < 2 ^ 32) (hlt : b.lastPageIndex ino < n)
    (hfits : b.checksumOffset + b.addSize ino n < 2 ^ 32)
    (hdone : b.insertNewIblocks sbi s ino n = some (s', b')) :
    ∃ t, s.insertNewIblocks sbi ino n = some { s' with baseT := t } ∧ b'.Shows t := by
  have hlast : s.baseT.lastTableIndex ino = b.lastPageIndex ino := by
    rw [BaseTable.lastTableIndex, hshows ino]
    simp
  obtain ⟨positions, s1, hplaces, hs', hins⟩ :=
    inserted_of_insertNewIblocks h (h.last_lt hfits) hdone
  have h' := h.inserted hlt hfits hins
  refine ⟨appendRecords s.baseT ino s.syncCount sbi.mountCounter positions, ?_, fun f => ?_⟩
  · unfold SnapshotInfo.insertNewIblocks
    simp only [hlast]
    rw [if_neg (by omega), insertNewIblocksLoop_eq s s.baseT hplaces, hs']
  rw [records_appendRecords, hshows f, hins.last f]
  have hkeep : (range (b.lastPageIndex f + 1)).map (b'.record f) =
      (range (b.lastPageIndex f + 1)).map (b.record f) := by
    refine map_congr_left fun i hi => hins.record_eq h h' ?_
    have := mem_range.mp hi
    omega
  by_cases hf : f = ino
  · subst hf
    have hcount : n + 1 = (b.lastPageIndex f + 1) + positions.length := by
      rw [hins.length]
      omega
    have hrange : range (n + 1) = range (b.lastPageIndex f + 1) ++
        (range positions.length).map (b.lastPageIndex f + 1 + ·) := by
      rw [hcount, range_add]
    rw [if_pos rfl, if_pos rfl, hrange, map_append, hkeep, map_map,
      append_cancel_left_eq]
    apply ext_getElem
    · simp
    · intro i hi hi'
      have hi : i < positions.length := by simpa using hi
      simp only [getElem_map, getElem_range, Function.comp_apply]
      rw [hins.record_new h' hi, hins.places.mod_eq hsize hi, Nat.mod_eq_of_lt hsync,
        Nat.mod_eq_of_lt hmount]
  · rw [if_neg hf, if_neg hf, append_nil, hkeep]

end refines

end BaseTableBuffer

/-! ### The other files are left alone unless the size wraps -/

/-- **Growing one special file leaves the others alone exactly if the base table stays below
`2 ^ 32` bytes**: for every buffer whose tables are laid out one after another, in any order, and
every call with an index above the last one that completes. -/
theorem growth_leaves_others_iff (sbi : SbInfo) (s s' : SnapshotInfo) (b b' : BaseTableBuffer)
    (order : List SpecialFile) (h : b.LaidOut order) (hsize : s.bitmapSizeInBits < 2 ^ 32)
    (ino : SpecialFile) (n : Nat) (hlt : b.lastPageIndex ino < n)
    (hdone : b.insertNewIblocks sbi s ino n = some (s', b')) :
    b.GrowsAlone sbi s ino n s' b' ↔
      b.checksumOffset + sizeofRecord * (n - b.lastPageIndex ino) < 2 ^ 32 := by
  constructor
  · intro hgrows
    have hn : n < 2 ^ 32 := by
      have hlast := lastPageIndex_of_insertNewIblocks hdone
      rw [hgrows.last] at hlast
      omega
    obtain ⟨positions, _, -, -, hins⟩ := inserted_of_insertNewIblocks h hn hdone
    -- the last table ends behind the old ones and the new records
    obtain ⟨f, hend⟩ := hins.end_eq h hlt
    have hle := hgrows.checksum_end.1 f
    have hmod : b'.checksumOffset < 2 ^ 32 := by
      rw [hins.checksum]
      exact Nat.mod_lt _ (by decide)
    exact (hend ▸ hle).trans_lt hmod
  · intro hfits
    obtain ⟨positions, _, -, -, hins⟩ :=
      inserted_of_insertNewIblocks h (h.last_lt hfits) hdone
    exact hins.growsAlone h hsize hlt hfits

/-- A buffer with the tables in the order of their inode numbers, where the first table has
`last + 1` records and the others one each; the records name the meta iblocks 0, 1, 2 and so on. -/
def bufferOf (last : Nat) : BaseTableBuffer where
  checksumOffset := sizeofBaseTable + sizeofRecord * (last + 5)
  lastPageIndex := fun
    | .catTree => last
    | _ => 0
  translationTableOffsets := fun
    | .catTree => sizeofBaseTable
    | .spaceBitmap => sizeofBaseTable + sizeofRecord * (last + 1)
    | .extentsTree => sizeofBaseTable + sizeofRecord * (last + 2)
    | .freeInodeBitmap => sizeofBaseTable + sizeofRecord * (last + 3)
    | .xattrTree => sizeofBaseTable + sizeofRecord * (last + 4)
  bytes := fun o =>
    let k := o - sizeofBaseTable
    if k % sizeofRecord < 8 then UInt8.ofNat (k / sizeofRecord / 256 ^ (k % sizeofRecord)) else 0

theorem BaseTableBuffer.records_ne (b : BaseTableBuffer) (f : SpecialFile) :
    (List.range (b.lastPageIndex f + 1)).map (b.record f) ≠ [] := by simp

/-- The manager of this table, with eight free meta iblocks. -/
def managerOf (last : Nat) : SnapshotInfo where
  baseT := ⟨_, (bufferOf last).records_ne⟩
  extendedTable := []
  snapshotBitmap := fun b => b < last + 5
  nextSnapshotBitmap := fun b => b < last + 5
  movedIblock := Bitmap.zero
  cowBlocks := 0
  bitmapSizeInBits := last + 13
  hintBtree := last + 5
  hintBitmaps := last + 5
  iblock := 0
  syncCount := 0
  dirtyPagesCount := 0
  useBaseTable := false
  extenededTableCount := 0

theorem bufferOf_laidOut {last : Nat} (hlt : sizeofBaseTable + sizeofRecord * (last + 5) < 2 ^ 32) :
    (bufferOf last).LaidOut SpecialFile.all where
  perm := .refl _
  laid := by
    refine ⟨rfl, ?_, ?_, ?_, ?_, trivial⟩ <;>
      simp only [tableSize, bufferOf, sizeofRecord_eq] <;> omega
  checksum := by
    simp only [SpecialFile.all, tablesSize, tableSize, bufferOf,
      sizeofRecord_eq, map_cons, map_nil, sum_cons, sum_nil]
    omega
  checksum_lt := hlt

/-- The space bitmap gets a second record: the four tables around it are as before. -/
theorem bitmap_table_grows :
    ∃ s' b', (bufferOf 2).insertNewIblocks ⟨0, 0, pageShift, 0⟩ (managerOf 2) .spaceBitmap 1 =
        some (s', b') ∧
      (bufferOf 2).GrowsAlone ⟨0, 0, pageShift, 0⟩ (managerOf 2) .spaceBitmap 1 s' b' := by
  have hsome : ((bufferOf 2).insertNewIblocks ⟨0, 0, pageShift, 0⟩ (managerOf 2)
      .spaceBitmap 1).isSome = true := by decide +kernel
  obtain ⟨⟨s', b'⟩, hdone⟩ := Option.isSome_iff_exists.mp hsome
  exact ⟨s', b', hdone, (growth_leaves_others_iff _ _ s' _ b' _ (bufferOf_laidOut (by decide))
    (by decide) _ _ (by decide) hdone).mpr (by decide)⟩

theorem bitmap_table_shown : ∃ (s' : SnapshotInfo) (b' : BaseTableBuffer) (t : BaseTable),
    (managerOf 0).insertNewIblocks ⟨0, 0, pageShift, 0⟩ .spaceBitmap 1 =
      some { s' with baseT := t } ∧ b'.Shows t := by
  have hsome : ((bufferOf 0).insertNewIblocks ⟨0, 0, pageShift, 0⟩ (managerOf 0)
      .spaceBitmap 1).isSome = true := by decide +kernel
  obtain ⟨⟨s', b'⟩, hdone⟩ := Option.isSome_iff_exists.mp hsome
  exact ⟨s', b', insertNewIblocks_refines (bufferOf_laidOut (by decide))
    (by intro f; cases f <;> decide +kernel) (by decide) (by decide) (by decide) (by decide)
    (by decide) hdone⟩

/-- **The offset of the checksum wraps**: a buffer 8 bytes short of `2 ^ 32` gets one record more,
and `checksum_offset` is 8, inside the header, while the last table ends at `2 ^ 32 + 8`. -/
theorem checksum_offset_wraps :
    (bufferOf (2 ^ 28 - 12)).LaidOut SpecialFile.all ∧
    ∃ s' b', (bufferOf (2 ^ 28 - 12)).insertNewIblocks ⟨0, 0, pageShift, 0⟩
    (managerOf (2 ^ 28 - 12))
        .xattrTree 1 = some (s', b') ∧
      b'.checksumOffset = 8 ∧
      b'.translationTableOffsets .xattrTree + b'.tableSize .xattrTree = 2 ^ 32 + 8 ∧
      ¬ (bufferOf (2 ^ 28 - 12)).GrowsAlone ⟨0, 0, pageShift, 0⟩ (managerOf (2 ^ 28 - 12))
      .xattrTree 1 s' b' := by
  have heval : ((bufferOf (2 ^ 28 - 12)).insertNewIblocks ⟨0, 0, pageShift, 0⟩
    (managerOf (2 ^ 28 - 12))
      .xattrTree 1).map (fun r => (r.2.checksumOffset,
        r.2.translationTableOffsets .xattrTree + r.2.tableSize .xattrTree)) =
      some (8, 2 ^ 32 + 8) := by decide +kernel
  obtain ⟨⟨s', b'⟩, hdone, hvalues⟩ := Option.map_eq_some_iff.mp heval
  obtain ⟨hchecksum, hend⟩ := Prod.mk.inj hvalues
  refine ⟨bufferOf_laidOut (by decide), s', b', hdone, hchecksum, hend, fun hgrows => ?_⟩
  have hle := hgrows.checksum_end.1 .xattrTree
  simp only at hchecksum hend
  omega

end Vdfs4
