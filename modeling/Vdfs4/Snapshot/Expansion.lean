import Vdfs4.Snapshot.CowInvariant
import Vdfs4.Snapshot.MetaArea

/-!
# Expanding a special file

`expand_special_file` checks that the metadata area has room for the new chunks, or makes room,
and then `expand_translation_tables` grows the tables and calls `insert_new_iblocks`, which **must
not** run out of space: a `VDFS4_BUG_ON` says so. The checks count the blocks of the tables, or look
for a run of clear bits; the allocation needs **one aligned clear area for each record**.

* `metaAreaFreeBlocks`, `freeBlocksInBitmapContigCheck` — the two ways to count.
* `checkMetaSpace`, `expandTranslationTables`, `expandSpecialFile` — the call and its two parts.
* `freeAreas` — the aligned clear areas of the snapshot bitmap.
* `insertNewIblocksLoop_isSome_iff` — the allocations succeed exactly if there are **enough areas**.
-/

namespace Vdfs4

open Bitmap SpecialFile

/-! ### The steps of an expansion -/

/-- What the expansion reads besides the snapshot manager and the metadata area: the sizes of the
volume, the tables area, and what the allocators answer. -/
structure ExpandEnv where
  logBlockSize : Nat
  logSuperPageSize : Nat
  /-- `sbi->free_blocks_count` -/
  freeBlocksCount : Nat
  /-- `bdev_nr_bytes` -/
  volumeSize : Nat
  /-- `exsb.tables.length` -/
  tablesLength : Nat
  /-- `vdfs4_fsm_get_free_block` as a function of the hint, the maximum and the minimum -/
  getFreeBlock : Nat → Nat → Nat → Option (Nat × Nat)
  /-- the allocation of a larger base table succeeds -/
  tableAlloc : Bool
  /-- the allocation of larger bitmaps succeeds -/
  bitmapAlloc : Bool

/-- `align_to_power_of_two`. -/
def alignToPowerOfTwo (value : Nat) : Nat :=
  let pow2Align := Nat.log2 value
  if value ≠ 2 ^ pow2Align then 2 ^ (pow2Align + 1) else 2 ^ pow2Align

/-- `get_minimal_meta_expand_step`. -/
def ExpandEnv.getMinimalMetaExpandStep (e : ExpandEnv) : Nat :=
  let minimalExpandStep := 2 * (3 * 2 ^ e.logSuperPageSize + 2 * 2 ^ e.logBlockSize) % 2 ^ 32
  let blocksPerSuperpage := 2 ^ (e.logSuperPageSize - e.logBlockSize)
  let minimalExpandStep := minimalExpandStep / 2 ^ e.logBlockSize
  alignToPowerOfTwo
    (minimalExpandStep + (blocksPerSuperpage - minimalExpandStep % blocksPerSuperpage))

/-- `calculate_expand_step`. -/
def ExpandEnv.calculateExpandStep (e : ExpandEnv) : Nat :=
  let minimalExpandStep := e.getMinimalMetaExpandStep
  if e.volumeSize / 2 ^ 5 < minimalExpandStep * 2 ^ e.logBlockSize % 2 ^ 32 then
    minimalExpandStep * 2 % 2 ^ 32
  else
    let expandStep := e.freeBlocksCount % 2 ^ 32 / Mkfs.metaBtreeExtents
    alignToPowerOfTwo (max expandStep (minimalExpandStep * 4 % 2 ^ 32))

/-- The blocks of a chunk as the free space is counted. -/
def countedBlocks (sbi : SbInfo) (ino : SpecialFile) : Nat :=
  if ino.isTree then 2 ^ (sbi.logBlocksInPage + sbi.logBlocksInLeb) else 2 ^ sbi.logBlocksInPage

/-- `meta_area_free_blocks`, in 32 bits. -/
def metaAreaFreeBlocks (sbi : SbInfo) (metaTbc : Nat) (t : BaseTable) : Nat :=
  all.foldl
    (fun freeBlocks ino =>
      (freeBlocks + 2 ^ 32 - countedBlocks sbi ino * (t.lastTableIndex ino + 1) % 2 ^ 32) % 2 ^ 32)
    metaTbc

/-- The loop of `free_blocks_in_bitmap_contig_check` from a clear bit on. -/
def contigCheckLoop (bitmap : Bitmap) (size contigLen : Nat) : Nat → Nat → Nat → Bool → Nat × Bool
  | 0, _, freeBlocks, contigFound => (freeBlocks, contigFound)
  | fuel + 1, position, freeBlocks, contigFound =>
    if position < size then
      let nextPosition := findNextBit bitmap size position
      if size < nextPosition then
        (freeBlocks + (nextPosition - 1 - position),
          contigFound || decide (contigLen ≤ nextPosition - 1 - position))
      else
        contigCheckLoop bitmap size contigLen fuel (findNextZeroBit bitmap size nextPosition)
          (freeBlocks + (nextPosition - position))
          (contigFound || decide (contigLen ≤ nextPosition - position))
    else (freeBlocks, contigFound)

/-- `free_blocks_in_bitmap_contig_check`: the clear bits, and whether a run of them is long
enough. -/
def freeBlocksInBitmapContigCheck (bitmap : Bitmap) (size contigLen : Nat) : Nat × Bool :=
  contigCheckLoop bitmap size contigLen (size + 1) (findNextZeroBit bitmap size 0) 0 false

/-- `expand_special_file` up to the call of `expand_translation_tables`: the metadata area it goes
on with. -/
def checkMetaSpace (e : ExpandEnv) (sbi : SbInfo) (area : MetaArea) (s : SnapshotInfo)
    (ino : SpecialFile) (newTableIndex : Nat) (forceInsert : Bool) : Except Errno MetaArea :=
  let lastTableIndex := s.baseT.lastTableIndex ino
  if newTableIndex ≤ lastTableIndex then .error .einval
  else
    let newBlocksCount : Nat :=
      (newTableIndex - lastTableIndex) % 2 ^ 32 * countedBlocks sbi ino % 2 ^ 32
    let freeBlocks := metaAreaFreeBlocks sbi area.metaTbc s.baseT
    if (freeBlocks : Int) - newBlocksCount < (area.metaTbc / 3 : Nat) then
      match area.expandArea fun hint =>
          e.getFreeBlock hint e.calculateExpandStep e.getMinimalMetaExpandStep with
      | (.ok (), area) => .ok area
      | (.error errno, area) =>
        -- the metadata area stays as it is: the bits are counted
        let (freeBlocks, contigAvail) :=
          freeBlocksInBitmapContigCheck s.snapshotBitmap s.bitmapSizeInBits newBlocksCount
        if forceInsert = false ∧
            (freeBlocks : Int) - newBlocksCount < 10 * e.getMinimalMetaExpandStep then .error errno
        else if contigAvail = false then .error .enospc
        else .ok area
    else .ok area

/-- The tables in memory: the snapshot manager, `checksum_offset` of its base table and the bytes
allocated for it. -/
structure Tables where
  snapshot : SnapshotInfo
  checksumOffset : Nat
  capacity : Nat

/-- `VDFS4_SNAPSHOT_EXT_TABLES * VDFS4_SNAPSHOT_EXT_SIZE`. -/
def extTablesSize : Nat := 8 * 4096

namespace Tables

/-- `tables_size`: the bytes of the base table. -/
def tablesSize (t : Tables) : Nat := t.checksumOffset + SnapshotInfo.crc32Size

/-- `expand_translation_tables` asks for a larger base table. -/
def needsTable (t : Tables) : Bool :=
  SnapshotInfo.pageSize < t.tablesSize % SnapshotInfo.pageSize + Mkfs.sizeofRecord

/-- The bytes allocated for the base table when the records are inserted. -/
def grownCapacity (t : Tables) : Nat :=
  if t.needsTable then
    (t.tablesSize + Mkfs.sizeofRecord + SnapshotInfo.pageSize - 1) / SnapshotInfo.pageSize *
      SnapshotInfo.pageSize
  else t.capacity

/-- The size check at the top of `expand_translation_tables`: bytes against blocks, in 64 bits. -/
def tooLarge (e : ExpandEnv) (t : Tables) : Bool :=
  (e.tablesLength / 2 + 2 ^ 64 - extTablesSize) % 2 ^ 64 < t.tablesSize + Mkfs.sizeofRecord

/-- `expand_translation_tables`; `none` is a `VDFS4_BUG_ON` in `insert_new_iblocks`. -/
def expandTranslationTables (e : ExpandEnv) (sbi : SbInfo) (metaTbc : Nat) (t : Tables)
    (ino : SpecialFile) (newTableIndex : Nat) : Option (Except Errno Unit × Tables) :=
  if t.tooLarge e then some (.error .enospc, t)
  else if t.needsTable && !e.tableAlloc then some (.error .enomem, t)
  else if t.snapshot.bitmapSizeInBits < metaTbc ∧ e.bitmapAlloc = false then
    some (.error .enomem, { t with capacity := t.grownCapacity })
  else
    ((t.snapshot.growBitmaps metaTbc).insertNewIblocks sbi ino newTableIndex).map fun s =>
      (.ok (), { snapshot := s
                 checksumOffset := (t.checksumOffset % 2 ^ 32 + Mkfs.sizeofRecord *
                   (newTableIndex - t.snapshot.baseT.lastTableIndex ino)) % 2 ^ 32
                 capacity := t.grownCapacity })

/-- `expand_special_file`. -/
def expandSpecialFile (e : ExpandEnv) (sbi : SbInfo) (area : MetaArea) (t : Tables)
    (ino : SpecialFile) (newTableIndex : Nat) (forceInsert : Bool) :
    Option (Except Errno Unit × MetaArea × Tables) :=
  match checkMetaSpace e sbi area t.snapshot ino newTableIndex forceInsert with
  | .error errno => some (.error errno, area, t)
  | .ok area =>
    (t.expandTranslationTables e sbi area.metaTbc ino newTableIndex).map fun (r, t) => (r, area, t)

end Tables

/-! ### Aligned clear areas -/

/-- The chunks of a bitmap of `size` bits that are clear. -/
def freeAreas (sbi : SbInfo) (ino : SpecialFile) (bitmap : Bitmap) (size : Nat) : Finset Nat :=
  (Finset.range (size / sbi.nr ino)).filter fun k => bitmap.anySet (k * sbi.nr ino)
  (sbi.nr ino) = false

section areas

variable {sbi : SbInfo} {ino : SpecialFile} {bitmap : Bitmap} {size k pos n : Nat} {e : ExpandEnv}

/-- The chunk `k` is a clear area. -/
theorem mem_freeAreas : k ∈ freeAreas sbi ino bitmap size ↔
    IsZeroArea bitmap size (sbi.nr ino) (2 ^ sbi.order ino - 1) (k * sbi.nr ino) := by
  have hnr := sbi.nr_pos ino
  have hmask : 2 ^ sbi.order ino - 1 + 1 = sbi.nr ino := Nat.sub_add_cancel hnr
  have hlt : k < size / sbi.nr ino ↔ k * sbi.nr ino + sbi.nr ino ≤ size := by
    rw [Nat.lt_iff_add_one_le, Nat.le_div_iff_mul_le hnr, Nat.add_mul, Nat.one_mul]
  rw [freeAreas, Finset.mem_filter, Finset.mem_range, anySet_eq_false, hlt]
  constructor
  · rintro ⟨hle, hclear⟩
    exact ⟨hle, hmask ▸ Nat.dvd_mul_left _ _, hclear⟩
  · rintro ⟨hle, -, hclear⟩
    exact ⟨hle, hclear⟩

/-- Every aligned clear area is a chunk. -/
theorem exists_mem_freeAreas
    (h : IsZeroArea bitmap size (sbi.nr ino) (2 ^ sbi.order ino - 1) pos) :
    ∃ k ∈ freeAreas sbi ino bitmap size, pos = k * sbi.nr ino := by
  have hmask : 2 ^ sbi.order ino - 1 + 1 = sbi.nr ino := Nat.sub_add_cancel (sbi.nr_pos ino)
  obtain ⟨k, hk⟩ := hmask ▸ h.dvd
  rw [Nat.mul_comm] at hk
  exact ⟨k, mem_freeAreas.mpr (hk ▸ h), hk⟩

/-- Taking a chunk leaves the others. -/
theorem freeAreas_setRange (k : Nat) :
    freeAreas sbi ino (bitmap.setRange (k * sbi.nr ino) (sbi.nr ino)) size =
      (freeAreas sbi ino bitmap size).erase k := by
  have hnr := sbi.nr_pos ino
  ext j
  simp only [freeAreas, Finset.mem_erase, Finset.mem_filter, anySet_eq_false]
  constructor
  · rintro ⟨hrange, hclear⟩
    have hother : ∀ i, j * sbi.nr ino ≤ i → i < j * sbi.nr ino + sbi.nr ino →
        ¬ (k * sbi.nr ino ≤ i ∧ i < k * sbi.nr ino + sbi.nr ino) ∧ bitmap i = false := by
      intro i hlo hhi
      have hfalse := hclear i hlo hhi
      rw [← Bool.not_eq_true, setRange_eq_true, not_or] at hfalse
      exact ⟨hfalse.1, by simpa using hfalse.2⟩
    refine ⟨?_, hrange, fun i hlo hhi => (hother i hlo hhi).2⟩
    rintro rfl
    exact (hother _ le_rfl (by omega)).1 ⟨le_rfl, by omega⟩
  · rintro ⟨hne, hrange, hclear⟩
    refine ⟨hrange, fun i hlo hhi => ?_⟩
    rw [← Bool.not_eq_true, setRange_eq_true, not_or]
    refine ⟨fun hin => hne ?_, by simpa using hclear i hlo hhi⟩
    -- a bit lies in one chunk only
    have hj : i / sbi.nr ino = j := Nat.div_eq_of_lt_le hlo (by rw [Nat.add_mul]; omega)
    have hk : i / sbi.nr ino = k := Nat.div_eq_of_lt_le hin.1 (by rw [Nat.add_mul]; omega)
    rw [← hj, hk]

end areas

/-! ### The allocations -/

section allocations

open SnapshotInfo

variable {sbi : SbInfo} {ino : SpecialFile} {s : SnapshotInfo}

/-- **The record loop of `insert_new_iblocks` completes exactly if there are enough clear
areas**: every call of `get_new_meta_iblock` takes one of them, and it fails only when there is
none. -/
theorem insertNewIblocksLoop_isSome_iff (count : Nat) (s : SnapshotInfo) :
    (insertNewIblocksLoop sbi ino count s).isSome = true ↔
      count ≤ (freeAreas sbi ino s.snapshotBitmap s.bitmapSizeInBits).card := by
  induction count generalizing s with
  | zero => simp [insertNewIblocksLoop]
  | succ count ih =>
    rw [insertNewIblocksLoop]
    rcases hget : s.getNewMetaIblock sbi ino with ⟨s1, e | pos⟩
    · -- no area is clear
      obtain ⟨-, -, hnone⟩ := getNewMetaIblock_error hget
      have hempty : freeAreas sbi ino s.snapshotBitmap s.bitmapSizeInBits = ∅ :=
        Finset.eq_empty_of_forall_notMem fun k hk => hnone _ (mem_freeAreas.mp hk)
      simp [hempty]
    have hhanded := getNewMetaIblock_ok hget
    obtain ⟨k, hk, rfl⟩ := exists_mem_freeAreas hhanded.area
    simp only
    rw [ih]
    simp only [hhanded.snapshotBitmap, hhanded.bitmapSizeInBits, freeAreas_setRange,
      Finset.card_erase_of_mem hk]
    have hpos := Finset.card_pos.mpr ⟨k, hk⟩
    omega

/-- `insert_new_iblocks` completes exactly if there are enough clear areas. -/
theorem insertNewIblocks_eq_none_iff (hn : s.baseT.lastTableIndex ino ≤ n) :
    s.insertNewIblocks sbi ino n = none ↔
      (freeAreas sbi ino s.snapshotBitmap s.bitmapSizeInBits).card <
        n - s.baseT.lastTableIndex ino := by
  have hloop : (insertNewIblocksLoop sbi ino (n - s.baseT.lastTableIndex ino) s).isSome = true ↔
    _ :=
    insertNewIblocksLoop_isSome_iff _ s
  unfold insertNewIblocks
  simp only
  rw [if_neg (by omega), ← not_le, ← hloop]
  cases insertNewIblocksLoop sbi ino (n - s.baseT.lastTableIndex ino) s <;> simp

end allocations

/-! ### The checks are sufficient if there are enough areas -/

/-- `expand_translation_tables` gets to `insert_new_iblocks`. -/
def Tables.Ready (e : ExpandEnv) (metaTbc : Nat) (t : Tables) : Prop :=
  t.tooLarge e = false ∧ (t.needsTable = true → e.tableAlloc = true) ∧
    (t.snapshot.bitmapSizeInBits < metaTbc → e.bitmapAlloc = true)

/-- The checks let only calls pass that ask for records. -/
theorem lt_of_checkMetaSpace {sbi : SbInfo} {area area' : MetaArea} {s : SnapshotInfo}
    {ino : SpecialFile} {forceInsert : Bool}
    (h : checkMetaSpace e sbi area s ino n forceInsert = .ok area') :
    s.baseT.lastTableIndex ino < n := by
  unfold checkMetaSpace at h
  simp only at h
  split at h
  · cases h
  · omega

/-- When `expand_translation_tables` meets the `VDFS4_BUG_ON`. -/
theorem expandTranslationTables_eq_none_iff {sbi : SbInfo} {metaTbc : Nat} {t : Tables}
    {ino : SpecialFile} (hn : t.snapshot.baseT.lastTableIndex ino ≤ n) :
    t.expandTranslationTables e sbi metaTbc ino n = none ↔
      t.Ready e metaTbc ∧
        (freeAreas sbi ino t.snapshot.snapshotBitmap
          (max t.snapshot.bitmapSizeInBits metaTbc)).card <
          n - t.snapshot.baseT.lastTableIndex ino := by
  unfold Tables.expandTranslationTables Tables.Ready
  split
  · next hlarge => simp [hlarge]
  next hlarge =>
  split
  · next halloc => simp_all
  next halloc =>
  split
  · next hbits => simp_all
  · next hbits =>
    have hinsert : (t.snapshot.growBitmaps metaTbc).insertNewIblocks sbi ino n = none ↔ _ :=
      insertNewIblocks_eq_none_iff (by simpa using hn)
    rw [Option.map_eq_none_iff, hinsert, SnapshotInfo.growBitmaps_eq]
    simp_all

/-- **An expansion that passes its checks completes exactly if the snapshot bitmap has an aligned
clear area for every new record**: in every state of the snapshot manager, for every metadata area,
every answer of the allocators and every call. -/
theorem expansion_checks_iff (e : ExpandEnv) (sbi : SbInfo) (area : MetaArea) (t : Tables)
    (ino : SpecialFile) (n : Nat) (forceInsert : Bool) :
    t.expandSpecialFile e sbi area ino n forceInsert ≠ none ↔
      ∀ area', checkMetaSpace e sbi area t.snapshot ino n forceInsert = .ok area' →
        t.Ready e area'.metaTbc →
        n - t.snapshot.baseT.lastTableIndex ino ≤
          (freeAreas sbi ino t.snapshot.snapshotBitmap
            (max t.snapshot.bitmapSizeInBits area'.metaTbc)).card := by
  unfold Tables.expandSpecialFile
  cases hcheck : checkMetaSpace e sbi area t.snapshot ino n forceInsert with
  | error errno => simp
  | ok area' =>
    have hn := lt_of_checkMetaSpace hcheck
    simp only [ne_eq, Option.map_eq_none_iff, expandTranslationTables_eq_none_iff hn.le,
      Except.ok.injEq]
    constructor
    · rintro hnot _ rfl hready
      exact Nat.le_of_not_lt fun hlt => hnot ⟨hready, hlt⟩
    · rintro h ⟨hready, hlt⟩
      exact absurd (h area' rfl hready) (Nat.not_le_of_lt hlt)

/-- One-block chunks, in the first mount. -/
def smallSb : SbInfo := ⟨0, 0, 12, 1⟩

/-- One chunk for each special file, in a metadata area of ten iblocks. -/
def smallImage : MountImage smallSb where
  table := ⟨fun ino => [⟨all.idxOf ino, 0, 0⟩], fun _ => List.cons_ne_nil _ _⟩
  metaTbc := 10
  disjoint := BaseTable.rangesDisjoint_of_single (all.idxOf ·) (fun _ => rfl) (by decide)
  bounded := BaseTable.bounded_of_single (all.idxOf ·) (fun _ => rfl) (by decide)

/-- Every chunk is moved once. -/
def movedRun : Option CowState :=
  GuardedRun.guardedRun (CowOp.NoEnospc smallSb) (cowStep smallSb)
    (all.map fun ino => .addChunk ino 0) (CowState.mount smallImage 1 0)

/-- A volume without free blocks for the metadata area. -/
def fullVolume : ExpandEnv := ⟨12, 13, 0, 2 ^ 30, 2 ^ 20, fun _ _ _ => none, true, true⟩

/-- **The checks pass and the allocation fails**: five of ten meta iblocks are mapped, and all of
them were moved since the last commit, so that every bit is set. The tables leave five blocks free,
which is enough for one page of the space bitmap, and `get_new_meta_iblock` finds none. -/
theorem expansion_stops_after_moves :
    ∃ st, CowReached smallSb smallImage 1 0 st ∧
      checkMetaSpace fullVolume smallSb ⟨[(8, 10), (0, 0)], 10⟩ st.snapshot .spaceBitmap 1 false =
        .ok ⟨[(8, 10), (0, 0)], 10⟩ ∧
      Tables.expandSpecialFile fullVolume smallSb ⟨[(8, 10), (0, 0)], 10⟩ ⟨st.snapshot, 184, 4096⟩
        .spaceBitmap 1 false = none := by
  have hsome : movedRun.isSome = true := by decide +kernel
  obtain ⟨st, hst⟩ := Option.isSome_iff_exists.mp hsome
  have hcheck : movedRun.map (fun st => (checkMetaSpace fullVolume smallSb ⟨[(8, 10), (0, 0)], 10⟩
      st.snapshot .spaceBitmap 1 false).toOption) = some (some ⟨[(8, 10), (0, 0)], 10⟩) := by
    decide +kernel
  have hexpand : movedRun.map (fun st => (Tables.expandSpecialFile fullVolume smallSb
      ⟨[(8, 10), (0, 0)], 10⟩ ⟨st.snapshot, 184, 4096⟩ .spaceBitmap 1 false).isNone) =
      some true := by decide +kernel
  rw [hst, Option.map_some, Option.some.injEq] at hcheck hexpand
  refine ⟨st, GuardedRun.reaches_of_guardedRun hst, ?_, Option.isNone_iff_eq_none.mp hexpand⟩
  cases hresult : checkMetaSpace fullVolume smallSb ⟨[(8, 10), (0, 0)], 10⟩ st.snapshot
      .spaceBitmap 1 false with
  | error errno =>
    rw [hresult] at hcheck
    cases hcheck
  | ok area =>
    rw [hresult] at hcheck
    exact congrArg _ (Option.some.inj hcheck)

end Vdfs4
