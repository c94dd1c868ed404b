import Vdfs4.Snapshot.CowInvariant

/-!
# The log of extended tables

A commit writes either the whole translation table (a **base table**) or only the moves
of the transaction (an **extended table**) behind the base table on disk. At mount the
base table is loaded and the extended tables are applied to it in order, as long as each
has the version behind the last one.

* `parseExtendedTable` — the replay of one extended table; `TableLog.load` — the loop of mount.
* `Mem` — the snapshot manager with the dirty pages of the special files; its operations
  are the writers' `vdfs4_add_chunk_bnode` / `vdfs4_add_chunk_bitmap`, the growth of a
  special file and the commit `vdfs4_sync_metadata`.
* `LogInv` — the invariant: the log replays to the table of the last commit, and the
  pending extended table leads from there to the signed live table.
* `replay_eq_committed` — the run theorem.
-/

namespace Vdfs4

open Option hiding map_map
open Bitmap GuardedRun SnapshotInfo BaseTable List

/-! ### Tables on disk -/

/-- The counters of `vdfs4_snapshot_descriptor`. -/
structure SnapshotDescriptor where
  mountCount : Nat
  syncCount : Nat
deriving DecidableEq, Repr

/-- A base table as a commit writes it. -/
structure BaseTableImage where
  descriptor : SnapshotDescriptor
  table : BaseTable

/-- An extended table as a commit writes it. -/
structure ExtendedTableImage where
  descriptor : SnapshotDescriptor
  records : List ExtendedRecord
deriving DecidableEq, Repr

/-- The loop body of `parse_extended_table`: one record goes into the table, with the
counters of the extended table. -/
def applyExtendedRecord (d : SnapshotDescriptor) (t : BaseTable) (record : ExtendedRecord) :
    Option BaseTable :=
  if t.lastTableIndex record.objectId < record.tableIndex then none
  else some (t.modifyRecord record.objectId record.tableIndex
    fun _ => ⟨record.metaIblock, d.syncCount, d.mountCount⟩)

/-- `parse_extended_table`. -/
def parseExtendedTable (base : BaseTableImage) (ext : ExtendedTableImage) :
    Option BaseTableImage :=
  (ext.records.foldlM (applyExtendedRecord ext.descriptor) base.table).map
    fun t => ⟨ext.descriptor, t⟩

/-- The counters of the next table of the same mount. -/
def SnapshotDescriptor.next (d : SnapshotDescriptor) : SnapshotDescriptor :=
  ⟨d.mountCount, (d.syncCount + 1) % 2 ^ 32⟩

/-- One base table and the extended tables behind it, up to a block without a valid one. -/
structure TableLog where
  base : BaseTableImage
  exts : List ExtendedTableImage

/-- `VDFS4_SNAPSHOT_TABLES_COUNT`, the same as `VDFS4_SNAPSHOT_EXT_TABLES`. -/
def snapshotTablesCount : Nat := 8

/-- The loop of `vdfs4_build_snapshot_manager` over the extended tables, which ends at the first
one that is not the next: the table it leads to, and how many were applied. -/
def loadExtendedTables : Nat → BaseTableImage → List ExtendedTableImage →
    Option (BaseTableImage × Nat)
  | 0, base, _ => some (base, 0)
  | _ + 1, base, [] => some (base, 0)
  | rounds + 1, base, e :: exts =>
    if e.descriptor = base.descriptor.next then
      match parseExtendedTable base e with
      | none => none
      | some base => (loadExtendedTables rounds base exts).map fun r => (r.1, r.2 + 1)
    else some (base, 0)

/-- The tables as mount loads them. -/
def TableLog.load (log : TableLog) : Option (BaseTableImage × Nat) :=
  loadExtendedTables snapshotTablesCount log.base log.exts

/-- An extended table that is the next one, applied. -/
def applyNext (base : BaseTableImage) (ext : ExtendedTableImage) : Option BaseTableImage :=
  if ext.descriptor = base.descriptor.next then parseExtendedTable base ext else none

/-- **Mount applies all extended tables** exactly if there are at most eight and each is the
next. -/
theorem loadExtendedTables_all_iff {n : Nat} {base last : BaseTableImage}
    {exts : List ExtendedTableImage} : loadExtendedTables n base exts = some (last, exts.length) ↔
      exts.length ≤ n ∧ exts.foldlM applyNext base = some last := by
  induction exts generalizing n base with
  | nil => cases n <;> simp [loadExtendedTables]
  | cons e exts ih =>
    cases n with
    | zero => simp [loadExtendedTables]
    | succ n =>
      rw [loadExtendedTables, foldlM_cons, applyNext, length_cons]
      split
      · cases hparse : parseExtendedTable base e with
        | none => simp
        | some base' =>
          rw [bind_eq_bind, bind_some, Nat.add_le_add_iff_right, ← ih, map_eq_some_iff]
          constructor
          · rintro ⟨⟨r, n⟩, h, hr⟩
            simp only [Prod.mk.injEq, Nat.add_right_cancel_iff] at hr
            rw [h, hr.1, hr.2]
          · exact fun h => ⟨_, h, rfl⟩
      · simp

/-- The tables that mount applies are applied without the check, too. -/
theorem foldlM_parse_of_next {base last : BaseTableImage} {exts : List ExtendedTableImage}
    (h : exts.foldlM applyNext base = some last) :
    exts.foldlM parseExtendedTable base = some last := by
  induction exts generalizing base with
  | nil => exact h
  | cons e exts ih =>
    rw [foldlM_cons] at h ⊢
    obtain ⟨base', hnext, h⟩ := bind_eq_some_iff.mp h
    rw [applyNext] at hnext
    split at hnext
    · rw [hnext]
      exact ih h
    · cases hnext

/-! ### The commit in memory -/

/-- `vdfs4_sign_mapping_pages` for the dirty chunks: their records get the counters of
the commit. -/
def BaseTable.sign (t : BaseTable) (d : SnapshotDescriptor)
    (dirty : List (SpecialFile × Nat)) : BaseTable :=
  dirty.foldl (fun t c => t.modifyRecord c.1 c.2
    fun r => { r with mountCount := d.mountCount, syncCount := d.syncCount }) t

/-- The table write of a commit: which table goes to which block of the tables area. -/
inductive TableWrite where
  | base (iblock : Nat) (image : BaseTableImage)
  | ext (iblock : Nat) (image : ExtendedTableImage)

/-- `sizeof(struct vdfs4_base_table)`. -/
def sizeofBaseTable : Nat := 104

/-- `sizeof(struct vdfs4_base_table_record)`. -/
def sizeofBaseTableRecord : Nat := 16

/-- The size of the written base table: header, records and CRC. -/
def BaseTable.sizeInBytes (t : BaseTable) : Nat :=
  (SpecialFile.all.map fun ino => sizeofBaseTableRecord * (t.lastTableIndex ino + 1)).sum +
    sizeofBaseTable + SnapshotInfo.crc32Size

/-- The pages of the written base table. -/
def BaseTable.pages (t : BaseTable) : Nat :=
  (t.sizeInBytes + pageSize - 1) / pageSize

/-- The size of an extended table of `n` records. -/
def extendedTableSize (n : Nat) : Nat :=
  n * sizeofExtendedRecord + sizeofExtendedTable +
    SnapshotInfo.crc32Size

/-- `vdfs4_update_translation_tables`: a base table into the other half of the tables
area, or an extended table behind the last one. -/
def SnapshotInfo.vdfs4UpdateTranslationTables (sbi : SbInfo) (tablesLength : Nat)
    (s : SnapshotInfo) : Option (SnapshotInfo × TableWrite) :=
  let descriptor : SnapshotDescriptor := ⟨sbi.mountCounter, s.syncCount⟩
  if snapshotTablesCount ≤ s.extenededTableCount ∨ s.useBaseTable = true then
    let iblock := if tablesLength / 2 ≤ s.iblock then 0 else tablesLength / 2
    some ({ s with
        useBaseTable := false
        extenededTableCount := 0
        iblock := iblock + s.baseT.pages
        dirtyPagesCount := 0
        extendedTable := [] }, .base iblock ⟨descriptor, s.baseT⟩)
  else if pageSize < extendedTableSize s.extendedTable.length then none
  else
    some ({ s with
        extenededTableCount := s.extenededTableCount + 1
        iblock := s.iblock + 1
        dirtyPagesCount := 0
        extendedTable := [] }, .ext s.iblock ⟨descriptor, s.extendedTable⟩)

/-- The metadata in memory: the snapshot manager, the chunks whose pages are dirty, and
the `EXSB_DIRTY` flag. -/
structure Mem where
  /-- the snapshot manager -/
  snapshot : SnapshotInfo
  /-- chunks with dirty pages, by table index -/
  dirty : List (SpecialFile × Nat)
  /-- the extended superblock changed since the last commit -/
  exsbDirty : Bool
  /-- `exsb.meta_tbc` -/
  metaTbc : Nat

namespace Mem

/-- `vdfs4_add_chunk_bnode` and `vdfs4_add_chunk_bitmap`: the first change of a chunk in
a transaction dirties its pages and moves it. -/
def vdfs4AddChunk (sbi : SbInfo) (m : Mem) (ino : SpecialFile) (pageIndex : Nat) : Option Mem :=
  if (ino, getTableIndex sbi ino pageIndex) ∈ m.dirty then some m
  else
    (m.snapshot.vdfs4AddChunkNoLock sbi ino pageIndex).map fun s =>
      { m with snapshot := s, dirty := m.dirty ++ [(ino, getTableIndex sbi ino pageIndex)] }

/-- `vdfs4_check_page_offset` for a page past the end of the file: the metadata area may
have been `expanded` to `metaTbc` iblocks first, the bitmaps grow to the size of the area, and
new records up to the page are inserted. -/
def vdfs4CheckPageOffset (sbi : SbInfo) (m : Mem) (ino : SpecialFile) (pageIndex : Nat)
    (metaTbc : Nat) (expanded : Bool) : Option Mem :=
  let tableIndex := getTableIndex sbi ino pageIndex
  let metaTbc := if expanded then metaTbc else m.metaTbc
  if m.snapshot.baseT.lastTableIndex ino < tableIndex then
    ((m.snapshot.growBitmaps metaTbc).insertNewIblocks sbi ino tableIndex).map fun s =>
      { m with
        snapshot := { s with useBaseTable := true }
        exsbDirty := m.exsbDirty || expanded
        metaTbc := metaTbc }
  else some m

/-- The commit up to the table write: a dirty extended superblock asks for a base table,
`vdfs4_meta_write` signs the dirty pages, `vdfs4_update_bitmaps`. -/
def signed (sbi : SbInfo) (m : Mem) : SnapshotInfo :=
  let s := { m.snapshot with useBaseTable := m.snapshot.useBaseTable || m.exsbDirty }
  { s with baseT := s.baseT.sign ⟨sbi.mountCounter, s.syncCount⟩ m.dirty }.vdfs4UpdateBitmaps

/-- `vdfs4_sync_metadata` in memory, with the table it writes; nothing is written when
nothing is dirty. -/
def vdfs4SyncMetadata (sbi : SbInfo) (tablesLength : Nat) (m : Mem) :
    Option (Mem × Option TableWrite) :=
  if m.snapshot.dirtyPagesCount = 0 then some (m, none)
  else
    ((m.signed sbi).vdfs4UpdateTranslationTables sbi tablesLength).map fun (s, write) =>
      (⟨{ s with syncCount := (s.syncCount + 1) % 2 ^ 32 }, [], false, m.metaTbc⟩, some write)

end Mem

/-! ### Tables record by record -/

namespace BaseTable

theorem ext_record? {t u : BaseTable} (h : ∀ ino i, t.record? ino i = u.record? ino i) :
    t = u :=
  ext fun ino => ext_getElem? fun i => h ino i

/-- A change that changes nothing. -/
theorem modifyRecord_eq_self {t : BaseTable} {ino : SpecialFile}
    {g : BaseTableRecord → BaseTableRecord} (hr : t.record? ino i = some r)
    (hg : g r = r) : t.modifyRecord ino i g = t := by
  refine ext_record? fun ino' j => ?_
  rw [record?_modifyRecord]
  split
  · rename_i hij
    rw [hij.1, hij.2, hr, map_some, hg]
  · rfl

/-- Signing gives exactly the dirty chunks the counters of the commit. -/
theorem record?_sign (t : BaseTable) (d : SnapshotDescriptor)
    (dirty : List (SpecialFile × Nat)) (ino : SpecialFile) (i : Nat) :
    (t.sign d dirty).record? ino i = (t.record? ino i).map fun r =>
      if (ino, i) ∈ dirty then ⟨r.metaIblock, d.syncCount, d.mountCount⟩ else r := by
  unfold sign
  induction dirty generalizing t with
  | nil => simp
  | cons c dirty ih =>
    rw [foldl_cons, ih, record?_modifyRecord]
    by_cases hc : ino = c.1 ∧ i = c.2
    · obtain ⟨rfl, rfl⟩ := hc
      rw [if_pos ⟨rfl, rfl⟩, Option.map_map]
      congr 1
      funext r
      by_cases hm : (c.1, c.2) ∈ dirty <;> simp [hm]
    · have hne : (ino, i) ≠ c := by
        rintro rfl
        exact hc ⟨rfl, rfl⟩
      rw [if_neg hc]
      simp only [mem_cons, hne, false_or]

/-- Signing leaves every chunk in its place. -/
theorem mapsAt_sign {sbi : SbInfo} {t : BaseTable} {ino : SpecialFile} :
    (t.sign d dirty).MapsAt sbi ino i b ↔ t.MapsAt sbi ino i b := by
  unfold MapsAt
  rw [record?_sign]
  cases t.record? ino i with
  | none => simp
  | some r => by_cases hm : (ino, i) ∈ dirty <;> simp [hm]

theorem maps_sign {sbi : SbInfo} {t : BaseTable} :
    (t.sign d dirty).Maps sbi b ↔ t.Maps sbi b := by
  unfold Maps
  simp only [mapsAt_sign]

/-- **One logged move**: applying its record to the signed table is signing one chunk
more after the move. -/
theorem applyExtendedRecord_sign {t : BaseTable} {ino : SpecialFile}
    (hr : t.record? ino i = some r) :
    applyExtendedRecord d (t.sign d dirty) ⟨ino, i, pos⟩ =
      some ((t.modifyRecord ino i fun r => { r with metaIblock := pos }).sign d
        (dirty ++ [(ino, i)])) := by
  -- the record exists in the signed table
  have hsome : ∃ r', (t.sign d dirty).record? ino i = some r' := by
    rw [record?_sign, hr]
    exact ⟨_, rfl⟩
  have hlast : ¬ (t.sign d dirty).lastTableIndex ino < i := by
    obtain ⟨r', hr'⟩ := hsome
    have hlt : i < ((t.sign d dirty).records ino).length := (List.getElem?_eq_some_iff.mp hr').1
    have := (t.sign d dirty).lastTableIndex_add_one ino
    omega
  unfold applyExtendedRecord
  rw [if_neg hlast, some.injEq]
  refine ext_record? fun ino' j => ?_
  rw [record?_modifyRecord, record?_sign, record?_sign, record?_sign, record?_modifyRecord]
  by_cases hij : ino' = ino ∧ j = i
  · obtain ⟨rfl, rfl⟩ := hij
    simp [hr]
  · have hne : (ino', j) ≠ (ino, i) := by
      intro heq
      exact hij (Prod.mk.inj heq)
    simp [hij, hne]

end BaseTable

/-! ### Runs -/

/-- The metadata in memory, the tables and the size of the metadata area on disk, and the table
of the last commit. -/
structure LogState where
  mem : Mem
  disk : TableLog
  /-- `exsb.meta_tbc` on disk -/
  diskTbc : Nat
  /-- the in-memory table when the last commit ended -/
  committed : BaseTable

/-- The operations of a run. -/
inductive LogOp where
  /-- the first change of a chunk, or a later one -/
  | addChunk (ino : SpecialFile) (pageIndex : Nat)
  /-- a special file is extended up to a page -/
  | checkPageOffset (ino : SpecialFile) (pageIndex metaTbc : Nat) (expanded : Bool)
  /-- the extended superblock changes (`vdfs4_dirty_super`, the written-bytes counter) -/
  | dirtySuper
  /-- `vdfs4_sync_metadata` -/
  | syncMetadata
deriving DecidableEq, Repr

/-- The tables on disk after a table write. -/
def TableLog.write (log : TableLog) : TableWrite → TableLog
  | .base _ image => ⟨image, []⟩
  | .ext _ image => ⟨log.base, log.exts ++ [image]⟩

/-- One operation; `none` when one of its assertions fires. A commit writes the extended
superblock if it is dirty. -/
def logStep (sbi : SbInfo) (tablesLength : Nat) (st : LogState) : LogOp → Option LogState
  | .addChunk ino pageIndex =>
    (st.mem.vdfs4AddChunk sbi ino pageIndex).map fun m => { st with mem := m }
  | .checkPageOffset ino pageIndex metaTbc expanded =>
    (st.mem.vdfs4CheckPageOffset sbi ino pageIndex metaTbc expanded).map fun m =>
      { st with mem := m }
  | .dirtySuper => some { st with mem := { st.mem with exsbDirty := true } }
  | .syncMetadata =>
    (st.mem.vdfs4SyncMetadata sbi tablesLength).map fun
      | (m, none) => { st with mem := m }
      | (m, some write) =>
        ⟨m, st.disk.write write, if st.mem.exsbDirty then m.metaTbc else st.diskTbc,
          m.snapshot.baseT⟩

/-- A mounted volume: the tables on disk, of which mount applied all to a mountable table. -/
structure MountedLog (sbi : SbInfo) where
  /-- the tables on disk -/
  log : TableLog
  /-- what mount makes of them -/
  image : MountImage sbi
  /-- the descriptor of the last replayed table -/
  descriptor : SnapshotDescriptor
  /-- the mount has loaded the log -/
  loads : log.load = some (⟨descriptor, image.table⟩, log.exts.length)

/-- The state after the mount: the mount counter was raised, so the extended superblock
is dirty. -/
def LogState.mount {sbi : SbInfo} (start : MountedLog sbi) (iblock : Nat) : LogState where
  mem := ⟨build sbi start.image.table start.image.metaTbc iblock
    start.log.exts.length, [], true, start.image.metaTbc⟩
  disk := start.log
  diskTbc := start.image.metaTbc
  committed := start.image.table

/-- The pending extended table: as long as no base table is due, it leads from the
committed table to the signed live table, and only dirty chunks were moved. -/
structure Pending (sbi : SbInfo) (m : Mem) (committed : BaseTable) : Prop where
  /-- replaying the pending records on the committed table signs the live table -/
  leads : m.snapshot.extendedTable.foldlM
    (applyExtendedRecord ⟨sbi.mountCounter, m.snapshot.syncCount⟩) committed =
      some (m.snapshot.baseT.sign ⟨sbi.mountCounter, m.snapshot.syncCount⟩ m.dirty)
  /-- a moved iblock belongs to a dirty chunk -/
  moved : ∀ b, m.snapshot.movedIblock b = true →
    ∃ c ∈ m.dirty, m.snapshot.baseT.MapsAt sbi c.1 c.2 b

/-- The invariant of a run of moves, growths and commits. -/
structure LogInv (sbi : SbInfo) (st : LogState) : Prop where
  live : LiveInv sbi st.mem.snapshot
  /-- mount applies the tables on disk and comes to the table of the last commit; the next
  extended table, unless a base table is due, has the next version -/
  loads : ∃ last, st.disk.exts.foldlM applyNext st.disk.base = some last ∧
    last.table = st.committed ∧
    (st.mem.exsbDirty = false →
      last.descriptor.next = ⟨sbi.mountCounter, st.mem.snapshot.syncCount⟩)
  /-- the manager counts the extended tables on disk -/
  count : st.disk.exts.length = st.mem.snapshot.extenededTableCount
  /-- at most eight of them -/
  short : st.disk.exts.length ≤ snapshotTablesCount
  /-- the pending extended table is complete unless a base table is due -/
  pending : st.mem.snapshot.useBaseTable = false → Pending sbi st.mem st.committed

section steps

variable {sbi : SbInfo} {m m' : Mem} {committed : BaseTable} {ino : SpecialFile}
  {r : BaseTableRecord} {dirty : List (SpecialFile × Nat)} {i tablesLength b pos : Nat}

/-- A chunk that is clean was not moved, unless a base table is due. -/
theorem Pending.moved_eq_false (hp : Pending sbi m committed) (hlive : LiveInv sbi m.snapshot)
    (hr : m.snapshot.baseT.record? ino i = some r)
    (hclean : (ino, i) ∉ m.dirty) : m.snapshot.movedIblock r.metaIblock = false := by
  rw [← Bool.not_eq_true]
  intro hm
  obtain ⟨c, hc, hmaps⟩ := hp.moved _ hm
  have hself : m.snapshot.baseT.MapsAt sbi ino i r.metaIblock := by
    have := sbi.nr_pos ino
    exact ⟨r, hr, le_rfl, by omega⟩
  obtain ⟨rfl, rfl⟩ := hlive.disjoint _ _ _ _ _ hself hmaps
  exact hclean hc

/-- A logged move: the pending table has one record more and one chunk more is dirty. -/
theorem Pending.logged {snap next moved : Bitmap} {s' : SnapshotInfo} (hp : Pending sbi m committed)
    (hr : m.snapshot.baseT.record? ino i = some r) (hclean : (ino, i) ∉ m.dirty)
    (hmv : m.snapshot.Moved ino i pos snap next moved s')
    (hext : s'.extendedTable = m.snapshot.extendedTable ++ [⟨ino, i, pos⟩])
    (hmoved : ∀ b, moved b = true → (pos ≤ b ∧ b < pos + sbi.nr ino) ∨
      m.snapshot.movedIblock b = true) :
    Pending sbi { m with snapshot := s', dirty := m.dirty ++ [(ino, i)] } committed := by
  refine ⟨?_, ?_⟩
  · simp only [hext, hmv.syncCount, hmv.baseT, foldlM_append, hp.leads, foldlM_cons,
      foldlM_nil, bind_eq_bind, bind_some, bind_pure,
      applyExtendedRecord_sign hr]
  have hplaced : Placed m.snapshot.baseT s'.baseT ino i pos := by
    rw [hmv.baseT]
    exact placed_modifyRecord hr
  intro b hb
  simp only [hmv.movedIblock] at hb
  rcases hmoved b hb with hb | hb
  · exact ⟨(ino, i), mem_append_right _ (mem_singleton.mpr rfl),
      hplaced.mapsAt_iff.mpr (.inl ⟨⟨rfl, rfl⟩, hb⟩)⟩
  · obtain ⟨c, hc, hmaps⟩ := hp.moved b hb
    refine ⟨c, mem_append_left _ hc, hplaced.mapsAt_iff.mpr (.inr ⟨?_, hmaps⟩)⟩
    rintro ⟨h1, h2⟩
    exact hclean (by rwa [← h1, ← h2])

/-- Keeping its place, a chunk keeps the live table and the bitmaps in agreement. -/
theorem LiveInv.keptPlace {s s' : SnapshotInfo} {moved : Bitmap} (hinv : LiveInv sbi s)
    (hr : s.baseT.record? ino i = some r)
    (hmv : s.Moved ino i r.metaIblock s.snapshotBitmap s.nextSnapshotBitmap moved s') :
    LiveInv sbi s' := by
  have hbaseT : s'.baseT = s.baseT := by
    rw [hmv.baseT]
    exact modifyRecord_eq_self hr rfl
  refine ⟨?_, ?_, ?_, ?_⟩
  · rw [hbaseT]
    exact hinv.disjoint
  · intro b
    rw [hmv.nextSnapshotBitmap, hbaseT]
    exact hinv.next_iff b
  · intro b hb
    rw [hbaseT] at hb
    rw [hmv.snapshotBitmap]
    exact hinv.live b hb
  · intro b hb
    rw [hmv.snapshotBitmap] at hb
    rw [hmv.bitmapSizeInBits]
    exact hinv.bounded b hb

/-- A call that writes no table: the counters stay, and the bitmaps stay or grow to `metaTbc`. -/
structure Unwritten (m : Mem) (metaTbc : Nat) (m' : Mem) : Prop where
  count : m'.snapshot.extenededTableCount = m.snapshot.extenededTableCount
  syncCount : m'.snapshot.syncCount = m.snapshot.syncCount
  size : m'.snapshot.bitmapSizeInBits = m.snapshot.bitmapSizeInBits ∧ m'.metaTbc = m.metaTbc ∨
    m'.snapshot.bitmapSizeInBits = max m.snapshot.bitmapSizeInBits metaTbc ∧ m'.metaTbc = metaTbc
  exsbDirty : m'.exsbDirty = false → m.exsbDirty = false ∧ m'.metaTbc = m.metaTbc

theorem Unwritten.same (m : Mem) (metaTbc : Nat) (dirty : List (SpecialFile × Nat)) :
    Unwritten m metaTbc { m with dirty := dirty } :=
  ⟨rfl, rfl, .inl ⟨rfl, rfl⟩, fun h => ⟨h, rfl⟩⟩

theorem Unwritten.moved {snap next moved : Bitmap} {s' : SnapshotInfo}
    {dirty : List (SpecialFile × Nat)}
    (h : m.snapshot.Moved ino i pos snap next moved s') (metaTbc : Nat) :
    Unwritten m metaTbc { m with snapshot := s', dirty := dirty } :=
  ⟨h.extenededTableCount, h.syncCount, .inl ⟨h.bitmapSizeInBits, rfl⟩, fun he => ⟨he, rfl⟩⟩

section

variable (hlive : LiveInv sbi m.snapshot)
  (hpend : m.snapshot.useBaseTable = false → Pending sbi m committed)

include hlive hpend

/-- **What `vdfs4_add_chunk_bnode` and `vdfs4_add_chunk_bitmap` keep**: the live table
and the bitmaps agree, the pending table stays complete, the tables area is untouched. -/
theorem vdfs4AddChunk_keeps {p : Nat} (h : m.vdfs4AddChunk sbi ino p = some m') :
    LiveInv sbi m'.snapshot ∧
      (m'.snapshot.useBaseTable = false → Pending sbi m' committed) ∧ Unwritten m m.metaTbc m' := by
  unfold Mem.vdfs4AddChunk at h
  split at h
  · obtain rfl := some.inj h
    exact ⟨hlive, hpend, .same m _ _⟩
  rename_i hclean
  obtain ⟨s', hs', rfl⟩ := map_eq_some_iff.mp h
  obtain ⟨r, hr, ⟨hm, rfl⟩ | ⟨hm, pos, s0, hh, hmv⟩ | ⟨hm, -, hmv⟩⟩ :=
    vdfs4AddChunkNoLock_cases hs'
  · -- clean but moved: only after a growth, and then a base table is due
    refine ⟨hlive, fun hu => ?_, .same m _ _⟩
    rw [(hpend hu).moved_eq_false hlive hr hclean] at hm
    cases hm
  · refine ⟨hlive.moved hr hh.area hmv, fun hu => ?_, .moved hmv _⟩
    obtain hbase | ⟨hu0, -, hext⟩ := hmv.logged
    · rw [hbase] at hu
      cases hu
    · exact (hpend hu0).logged hr hclean hmv hext fun b hb => setRange_eq_true.mp hb
  · refine ⟨hlive.keptPlace hr hmv, fun hu => ?_, .moved hmv _⟩
    obtain hbase | ⟨hu0, -, hext⟩ := hmv.logged
    · rw [hbase] at hu
      cases hu
    · exact (hpend hu0).logged hr hclean hmv hext fun b hb => setRange_eq_true.mp hb

/-- **What the growth of a special file keeps**; it always asks for a base table. -/
theorem vdfs4CheckPageOffset_keeps {p metaTbc : Nat} {expanded : Bool}
    (h : m.vdfs4CheckPageOffset sbi ino p metaTbc expanded = some m') :
    LiveInv sbi m'.snapshot ∧
      (m'.snapshot.useBaseTable = false → Pending sbi m' committed) ∧
      Unwritten m (if expanded then metaTbc else m.metaTbc) m' := by
  unfold Mem.vdfs4CheckPageOffset at h
  simp only at h
  split at h
  · obtain ⟨s', hs', rfl⟩ := map_eq_some_iff.mp h
    have hgrown := (hlive.growBitmaps _).insertNewIblocks hs'
    obtain ⟨hcount, hsync, hsize⟩ := insertNewIblocks_induction
      (I := fun t => t.extenededTableCount = m.snapshot.extenededTableCount ∧
        t.syncCount = m.snapshot.syncCount ∧
        t.bitmapSizeInBits =
          max m.snapshot.bitmapSizeInBits (if expanded then metaTbc else m.metaTbc)) hs'
      (by rw [growBitmaps_eq]; exact ⟨rfl, rfl, rfl⟩)
      (fun _ _ _ ht hh => ⟨hh.extenededTableCount.trans ht.1, hh.syncCount.trans ht.2.1,
        hh.bitmapSizeInBits.trans ht.2.2⟩) fun _ _ ht => ht
    refine ⟨⟨hgrown.disjoint, hgrown.next_iff, hgrown.live, hgrown.bounded⟩, nofun,
      hcount, hsync, .inr ⟨hsize, rfl⟩, fun he => ?_⟩
    obtain ⟨hdirty, rfl⟩ := Bool.or_eq_false_iff.mp he
    exact ⟨hdirty, rfl⟩
  · obtain rfl := some.inj h
    exact ⟨hlive, hpend, .same m _ _⟩

end

theorem LiveInv.signed (hlive : LiveInv sbi m.snapshot) : LiveInv sbi (m.signed sbi) where
  disjoint ino i ino' j b h1 h2 :=
    hlive.disjoint ino i ino' j b (mapsAt_sign.mp h1) (mapsAt_sign.mp h2)
  next_iff b := (hlive.next_iff b).trans maps_sign.symm
  live b hb := (hlive.next_iff b).mpr (maps_sign.mp hb)
  bounded b hb := hlive.bounded b (hlive.live b ((hlive.next_iff b).mp hb))

/-- After a commit nothing is pending. -/
theorem pending_empty {s : SnapshotInfo} (hext : s.extendedTable = [])
    (hmoved : s.movedIblock = Bitmap.zero) (metaTbc : Nat) :
    Pending sbi ⟨s, [], false, metaTbc⟩ s.baseT where
  leads := by
    simp only [hext, foldlM_nil]
    rfl
  moved b hb := by
    simp only [hmoved] at hb
    cases hb

end steps

/-! ### Every operation keeps the invariant -/

/-- **A commit keeps the invariant**: a base table is the live table, and an extended
table is the pending one, which leads to the live table. -/
theorem logInv_syncMetadata {sbi : SbInfo} {st st' : LogState} (hinv : LogInv sbi st)
    (h : logStep sbi tablesLength st .syncMetadata = some st') :
    LogInv sbi st' := by
  obtain ⟨⟨m, write⟩, hm, hst'⟩ := map_eq_some_iff.mp h
  unfold Mem.vdfs4SyncMetadata at hm
  split at hm
  · -- nothing to write
    obtain ⟨rfl, rfl⟩ := Prod.mk.inj (some.inj hm)
    obtain rfl := hst'
    exact hinv
  obtain ⟨⟨s, w⟩, hs, hmw⟩ := map_eq_some_iff.mp hm
  obtain ⟨rfl, rfl⟩ := Prod.mk.inj hmw
  obtain rfl := hst'
  have hlive := hinv.live.signed
  unfold vdfs4UpdateTranslationTables at hs
  simp only at hs
  split at hs
  · -- base table
    obtain ⟨rfl, rfl⟩ := Prod.mk.inj (some.inj hs)
    exact ⟨⟨hlive.disjoint, hlive.next_iff, hlive.live, hlive.bounded⟩, ⟨_, rfl, rfl, fun _ => rfl⟩,
      rfl, Nat.zero_le _, fun _ => pending_empty rfl rfl _⟩
  rename_i hbase
  rw [not_or] at hbase
  split at hs
  · cases hs
  -- extended table
  obtain ⟨rfl, rfl⟩ := Prod.mk.inj (some.inj hs)
  obtain ⟨hu, hclean⟩ : st.mem.snapshot.useBaseTable = false ∧ st.mem.exsbDirty = false := by
    have := hbase.2
    simpa only [Mem.signed, vdfs4UpdateBitmaps, Bool.or_eq_true, not_or, Bool.not_eq_true]
      using this
  obtain ⟨last, hlast, hcommitted, hnext⟩ := hinv.loads
  refine ⟨⟨hlive.disjoint, hlive.next_iff, hlive.live, hlive.bounded⟩,
    ⟨⟨⟨sbi.mountCounter, st.mem.snapshot.syncCount⟩, _⟩, ?_, rfl, fun _ => rfl⟩, ?_, ?_,
    fun _ => pending_empty rfl rfl _⟩
  · have hleads := (hinv.pending hu).leads
    simp only [TableLog.write, foldlM_append, hlast, foldlM_cons, foldlM_nil, bind_eq_bind,
      bind_some, bind_pure, applyNext, Mem.signed, vdfs4UpdateBitmaps]
    rw [if_pos (hnext hclean).symm, parseExtendedTable]
    rw [← hcommitted] at hleads
    simp only [hleads, map_some]
  · simp only [TableLog.write, length_append, length_singleton, hinv.count]
    rfl
  · have hlt := hbase.1
    have hcount := hinv.count
    simp only [Mem.signed, vdfs4UpdateBitmaps, not_le] at hlt
    simp only [TableLog.write, length_append, length_singleton]
    omega

theorem LogInv.unwritten {sbi : SbInfo} {st : LogState} {m : Mem} {metaTbc : Nat}
    (hinv : LogInv sbi st) (hlive : LiveInv sbi m.snapshot)
    (hpend : m.snapshot.useBaseTable = false → Pending sbi m st.committed)
    (hkept : Unwritten st.mem metaTbc m) : LogInv sbi { st with mem := m } := by
  obtain ⟨last, hlast, hcommitted, hnext⟩ := hinv.loads
  refine ⟨hlive, ⟨last, hlast, hcommitted, fun he => ?_⟩, hinv.count.trans hkept.count.symm,
    hinv.short, hpend⟩
  rw [hkept.syncCount]
  exact hnext (hkept.exsbDirty he).1

/-- **One operation keeps the invariant.** -/
theorem logInv_logStep {sbi : SbInfo} {st st' : LogState} {op : LogOp} (hinv : LogInv sbi st)
    (h : logStep sbi tablesLength st op = some st') : LogInv sbi st' := by
  cases op with
  | addChunk ino p =>
    obtain ⟨m, hm, rfl⟩ := map_eq_some_iff.mp h
    obtain ⟨hlive, hpend, hkept⟩ := vdfs4AddChunk_keeps hinv.live hinv.pending hm
    exact hinv.unwritten hlive hpend hkept
  | checkPageOffset ino p metaTbc expanded =>
    obtain ⟨m, hm, rfl⟩ := map_eq_some_iff.mp h
    obtain ⟨hlive, hpend, hkept⟩ := vdfs4CheckPageOffset_keeps hinv.live hinv.pending hm
    exact hinv.unwritten hlive hpend hkept
  | dirtySuper =>
    obtain rfl := some.inj h
    obtain ⟨last, hlast, hcommitted, -⟩ := hinv.loads
    exact ⟨hinv.live, ⟨last, hlast, hcommitted, nofun⟩, hinv.count, hinv.short,
      fun hu => ⟨(hinv.pending hu).leads, (hinv.pending hu).moved⟩⟩
  | syncMetadata => exact logInv_syncMetadata hinv h

theorem logInv_mount {sbi : SbInfo} (start : MountedLog sbi) (iblock : Nat) :
    LogInv sbi (LogState.mount start iblock) where
  live := liveInv_mount start.image iblock _
  loads := ⟨_, (loadExtendedTables_all_iff.mp start.loads).2, rfl, nofun⟩
  count := rfl
  short := (loadExtendedTables_all_iff.mp start.loads).1
  pending _ := ⟨rfl, fun _ hb => absurd hb Bool.false_ne_true⟩

/-- The states of a run of moves, growths and commits after a mount. -/
def LogReached (sbi : SbInfo) (tablesLength : Nat) (start : MountedLog sbi) (iblock : Nat)
    (st : LogState) : Prop :=
  Reaches (fun _ _ => True) (logStep sbi tablesLength) (LogState.mount start iblock) st

theorem LogReached.logInv {sbi : SbInfo} {start : MountedLog sbi} {iblock : Nat} {st : LogState}
    (h : LogReached sbi tablesLength start iblock st) :
    LogInv sbi st :=
  Reaches.invariant h (logInv_mount start iblock) fun _ _ _ hinv _ hstep =>
    logInv_logStep hinv hstep

/-- **Replaying the log of extended tables gives the live table.** In every state of a
run after a mount the tables on disk are one base table and at most eight extended
tables, and applying these to the base table in order gives a table that has, for every
special file and table index, the record (meta iblock, sync count, mount count) that the
in-memory table had when the last commit ended. -/
theorem replay_eq_committed {sbi : SbInfo} {tablesLength : Nat} (start : MountedLog sbi)
    {iblock : Nat} {st : LogState} (h : LogReached sbi tablesLength start iblock st) :
    st.disk.exts.length ≤ snapshotTablesCount ∧
      ∃ image, st.disk.exts.foldlM parseExtendedTable st.disk.base = some image ∧
        ∀ ino i, image.table.record? ino i = st.committed.record? ino i := by
  have hinv := h.logInv
  obtain ⟨image, himage, htable, -⟩ := hinv.loads
  refine ⟨hinv.short, image, foldlM_parse_of_next himage, fun ino i => ?_⟩
  rw [htable]

/-- The packed volume, mounted from a base table alone. -/
def sampleLog : MountedLog sampleSb where
  log := ⟨⟨⟨0, 1⟩, sampleImage.table⟩, []⟩
  image := sampleImage
  descriptor := ⟨0, 1⟩
  loads := rfl

/-- Two commits on the packed volume: the first writes a base table, the second an
extended one. -/
def sampleLogRun : Option LogState :=
  guardedRun (fun _ _ => True) (logStep sampleSb 32)
    [.addChunk .catTree 0, .syncMetadata, .addChunk .catTree 0, .addChunk .spaceBitmap 0,
      .syncMetadata]
    (LogState.mount sampleLog 1)

/-- The second commit leaves one extended table, which replays to the live table: the
catalog root is at iblock 10, written by sync 1 of mount 1. -/
theorem replay_eq_committed_sample :
    ∃ st ∈ sampleLogRun, st.disk.exts.length = 1 ∧
      st.committed.record? .catTree 0 = some ⟨10, 1, 1⟩ ∧
      ∃ image, st.disk.exts.foldlM parseExtendedTable st.disk.base = some image ∧
        ∀ ino i, image.table.record? ino i = st.committed.record? ino i := by
  have hsome : sampleLogRun.isSome = true := by decide +kernel
  obtain ⟨st, hst⟩ := isSome_iff_exists.mp hsome
  have hmap : sampleLogRun.map (fun st => (st.disk.exts.length, st.committed.record? .catTree 0)) =
      some (1, some ⟨10, 1, 1⟩) := by decide +kernel
  rw [hst, map_some, some.injEq, Prod.mk.injEq] at hmap
  exact ⟨st, hst, hmap.1, hmap.2, (replay_eq_committed sampleLog (reaches_of_guardedRun hst)).2⟩

/-- The metadata area only grows. -/
def LogOp.InArea (metaTbc : Nat) : LogOp → Prop
  | .checkPageOffset _ _ newTbc expanded => expanded = true → metaTbc ≤ newTbc
  | _ => True

instance (metaTbc : Nat) : (op : LogOp) → Decidable (op.InArea metaTbc)
  | .checkPageOffset _ _ newTbc expanded =>
      inferInstanceAs (Decidable (expanded = true → metaTbc ≤ newTbc))
  | .addChunk _ _ | .dirtySuper | .syncMetadata => .isTrue trivial

/-- The committed table lies in the metadata area **as the disk knows it**. -/
structure AreaInv (sbi : SbInfo) (st : LogState) : Prop where
  size : st.mem.snapshot.bitmapSizeInBits ≤ st.mem.metaTbc
  /-- a new size of the area is written with the next commit -/
  diskTbc : st.mem.exsbDirty = false → st.diskTbc = st.mem.metaTbc
  disjoint : st.committed.RangesDisjoint sbi
  bounded : ∀ b, st.committed.Maps sbi b → b < st.diskTbc

theorem AreaInv.unwritten {sbi : SbInfo} {st : LogState} {m : Mem} {metaTbc : Nat}
    (h : AreaInv sbi st) (hkept : Unwritten st.mem metaTbc m) (harea : st.mem.metaTbc ≤ metaTbc) :
    AreaInv sbi { st with mem := m } := by
  have hsize := h.size
  refine ⟨?_, fun he => ?_, h.disjoint, h.bounded⟩
  · rcases hkept.size with ⟨h1, h2⟩ | ⟨h1, h2⟩ <;> rw [h1, h2]
    · exact hsize
    · exact max_le (hsize.trans harea) le_rfl
  · obtain ⟨hclean, htbc⟩ := hkept.exsbDirty he
    exact (h.diskTbc hclean).trans htbc.symm

/-- **A commit writes a mountable volume.** -/
theorem AreaInv.syncMetadata {sbi : SbInfo} {tablesLength : Nat} {st st' : LogState}
    (h : AreaInv sbi st) (hstep : logStep sbi tablesLength st .syncMetadata = some st')
    (hinv' : LogInv sbi st') : AreaInv sbi st' := by
  obtain ⟨⟨m, write⟩, hm, rfl⟩ := map_eq_some_iff.mp hstep
  unfold Mem.vdfs4SyncMetadata at hm
  split at hm
  · obtain ⟨rfl, rfl⟩ := Prod.mk.inj (some.inj hm)
    exact h
  obtain ⟨⟨s, w⟩, hs, hmw⟩ := map_eq_some_iff.mp hm
  obtain ⟨rfl, rfl⟩ := Prod.mk.inj hmw
  have hsize : s.bitmapSizeInBits = st.mem.snapshot.bitmapSizeInBits := by
    unfold vdfs4UpdateTranslationTables at hs
    simp only at hs
    split at hs
    · obtain ⟨rfl, -⟩ := Prod.mk.inj (some.inj hs)
      rfl
    split at hs
    · cases hs
    · obtain ⟨rfl, -⟩ := Prod.mk.inj (some.inj hs)
      rfl
  have htbc : (if st.mem.exsbDirty then st.mem.metaTbc else st.diskTbc) = st.mem.metaTbc := by
    split
    · rfl
    · next hclean => exact h.diskTbc (Bool.eq_false_of_not_eq_true hclean)
  have hle : s.bitmapSizeInBits ≤ st.mem.metaTbc := hsize.trans_le h.size
  refine ⟨hle, fun _ => htbc, hinv'.live.disjoint, fun b hb => ?_⟩
  exact ((hinv'.live.bounded b (hinv'.live.live b hb)).trans_le hle).trans_eq htbc.symm

/-- **A crash between two calls loses nothing that was committed**: mount applies all the tables on
disk, under any mount counter, and has the table of the last commit in the metadata area of the
extended superblock on disk; it starts a new run. -/
theorem crash_recovers {sbi : SbInfo} {tablesLength iblock : Nat} (start : MountedLog sbi)
    {st : LogState} (h : Reaches (fun st op => LogOp.InArea st.mem.metaTbc op)
      (logStep sbi tablesLength) (LogState.mount start iblock) st) (count : Nat) :
    ∃ next : MountedLog { sbi with mountCounter := count },
      next.log = st.disk ∧ next.image.table = st.committed ∧ next.image.metaTbc = st.diskTbc := by
  obtain ⟨hinv, harea⟩ : LogInv sbi st ∧ AreaInv sbi st := by
    refine Reaches.invariant (I := fun st => LogInv sbi st ∧ AreaInv sbi st) h
      ⟨logInv_mount start iblock, le_rfl, nofun, start.image.disjoint, start.image.bounded⟩ ?_
    rintro t op u ⟨hinv, harea⟩ hok hstep
    have hinv' := logInv_logStep hinv hstep
    refine ⟨hinv', ?_⟩
    cases op with
    | addChunk ino p =>
      obtain ⟨m, hm, rfl⟩ := map_eq_some_iff.mp hstep
      exact harea.unwritten (vdfs4AddChunk_keeps hinv.live hinv.pending hm).2.2 le_rfl
    | checkPageOffset ino p metaTbc expanded =>
      obtain ⟨m, hm, rfl⟩ := map_eq_some_iff.mp hstep
      refine harea.unwritten (vdfs4CheckPageOffset_keeps hinv.live hinv.pending hm).2.2 ?_
      split
      · next he => exact hok he
      · exact le_rfl
    | dirtySuper =>
      obtain rfl := some.inj hstep
      exact ⟨harea.size, nofun, harea.disjoint, harea.bounded⟩
    | syncMetadata => exact harea.syncMetadata hstep hinv'
  obtain ⟨last, hlast, htable, -⟩ := hinv.loads
  have hload : st.disk.load = some (⟨last.descriptor, st.committed⟩, st.disk.exts.length) := by
    rw [← htable]
    exact loadExtendedTables_all_iff.mpr ⟨hinv.short, hlast⟩
  exact ⟨⟨st.disk, ⟨st.committed, st.diskTbc, harea.disjoint, harea.bounded⟩, last.descriptor,
    hload⟩, rfl, rfl, rfl⟩

/-- The metadata area and the space bitmap grow; after a base table and an extended one the power
fails in the next transaction. -/
def sampleCrashRun : Option LogState :=
  guardedRun (fun st op => LogOp.InArea st.mem.metaTbc op) (logStep sampleSb 32)
    [.checkPageOffset .spaceBitmap 1 24 true, .syncMetadata, .addChunk .catTree 0, .syncMetadata,
      .addChunk .spaceBitmap 0]
    (LogState.mount sampleLog 1)

theorem crash_recovers_sample : ∃ st ∈ sampleCrashRun, (st.disk.exts.length, st.diskTbc) = (1, 24) ∧
    ∃ next : MountedLog { sampleSb with mountCounter := 2 },
      next.log = st.disk ∧ next.image.table = st.committed ∧ next.image.metaTbc = st.diskTbc := by
  have hmap : sampleCrashRun.map (fun st => (st.disk.exts.length, st.diskTbc)) = some (1, 24) := by
    decide +kernel
  obtain ⟨st, hst, hdisk⟩ := map_eq_some_iff.mp hmap
  exact ⟨st, hst, hdisk, crash_recovers sampleLog (reaches_of_guardedRun hst) 2⟩

end Vdfs4
