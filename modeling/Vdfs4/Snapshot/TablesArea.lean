import Vdfs4.Snapshot.Expansion
import Vdfs4.Snapshot.TableLog

/-!
# The tables area

The tables area has **two halves**. A commit writes a base table into the half that does not hold
the last one, or an extended table behind the last table, up to eight of them; the half is chosen
from the position **behind** the last table. In memory the base table is one buffer that grows by
whole pages when a special file is expanded.

* `TablesState` — the tables in memory and what was written; `tablesStep` — the calls.
* `TablesRight` — the table fits its buffer, everything written since the last base table lies in
  the half of that table, and base tables alternate.
* `TablesOp.Fits` — the condition on the sizes: the new records end in the page where one record
  would end, and a base table with eight extended tables is **smaller than a half**.
* `TablesInv` — the invariant; `TablesInv.step` — every call keeps it.
-/

namespace Vdfs4

open GuardedRun List Option Nat

/-! ### The calls -/

/-- The blocks of a page. -/
def blocksInPage (sbi : SbInfo) : Nat := 2 ^ (pageShift - sbi.blockSizeShift)

/-- The tables in memory, the metadata area, and what the last commits wrote. -/
structure TablesState where
  tables : Tables
  area : MetaArea
  /-- the first block of the last base table -/
  baseStart : Nat
  /-- the blocks written since then: the first one and how many, with the base table -/
  written : List (Nat × Nat)
  /-- the first block of the base table before, if there was one since the mount -/
  previousBase : Option Nat

/-- The calls of a run. -/
inductive TablesOp where
  /-- `vdfs4_add_chunk_no_lock` -/
  | addChunk (ino : SpecialFile) (pageIndex : Nat)
  /-- `vdfs4_check_page_offset` -/
  | expand (e : ExpandEnv) (ino : SpecialFile) (pageIndex : Nat) (forceInsert : Bool)
  /-- `vdfs4_update_translation_tables` -/
  | commit
  /-- `vdfs4_update_bitmaps` -/
  | updateBitmaps

/-- `vdfs4_check_page_offset`; `none` when it does not return 0. -/
def TablesState.checkPageOffset (sbi : SbInfo) (tablesLength : Nat) (st : TablesState)
    (e : ExpandEnv) (ino : SpecialFile) (pageIndex : Nat) (forceInsert : Bool) :
    Option TablesState :=
  let tableIndex := getTableIndex sbi ino pageIndex
  if st.tables.snapshot.baseT.lastTableIndex ino < tableIndex then
    match st.tables.expandSpecialFile { e with tablesLength := tablesLength } sbi st.area ino
        tableIndex forceInsert with
    | some (.ok (), area, t) =>
      some { st with
        tables := { t with snapshot := { t.snapshot with useBaseTable := true } }
        area := area }
    | _ => none
  else some st

/-- A commit that returns 0: `fill_descriptor_and_calculate_crc` computes the offset of the
checksum, the first page of a base table goes to its first block and the others behind it. -/
def TablesState.commit (sbi : SbInfo) (tablesLength : Nat) (st : TablesState) :
    Option TablesState :=
  let baseT := st.tables.snapshot.baseT
  match st.tables.snapshot.vdfs4UpdateTranslationTables sbi tablesLength with
  | some (s, .base iblock _) =>
    some { st with
      tables := { st.tables with
        snapshot := s
        checksumOffset := (baseT.sizeInBytes - SnapshotInfo.crc32Size) % 2 ^ 32 }
      baseStart := iblock
      written := [(iblock, blocksInPage sbi), (iblock + 1, blocksInPage sbi * (baseT.pages - 1))]
      previousBase := some st.baseStart }
  | some (s, .ext iblock _) =>
    some { st with
      tables := { st.tables with snapshot := s }
      written := st.written ++ [(iblock, blocksInPage sbi)] }
  | none => none

/-- One call that returns 0. -/
def tablesStep (sbi : SbInfo) (tablesLength : Nat) (st : TablesState) :
    TablesOp → Option TablesState
  | .addChunk ino pageIndex =>
    (st.tables.snapshot.vdfs4AddChunkNoLock sbi ino pageIndex).map fun s =>
      { st with tables := { st.tables with snapshot := s } }
  | .expand e ino pageIndex forceInsert =>
    st.checkPageOffset sbi tablesLength e ino pageIndex forceInsert
  | .commit => st.commit sbi tablesLength
  | .updateBitmaps =>
    some { st with tables := { st.tables with snapshot := st.tables.snapshot.vdfs4UpdateBitmaps } }

/-! ### What must hold -/

/-- The blocks lie in the half of the tables area that holds the block `start`. -/
def InHalf (tablesLength start : Nat) (w : Nat × Nat) : Prop :=
  if start < tablesLength / 2 then w.1 + w.2 ≤ tablesLength / 2
  else tablesLength / 2 ≤ w.1 ∧ w.1 + w.2 ≤ tablesLength

/-- The tables are right: in memory, in their half, and in turns. -/
structure TablesRight (tablesLength : Nat) (st : TablesState) : Prop where
  buffer : st.tables.snapshot.baseT.sizeInBytes ≤ st.tables.capacity
  inHalf : ∀ w ∈ st.written, InHalf tablesLength st.baseStart w
  alternates : ∀ p, st.previousBase = some p →
    (p < tablesLength / 2 ↔ ¬ st.baseStart < tablesLength / 2)

/-- Whole pages for some bytes. -/
def roundPages (bytes : Nat) : Nat :=
  (bytes + SnapshotInfo.pageSize - 1) / SnapshotInfo.pageSize * SnapshotInfo.pageSize

/-- What a mount leaves: a base table at the start of a half, `extenededTableCount` extended tables
behind it, and a buffer of whole pages. -/
structure TablesState.Mounted (sbi : SbInfo) (tablesLength : Nat) (st : TablesState) : Prop where
  start : st.baseStart = 0 ∨ st.baseStart = tablesLength / 2
  ext : st.tables.snapshot.extenededTableCount ≤ snapshotTablesCount
  iblock : st.tables.snapshot.iblock = st.baseStart + st.tables.snapshot.baseT.pages +
    st.tables.snapshot.extenededTableCount
  written : ∀ w ∈ st.written, st.baseStart ≤ w.1 ∧
    w.1 + w.2 ≤ st.baseStart + blocksInPage sbi *
      (st.tables.snapshot.baseT.pages + st.tables.snapshot.extenededTableCount)
  previous : st.previousBase = none
  capacity : st.tables.capacity = roundPages st.tables.snapshot.baseT.sizeInBytes
  checksum : st.tables.checksumOffset + SnapshotInfo.crc32Size =
    st.tables.snapshot.baseT.sizeInBytes
  checksum_lt : st.tables.checksumOffset < 2 ^ 32

/-- A base table of `pages` pages and its extended tables are smaller than a half. -/
def SmallTables (sbi : SbInfo) (tablesLength pages : Nat) : Prop :=
  blocksInPage sbi * (pages + snapshotTablesCount) < tablesLength / 2

instance (sbi : SbInfo) (tablesLength pages : Nat) :
    Decidable (SmallTables sbi tablesLength pages) :=
  inferInstanceAs (Decidable (_ < _))

/-- The condition on a call: new records end in the page where one record would end, below
`2 ^ 32`, and a base table that is written is small. -/
def TablesOp.Fits (sbi : SbInfo) (tablesLength : Nat) (st : TablesState) : TablesOp → Prop
  | .addChunk _ _ | .updateBitmaps => True
  | .expand _ ino pageIndex _ =>
    let size := st.tables.snapshot.baseT.sizeInBytes
    let newSize := size + sizeofBaseTableRecord *
      (getTableIndex sbi ino pageIndex - st.tables.snapshot.baseT.lastTableIndex ino)
    newSize ≤ roundPages (size + sizeofBaseTableRecord) ∧
      newSize < 2 ^ 32 + SnapshotInfo.crc32Size
  | .commit =>
    snapshotTablesCount ≤ st.tables.snapshot.extenededTableCount ∨
        st.tables.snapshot.useBaseTable = true →
      SmallTables sbi tablesLength st.tables.snapshot.baseT.pages

instance (sbi : SbInfo) (tablesLength : Nat) (st : TablesState) :
    DecidablePred (TablesOp.Fits sbi tablesLength st)
  | .addChunk _ _ => .isTrue trivial
  | .updateBitmaps => .isTrue trivial
  | .expand _ _ _ _ => inferInstanceAs (Decidable (_ ∧ _))
  | .commit => inferInstanceAs (Decidable (_ → _))

/-! ### The size of the base table -/

section size

open SnapshotInfo

variable {sbi : SbInfo} {ino : SpecialFile} {s s' : SnapshotInfo} {t u : BaseTable} {count n : Nat}

/-- The size in terms of the numbers of records. -/
theorem sizeInBytes_eq (t : BaseTable) : t.sizeInBytes =
    (SpecialFile.all.map fun f => sizeofBaseTableRecord * (t.records f).length).sum +
      sizeofBaseTable + SnapshotInfo.crc32Size := by
  simp only [BaseTable.sizeInBytes, BaseTable.lastTableIndex_add_one]

/-- Tables with the same numbers of records have the same size. -/
theorem sizeInBytes_congr (h : ∀ f, (t.records f).length = (u.records f).length) :
    t.sizeInBytes = u.sizeInBytes := by
  simp only [sizeInBytes_eq, h]

theorem sizeInBytes_of_length
    (h : ∀ f, (t.records f).length = (u.records f).length + if f = ino then count else 0) :
    t.sizeInBytes = u.sizeInBytes + sizeofBaseTableRecord * count := by
  simp only [sizeInBytes_eq, h, SpecialFile.all, map_cons, map_nil, sum_cons,
    sum_nil]
  cases ino <;> simp [mul_add] <;> omega

/-- A record takes 16 bytes, and the header and the checksum 108. -/
theorem sizeInBytes_mod (t : BaseTable) : t.sizeInBytes % 16 = 12 := by
  have hrecord : sizeofBaseTableRecord = 16 := rfl
  have hheader : sizeofBaseTable = 104 := rfl
  have hcrc : SnapshotInfo.crc32Size = 4 := rfl
  simp only [sizeInBytes_eq, SpecialFile.all, map_cons, map_nil, sum_cons,
    sum_nil, hrecord, hheader, hcrc]
  omega

/-- What the record loop leaves: the new records, and the place of the tables. -/
theorem insertNewIblocksLoop_frame (h : insertNewIblocksLoop sbi ino count s = some s') :
    (∀ f, (s'.baseT.records f).length =
      (s.baseT.records f).length + if f = ino then count else 0) ∧
    s'.iblock = s.iblock ∧ s'.extenededTableCount = s.extenededTableCount := by
  induction count generalizing s with
  | zero =>
    obtain rfl := some.inj h
    simp
  | succ count ih =>
    rw [insertNewIblocksLoop] at h
    rcases hget : s.getNewMetaIblock sbi ino with ⟨s1, e | pos⟩
    · rw [hget] at h
      cases h
    rw [hget] at h
    have hhanded := getNewMetaIblock_ok hget
    obtain ⟨hlength, hiblock, hext⟩ := ih h
    refine ⟨fun f => ?_, hiblock.trans hhanded.iblock, hext.trans hhanded.extenededTableCount⟩
    rw [hlength f]
    by_cases hf : f = ino
    · subst hf
      simp only [BaseTable.appendRecord, if_true, hhanded.baseT, length_append,
        length_singleton]
      omega
    · simp only [BaseTable.appendRecord, if_neg hf, hhanded.baseT]

/-- **`insert_new_iblocks` adds 16 bytes for each record** and leaves the place of the tables. -/
theorem insertNewIblocks_frame (h : s.insertNewIblocks sbi ino n = some s') :
    s'.baseT.sizeInBytes = s.baseT.sizeInBytes +
      sizeofBaseTableRecord * (n - s.baseT.lastTableIndex ino) ∧
    s'.iblock = s.iblock ∧ s'.extenededTableCount = s.extenededTableCount := by
  unfold insertNewIblocks at h
  simp only at h
  split at h
  · cases h
  rcases hloop : insertNewIblocksLoop sbi ino (n - s.baseT.lastTableIndex ino) s with _ | s1
  · rw [hloop] at h
    cases h
  · rw [hloop] at h
    obtain rfl := some.inj h
    obtain ⟨hlength, hiblock, hext⟩ := insertNewIblocksLoop_frame hloop
    exact ⟨sizeInBytes_of_length hlength, hiblock, hext⟩

/-- `vdfs4_add_chunk_no_lock` leaves the size and the place of the tables. -/
theorem vdfs4AddChunkNoLock_frame {p : Nat} (h : s.vdfs4AddChunkNoLock sbi ino p = some s') :
    s'.baseT.sizeInBytes = s.baseT.sizeInBytes ∧ s'.iblock = s.iblock ∧
      s'.extenededTableCount = s.extenededTableCount := by
  have hmoved : ∀ {i pos : Nat} {snapshot next moved : Bitmap},
      Moved s ino i pos snapshot next moved s' →
      s'.baseT.sizeInBytes = s.baseT.sizeInBytes ∧ s'.iblock = s.iblock ∧
        s'.extenededTableCount = s.extenededTableCount := by
    intro i pos snapshot next moved hm
    refine ⟨sizeInBytes_congr fun f => ?_, hm.iblock, hm.extenededTableCount⟩
    rw [hm.baseT]
    by_cases hf : f = ino
    · simp [BaseTable.modifyRecord, hf]
    · simp [BaseTable.modifyRecord, hf]
  obtain ⟨r, -, ⟨-, rfl⟩ | ⟨-, pos, s0, -, hm⟩ | ⟨-, -, hm⟩⟩ := vdfs4AddChunkNoLock_cases h
  · exact ⟨rfl, rfl, rfl⟩
  · exact hmoved hm
  · exact hmoved hm

end size

/-! ### The buffer -/

/-- The buffer is the base table in whole pages. -/
structure Tables.BufferInv (t : Tables) : Prop where
  capacity : t.capacity = roundPages t.snapshot.baseT.sizeInBytes
  checksum : t.checksumOffset + SnapshotInfo.crc32Size = t.snapshot.baseT.sizeInBytes
  checksum_lt : t.checksumOffset < 2 ^ 32

/-- The buffer when the records are inserted has room for one of them. -/
theorem Tables.BufferInv.grownCapacity_eq {t : Tables} (h : t.BufferInv) :
    t.grownCapacity = roundPages (t.snapshot.baseT.sizeInBytes + sizeofBaseTableRecord) := by
  have hmod := sizeInBytes_mod t.snapshot.baseT
  have hsize : t.tablesSize = t.snapshot.baseT.sizeInBytes := h.checksum
  have hrecord : sizeofBaseTableRecord = 16 := rfl
  have hrecord' : Mkfs.sizeofRecord = 16 := rfl
  have hpage : SnapshotInfo.pageSize = 4096 := rfl
  unfold Tables.grownCapacity Tables.needsTable
  rw [hsize, h.capacity]
  unfold roundPages
  simp only [hrecord, hrecord', hpage, decide_eq_true_eq]
  generalize t.snapshot.baseT.sizeInBytes = size at hmod
  split
  · rfl
  · -- the page of the last byte has room for a record
    omega

/-- **An expansion keeps the buffer** when the records end in the page of the first one. -/
theorem Tables.BufferInv.expanded {t t' : Tables} (h : t.BufferInv) {size : Nat} (hpos : 0 < size)
    (hfits : t.snapshot.baseT.sizeInBytes + sizeofBaseTableRecord * size ≤
      roundPages (t.snapshot.baseT.sizeInBytes + sizeofBaseTableRecord))
    (hlt : t.snapshot.baseT.sizeInBytes + sizeofBaseTableRecord * size <
      2 ^ 32 + SnapshotInfo.crc32Size)
    (hcapacity : t'.capacity = t.grownCapacity)
    (hchecksum : t'.checksumOffset =
      (t.checksumOffset % 2 ^ 32 + sizeofBaseTableRecord * size) % 2 ^ 32)
    (hsize : t'.snapshot.baseT.sizeInBytes =
      t.snapshot.baseT.sizeInBytes + sizeofBaseTableRecord * size) : t'.BufferInv := by
  have hmod := sizeInBytes_mod t.snapshot.baseT
  have hold := h.checksum
  have hrecord : sizeofBaseTableRecord = 16 := rfl
  have hpage : SnapshotInfo.pageSize = 4096 := rfl
  have hcrc : SnapshotInfo.crc32Size = 4 := rfl
  refine ⟨?_, ?_, ?_⟩
  · rw [hcapacity, h.grownCapacity_eq, hsize]
    unfold roundPages at hfits ⊢
    simp only [hrecord, hpage] at hfits ⊢
    omega
  · rw [hchecksum, hsize]
    simp only [hrecord, hcrc] at hlt hold ⊢
    omega
  · rw [hchecksum]
    exact mod_lt _ (by decide)

/-! ### The invariant -/

/-- The last base table has `pages` pages and begins a half, the extended tables follow it, and the
position is behind them. -/
structure TablesInv (sbi : SbInfo) (tablesLength : Nat) (st : TablesState) (pages : Nat) :
    Prop where
  start : st.baseStart = 0 ∨ st.baseStart = tablesLength / 2
  small : SmallTables sbi tablesLength pages
  ext : st.tables.snapshot.extenededTableCount ≤ snapshotTablesCount
  iblock : st.tables.snapshot.iblock =
    st.baseStart + pages + st.tables.snapshot.extenededTableCount
  written : ∀ w ∈ st.written, st.baseStart ≤ w.1 ∧
    w.1 + w.2 ≤ st.baseStart +
      blocksInPage sbi * (pages + st.tables.snapshot.extenededTableCount)
  buffer : st.tables.BufferInv
  alternates : ∀ p, st.previousBase = some p →
    (p < tablesLength / 2 ↔ ¬ st.baseStart < tablesLength / 2)

section invariant

variable {sbi : SbInfo} {tablesLength pages : Nat} {st st' : TablesState}

theorem blocksInPage_pos (sbi : SbInfo) : 0 < blocksInPage sbi := Nat.two_pow_pos _

/-- A mounted volume with a small base table. -/
theorem TablesState.Mounted.tablesInv (h : st.Mounted sbi tablesLength)
    (hsmall : SmallTables sbi tablesLength st.tables.snapshot.baseT.pages) :
    TablesInv sbi tablesLength st st.tables.snapshot.baseT.pages where
  start := h.start
  small := hsmall
  ext := h.ext
  iblock := h.iblock
  written := h.written
  buffer := ⟨h.capacity, h.checksum, h.checksum_lt⟩
  alternates p hp := by
    rw [h.previous] at hp
    cases hp

/-- **The invariant is what must hold.** -/
theorem TablesInv.right (h : TablesInv sbi tablesLength st pages) :
    TablesRight tablesLength st where
  buffer := by
    rw [h.buffer.capacity]
    unfold roundPages
    have hpage : SnapshotInfo.pageSize = 4096 := rfl
    rw [hpage]
    omega
  inHalf w hw := by
    obtain ⟨hlo, hhi⟩ := h.written w hw
    have hsmall : blocksInPage sbi * (pages + st.tables.snapshot.extenededTableCount) <
        tablesLength / 2 :=
      (Nat.mul_le_mul_left _ (Nat.add_le_add_left h.ext pages)).trans_lt h.small
    unfold InHalf
    rcases h.start with hstart | hstart
    · rw [if_pos (by omega)]
      omega
    · rw [if_neg (by omega)]
      omega
  alternates := h.alternates

/-- A call that writes no table. -/
theorem TablesInv.of_frame (h : TablesInv sbi tablesLength st pages) {t : Tables} {area : MetaArea}
    (hiblock : t.snapshot.iblock = st.tables.snapshot.iblock)
    (hext : t.snapshot.extenededTableCount = st.tables.snapshot.extenededTableCount)
    (hbuffer : t.BufferInv) :
    TablesInv sbi tablesLength { st with tables := t, area := area } pages where
  start := h.start
  small := h.small
  ext := by rw [hext]; exact h.ext
  iblock := by rw [hiblock, hext]; exact h.iblock
  written := by rw [hext]; exact h.written
  buffer := hbuffer
  alternates := h.alternates

/-- The buffer of a base table whose size stays. -/
theorem Tables.BufferInv.of_size {t t' : Tables} (h : t.BufferInv)
    (hsize : t'.snapshot.baseT.sizeInBytes = t.snapshot.baseT.sizeInBytes)
    (hcapacity : t'.capacity = t.capacity) (hchecksum : t'.checksumOffset = t.checksumOffset) :
    t'.BufferInv :=
  ⟨by rw [hcapacity, hsize, h.capacity], by rw [hchecksum, hsize, h.checksum],
    by rw [hchecksum]; exact h.checksum_lt⟩

section

variable (h : TablesInv sbi tablesLength st pages)

include h

/-- The half of the next base table is the other one. -/
theorem TablesInv.other_half :
    (st.baseStart = 0 → st.tables.snapshot.iblock < tablesLength / 2) ∧
      (st.baseStart = tablesLength / 2 → tablesLength / 2 ≤ st.tables.snapshot.iblock) := by
  have hiblock := h.iblock
  refine ⟨fun hstart => ?_, fun hstart => by omega⟩
  -- a page has at least one block, so the position is inside the small tables
  have hsmall : pages + snapshotTablesCount < tablesLength / 2 :=
    (Nat.le_mul_of_pos_left _ (blocksInPage_pos sbi)).trans_lt h.small
  have hext := h.ext
  omega

/-- **A base table goes to the other half.** -/
theorem TablesInv.baseCommit {s : SnapshotInfo} {iblock : Nat} (hiblock : iblock =
      if tablesLength / 2 ≤ st.tables.snapshot.iblock then 0 else tablesLength / 2)
    (hsmall : SmallTables sbi tablesLength st.tables.snapshot.baseT.pages)
    (hbaseT : s.baseT = st.tables.snapshot.baseT) (hext : s.extenededTableCount = 0)
    (hnext : s.iblock = iblock + st.tables.snapshot.baseT.pages) :
    TablesInv sbi tablesLength
      { st with
        tables := { st.tables with
          snapshot := s
          checksumOffset :=
            (st.tables.snapshot.baseT.sizeInBytes - SnapshotInfo.crc32Size) % 2 ^ 32 }
        baseStart := iblock
        written := [(iblock, blocksInPage sbi),
          (iblock + 1, blocksInPage sbi * (st.tables.snapshot.baseT.pages - 1))]
        previousBase := some st.baseStart }
      st.tables.snapshot.baseT.pages := by
  obtain ⟨hfirst, hsecond⟩ := h.other_half
  have hhalf : 0 < tablesLength / 2 := zero_lt_of_lt h.small
  have hblocks := blocksInPage_pos sbi
  have hpages : 0 < st.tables.snapshot.baseT.pages := by
    have hmod := sizeInBytes_mod st.tables.snapshot.baseT
    have hpage : SnapshotInfo.pageSize = 4096 := rfl
    unfold BaseTable.pages
    rw [hpage]
    omega
  have hchecksum : (st.tables.snapshot.baseT.sizeInBytes - SnapshotInfo.crc32Size) % 2 ^ 32 =
      st.tables.checksumOffset := by
    have hold := h.buffer.checksum
    have hlt := h.buffer.checksum_lt
    rw [← hold, Nat.add_sub_cancel, Nat.mod_eq_of_lt hlt]
  refine ⟨?_, hsmall, by simp [hext], by simp [hext, hnext], ?_, ?_, ?_⟩
  · rcases h.start with hstart | hstart
    · exact .inr (by rw [hiblock, if_neg (by have := hfirst hstart; omega)])
    · exact .inl (by rw [hiblock, if_pos (hsecond hstart)])
  · -- the first page, and the others from the block behind its first block on
    have hsplit : blocksInPage sbi * st.tables.snapshot.baseT.pages =
        blocksInPage sbi * (st.tables.snapshot.baseT.pages - 1) + blocksInPage sbi := by
      rw [← mul_succ]
      congr 1
      omega
    intro w hw
    simp only [hext, add_zero]
    simp only [mem_cons, not_mem_nil, or_false] at hw
    rcases hw with rfl | rfl
    · exact ⟨le_rfl, by simp only; omega⟩
    · exact ⟨le_succ _, by simp only; omega⟩
  · rw [hchecksum]
    exact h.buffer.of_size (by rw [hbaseT]) rfl rfl
  · intro p hp
    obtain rfl := some.inj hp
    simp only [hiblock]
    rcases h.start with hstart | hstart
    · have := hfirst hstart
      rw [if_neg (by omega)]
      omega
    · rw [if_pos (hsecond hstart)]
      omega

/-- **An extended table goes behind the last table.** -/
theorem TablesInv.extCommit {s : SnapshotInfo}
    (hlt : st.tables.snapshot.extenededTableCount < snapshotTablesCount)
    (hbaseT : s.baseT = st.tables.snapshot.baseT)
    (hext : s.extenededTableCount = st.tables.snapshot.extenededTableCount + 1)
    (hnext : s.iblock = st.tables.snapshot.iblock + 1) :
    TablesInv sbi tablesLength
      { st with
        tables := { st.tables with snapshot := s }
        written := st.written ++ [(st.tables.snapshot.iblock, blocksInPage sbi)] } pages := by
  have hiblock := h.iblock
  refine ⟨h.start, h.small, ?_, ?_, ?_, h.buffer.of_size (by rw [hbaseT]) rfl rfl, h.alternates⟩
  · simp only [hext]
    omega
  · simp only [hext, hnext]
    omega
  · intro w hw
    simp only [hext]
    have hmore : blocksInPage sbi * (pages + (st.tables.snapshot.extenededTableCount + 1)) =
        blocksInPage sbi * (pages + st.tables.snapshot.extenededTableCount) +
          blocksInPage sbi := by
      rw [← mul_succ]
      rfl
    rcases mem_append.mp hw with hold | hnew
    · obtain ⟨hlo, hhi⟩ := h.written w hold
      exact ⟨hlo, by omega⟩
    · obtain rfl := mem_singleton.mp hnew
      have hblocks : pages + st.tables.snapshot.extenededTableCount ≤
          blocksInPage sbi * (pages + st.tables.snapshot.extenededTableCount) :=
        Nat.le_mul_of_pos_left _ (blocksInPage_pos sbi)
      exact ⟨by simp only; omega, by simp only; omega⟩

/-- **A commit keeps the invariant.** -/
theorem TablesInv.commit (hfits : TablesOp.Fits sbi tablesLength st .commit)
    (hstep : st.commit sbi tablesLength = some st') :
    ∃ pages', TablesInv sbi tablesLength st' pages' := by
  unfold TablesState.commit SnapshotInfo.vdfs4UpdateTranslationTables at hstep
  simp only at hstep
  by_cases hbase : snapshotTablesCount ≤ st.tables.snapshot.extenededTableCount ∨
      st.tables.snapshot.useBaseTable = true
  · rw [if_pos hbase] at hstep
    obtain rfl := some.inj hstep
    exact ⟨_, h.baseCommit rfl (hfits hbase) rfl rfl rfl⟩
  rw [if_neg hbase] at hstep
  by_cases hpage : SnapshotInfo.pageSize <
      extendedTableSize st.tables.snapshot.extendedTable.length
  · rw [if_pos hpage] at hstep
    cases hstep
  · rw [if_neg hpage] at hstep
    obtain rfl := some.inj hstep
    exact ⟨pages, h.extCommit (by omega) rfl rfl rfl⟩

end

/-- What an expansion that returns 0 leaves. -/
theorem expandSpecialFile_frame {e : ExpandEnv} {area area' : MetaArea} {t t' : Tables}
    {ino : SpecialFile} {forceInsert : Bool}
    (h : t.expandSpecialFile e sbi area ino n forceInsert = some (.ok (), area', t')) :
    t'.capacity = t.grownCapacity ∧
    t'.checksumOffset = (t.checksumOffset % 2 ^ 32 +
      sizeofBaseTableRecord * (n - t.snapshot.baseT.lastTableIndex ino)) % 2 ^ 32 ∧
    t'.snapshot.baseT.sizeInBytes = t.snapshot.baseT.sizeInBytes +
      sizeofBaseTableRecord * (n - t.snapshot.baseT.lastTableIndex ino) ∧
    t'.snapshot.iblock = t.snapshot.iblock ∧
    t'.snapshot.extenededTableCount = t.snapshot.extenededTableCount := by
  unfold Tables.expandSpecialFile at h
  cases hcheck : checkMetaSpace e sbi area t.snapshot ino n forceInsert with
  | error errno =>
    rw [hcheck] at h
    cases h
  | ok area1 =>
    rw [hcheck] at h
    obtain ⟨⟨r, t1⟩, hexpand, heq⟩ := map_eq_some_iff.mp h
    obtain ⟨rfl, -, rfl⟩ := Prod.mk.inj heq |>.imp id Prod.mk.inj
    unfold Tables.expandTranslationTables at hexpand
    split at hexpand
    · cases hexpand
    split at hexpand
    · cases hexpand
    split at hexpand
    · cases hexpand
    · obtain ⟨s, hinsert, heq⟩ := map_eq_some_iff.mp hexpand
      obtain ⟨-, rfl⟩ := Prod.mk.inj heq
      obtain ⟨hsize, hiblock, hext⟩ := insertNewIblocks_frame hinsert
      rw [SnapshotInfo.growBitmaps_eq] at hsize hiblock hext
      exact ⟨rfl, rfl, hsize, hiblock, hext⟩

/-- **Every call keeps the invariant.** -/
theorem TablesInv.step (h : TablesInv sbi tablesLength st pages) {op : TablesOp}
    (hfits : op.Fits sbi tablesLength st) (hstep : tablesStep sbi tablesLength st op = some st') :
    ∃ pages', TablesInv sbi tablesLength st' pages' := by
  cases op with
  | addChunk ino pageIndex =>
    obtain ⟨s, hadd, rfl⟩ := map_eq_some_iff.mp hstep
    obtain ⟨hsize, hiblock, hext⟩ := vdfs4AddChunkNoLock_frame hadd
    exact ⟨pages, h.of_frame hiblock hext (h.buffer.of_size hsize rfl rfl)⟩
  | expand e ino pageIndex forceInsert =>
    simp only [tablesStep, TablesState.checkPageOffset] at hstep
    split at hstep
    · next hlt =>
      split at hstep
      · next area t hexpand =>
        obtain rfl := some.inj hstep
        obtain ⟨hcapacity, hchecksum, hsize, hiblock, hext⟩ := expandSpecialFile_frame hexpand
        exact ⟨pages, h.of_frame hiblock hext
          (h.buffer.expanded (by omega) hfits.1 hfits.2 hcapacity hchecksum hsize)⟩
      · cases hstep
    · obtain rfl := some.inj hstep
      exact ⟨pages, h⟩
  | commit => exact h.commit hfits hstep
  | updateBitmaps =>
    obtain rfl := some.inj hstep
    exact ⟨pages, h.of_frame rfl rfl (h.buffer.of_size rfl rfl rfl)⟩

end invariant

/-! ### Every run with small tables -/

/-- **The translation tables stay inside their half and alternate**: in every run from a mount
whose tables are small and whose calls all meet the condition on the sizes, in every reached state
the base table fits its buffer, the base table and the extended tables behind it lie in one half,
and the last two base tables lie in different halves. -/
theorem tables_stay_and_alternate {sbi : SbInfo} {tablesLength : Nat} {st₀ st : TablesState}
    (h₀ : st₀.Mounted sbi tablesLength)
    (hsmall : SmallTables sbi tablesLength st₀.tables.snapshot.baseT.pages)
    (h : Reaches (TablesOp.Fits sbi tablesLength) (tablesStep sbi tablesLength) st₀ st) :
    TablesRight tablesLength st := by
  obtain ⟨pages, hinv⟩ : ∃ pages, TablesInv sbi tablesLength st pages := by
    apply Reaches.invariant (I := fun st => ∃ pages, TablesInv sbi tablesLength st pages) h
      ⟨_, h₀.tablesInv hsmall⟩
    rintro t op u ⟨pages, hi⟩ hfits hstep
    exact hi.step hfits hstep
  exact hinv.right

/-- The small volume right after its mount, with the base table in the first half. -/
def mountedTables : TablesState where
  tables := ⟨SnapshotInfo.build smallSb smallImage.table smallImage.metaTbc 1 0, 184, 4096⟩
  area := ⟨[(8, 10), (0, 0)], 10⟩
  baseStart := 0
  written := [(0, 1)]
  previousBase := none

theorem mountedTables_mounted (tablesLength : Nat) :
    mountedTables.Mounted smallSb tablesLength where
  start := .inl rfl
  ext := by decide
  iblock := by decide +kernel
  written := by decide +kernel
  previous := rfl
  capacity := by decide +kernel
  checksum := by decide +kernel
  checksum_lt := by decide

/-- On a tables area of `2 ^ 17` blocks: a move and its extended table, then a page more for the
space bitmap and the base table in the second half. -/
theorem smallVolume_alternates :
    ∃ st, guardedRun (TablesOp.Fits smallSb (2 ^ 17)) (tablesStep smallSb (2 ^ 17))
        [.addChunk .catTree 0, .commit, .updateBitmaps, .expand fullVolume .spaceBitmap 1 false,
          .commit] mountedTables = some st ∧
      st.previousBase = some 0 ∧ st.baseStart = 2 ^ 16 ∧ TablesRight (2 ^ 17) st := by
  have heval : (guardedRun (TablesOp.Fits smallSb (2 ^ 17)) (tablesStep smallSb (2 ^ 17))
      [.addChunk .catTree 0, .commit, .updateBitmaps, .expand fullVolume .spaceBitmap 1 false,
        .commit] mountedTables).map (fun st => (st.previousBase, st.baseStart)) =
      some (some 0, 2 ^ 16) := by decide +kernel
  obtain ⟨st, hst, hvalues⟩ := map_eq_some_iff.mp heval
  obtain ⟨hprevious, hstart⟩ := Prod.mk.inj hvalues
  exact ⟨st, hst, hprevious, hstart, tables_stay_and_alternate (mountedTables_mounted _)
    (by decide +kernel) (reaches_of_guardedRun hst)⟩

/-- Transactions that move the catalog root and commit. -/
def moveAndCommit (count : Nat) : List TablesOp :=
  (List.replicate count [.addChunk .catTree 0, .commit, .updateBitmaps]).flatten

/-- A catalog tree of 244 nodes and one record for each other file: 4076 bytes. -/
def wideTable : BaseTable where
  records
    | .catTree => (List.range 244).map fun i => ⟨i, 0, 0⟩
    | ino => [⟨243 + SpecialFile.all.idxOf ino, 0, 0⟩]
  records_ne ino := by cases ino <;> decide

/-- A mounted volume with that table, whose 248 chunks are the first meta iblocks. -/
def wideTables : TablesState where
  tables := ⟨{ SnapshotInfo.build smallSb wideTable 376 1 0 with
    snapshotBitmap := fun i => i < 248
    nextSnapshotBitmap := fun i => i < 248 }, 4072, 4096⟩
  area := ⟨[(8, 376), (0, 0)], 376⟩
  baseStart := 0
  written := [(0, 1)]
  previousBase := none

theorem wideTables_mounted (tablesLength : Nat) : wideTables.Mounted smallSb tablesLength where
  start := .inl rfl
  ext := by decide
  iblock := by decide +kernel
  written := by decide +kernel
  previous := rfl
  capacity := by decide +kernel
  checksum := by decide +kernel
  checksum_lt := by decide

/-- **A base table overwrites the last one, and outgrows its buffer.** In a tables area with halves
of nine blocks the base table in block 0 and eight extended tables fill the first half, the position
is the boundary, and the base table of the ninth transaction goes to block 0 again. In a large
tables area a base table of 4076 bytes gets two records in one call: room for one is left in its
page, so that the buffer stays at 4096 bytes for a table of 4108. -/
theorem base_table_overwritten :
    (mountedTables.Mounted smallSb 18 ∧
      ∃ st, guardedRun (fun _ _ => True) (tablesStep smallSb 18) (moveAndCommit 9)
          mountedTables = some st ∧
        st.previousBase = some 0 ∧ st.baseStart = 0 ∧ ¬ TablesRight 18 st) ∧
    (wideTables.Mounted smallSb (2 ^ 17) ∧
      ∃ st, tablesStep smallSb (2 ^ 17) wideTables (.expand fullVolume .spaceBitmap 2 false) =
          some st ∧
        st.tables.snapshot.baseT.sizeInBytes = 4108 ∧ st.tables.capacity = 4096 ∧
        ¬ TablesRight (2 ^ 17) st) := by
  constructor
  · have heval : (guardedRun (fun _ _ => True) (tablesStep smallSb 18) (moveAndCommit 9)
        mountedTables).map (fun st => (st.previousBase, st.baseStart)) = some (some 0, 0) := by
      decide +kernel
    obtain ⟨st, hst, hvalues⟩ := map_eq_some_iff.mp heval
    obtain ⟨hprevious, hstart⟩ := Prod.mk.inj hvalues
    refine ⟨mountedTables_mounted 18, st, hst, hprevious, hstart, fun hright => ?_⟩
    have halternates := hright.alternates 0 hprevious
    rw [hstart] at halternates
    omega
  · have heval : (tablesStep smallSb (2 ^ 17) wideTables
        (.expand fullVolume .spaceBitmap 2 false)).map
        (fun st => (st.tables.snapshot.baseT.sizeInBytes, st.tables.capacity)) =
        some (4108, 4096) := by decide +kernel
    obtain ⟨st, hst, hvalues⟩ := map_eq_some_iff.mp heval
    obtain ⟨hsize, hcapacity⟩ := Prod.mk.inj hvalues
    refine ⟨wideTables_mounted _, st, hst, hsize, hcapacity, fun hright => ?_⟩
    have hbuffer := hright.buffer
    omega

end Vdfs4
