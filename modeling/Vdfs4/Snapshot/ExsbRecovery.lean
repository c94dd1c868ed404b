import Vdfs4.Snapshot.Table

/-!
# Recovery of the extended superblock

The **extended superblock** is stored twice. A commit that changed it writes the second
copy, then the base table, then the primary copy, so a crash can leave the two copies
different. The next mount repairs them in two places: `vdfs4_extended_sb_read` replaces a
copy whose checksum is broken and loads the file counters, and `restore_exsb`, which
knows the version of the base table, chooses between two valid copies and writes the
chosen one back through the ordinary `vdfs4_sync_exsb`. Without the option `dncs` the crcs
are compared with those in the superblock, which only mkfs writes; so a volume that was
written is mounted with `dncs`, and this option cannot be combined with a read-only mount.

* `ExsbVolume` — what recovery reads: the two copies and the heads of the two base tables.
* `SbState` — the counters in memory and the volume below them.
* `Running` — a mounted volume at the moment a commit starts.
* `CrashPoint` — where power is lost after the base table went to disk.
* `counters_recovered_iff` — the counters that mount ends with, for every crash point.
-/

namespace Vdfs4

/-! ### The volume -/

/-- `struct vdfs4_extended_super_block`: the counters and what a commit describes. -/
structure ExtendedSuperBlock where
  filesCount : Nat
  foldersCount : Nat
  mountCounter : UInt32
  syncCounter : UInt32
  /-- `meta`: the extents of the metadata area -/
  metaExtents : List (Nat × Nat)
  metaTbc : Nat
  volumeBlocksCount : Nat
deriving DecidableEq, Repr

/-- The value of `VDFS4_EXSB_VERSION` and `VDFS4_SNAPSHOT_VERSION`. -/
def versionOf (mountCount syncCount : UInt32) : Nat :=
  2 ^ 32 * mountCount.toNat + syncCount.toNat

/-- `VDFS4_EXSB_VERSION`. -/
def ExtendedSuperBlock.version (exsb : ExtendedSuperBlock) : Nat :=
  versionOf exsb.mountCounter exsb.syncCounter

/-- A place of the volume that holds an extended superblock, with the results of the
comparisons of its crc. -/
structure ExsbArea where
  exsb : ExtendedSuperBlock
  /-- with its own `checksum` -/
  checksumOk : Bool
  /-- with `exsb_checksum` of the superblock -/
  signedOk : Bool
deriving DecidableEq, Repr

/-- The head of a base table in one half of the table area. -/
structure TableArea where
  /-- `VDFS4_IS_COW_TABLE` -/
  isCowTable : Bool
  mountCount : UInt32
  syncCount : UInt32
  checksumOk : Bool
  /-- the comparison with `basetable_checksum` of the superblock -/
  signedOk : Bool
deriving DecidableEq, Repr

/-- The version `get_table_version` reports. -/
def TableArea.version (table : TableArea) : Nat :=
  if table.isCowTable then versionOf table.mountCount table.syncCount else 0

/-- What recovery reads of the disk. -/
structure ExsbVolume where
  exsb : ExsbArea
  exsbCopy : ExsbArea
  /-- the base table in the first half of the table area -/
  table1 : TableArea
  /-- the base table in the second half -/
  table2 : TableArea
deriving DecidableEq, Repr

/-- The part of `struct vdfs4_sb_info` that carries counters, over the volume. -/
structure SbState where
  /-- `raw_superblock->exsb` -/
  exsb : ExtendedSuperBlock
  /-- `raw_superblock_copy->exsb` -/
  exsbCopy : ExtendedSuperBlock
  filesCount : Nat
  foldersCount : Nat
  /-- `snapshot_info->sync_count` -/
  syncCount : UInt32
  /-- `MS_RDONLY` -/
  readOnly : Bool
  /-- `DO_NOT_CHECK_SIGN` -/
  dncs : Bool
  volume : ExsbVolume
deriving DecidableEq, Repr

/-! ### The code -/

/-- `vdfs4_sync_exsb`: the counters go from memory into `exsb`, which is written to the
primary place or, with `second`, to the place of the copy. The checksums of the superblock
stay those of mkfs. -/
def syncExsb (s : SbState) (second : Bool) : SbState :=
  let exsb := { s.exsb with
    filesCount := s.filesCount, foldersCount := s.foldersCount, syncCounter := s.syncCount }
  { s with
    exsb := exsb
    volume := if second then { s.volume with exsbCopy := ⟨exsb, true, false⟩ }
      else { s.volume with exsb := ⟨exsb, true, false⟩ } }

/-- `vdfs4_verify_exsb`. -/
def verifyExsb (dncs : Bool) (area : ExsbArea) : Bool :=
  area.exsb.version != 0 && if dncs then area.checksumOk else area.signedOk

/-- `validate_base_table`, for a table with a version. -/
def TableArea.validate (dncs : Bool) (table : TableArea) : Bool :=
  if dncs then table.checksumOk else table.signedOk

/-- `vdfs4_extended_sb_read`: a broken copy is replaced by the other one, in memory and on
disk, and the counters are loaded from the primary. -/
def extendedSbRead (readOnly dncs : Bool) (v : ExsbVolume) : Except Errno SbState :=
  let loaded := fun (exsb exsbCopy : ExtendedSuperBlock) (v : ExsbVolume) =>
    { exsb := exsb, exsbCopy := exsbCopy, filesCount := exsb.filesCount,
      foldersCount := exsb.foldersCount, syncCount := 0, readOnly := readOnly,
      dncs := dncs, volume := v }
  match verifyExsb dncs v.exsb, verifyExsb dncs v.exsbCopy with
  | false, false => .error .einval
  | true, false => .ok (loaded v.exsb.exsb v.exsb.exsb { v with exsbCopy := v.exsb })
  | false, true => .ok (loaded v.exsbCopy.exsb v.exsbCopy.exsb { v with exsb := v.exsbCopy })
  | true, true => .ok (loaded v.exsb.exsb v.exsbCopy.exsb v)

/-- `restore_exsb`, given the version of the base table that was read. -/
def restoreExsb (s : SbState) (version : Nat) : SbState :=
  if s.exsb.version = s.exsbCopy.version then s
  else if version ≠ s.exsbCopy.version then
    -- the base table is older than the copy, so the copy is ignored
    let s := { s with exsbCopy := s.exsb }
    if s.readOnly then s else syncExsb s true
  else
    -- the primary was not updated any more, it is taken from the copy
    let s := { s with exsb := s.exsbCopy }
    if s.readOnly then s else syncExsb s false

/-- `load_base_table`: the table with the greater version, or the opposite one if that is
broken; then the extended superblock is restored. -/
def loadBaseTable (s : SbState) : Except Errno SbState :=
  let tables :=
    if s.volume.table2.version < s.volume.table1.version then (s.volume.table1, s.volume.table2)
    else (s.volume.table2, s.volume.table1)
  if tables.1.version = 0 then .error .einval
  else if tables.1.validate s.dncs then .ok (restoreExsb s tables.1.version)
  else if tables.2.version = 0 then .error .einval
  else if tables.2.validate s.dncs then .ok (restoreExsb s tables.2.version)
  else .error .efault

/-- The part of mount that recovers the counters: `vdfs4_parse_options`,
`vdfs4_extended_sb_read`, then `vdfs4_build_snapshot_manager`, whose fresh `snapshot_info`
counts the commits of this mount from zero. -/
def recoverVolume (readOnly dncs : Bool) (v : ExsbVolume) : Except Errno SbState :=
  if dncs ∧ readOnly then .error .einval
  else do loadBaseTable (← extendedSbRead readOnly dncs v)

/-- `vdfs4_update_translation_tables` for a base table, which goes to the half that does
not hold the current one. -/
def writeBaseTable (s : SbState) (toSecondHalf : Bool) : SbState :=
  let table : TableArea := ⟨true, s.exsb.mountCounter, s.syncCount, true, false⟩
  { s with
    volume := if toSecondHalf then { s.volume with table2 := table }
      else { s.volume with table1 := table } }

/-! ### A commit and its crash points -/

/-- A writable mount at the moment `vdfs4_sync_metadata` starts with `EXSB_DIRTY` set. The
volume was written by earlier commits: its primary copy is intact, and the base table that
stays has an older version than the one about to be written. -/
structure Running where
  sb : SbState
  /-- the half the base table of this commit goes to -/
  toSecondHalf : Bool
  /-- mount has counted itself -/
  mounted : sb.exsb.mountCounter ≠ 0
  intact : verifyExsb true sb.volume.exsb = true
  older : (if toSecondHalf then sb.volume.table1 else sb.volume.table2).version <
    versionOf sb.exsb.mountCounter sb.syncCount

/-- The state after the second copy and the base table are on disk. -/
def Running.tableWritten (r : Running) : SbState :=
  writeBaseTable (syncExsb r.sb true) r.toSecondHalf

/-- The extended superblock `vdfs4_sync_exsb` stores for the commit. -/
def Running.committed (r : Running) : ExtendedSuperBlock :=
  (syncExsb r.sb true).exsb

/-- Where power is lost between the base table write and the end of the write of the
primary copy. A torn copy never has a valid checksum. -/
inductive CrashPoint where
  /-- nothing of the primary copy reached the disk -/
  | beforeExsb
  /-- the primary copy is torn -/
  | exsbTorn (left : ExtendedSuperBlock)
  /-- all of the primary copy reached the disk -/
  | afterExsb
deriving DecidableEq, Repr

/-- The volume that power loss leaves. -/
def Running.volumeAt (r : Running) : CrashPoint → ExsbVolume
  | .beforeExsb => r.tableWritten.volume
  | .exsbTorn left => { r.tableWritten.volume with exsb := ⟨left, false, false⟩ }
  | .afterExsb => (syncExsb r.tableWritten false).volume

/-- Two extended superblocks have the same counters. -/
def SameCounters (a b : ExtendedSuperBlock) : Prop :=
  a.filesCount = b.filesCount ∧ a.foldersCount = b.foldersCount ∧
    a.mountCounter = b.mountCounter ∧ a.syncCounter = b.syncCounter

instance (a b : ExtendedSuperBlock) : Decidable (SameCounters a b) :=
  inferInstanceAs (Decidable (_ ∧ _))

/-- The counters of a mount, in memory and in the primary copy on disk, are those of
`exsb`. -/
def CountersMatch (s : SbState) (exsb : ExtendedSuperBlock) : Prop :=
  s.filesCount = exsb.filesCount ∧ s.foldersCount = exsb.foldersCount ∧
    SameCounters s.exsb exsb ∧ SameCounters s.volume.exsb.exsb exsb

instance (s : SbState) (exsb : ExtendedSuperBlock) : Decidable (CountersMatch s exsb) :=
  inferInstanceAs (Decidable (_ ∧ _))

/-- The condition on the state before the commit: if the primary copy is lost entirely,
it must already hold the file and folder counts of the commit, and either have its version
or belong to the first commit since mount. -/
def CountersSurvive (r : Running) (crash : CrashPoint) : Prop :=
  crash = .beforeExsb →
    r.sb.volume.exsb.exsb.filesCount = r.sb.filesCount ∧
    r.sb.volume.exsb.exsb.foldersCount = r.sb.foldersCount ∧
    (r.sb.volume.exsb.exsb.version = versionOf r.sb.exsb.mountCounter r.sb.syncCount ∨
      r.sb.syncCount = 0)

/-- Mount after a successful `vdfs4_extended_sb_read`. -/
theorem recoverVolume_eq {v : ExsbVolume} {s : SbState} (h : extendedSbRead false true v = .ok s) :
    recoverVolume false true v = loadBaseTable s := by
  rw [recoverVolume, if_neg (by decide), h]
  rfl

/-! ### Versions -/

/-- A version determines both counters. -/
theorem versionOf_inj {m m' c c' : UInt32} (h : versionOf m c = versionOf m' c') :
    m = m' ∧ c = c' := by
  have hc := c.toNat_lt
  have hc' := c'.toNat_lt
  unfold versionOf at h
  exact ⟨UInt32.toNat_inj.mp (by omega), UInt32.toNat_inj.mp (by omega)⟩

/-- The first mount already makes the version positive. -/
theorem versionOf_ne_zero {m c : UInt32} (hm : m ≠ 0) : versionOf m c ≠ 0 := by
  have hpos : m.toNat ≠ 0 := fun h => hm (UInt32.toNat_inj.mp h)
  unfold versionOf
  omega

namespace Running

variable (r : Running)

/-- The version of the commit. -/
theorem version_committed :
    r.committed.version = versionOf r.sb.exsb.mountCounter r.sb.syncCount := rfl

/-- The copy the commit writes passes the check of mount. -/
theorem verifyExsb_committed : verifyExsb true ⟨r.committed, true, false⟩ = true := by
  have hne : r.committed.version ≠ 0 := versionOf_ne_zero r.mounted
  simp [verifyExsb, hne]

/-- Mount selects the base table of the commit: it is valid and the newest. -/
theorem loadBaseTable_eq (s : SbState) (hdncs : s.dncs = true) (h1 : s.volume.table1 =
    r.tableWritten.volume.table1) (h2 : s.volume.table2 = r.tableWritten.volume.table2) :
    loadBaseTable s = .ok (restoreExsb s r.committed.version) := by
  have hne : versionOf r.sb.exsb.mountCounter r.sb.syncCount ≠ 0 := versionOf_ne_zero r.mounted
  have holder := r.older
  unfold loadBaseTable
  rw [h1, h2, hdncs, version_committed]
  cases hhalf : r.toSecondHalf with
  | false =>
    simp only [hhalf, Bool.false_eq_true, if_false] at holder
    simp [tableWritten, writeBaseTable, syncExsb, hhalf, TableArea.version,
      TableArea.validate] at holder ⊢
    simp [holder, hne]
  | true =>
    simp only [hhalf, if_true] at holder
    simp [tableWritten, writeBaseTable, syncExsb, hhalf, TableArea.version,
      TableArea.validate] at holder ⊢
    simp [Nat.not_lt.mpr (Nat.le_of_lt holder), hne]

/-- The primary copy is not touched before its own write. -/
theorem tableWritten_exsb : r.tableWritten.volume.exsb = r.sb.volume.exsb := by
  unfold tableWritten writeBaseTable
  cases r.toSecondHalf <;> rfl

/-- The second copy is the one the commit wrote. -/
theorem tableWritten_exsbCopy : r.tableWritten.volume.exsbCopy = ⟨r.committed, true, false⟩ := by
  unfold tableWritten writeBaseTable
  cases r.toSecondHalf <;> rfl

/-- The state `restore_exsb` starts from when the two copies in memory are `exsb` and the
committed one. -/
def loadedWith (exsb : ExtendedSuperBlock) (v : ExsbVolume) : SbState :=
  { exsb := exsb, exsbCopy := r.committed, filesCount := exsb.filesCount,
    foldersCount := exsb.foldersCount, syncCount := 0, readOnly := false,
    dncs := true, volume := v }

/-- The volume with the committed extended superblock in both places. -/
def bothWritten : ExsbVolume := { r.tableWritten.volume with exsb := ⟨r.committed, true, false⟩ }

/-- With the committed extended superblock in both places nothing is restored. -/
theorem loadBaseTable_bothWritten :
    loadBaseTable (r.loadedWith r.committed r.bothWritten) =
      .ok (r.loadedWith r.committed r.bothWritten) := by
  rw [r.loadBaseTable_eq (r.loadedWith r.committed r.bothWritten) rfl rfl rfl]
  exact congrArg Except.ok (if_pos rfl)

/-- Mount, when the primary copy kept its old content. -/
theorem mount_beforeExsb :
    recoverVolume false true (r.volumeAt .beforeExsb) =
      .ok (restoreExsb (r.loadedWith r.sb.volume.exsb.exsb r.tableWritten.volume)
        r.committed.version) := by
  have hread : extendedSbRead false true (r.volumeAt .beforeExsb) =
      .ok (r.loadedWith r.sb.volume.exsb.exsb r.tableWritten.volume) := by
    unfold extendedSbRead volumeAt loadedWith
    rw [tableWritten_exsb, tableWritten_exsbCopy, r.intact, verifyExsb_committed]
  rw [recoverVolume_eq hread]
  exact r.loadBaseTable_eq _ rfl rfl rfl

/-- Mount, when the primary copy was torn: it is replaced by the second copy. -/
theorem mount_exsbTorn (left : ExtendedSuperBlock) :
    recoverVolume false true (r.volumeAt (.exsbTorn left)) =
      .ok (r.loadedWith r.committed r.bothWritten) := by
  have htorn : verifyExsb true ⟨left, false, false⟩ = false := by simp [verifyExsb]
  have hread : extendedSbRead false true (r.volumeAt (.exsbTorn left)) =
      .ok (r.loadedWith r.committed r.bothWritten) := by
    unfold extendedSbRead volumeAt loadedWith bothWritten
    simp only [tableWritten_exsbCopy, htorn, verifyExsb_committed]
  rw [recoverVolume_eq hread]
  exact r.loadBaseTable_bothWritten

/-- Mount, when the primary copy was written. -/
theorem mount_afterExsb :
    recoverVolume false true (r.volumeAt .afterExsb) =
      .ok (r.loadedWith r.committed r.bothWritten) := by
  have hvolume : r.volumeAt .afterExsb = r.bothWritten := by
    simp [volumeAt, bothWritten, tableWritten, writeBaseTable, syncExsb, committed]
  have hread : extendedSbRead false true (r.volumeAt .afterExsb) =
      .ok (r.loadedWith r.committed r.bothWritten) := by
    rw [hvolume]
    unfold extendedSbRead loadedWith bothWritten
    simp only [tableWritten_exsbCopy, verifyExsb_committed]
  rw [recoverVolume_eq hread]
  exact r.loadBaseTable_bothWritten

/-- A mount that found the committed primary copy, or made it from the second one, has the
counters of the commit. -/
theorem countersMatch_bothWritten :
    CountersMatch (r.loadedWith r.committed r.bothWritten) r.committed :=
  ⟨rfl, rfl, ⟨rfl, rfl, rfl, rfl⟩, rfl, rfl, rfl, rfl⟩

/-- The counters after `restore_exsb` had to choose between the old primary copy and the
committed second one. -/
theorem countersMatch_restored_iff :
    CountersMatch (restoreExsb
        (r.loadedWith r.sb.volume.exsb.exsb r.tableWritten.volume) r.committed.version)
      r.committed ↔ CountersSurvive r .beforeExsb := by
  have hold := r.tableWritten_exsb
  have hcopy : (r.loadedWith r.sb.volume.exsb.exsb r.tableWritten.volume).exsbCopy =
      r.committed := rfl
  unfold CountersSurvive
  rw [← version_committed]
  by_cases hversion : r.sb.volume.exsb.exsb.version = r.committed.version
  · -- equal versions: nothing is restored, only the file counters can differ
    obtain ⟨hmount, hsync⟩ := versionOf_inj hversion
    have hkeep : restoreExsb (r.loadedWith r.sb.volume.exsb.exsb r.tableWritten.volume)
        r.committed.version = r.loadedWith r.sb.volume.exsb.exsb r.tableWritten.volume :=
      if_pos hversion
    rw [hkeep]
    simp only [CountersMatch, SameCounters, loadedWith, hold, hmount, hsync, hversion, true_or,
      and_true, true_implies]
    constructor
    · rintro ⟨hfiles, hfolders, -⟩
      exact ⟨hfiles, hfolders⟩
    · rintro ⟨hfiles, hfolders⟩
      exact ⟨hfiles, hfolders, ⟨hfiles, hfolders⟩, hfiles, hfolders⟩
  · -- the second copy is taken, but its counters are overwritten from memory
    have htake : restoreExsb (r.loadedWith r.sb.volume.exsb.exsb r.tableWritten.volume)
        r.committed.version =
        syncExsb { r.loadedWith r.sb.volume.exsb.exsb r.tableWritten.volume with
          exsb := r.committed } false := by
      have hdiffer : (r.loadedWith r.sb.volume.exsb.exsb r.tableWritten.volume).exsb.version ≠
          r.committed.version := hversion
      unfold restoreExsb
      rw [hcopy, if_neg hdiffer, if_neg (fun h => h rfl)]
      rfl
    rw [htake]
    simp only [hversion, false_or, true_implies]
    simp only [CountersMatch, SameCounters, syncExsb, loadedWith, committed, true_and,
      Bool.false_eq_true, if_false]
    rw [eq_comm (a := (0 : UInt32))]
    constructor
    · rintro ⟨hfiles, hfolders, ⟨-, -, hsync⟩, -⟩
      exact ⟨hfiles, hfolders, hsync⟩
    · rintro ⟨hfiles, hfolders, hsync⟩
      exact ⟨hfiles, hfolders, ⟨hfiles, hfolders, hsync⟩, hfiles, hfolders, hsync⟩

end Running

/-- **The counters a mount recovers.** A mount with `dncs` succeeds after every crash between
the base table write and the end of the write of the primary extended superblock, and the file,
folder, mount and sync counters it ends with, in memory and in the primary copy, are those
the commit stored exactly when `CountersSurvive` holds. -/
theorem counters_recovered_iff (r : Running) (crash : CrashPoint) :
    ∃ s, recoverVolume false true (r.volumeAt crash) = .ok s ∧
      (CountersMatch s r.committed ↔ CountersSurvive r crash) := by
  cases crash with
  | beforeExsb => exact ⟨_, r.mount_beforeExsb, r.countersMatch_restored_iff⟩
  | exsbTorn left =>
    exact ⟨_, r.mount_exsbTorn left, iff_of_true r.countersMatch_bothWritten nofun⟩
  | afterExsb => exact ⟨_, r.mount_afterExsb, iff_of_true r.countersMatch_bothWritten nofun⟩

/-! ### A file is created, and the power fails -/

/-- The extended superblock of a volume with `files` files after commit `syncCounter` of
mount `mountCounter`. -/
def sampleExsb (files : Nat) (mountCounter syncCounter : UInt32) : ExtendedSuperBlock :=
  ⟨files, 1, mountCounter, syncCounter, [(100, 64)], 64, 4096⟩

/-- The second mount of a volume with three files; a fourth was created, and the second
commit of this mount is about to start. -/
def fourthFileCommit : Running where
  sb := {
    exsb := sampleExsb 3 2 0, exsbCopy := sampleExsb 3 2 0, filesCount := 4, foldersCount := 1
    syncCount := 1, readOnly := false, dncs := true
    volume := ⟨⟨sampleExsb 3 2 0, true, false⟩, ⟨sampleExsb 3 2 0, true, false⟩,
      ⟨true, 2, 0, true, false⟩, ⟨true, 1, 5, true, false⟩⟩ }
  toSecondHalf := true
  mounted := by decide
  intact := by decide
  older := by decide

/-- The mount after a crash that hits right behind the base table takes the table of the
new commit, but the primary copy it writes says three files and commit zero. -/
theorem file_counter_lost_in_recovery :
    ∃ s, recoverVolume false true (fourthFileCommit.volumeAt .beforeExsb) = .ok s ∧
      fourthFileCommit.committed.filesCount = 4 ∧ fourthFileCommit.committed.syncCounter = 1 ∧
      s.filesCount = 3 ∧ s.volume.exsb.exsb.filesCount = 3 ∧
      s.volume.exsb.exsb.syncCounter = 0 ∧
      ¬ CountersMatch s fourthFileCommit.committed := by
  exact ⟨_, rfl, by decide, by decide, by decide, by decide, by decide, by decide⟩

end Vdfs4
