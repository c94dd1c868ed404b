import Vdfs4.Lib.Run
import Vdfs4.Snapshot.Cow

/-!
# Copy-on-write never touches the committed snapshot

A run is a sequence of calls of `vdfs4_add_chunk_no_lock`, `insert_new_iblocks` (with
the bitmap growth before it) and `vdfs4_update_bitmaps` from the state built at mount.
`CowState` adds two **ghosts** to the snapshot manager: the table of the last commit and
every assignment made since, both read off the tables before and after a step.

* `LiveInv` — the live table has disjoint ranges and the snapshot bitmaps agree with it.
* `CowInv` — the whole invariant: the three bitmaps are exactly what they are for.
* `LiveInv.place`, `CowInv.place` — the step lemma: placing one chunk in a clear area.
* `cow_keeps_committed` — the run theorem.
-/

namespace Vdfs4

open Option hiding or_assoc
open Bitmap GuardedRun BaseTable List SnapshotInfo

/-- The assignments that lead from one table to the next: every record of the new
table that is new or has another place than before. -/
def newAssignments (old new : BaseTable) : List ExtendedRecord :=
  SpecialFile.all.flatMap fun ino =>
    (new.records ino).zipIdx.filterMap fun (r, i) =>
      if (old.record? ino i).map BaseTableRecord.metaIblock = some r.metaIblock then none
      else some ⟨ino, i, r.metaIblock⟩

theorem mem_newAssignments {old new : BaseTable} :
    a ∈ newAssignments old new ↔
      (∃ r, new.record? a.objectId a.tableIndex = some r ∧ r.metaIblock = a.metaIblock) ∧
      (old.record? a.objectId a.tableIndex).map BaseTableRecord.metaIblock ≠
        some a.metaIblock := by
  simp only [newAssignments, mem_flatMap, SpecialFile.mem_all, true_and,
    mem_filterMap, Prod.exists, mem_zipIdx_iff_getElem?]
  constructor
  · rintro ⟨ino, r, i, hr, hite⟩
    split at hite
    · cases hite
    · rename_i hne
      obtain rfl := some.inj hite
      exact ⟨⟨r, hr, rfl⟩, hne⟩
  · rintro ⟨⟨r, hr, hpos⟩, hne⟩
    refine ⟨a.objectId, r, a.tableIndex, hr, ?_⟩
    rw [hpos, if_neg hne]

theorem newAssignments_self (t : BaseTable) : newAssignments t t = [] := by
  refine eq_nil_iff_forall_not_mem.mpr fun a ha => ?_
  obtain ⟨⟨r, hr, hpos⟩, hne⟩ := mem_newAssignments.mp ha
  simp [hr, hpos] at hne

/-- A new record is one more assignment. -/
theorem mem_newAssignments_appendRecord {base t : BaseTable} {ino : SpecialFile}
    (hlen : (base.records ino).length ≤ (t.records ino).length) :
    a ∈ newAssignments base (t.appendRecord ino r) ↔
      a ∈ newAssignments base t ∨ a = ⟨ino, (t.records ino).length, r.metaIblock⟩ := by
  have hbase : base.record? ino (t.records ino).length = none := getElem?_eq_none hlen
  rw [mem_newAssignments, mem_newAssignments]
  constructor
  · rintro ⟨⟨r', hr', hpos'⟩, hne⟩
    rw [record?_appendRecord] at hr'
    split at hr'
    · rename_i hij
      obtain rfl := some.inj hr'
      exact .inr (ExtendedRecord.ext hij.1 hij.2 hpos'.symm)
    · exact .inl ⟨⟨r', hr', hpos'⟩, hne⟩
  · rintro (⟨⟨r', hr', hpos'⟩, hne⟩ | rfl)
    · refine ⟨⟨r', ?_, hpos'⟩, hne⟩
      rw [record?_appendRecord, if_neg, hr']
      rintro ⟨hi, hj⟩
      rw [hi, hj, record?_length] at hr'
      cases hr'
    · exact ⟨⟨r, by simp [record?_appendRecord], rfl⟩, by simp [hbase]⟩

/-- The snapshot manager with its history since the last commit. -/
structure CowState where
  /-- the snapshot manager -/
  snapshot : SnapshotInfo
  /-- the table at the last commit -/
  committed : BaseTable
  /-- every assignment of a place since the last commit -/
  assigned : List ExtendedRecord

/-- iblock `b` was assigned to some record since the last commit. -/
def CowState.Assigned (sbi : SbInfo) (st : CowState) (b : Nat) : Prop :=
  ∃ a ∈ st.assigned, a.metaIblock ≤ b ∧ b < a.metaIblock + sbi.nr a.objectId

/-- A volume that can be mounted: a table with disjoint ranges inside the metadata
area. This is what `mkfs` writes and what every commit writes. -/
structure MountImage (sbi : SbInfo) where
  /-- the table that the tables area holds -/
  table : BaseTable
  /-- `exsb.meta_tbc` -/
  metaTbc : Nat
  /-- the ranges of two records never meet -/
  disjoint : table.RangesDisjoint sbi
  /-- every range lies in the metadata area -/
  bounded : ∀ b, table.Maps sbi b → b < metaTbc

/-- The state built at mount: nothing is assigned yet. -/
def CowState.mount {sbi : SbInfo} (image : MountImage sbi) (iblock extCount : Nat) :
    CowState where
  snapshot := SnapshotInfo.build sbi image.table image.metaTbc iblock extCount
  committed := image.table
  assigned := []

/-- The operations of a run. -/
inductive CowOp where
  /-- `vdfs4_add_chunk_no_lock` -/
  | addChunk (objectId : SpecialFile) (pageIndex : Nat)
  /-- the bitmaps grow with the metadata area -/
  | growBitmaps (metaTbc : Nat)
  /-- `insert_new_iblocks` -/
  | insertNewIblocks (ino : SpecialFile) (newLastTableIndex : Nat)
  /-- `vdfs4_update_bitmaps` -/
  | updateBitmaps
deriving DecidableEq, Repr

/-- The history after a call that moved the table on. -/
def CowState.advance (st : CowState) (s' : SnapshotInfo) : CowState where
  snapshot := s'
  committed := st.committed
  assigned := st.assigned ++ newAssignments st.snapshot.baseT s'.baseT

/-- One call; `none` when one of its assertions fires. -/
def cowStep (sbi : SbInfo) (st : CowState) : CowOp → Option CowState
  | .addChunk objectId pageIndex =>
    (st.snapshot.vdfs4AddChunkNoLock sbi objectId pageIndex).map st.advance
  | .growBitmaps metaTbc => some (st.advance (st.snapshot.growBitmaps metaTbc))
  | .insertNewIblocks ino newLastTableIndex =>
    (st.snapshot.insertNewIblocks sbi ino newLastTableIndex).map st.advance
  | .updateBitmaps =>
    some ⟨st.snapshot.vdfs4UpdateBitmaps, st.snapshot.baseT, []⟩

/-- `vdfs4_add_chunk_no_lock` calls `get_new_meta_iblock` and gets `-ENOSPC`. -/
def SnapshotInfo.addChunkMeetsEnospc (sbi : SbInfo) (s : SnapshotInfo)
    (objectId : SpecialFile) (pageIndex : Nat) : Bool :=
  match vdfs4GetMetaIblock sbi s.baseT objectId pageIndex, (s.getNewMetaIblock sbi objectId).2 with
  | .ok metaIblock, .error _ => !s.movedIblock metaIblock
  | _, _ => false

/-- `get_new_meta_iblock` does not return `-ENOSPC` to the call. (`insert_new_iblocks`
stops on it, so that such a call does not complete.) -/
def CowOp.NoEnospc (sbi : SbInfo) (st : CowState) : CowOp → Prop
  | .addChunk objectId pageIndex =>
    st.snapshot.addChunkMeetsEnospc sbi objectId pageIndex = false
  | .growBitmaps _ | .insertNewIblocks _ _ | .updateBitmaps => True

instance (sbi : SbInfo) (st : CowState) : DecidablePred (CowOp.NoEnospc sbi st)
  | .addChunk _ _ => inferInstanceAs (Decidable (_ = false))
  | .growBitmaps _ => .isTrue trivial
  | .insertNewIblocks _ _ => .isTrue trivial
  | .updateBitmaps => .isTrue trivial

/-! ### Placing one chunk -/

/-- `t'` is `t` with the chunk `(ino, i)` placed at `pos`, moved or new. -/
structure Placed (t t' : BaseTable) (ino : SpecialFile) (i pos : Nat) : Prop where
  /-- the chunk is at `pos` -/
  placed : ∃ r, t'.record? ino i = some r ∧ r.metaIblock = pos
  /-- every other record is unchanged -/
  frame : ∀ ino' j, ¬ (ino' = ino ∧ j = i) → t'.record? ino' j = t.record? ino' j

theorem placed_modifyRecord {t : BaseTable} {ino : SpecialFile} {i pos : Nat}
    (hr : t.record? ino i = some r) :
    Placed t (t.modifyRecord ino i fun r => { r with metaIblock := pos }) ino i pos where
  placed := ⟨{ r with metaIblock := pos }, by simp [record?_modifyRecord, hr], rfl⟩
  frame ino' j hne := by rw [record?_modifyRecord, if_neg hne]

theorem placed_appendRecord (t : BaseTable) (ino : SpecialFile) (r : BaseTableRecord) :
    Placed t (t.appendRecord ino r) ino (t.records ino).length r.metaIblock where
  placed := ⟨r, by simp [record?_appendRecord], rfl⟩
  frame ino' j hne := by rw [record?_appendRecord, if_neg hne]

namespace Placed

variable {sbi : SbInfo} {t t' : BaseTable} {ino ino' : SpecialFile} {i j pos b mask newLast : Nat}
  {r : BaseTableRecord} {a : ExtendedRecord} {l' : List ExtendedRecord}

theorem mapsAt_iff (h : Placed t t' ino i pos) :
    t'.MapsAt sbi ino' j b ↔
      ((ino' = ino ∧ j = i) ∧ pos ≤ b ∧ b < pos + sbi.nr ino) ∨
      (¬ (ino' = ino ∧ j = i) ∧ t.MapsAt sbi ino' j b) := by
  by_cases hij : ino' = ino ∧ j = i
  · obtain ⟨rfl, rfl⟩ := hij
    obtain ⟨r, hr, rfl⟩ := h.placed
    simp [BaseTable.MapsAt, hr]
  · simp [BaseTable.MapsAt, h.frame ino' j hij, hij]

theorem maps_iff (h : Placed t t' ino i pos) :
    t'.Maps sbi b ↔ (pos ≤ b ∧ b < pos + sbi.nr ino) ∨
      ∃ ino' j, ¬ (ino' = ino ∧ j = i) ∧ t.MapsAt sbi ino' j b := by
  constructor
  · rintro ⟨ino', j, hb⟩
    rcases h.mapsAt_iff.mp hb with ⟨-, hb⟩ | hb
    · exact .inl hb
    · exact .inr ⟨ino', j, hb⟩
  · rintro (hb | ⟨ino', j, hb⟩)
    · exact ⟨ino, i, h.mapsAt_iff.mpr (.inl ⟨⟨rfl, rfl⟩, hb⟩)⟩
    · exact ⟨ino', j, h.mapsAt_iff.mpr (.inr hb)⟩

/-- A placement is one assignment, if the place is another one than before. -/
theorem mem_newAssignments_iff (h : Placed t t' ino i pos)
    (hne : (t.record? ino i).map BaseTableRecord.metaIblock ≠ some pos) :
    a ∈ newAssignments t t' ↔ a = ⟨ino, i, pos⟩ := by
  rw [mem_newAssignments]
  constructor
  · rintro ⟨⟨r, hr, hpos⟩, hold⟩
    by_cases hij : a.objectId = ino ∧ a.tableIndex = i
    · obtain ⟨r', hr', rfl⟩ := h.placed
      rw [hij.1, hij.2, hr'] at hr
      obtain rfl := some.inj hr
      exact ExtendedRecord.ext hij.1 hij.2 hpos.symm
    · -- an untouched record has its old place
      rw [h.frame _ _ hij] at hr
      simp [hr, hpos] at hold
  · rintro rfl
    exact ⟨h.placed, hne⟩

end Placed

/-! ### The invariant -/

/-- The part of the invariant that also holds when `-ENOSPC` makes chunks stay in place:
the live table and the bitmaps of the snapshots agree. -/
structure LiveInv (sbi : SbInfo) (s : SnapshotInfo) : Prop where
  /-- ranges of the live table are disjoint -/
  disjoint : s.baseT.RangesDisjoint sbi
  /-- `next_snapshot_bitmap` is the live table -/
  next_iff : ∀ b, s.nextSnapshotBitmap b = true ↔ s.baseT.Maps sbi b
  /-- the live table stays inside `snapshot_bitmap` -/
  live : ∀ b, s.baseT.Maps sbi b → s.snapshotBitmap b = true
  /-- bits past the end are clear -/
  bounded : ∀ b, s.snapshotBitmap b = true → b < s.bitmapSizeInBits

/-- The invariant of a run without `-ENOSPC`. -/
structure CowInv (sbi : SbInfo) (st : CowState) : Prop extends LiveInv sbi st.snapshot where
  /-- `snapshot_bitmap` is the committed table and everything assigned since -/
  snapshot_iff : ∀ b, st.snapshot.snapshotBitmap b = true ↔
    st.committed.Maps sbi b ∨ st.Assigned sbi b
  /-- `moved_iblock` is everything assigned since the last commit -/
  moved_iff : ∀ b, st.snapshot.movedIblock b = true ↔ st.Assigned sbi b
  /-- nothing assigned since the last commit was mapped then -/
  fresh : ∀ b, st.Assigned sbi b → ¬ st.committed.Maps sbi b

/-- An iblock of a clear area is mapped by no record. -/
theorem LiveInv.not_maps_of_clear {sbi : SbInfo} {s : SnapshotInfo} (hinv : LiveInv sbi s)
    {nr pos b : Nat} (harea : IsZeroArea s.snapshotBitmap s.bitmapSizeInBits nr mask pos)
    (hb : pos ≤ b ∧ b < pos + nr) : ¬ s.baseT.Maps sbi b := by
  intro hm
  have hlive := hinv.live b hm
  rw [harea.clear b hb.1 hb.2] at hlive
  cases hlive

/-- A clear area is another place than the one a chunk has. -/
theorem LiveInv.place_ne_of_clear {sbi : SbInfo} {s : SnapshotInfo} (hinv : LiveInv sbi s)
    {ino : SpecialFile} {i pos : Nat}
    (harea : IsZeroArea s.snapshotBitmap s.bitmapSizeInBits (sbi.nr ino) mask pos) :
    (s.baseT.record? ino i).map BaseTableRecord.metaIblock ≠ some pos := by
  intro heq
  obtain ⟨r, hr, rfl⟩ := map_eq_some_iff.mp heq
  have hpos := sbi.nr_pos ino
  exact hinv.not_maps_of_clear harea (b := r.metaIblock) ⟨le_rfl, by omega⟩
    ⟨ino, i, r, hr, le_rfl, by omega⟩

/-- **The step lemma**: placing one chunk in a clear area keeps the live table and the
bitmaps in agreement, when the area is set in both snapshots and the chunk's old range is
taken out of the next one. -/
theorem LiveInv.place {sbi : SbInfo} {s s' : SnapshotInfo} (hinv : LiveInv sbi s)
    {ino : SpecialFile} {i pos : Nat}
    (harea : IsZeroArea s.snapshotBitmap s.bitmapSizeInBits (sbi.nr ino) mask pos)
    (hplaced : Placed s.baseT s'.baseT ino i pos)
    (hsnap : s'.snapshotBitmap = s.snapshotBitmap.setRange pos (sbi.nr ino))
    (hnext : ∀ b, s'.nextSnapshotBitmap b = true ↔ (pos ≤ b ∧ b < pos + sbi.nr ino) ∨
      (¬ s.baseT.MapsAt sbi ino i b ∧ s.nextSnapshotBitmap b = true))
    (hsize : s'.bitmapSizeInBits = s.bitmapSizeInBits) : LiveInv sbi s' := by
  refine ⟨?_, ?_, ?_, ?_⟩
  · -- the new range is mapped by nobody else
    intro ino1 i1 ino2 i2 b h1 h2
    rcases hplaced.mapsAt_iff.mp h1 with ⟨⟨rfl, rfl⟩, hb1⟩ | ⟨hn1, hm1⟩ <;>
      rcases hplaced.mapsAt_iff.mp h2 with ⟨⟨rfl, rfl⟩, hb2⟩ | ⟨hn2, hm2⟩
    · exact ⟨rfl, rfl⟩
    · exact absurd ⟨_, _, hm2⟩ (hinv.not_maps_of_clear harea hb1)
    · exact absurd ⟨_, _, hm1⟩ (hinv.not_maps_of_clear harea hb2)
    · exact hinv.disjoint _ _ _ _ b hm1 hm2
  · -- next snapshot
    intro b
    rw [hnext b, hplaced.maps_iff, hinv.next_iff b]
    refine or_congr Iff.rfl ⟨?_, ?_⟩
    · rintro ⟨hn, ino', j, hm⟩
      refine ⟨ino', j, ?_, hm⟩
      rintro ⟨rfl, rfl⟩
      exact hn hm
    · rintro ⟨ino', j, hij, hm⟩
      exact ⟨fun hm' => hij (hinv.disjoint _ _ _ _ b hm hm'), ino', j, hm⟩
  · -- live
    intro b hb
    rw [hsnap, setRange_eq_true]
    rcases hplaced.maps_iff.mp hb with hb | ⟨ino', j, -, hm⟩
    · exact .inl hb
    · exact .inr (hinv.live b ⟨ino', j, hm⟩)
  · -- bounded
    intro b hb
    rw [hsnap, setRange_eq_true] at hb
    rw [hsize]
    rcases hb with hb | hb
    · exact Nat.lt_of_lt_of_le hb.2 harea.le_size
    · exact hinv.bounded b hb

/-- Two histories with the same assignments have the same assigned iblocks. -/
theorem assigned_congr {sbi : SbInfo} {s s' : SnapshotInfo} {c : BaseTable}
    {l : List ExtendedRecord} {x : ExtendedRecord} (h : ∀ a, a ∈ l' ↔ a ∈ l ∨ a = x) (b : Nat) :
    (CowState.mk s' c l').Assigned sbi b ↔
      (CowState.mk s c l).Assigned sbi b ∨
        (x.metaIblock ≤ b ∧ b < x.metaIblock + sbi.nr x.objectId) := by
  unfold CowState.Assigned
  constructor
  · rintro ⟨a, ha, hb⟩
    rcases (h a).mp ha with ha | rfl
    · exact .inl ⟨a, ha, hb⟩
    · exact .inr hb
  · rintro (⟨a, ha, hb⟩ | hb)
    · exact ⟨a, (h a).mpr (.inl ha), hb⟩
    · exact ⟨x, (h x).mpr (.inr rfl), hb⟩

/-- The step lemma with the history: the placement is one more assignment. -/
theorem CowInv.place {sbi : SbInfo} {s s' : SnapshotInfo} {c : BaseTable} {l : List ExtendedRecord}
    {ino : SpecialFile} {i pos : Nat} (hinv : CowInv sbi ⟨s, c, l⟩) (hlive : LiveInv sbi s')
    (harea : IsZeroArea s.snapshotBitmap s.bitmapSizeInBits (sbi.nr ino) mask pos)
    (hsnap : s'.snapshotBitmap = s.snapshotBitmap.setRange pos (sbi.nr ino))
    (hmoved : s'.movedIblock = s.movedIblock.setRange pos (sbi.nr ino))
    (hl : ∀ a, a ∈ l' ↔ a ∈ l ∨ a = ⟨ino, i, pos⟩) :
    CowInv sbi ⟨s', c, l'⟩ := by
  refine ⟨hlive, ?_, ?_, ?_⟩
  · -- current snapshot
    intro b
    rw [hsnap, setRange_eq_true, assigned_congr (s := s) hl b, hinv.snapshot_iff b, or_comm,
      or_assoc]
  · -- moved
    intro b
    rw [hmoved, setRange_eq_true, assigned_congr (s := s) hl b, hinv.moved_iff b, or_comm]
  · -- fresh
    intro b hb hc
    rcases (assigned_congr (s := s) hl b).mp hb with hb | hb
    · exact hinv.fresh b hb hc
    · have hset := (hinv.snapshot_iff b).mpr (.inl hc)
      rw [harea.clear b hb.1 hb.2] at hset
      cases hset

/-! ### Every call keeps the invariant -/

section calls

variable {sbi : SbInfo} {s s' : SnapshotInfo} {c : BaseTable} {l : List ExtendedRecord}
  {ino : SpecialFile}

/-- A chunk that moves to a fresh area keeps the live table and the bitmaps in agreement. -/
theorem LiveInv.moved {i pos : Nat} (hinv : LiveInv sbi s) (hr : s.baseT.record? ino i = some r)
    (harea : IsZeroArea s.snapshotBitmap s.bitmapSizeInBits (sbi.nr ino) mask pos)
    (hmv : s.Moved ino i pos (s.snapshotBitmap.setRange pos (sbi.nr ino))
      ((s.nextSnapshotBitmap.setRange pos (sbi.nr ino)).clearRange r.metaIblock (sbi.nr ino))
      (s.movedIblock.setRange pos (sbi.nr ino)) s') : LiveInv sbi s' := by
  have hplaced : Placed s.baseT s'.baseT ino i pos := by
    rw [hmv.baseT]
    exact placed_modifyRecord hr
  refine hinv.place harea hplaced hmv.snapshotBitmap ?_ hmv.bitmapSizeInBits
  -- the old range leaves the next snapshot, the new one does not meet it
  intro b
  have hold : s.baseT.MapsAt sbi ino i b ↔
      r.metaIblock ≤ b ∧ b < r.metaIblock + sbi.nr ino := by
    simp [BaseTable.MapsAt, hr]
  have hnew : pos ≤ b ∧ b < pos + sbi.nr ino → ¬ s.baseT.MapsAt sbi ino i b :=
    fun hb hm => hinv.not_maps_of_clear harea hb ⟨ino, i, hm⟩
  rw [hmv.nextSnapshotBitmap, clearRange_eq_true, setRange_eq_true, ← hold]
  tauto

/-- A new record in a fresh area keeps the live table and the bitmaps in agreement. -/
theorem LiveInv.appended {pos : Nat} {s0 : SnapshotInfo} (hinv : LiveInv sbi s)
    (hh : s.Handed sbi ino pos s0) (hr : r.metaIblock = pos) :
    LiveInv sbi { s0 with baseT := s0.baseT.appendRecord ino r } := by
  subst hr
  have hplaced := placed_appendRecord s.baseT ino r
  rw [← hh.baseT] at hplaced
  refine hinv.place (i := (s.baseT.records ino).length) hh.area ?_ hh.snapshotBitmap ?_
    hh.bitmapSizeInBits
  · simpa only [hh.baseT] using hplaced
  intro b
  have hold : ¬ s.baseT.MapsAt sbi ino (s.baseT.records ino).length b := by
    rintro ⟨r', hr', -⟩
    rw [record?_length] at hr'
    cases hr'
  simp only [hh.nextSnapshotBitmap, setRange_eq_true, hold, not_false_eq_true, true_and]

theorem cowInv_addChunk {p : Nat} (hinv : CowInv sbi ⟨s, c, l⟩)
    (hok : (CowOp.addChunk ino p).NoEnospc sbi ⟨s, c, l⟩)
    (h : s.vdfs4AddChunkNoLock sbi ino p = some s') :
    CowInv sbi ((CowState.mk s c l).advance s') := by
  obtain ⟨r, hr, ⟨-, rfl⟩ | ⟨hm, pos, s0, hh, hmv⟩ | ⟨hm, he, -⟩⟩ :=
    vdfs4AddChunkNoLock_cases h
  · -- moved before: nothing happens, and nothing is assigned
    unfold CowState.advance
    rw [newAssignments_self, append_nil]
    exact hinv
  · have hplaced : Placed s.baseT s'.baseT ino (getTableIndex sbi ino p) pos := by
      rw [hmv.baseT]
      exact placed_modifyRecord hr
    refine hinv.place (i := getTableIndex sbi ino p) (hinv.toLiveInv.moved hr hh.area hmv)
      hh.area hmv.snapshotBitmap hmv.movedIblock ?_
    intro a
    rw [mem_append,
      hplaced.mem_newAssignments_iff (hinv.toLiveInv.place_ne_of_clear hh.area)]
  · simp [CowOp.NoEnospc, addChunkMeetsEnospc, vdfs4GetMetaIblock, hr, hm, he] at hok

theorem LiveInv.insertNewIblocks (hinv : LiveInv sbi s)
    (h : s.insertNewIblocks sbi ino newLast = some s') : LiveInv sbi s' :=
  insertNewIblocks_induction h hinv (fun _ _ _ ht hh => ht.appended hh rfl)
    fun _ _ ht => ⟨ht.disjoint, ht.next_iff, ht.live, ht.bounded⟩

theorem cowInv_insertNewIblocks (hinv : CowInv sbi ⟨s, c, l⟩)
    (h : s.insertNewIblocks sbi ino newLast = some s') :
    CowInv sbi ((CowState.mk s c l).advance s') := by
  -- the history is seen from the table the call began with
  let I : SnapshotInfo → Prop := fun t =>
    (s.baseT.records ino).length ≤ (t.baseT.records ino).length ∧
      CowInv sbi ⟨t, c, l ++ newAssignments s.baseT t.baseT⟩
  have hI : I s' := by
    refine insertNewIblocks_induction (I := I) h ⟨le_rfl, ?_⟩ ?_ ?_
    · rwa [newAssignments_self, append_nil]
    · rintro t t0 pos ⟨hlen, ht⟩ hh
      refine ⟨?_, ?_⟩
      · simp only [hh.baseT, appendRecord, if_pos, length_append]
        omega
      · refine ht.place (i := (t.baseT.records ino).length) (ht.toLiveInv.appended hh rfl)
          hh.area hh.snapshotBitmap hh.movedIblock ?_
        intro a
        simp only [hh.baseT, mem_append, mem_newAssignments_appendRecord hlen, or_assoc]
    · rintro t n ⟨hlen, ht⟩
      exact ⟨hlen, ⟨ht.disjoint, ht.next_iff, ht.live, ht.bounded⟩, ht.snapshot_iff,
        ht.moved_iff, ht.fresh⟩
  exact hI.2

theorem LiveInv.growBitmaps (hinv : LiveInv sbi s) (metaTbc : Nat) :
    LiveInv sbi (s.growBitmaps metaTbc) := by
  rw [growBitmaps_eq]
  exact ⟨hinv.disjoint, hinv.next_iff, hinv.live,
    fun b hb => Nat.lt_of_lt_of_le (hinv.bounded b hb) (Nat.le_max_left _ _)⟩

theorem LiveInv.updateBitmaps (hinv : LiveInv sbi s) : LiveInv sbi s.vdfs4UpdateBitmaps where
  disjoint := hinv.disjoint
  next_iff := hinv.next_iff
  live b hb := (hinv.next_iff b).mpr hb
  bounded b hb := hinv.bounded b (hinv.live b ((hinv.next_iff b).mp hb))

/-- **One call keeps the invariant.** -/
theorem cowInv_cowStep {st st' : CowState} {op : CowOp} (hinv : CowInv sbi st)
    (hok : op.NoEnospc sbi st) (h : cowStep sbi st op = some st') : CowInv sbi st' := by
  cases op with
  | addChunk objectId p =>
    obtain ⟨s', hs', rfl⟩ := map_eq_some_iff.mp h
    exact cowInv_addChunk hinv hok hs'
  | growBitmaps metaTbc =>
    obtain rfl := some.inj h
    have hlive := hinv.toLiveInv.growBitmaps metaTbc
    rw [growBitmaps_eq] at hlive ⊢
    unfold CowState.advance
    rw [newAssignments_self, append_nil]
    exact ⟨hlive, hinv.snapshot_iff, hinv.moved_iff, hinv.fresh⟩
  | insertNewIblocks ino newLast =>
    obtain ⟨s', hs', rfl⟩ := map_eq_some_iff.mp h
    exact cowInv_insertNewIblocks hinv hs'
  | updateBitmaps =>
    obtain rfl := some.inj h
    -- the live table is the committed one now, and nothing is assigned
    have hnone : ∀ b, ¬ (CowState.mk st.snapshot.vdfs4UpdateBitmaps st.snapshot.baseT []).Assigned
        sbi b := by
      rintro b ⟨a, ha, -⟩
      cases ha
    refine ⟨hinv.toLiveInv.updateBitmaps, ?_, ?_, fun b hb => absurd hb (hnone b)⟩
    · intro b
      exact (hinv.next_iff b).trans ⟨.inl, fun h => h.resolve_right (hnone b)⟩
    · intro b
      exact ⟨fun hb => absurd hb Bool.false_ne_true, fun hb => absurd hb (hnone b)⟩

end calls

/-! ### The state built at mount -/

/-- Setting the ranges of a list of records. -/
theorem foldl_setRange_eq_true {n b : Nat} (l : List BaseTableRecord) (bitmap : Bitmap) :
    (l.foldl (fun bitmap r => bitmap.setRange r.metaIblock n) bitmap) b = true ↔
      (∃ r ∈ l, r.metaIblock ≤ b ∧ b < r.metaIblock + n) ∨ bitmap b = true := by
  induction l generalizing bitmap with
  | nil => simp
  | cons r l ih =>
    rw [foldl_cons, ih, setRange_eq_true]
    simp only [mem_cons, exists_eq_or_imp]
    rw [← or_assoc]
    exact or_congr_left or_comm

/-- **`build_snapshot_bitmaps`** sets exactly the mapped iblocks. -/
theorem buildSnapshotBitmaps_eq_true {sbi : SbInfo} {t : BaseTable} {b : Nat} :
    buildSnapshotBitmaps sbi t b = true ↔ t.Maps sbi b := by
  -- over a list of files: the ranges of their records, and what was set before
  have hfold : ∀ (files : List SpecialFile) (bitmap : Bitmap),
      (files.foldl (fun bitmap ino => (t.records ino).foldl
        (fun bitmap r => bitmap.setRange r.metaIblock (sbi.nr ino)) bitmap) bitmap) b = true ↔
      (∃ ino ∈ files, ∃ i, t.MapsAt sbi ino i b) ∨ bitmap b = true := by
    intro files
    induction files with
    | nil => simp
    | cons ino files ih =>
      intro bitmap
      have hfile : (∃ r ∈ t.records ino, r.metaIblock ≤ b ∧ b < r.metaIblock + sbi.nr ino) ↔
          ∃ i, t.MapsAt sbi ino i b := by
        simp only [mem_iff_getElem?, BaseTable.MapsAt, record?]
        constructor
        · rintro ⟨r, ⟨i, hi⟩, hb⟩
          exact ⟨i, r, hi, hb⟩
        · rintro ⟨i, r, hi, hb⟩
          exact ⟨r, ⟨i, hi⟩, hb⟩
      rw [foldl_cons, ih, foldl_setRange_eq_true, hfile]
      simp only [mem_cons, exists_eq_or_imp]
      rw [← or_assoc]
      exact or_congr_left or_comm
  unfold buildSnapshotBitmaps BaseTable.Maps
  rw [hfold]
  simp

theorem liveInv_mount {sbi : SbInfo} (image : MountImage sbi) (iblock extCount : Nat) :
    LiveInv sbi (build sbi image.table image.metaTbc iblock extCount) where
  disjoint := image.disjoint
  next_iff _ := buildSnapshotBitmaps_eq_true
  live _ hb := buildSnapshotBitmaps_eq_true.mpr hb
  bounded b hb := image.bounded b (buildSnapshotBitmaps_eq_true.mp hb)

theorem cowInv_mount {sbi : SbInfo} (image : MountImage sbi) (iblock extCount : Nat) :
    CowInv sbi (CowState.mount image iblock extCount) := by
  have hnone : ∀ b, ¬ (CowState.mount image iblock extCount).Assigned sbi b := by
    rintro b ⟨a, ha, -⟩
    cases ha
  refine ⟨liveInv_mount image iblock extCount, ?_, ?_, fun b hb => absurd hb (hnone b)⟩
  · intro b
    exact buildSnapshotBitmaps_eq_true.trans ⟨.inl, fun h => h.resolve_right (hnone b)⟩
  · intro b
    exact ⟨fun hb => absurd hb Bool.false_ne_true, fun hb => absurd hb (hnone b)⟩

/-- The states of a run from a mount in which `get_new_meta_iblock` never returns
`-ENOSPC`. -/
def CowReached (sbi : SbInfo) (image : MountImage sbi) (iblock extCount : Nat)
    (st : CowState) : Prop :=
  Reaches (CowOp.NoEnospc sbi) (cowStep sbi)
    (CowState.mount image iblock extCount) st

theorem CowReached.cowInv {sbi : SbInfo} {image : MountImage sbi} {iblock extCount : Nat}
    {st : CowState} (h : CowReached sbi image iblock extCount st) : CowInv sbi st :=
  Reaches.invariant h (cowInv_mount image iblock extCount)
    fun _ _ _ hinv hok hstep => cowInv_cowStep hinv hok hstep

/-- **Copy-on-write never touches the committed snapshot.** In every state of a run
without `-ENOSPC`: nothing assigned since the last commit was mapped at that commit; the
map from chunks to ranges is injective with disjoint ranges; `next_snapshot_bitmap` is
the live table; `snapshot_bitmap` is the committed table and everything assigned since. -/
theorem cow_keeps_committed {sbi : SbInfo} (image : MountImage sbi) {iblock extCount : Nat}
    {st : CowState} (h : CowReached sbi image iblock extCount st) :
    (∀ a ∈ st.assigned, ∀ b, a.metaIblock ≤ b → b < a.metaIblock + sbi.nr a.objectId →
      ¬ st.committed.Maps sbi b) ∧
    (∀ ino ino' i j range, st.snapshot.baseT.range? sbi ino i = some range →
      st.snapshot.baseT.range? sbi ino' j = some range → ino = ino' ∧ i = j) ∧
    st.snapshot.baseT.RangesDisjoint sbi ∧
    (∀ b, st.snapshot.nextSnapshotBitmap b = true ↔ st.snapshot.baseT.Maps sbi b) ∧
    (∀ b, st.snapshot.snapshotBitmap b = true ↔
      st.committed.Maps sbi b ∨ st.Assigned sbi b) := by
  have hinv := h.cowInv
  refine ⟨?_, ?_, hinv.disjoint, hinv.next_iff, hinv.snapshot_iff⟩
  · intro a ha b h1 h2
    exact hinv.fresh b ⟨a, ha, h1, h2⟩
  · intro ino ino' i j range hi hj
    exact hinv.disjoint.range?_injective hi hj

/-! ### A small volume -/

/-- Two-block nodes and one-block pages, in the first mount. -/
def sampleSb : SbInfo := ⟨1, 0, 12, 1⟩

/-- One chunk for each special file, packed from iblock 0 on. -/
def samplePlace : SpecialFile → Nat
  | .catTree => 0
  | .spaceBitmap => 2
  | .freeInodeBitmap => 3
  | .extentsTree => 4
  | .xattrTree => 6

/-- The packed volume, with a metadata area of 16 iblocks. -/
def sampleImage : MountImage sampleSb where
  table := ⟨fun ino => [⟨samplePlace ino, 0, 0⟩], fun _ => List.cons_ne_nil _ _⟩
  metaTbc := 16
  disjoint := BaseTable.rangesDisjoint_of_single samplePlace (fun _ => rfl) (by decide)
  bounded := BaseTable.bounded_of_single samplePlace (fun _ => rfl) (by decide)

/-- A commit, then a move and a growth on the packed volume. -/
def sampleRun : Option CowState :=
  guardedRun (CowOp.NoEnospc sampleSb) (cowStep sampleSb)
    [.addChunk .catTree 0, .updateBitmaps, .addChunk .catTree 0, .insertNewIblocks .spaceBitmap 1]
    (CowState.mount sampleImage 1 0)

/-- On the packed volume the catalog root moves from iblock 8, its committed place, to
iblock 10, and the space bitmap grows by a page at iblock 0, which that commit freed. -/
theorem cow_keeps_committed_sample :
    ∃ st ∈ sampleRun, st.assigned = [⟨.catTree, 0, 10⟩, ⟨.spaceBitmap, 1, 0⟩] ∧
      st.snapshot.snapshotBitmap 8 = true ∧
      (∀ a ∈ st.assigned, ∀ b, a.metaIblock ≤ b → b < a.metaIblock + sampleSb.nr a.objectId →
        ¬ st.committed.Maps sampleSb b) := by
  have hsome : sampleRun.isSome = true := by decide +kernel
  obtain ⟨st, hst⟩ := isSome_iff_exists.mp hsome
  have hmap : sampleRun.map (fun st => (st.assigned, st.snapshot.snapshotBitmap 8)) =
      some ([⟨.catTree, 0, 10⟩, ⟨.spaceBitmap, 1, 0⟩], true) := by decide +kernel
  rw [hst, map_some, some.injEq, Prod.mk.injEq] at hmap
  exact ⟨st, hst, hmap.1, hmap.2, (cow_keeps_committed sampleImage (reaches_of_guardedRun hst)).1⟩

end Vdfs4
