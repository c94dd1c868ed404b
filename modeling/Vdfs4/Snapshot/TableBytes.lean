import Vdfs4.Lib.ByteMemory
import Vdfs4.Mkfs.Placement
import Vdfs4.Snapshot.Cow

/-!
# The base table as a buffer of bytes

In memory the base table is **one buffer**: a header, and behind it the tables of the special
files, one after another in any order. `insert_new_iblocks` makes room at the end of one table by
**moving the bytes** of all later tables, corrects the offsets of the tables behind it, and fills
the new records with fresh places; `fill_descriptor_and_calculate_crc` computes the size of the
buffer once more, from the last indexes.

* `BaseTableBuffer` — the header fields and the bytes; `LaidOut` — the tables in an order.
* `newMetaIblocks` — the fresh places of the new records.
* `insertNewIblocks` — the call.
* `LaidOut.inserted` — the call **keeps the layout**, so any number of calls does.
* `Inserted.record_eq`, `Inserted.record_new` — the records that stay, and the new ones.
-/

namespace Vdfs4

open List SpecialFile
open Mkfs (sizeofBaseTable sizeofRecord)

/-! ### The buffer -/

/-- The buffer behind `snapshot->base_t`: the fields of the header and the bytes by their offset
into the buffer. -/
structure BaseTableBuffer where
  /-- `descriptor.checksum_offset` -/
  checksumOffset : Nat
  lastPageIndex : SpecialFile → Nat
  translationTableOffsets : SpecialFile → Nat
  bytes : ByteMemory

/-- The record at an address. -/
def recordAt (m : ByteMemory) (a : Nat) : BaseTableRecord where
  metaIblock := m.loadLE a 8
  syncCount := m.loadLE (a + 8) 4
  mountCount := m.loadLE (a + 12) 4

/-- The three stores that fill a record. -/
def storeRecord (m : ByteMemory) (a : Nat) (r : BaseTableRecord) : ByteMemory :=
  ((m.storeLE a 8 r.metaIblock).storeLE (a + 12) 4 r.mountCount).storeLE (a + 8) 4 r.syncCount

namespace BaseTableBuffer

/-- `vdfs4_get_table`: the offset is read as 32 bits. -/
def vdfs4GetTable (b : BaseTableBuffer) (ino : SpecialFile) : Nat :=
  b.translationTableOffsets ino % 2 ^ 32

/-- `table[i]`. -/
def record (b : BaseTableBuffer) (ino : SpecialFile) (i : Nat) : BaseTableRecord :=
  recordAt b.bytes (b.vdfs4GetTable ino + sizeofRecord * i)

/-- `vdfs4_get_meta_iblock`. -/
def vdfs4GetMetaIblock (sbi : SbInfo) (b : BaseTableBuffer) (ino : SpecialFile) (pageIndex : Nat) :
    Except Errno Nat :=
  let tableIndex := getTableIndex sbi ino pageIndex
  if b.lastPageIndex ino < tableIndex then .error .einval
  else .ok (b.record ino tableIndex).metaIblock

/-- The bytes of a table. -/
def tableSize (b : BaseTableBuffer) (ino : SpecialFile) : Nat :=
  sizeofRecord * (b.lastPageIndex ino + 1)

/-- The bytes of some tables. -/
def tablesSize (b : BaseTableBuffer) (files : List SpecialFile) : Nat :=
  (files.map b.tableSize).sum

/-- The `checksum_offset` that `fill_descriptor_and_calculate_crc` stores. -/
def fillChecksumOffset (b : BaseTableBuffer) : Nat :=
  (b.tablesSize SpecialFile.all + sizeofBaseTable) % 2 ^ 32

/-- The end of the last table. -/
def EndsAt (b : BaseTableBuffer) (e : Nat) : Prop :=
  (∀ f, b.translationTableOffsets f + b.tableSize f ≤ e) ∧
    ∃ f, b.translationTableOffsets f + b.tableSize f = e

/-- The tables of `files` follow each other from `start` on. -/
def LaidFrom (b : BaseTableBuffer) : Nat → List SpecialFile → Prop
  | _, [] => True
  | start, f :: files =>
    b.translationTableOffsets f = start ∧ b.LaidFrom (start + b.tableSize f) files

/-- The five tables follow each other behind the header, in the given order, and the checksum
follows the last one; its offset is the 32-bit value every writer stores. -/
structure LaidOut (b : BaseTableBuffer) (order : List SpecialFile) : Prop where
  perm : order.Perm SpecialFile.all
  laid : b.LaidFrom sizeofBaseTable order
  checksum : b.checksumOffset = sizeofBaseTable + b.tablesSize order
  checksum_lt : b.checksumOffset < 2 ^ 32

end BaseTableBuffer

/-! ### Fresh places -/

/-- The calls of `get_new_meta_iblock` for `count` new records: the places in their order and the
state behind, or nothing when one call finds no space. -/
def newMetaIblocks (sbi : SbInfo) (ino : SpecialFile) :
    Nat → SnapshotInfo → Option (List Nat × SnapshotInfo)
  | 0, s => some ([], s)
  | count + 1, s =>
    match s.getNewMetaIblock sbi ino with
    | (_, .error _) => none
    | (s, .ok newPosition) =>
      (newMetaIblocks sbi ino count s).map fun (positions, s) => (newPosition :: positions, s)

/-- The new records of one table, from the index `count` on. -/
def storeRecords (table syncCount mountCount : Nat) : Nat → List Nat → ByteMemory → ByteMemory
  | _, [], m => m
  | count, newPosition :: positions, m =>
    storeRecords table syncCount mountCount (count + 1) positions
      (storeRecord m (table + sizeofRecord * count) ⟨newPosition, syncCount, mountCount⟩)

/-- `insert_new_iblocks` on the buffer; `none` is a `VDFS4_BUG_ON`. -/
def BaseTableBuffer.insertNewIblocks (sbi : SbInfo) (s : SnapshotInfo) (b : BaseTableBuffer)
    (ino : SpecialFile) (newLastTableIndex : Nat) : Option (SnapshotInfo × BaseTableBuffer) :=
  let table := b.vdfs4GetTable ino
  let lastTableIndex := b.lastPageIndex ino
  if newLastTableIndex < lastTableIndex then none
  else
    let addSize := sizeofRecord * (newLastTableIndex - lastTableIndex) % 2 ^ 64
    let src := table + sizeofRecord * (lastTableIndex + 1)
    let dest := src + addSize
    let size := (b.checksumOffset % 2 ^ 32 + 2 ^ 64 - src) % 2 ^ 64
    match newMetaIblocks sbi ino (newLastTableIndex - lastTableIndex) s with
    | none => none
    | some (positions, s) =>
      some ({ s with dirtyPagesCount := s.dirtyPagesCount +
                (if ino.isTree then 2 ^ sbi.logBlocksInLeb else 1) *
                  (newLastTableIndex - lastTableIndex) },
        { checksumOffset := (b.checksumOffset % 2 ^ 32 + addSize) % 2 ^ 64 % 2 ^ 32
          lastPageIndex := fun f =>
            if f = ino then newLastTableIndex % 2 ^ 32 else b.lastPageIndex f
          translationTableOffsets := fun f =>
            if b.translationTableOffsets f ≤ b.translationTableOffsets ino then
              b.translationTableOffsets f
            else (b.translationTableOffsets f + addSize) % 2 ^ 64
          bytes := storeRecords table s.syncCount sbi.mountCounter (lastTableIndex + 1) positions
            (b.bytes.memmove dest src size) })

/-! ### What the allocations do -/

section places

open SnapshotInfo Bitmap

variable {sbi : SbInfo} {ino : SpecialFile} {s s' : SnapshotInfo} {count : Nat}
  {positions : List Nat}

/-- Places that were handed out: areas that were clear and apart from each other, and are set
now. -/
structure FreshPlaces (sbi : SbInfo) (ino : SpecialFile) (s s' : SnapshotInfo)
    (positions : List Nat) : Prop where
  area : ∀ p ∈ positions,
    IsZeroArea s.snapshotBitmap s.bitmapSizeInBits (sbi.nr ino) (2 ^ sbi.order ino - 1) p
  apart : positions.Pairwise fun p q => p + sbi.nr ino ≤ q ∨ q + sbi.nr ino ≤ p
  set : ∀ x, s'.snapshotBitmap x = true ↔
    s.snapshotBitmap x = true ∨ ∃ p ∈ positions, p ≤ x ∧ x < p + sbi.nr ino
  syncCount : s'.syncCount = s.syncCount
  size : s'.bitmapSizeInBits = s.bitmapSizeInBits

/-- **The calls of `get_new_meta_iblock` hand out fresh places**, as many as were asked for. -/
theorem newMetaIblocks_fresh (h : newMetaIblocks sbi ino count s = some (positions, s')) :
    positions.length = count ∧ FreshPlaces sbi ino s s' positions := by
  induction count generalizing s positions with
  | zero =>
    obtain ⟨rfl, rfl⟩ := Prod.mk.inj (Option.some.inj h)
    exact ⟨rfl, by simp, List.Pairwise.nil, by simp, rfl, rfl⟩
  | succ count ih =>
    simp only [newMetaIblocks] at h
    rcases hget : s.getNewMetaIblock sbi ino with ⟨s1, e | pos⟩
    · rw [hget] at h
      cases h
    rw [hget] at h
    have hhanded := getNewMetaIblock_ok hget
    obtain ⟨⟨rest, s2⟩, hrest, heq⟩ := Option.map_eq_some_iff.mp h
    obtain ⟨rfl, rfl⟩ := Prod.mk.inj heq
    obtain ⟨hlength, hfresh⟩ := ih hrest
    have hset : ∀ x, s1.snapshotBitmap x = true ↔
        s.snapshotBitmap x = true ∨ (pos ≤ x ∧ x < pos + sbi.nr ino) := by
      intro x
      rw [hhanded.snapshotBitmap]
      simp [Bitmap.setRange, or_comm]
    -- an area that is clear behind the first call was clear before and is not its area
    have hclear : ∀ p ∈ rest, ∀ x, p ≤ x → x < p + sbi.nr ino →
        s.snapshotBitmap x = false ∧ ¬ (pos ≤ x ∧ x < pos + sbi.nr ino) := by
      intro p hp x hlo hhi
      have hfalse := (hfresh.area p hp).clear x hlo hhi
      have hnot := mt (hset x).mpr (by simp [hfalse])
      push Not at hnot
      exact ⟨by simpa using hnot.1, fun hin => absurd hin.2 (by have := hnot.2 hin.1; omega)⟩
    have hnr := sbi.nr_pos ino
    refine ⟨by simp [hlength], ?_, ?_, fun x => ?_, ?_, ?_⟩
    · intro p hp
      rcases mem_cons.mp hp with rfl | hp
      · exact hhanded.area
      · have harea := hfresh.area p hp
        refine ⟨?_, harea.dvd, fun x hlo hhi => (hclear p hp x hlo hhi).1⟩
        have := harea.le_size
        rwa [hhanded.bitmapSizeInBits] at this
    · refine pairwise_cons.mpr ⟨fun p hp => ?_, hfresh.apart⟩
      -- neither area begins inside the other one
      by_contra hnot
      have h1 := hclear p hp p le_rfl (by omega)
      have h2 := hclear p hp pos
      by_cases hle : p ≤ pos
      · exact (h2 hle (by omega)).2 ⟨le_rfl, by omega⟩
      · exact h1.2 ⟨by omega, by omega⟩
    · rw [hfresh.set x, hset x]
      simp only [exists_mem_cons_iff, or_assoc]
    · rw [hfresh.syncCount, hhanded.syncCount]
    · rw [hfresh.size, hhanded.bitmapSizeInBits]

/-- Handed out places are 64-bit values. -/
theorem FreshPlaces.mod_eq (hfresh : FreshPlaces sbi ino s s' positions)
    (hsize : s.bitmapSizeInBits < 2 ^ 32) {i : Nat} (hi : i < positions.length) :
    positions[i] % 2 ^ 64 = positions[i] := by
  have hle := (hfresh.area _ (getElem_mem hi)).le_size
  exact Nat.mod_eq_of_lt (by omega)

end places

/-! ### What the stores do -/

section stores

open ByteMemory

variable {m : ByteMemory} {a b x table syncCount mountCount count i : Nat} {r : BaseTableRecord}
  {positions : List Nat}

theorem sizeofRecord_eq : sizeofRecord = 16 := rfl

/-- A record shows the 16 bytes from its address on. -/
theorem recordAt_congr {m' : ByteMemory} (h : ∀ i < sizeofRecord, m (a + i) = m' (b + i)) :
    recordAt m a = recordAt m' b := by
  have hload : ∀ k w, k + w ≤ sizeofRecord → m.loadLE (a + k) w = m'.loadLE (b + k) w := by
    intro k w hk
    rw [loadLE, loadLE, window_eq_iff.mpr fun i hi => ?_]
    rw [Nat.add_assoc, Nat.add_assoc]
    exact h (k + i) (by omega)
  have h0 := hload 0 8 (by decide)
  simp only [recordAt]
  rw [show m.loadLE a 8 = m'.loadLE b 8 from h0, hload 8 4 (by decide), hload 12 4 (by decide)]

/-- The bytes beside a record. -/
theorem storeRecord_outside (h : x < a ∨ a + sizeofRecord ≤ x) : storeRecord m a r x = m x := by
  rw [sizeofRecord_eq] at h
  unfold storeRecord storeLE
  rw [store_outside (by simp; omega), store_outside (by simp; omega),
    store_outside (by simp; omega)]

/-- A stored record is read back up to the widths of its fields. -/
theorem recordAt_storeRecord : recordAt (storeRecord m a r) a =
    ⟨r.metaIblock % 2 ^ 64, r.syncCount % 2 ^ 32, r.mountCount % 2 ^ 32⟩ := by
  have h1 : (storeRecord m a r).loadLE a 8 = r.metaIblock % 2 ^ 64 := by
    rw [storeRecord, loadLE_storeLE_of_disjoint (by omega), loadLE_storeLE_of_disjoint (by omega),
      loadLE_storeLE_mod]
    norm_num
  have h2 : (storeRecord m a r).loadLE (a + 8) 4 = r.syncCount % 2 ^ 32 := by
    rw [storeRecord, loadLE_storeLE_mod]
    norm_num
  have h3 : (storeRecord m a r).loadLE (a + 12) 4 = r.mountCount % 2 ^ 32 := by
    rw [storeRecord, loadLE_storeLE_of_disjoint (by omega), loadLE_storeLE_mod]
    norm_num
  rw [recordAt, h1, h2, h3]

/-- The bytes beside the new records. -/
theorem storeRecords_outside
    (h : x < table + sizeofRecord * count ∨
      table + sizeofRecord * (count + positions.length) ≤ x) :
    storeRecords table syncCount mountCount count positions m x = m x := by
  simp only [sizeofRecord_eq] at h
  induction positions generalizing count m with
  | nil => rfl
  | cons p positions ih =>
    rw [length_cons] at h
    rw [storeRecords, ih (by omega), storeRecord_outside]
    simp only [sizeofRecord_eq]
    omega

theorem recordAt_storeRecords (hi : i < positions.length) :
    recordAt (storeRecords table syncCount mountCount count positions m)
        (table + sizeofRecord * (count + i)) =
      ⟨positions[i] % 2 ^ 64, syncCount % 2 ^ 32, mountCount % 2 ^ 32⟩ := by
  induction positions generalizing count m i with
  | nil => cases hi
  | cons p positions ih =>
    rw [storeRecords]
    cases i with
    | zero =>
      -- the records behind do not touch it
      have hkeep : recordAt (storeRecords table syncCount mountCount (count + 1) positions
          (storeRecord m (table + sizeofRecord * count) ⟨p, syncCount, mountCount⟩))
          (table + sizeofRecord * count) =
          recordAt (storeRecord m (table + sizeofRecord * count) ⟨p, syncCount, mountCount⟩)
            (table + sizeofRecord * count) := by
        refine recordAt_congr fun k hk => storeRecords_outside (.inl ?_)
        simp only [sizeofRecord_eq] at hk ⊢
        omega
      exact hkeep.trans recordAt_storeRecord
    | succ i =>
      rw [show count + (i + 1) = count + 1 + i by omega, getElem_cons_succ]
      exact ih (Nat.lt_of_succ_lt_succ hi)

end stores

/-! ### The layout -/

namespace BaseTableBuffer

section layout

variable {b : BaseTableBuffer} {order pre post files : List SpecialFile} {f g ino : SpecialFile}

@[simp] theorem tablesSize_cons (b : BaseTableBuffer) (f : SpecialFile) (files : List SpecialFile) :
    b.tablesSize (f :: files) = b.tableSize f + b.tablesSize files := by
  simp [tablesSize]

@[simp] theorem tablesSize_append (b : BaseTableBuffer) (pre post : List SpecialFile) :
    b.tablesSize (pre ++ post) = b.tablesSize pre + b.tablesSize post := by
  simp [tablesSize]

theorem tableSize_pos (b : BaseTableBuffer) (f : SpecialFile) : 0 < b.tableSize f := by
  unfold tableSize
  simp only [sizeofRecord_eq]
  omega

/-- Tables follow each other when each begins behind those before it. -/
theorem laidFrom_iff {start : Nat} : b.LaidFrom start files ↔
    ∀ pre f post, files = pre ++ f :: post →
      b.translationTableOffsets f = start + b.tablesSize pre := by
  induction files generalizing start with
  | nil => exact ⟨fun _ pre f post heq => by simp at heq, fun _ => trivial⟩
  | cons g files ih =>
    rw [LaidFrom, ih]
    constructor
    · rintro ⟨hg, hfiles⟩ pre f post heq
      cases pre with
      | nil =>
        obtain ⟨rfl, -⟩ := cons.inj heq
        exact hg
      | cons g' pre =>
        obtain ⟨rfl, rfl⟩ := cons.inj heq
        rw [hfiles pre f post rfl, tablesSize_cons, Nat.add_assoc]
    · intro h
      refine ⟨h [] g files rfl, fun pre f post heq => ?_⟩
      rw [h (g :: pre) f post (by rw [heq]; rfl), tablesSize_cons, Nat.add_assoc]

section

variable (h : b.LaidOut order)

include h

theorem LaidOut.nodup : order.Nodup :=
  h.perm.nodup_iff.mpr (by decide)

/-- The files before and behind one file. -/
theorem LaidOut.split (f : SpecialFile) : ∃ pre post, order = pre ++ f :: post :=
  append_of_mem (h.perm.mem_iff.mpr (mem_all f))

/-- A table begins behind those before it. -/
theorem LaidOut.offset_eq (hsplit : order = pre ++ f :: post) :
    b.translationTableOffsets f = sizeofBaseTable + b.tablesSize pre :=
  laidFrom_iff.mp h.laid pre f post hsplit

/-- A later table begins behind the end of an earlier one. -/
theorem LaidOut.end_le_offset (hsplit : order = pre ++ f :: post) (hg : g ∈ post) :
    b.translationTableOffsets f + b.tableSize f ≤ b.translationTableOffsets g := by
  obtain ⟨mid, last, rfl⟩ := append_of_mem hg
  have hg_eq := h.offset_eq (show order = (pre ++ f :: mid) ++ g :: last by simp [hsplit])
  rw [h.offset_eq hsplit, hg_eq, tablesSize_append, tablesSize_cons]
  omega

/-- **Two tables do not overlap.** -/
theorem LaidOut.apart (hne : f ≠ g) :
    b.translationTableOffsets f + b.tableSize f ≤ b.translationTableOffsets g ∨
      b.translationTableOffsets g + b.tableSize g ≤ b.translationTableOffsets f := by
  obtain ⟨pre, post, hsplit⟩ := h.split f
  have hg : g ∈ order := h.perm.mem_iff.mpr (mem_all g)
  rw [hsplit, mem_append, mem_cons] at hg
  rcases hg with hpre | rfl | hpost
  · obtain ⟨first, mid, rfl⟩ := append_of_mem hpre
    exact .inr (h.end_le_offset (show order = first ++ g :: (mid ++ f :: post) by simp [hsplit])
      (by simp))
  · exact absurd rfl hne
  · exact .inl (h.end_le_offset hsplit hpost)

/-- **The checksum follows the last table.** -/
theorem LaidOut.endsAt : b.EndsAt b.checksumOffset := by
  constructor
  · intro f
    obtain ⟨pre, post, hsplit⟩ := h.split f
    rw [h.offset_eq hsplit, h.checksum, hsplit, tablesSize_append, tablesSize_cons]
    omega
  have hne : order ≠ [] := by
    rintro rfl
    exact absurd h.perm.length_eq (by decide)
  obtain ⟨pre, f, rfl⟩ := (eq_nil_or_concat' order).resolve_left hne
  refine ⟨f, ?_⟩
  rw [h.offset_eq rfl, h.checksum, tablesSize_append, tablesSize_cons]
  simp [tablesSize, Nat.add_assoc]

/-- The size that `fill_descriptor_and_calculate_crc` computes does not depend on the order. -/
theorem LaidOut.fill_eq : b.checksumOffset = b.fillChecksumOffset := by
  have hsum : b.tablesSize order = b.tablesSize all := (h.perm.map b.tableSize).sum_nat
  have hlt := h.checksum_lt
  have heq := h.checksum
  rw [fillChecksumOffset, ← hsum, Nat.add_comm, ← heq, Nat.mod_eq_of_lt hlt]

/-- The offset of a table is a 32-bit value. -/
theorem LaidOut.vdfs4GetTable_eq (f : SpecialFile) :
    b.vdfs4GetTable f = b.translationTableOffsets f := by
  have hend := h.endsAt.1 f
  have hlt := h.checksum_lt
  rw [vdfs4GetTable, Nat.mod_eq_of_lt (by omega)]

end

end layout

/-! ### What the call does -/

section call

variable {sbi : SbInfo} {s s' : SnapshotInfo} {b b' : BaseTableBuffer} {order : List SpecialFile}
  {ino f : SpecialFile} {n : Nat}

/-- The bytes that one call adds. -/
def addSize (b : BaseTableBuffer) (ino : SpecialFile) (n : Nat) : Nat :=
  sizeofRecord * (n - b.lastPageIndex ino)

/-- The effect of a call whose last index is a 32-bit value, on a buffer that is laid out. -/
structure Inserted (sbi : SbInfo) (s : SnapshotInfo) (b : BaseTableBuffer) (ino : SpecialFile)
    (n : Nat) (positions : List Nat) (s' : SnapshotInfo) (b' : BaseTableBuffer) : Prop where
  length : positions.length = n - b.lastPageIndex ino
  places : FreshPlaces sbi ino s s' positions
  checksum : b'.checksumOffset = (b.checksumOffset + b.addSize ino n) % 2 ^ 32
  last : ∀ f, b'.lastPageIndex f = if f = ino then n else b.lastPageIndex f
  offset : ∀ f, b'.translationTableOffsets f =
    if b.translationTableOffsets f ≤ b.translationTableOffsets ino then
      b.translationTableOffsets f
    else b.translationTableOffsets f + b.addSize ino n
  bytes : b'.bytes = storeRecords (b.translationTableOffsets ino) s.syncCount sbi.mountCounter
    (b.lastPageIndex ino + 1) positions
    (b.bytes.memmove
      (b.translationTableOffsets ino + b.tableSize ino + b.addSize ino n)
      (b.translationTableOffsets ino + b.tableSize ino)
      (b.checksumOffset - (b.translationTableOffsets ino + b.tableSize ino)))

/-- The last index is stored as 32 bits. -/
theorem lastPageIndex_of_insertNewIblocks
    (hdone : b.insertNewIblocks sbi s ino n = some (s', b')) :
    b'.lastPageIndex ino = n % 2 ^ 32 := by
  unfold insertNewIblocks at hdone
  simp only at hdone
  split at hdone
  · cases hdone
  · split at hdone
    · cases hdone
    · obtain ⟨-, rfl⟩ := Prod.mk.inj (Option.some.inj hdone)
      exact if_pos rfl

/-- **Every completed call** has this effect. -/
theorem inserted_of_insertNewIblocks (h : b.LaidOut order) (hn : n < 2 ^ 32)
    (hdone : b.insertNewIblocks sbi s ino n = some (s', b')) :
    ∃ positions s1, newMetaIblocks sbi ino (n - b.lastPageIndex ino) s = some (positions, s1) ∧
      s' = { s1 with dirtyPagesCount := s1.dirtyPagesCount +
              (if ino.isTree then 2 ^ sbi.logBlocksInLeb else 1) * (n - b.lastPageIndex ino) } ∧
      Inserted sbi s b ino n positions s' b' := by
  have hsmall := h.checksum_lt
  have hend := fun f => h.endsAt.1 f
  have hadd : sizeofRecord * (n - b.lastPageIndex ino) % 2 ^ 64 = b.addSize ino n := by
    unfold addSize
    simp only [sizeofRecord_eq]
    omega
  have haddlt : b.addSize ino n < 2 ^ 36 := by
    unfold addSize
    simp only [sizeofRecord_eq]
    omega
  have hsize : b.tableSize ino = sizeofRecord * (b.lastPageIndex ino + 1) := rfl
  unfold insertNewIblocks at hdone
  simp only [h.vdfs4GetTable_eq, hadd, ← hsize, Nat.mod_eq_of_lt hsmall] at hdone
  split at hdone
  · cases hdone
  rcases hplaces : newMetaIblocks sbi ino (n - b.lastPageIndex ino) s with _ | ⟨positions, s1⟩
  · rw [hplaces] at hdone
    cases hdone
  rw [hplaces] at hdone
  obtain ⟨rfl, rfl⟩ := Prod.mk.inj (Option.some.inj hdone)
  obtain ⟨hlength, hfresh⟩ := newMetaIblocks_fresh hplaces
  refine ⟨positions, s1, rfl, rfl, hlength,
    ⟨hfresh.area, hfresh.apart, hfresh.set, hfresh.syncCount, hfresh.size⟩,
    ?_, fun f => ?_, fun f => ?_, ?_⟩
  · rw [Nat.mod_eq_of_lt (by omega : b.checksumOffset + b.addSize ino n < 2 ^ 64)]
  · simp only
    rw [Nat.mod_eq_of_lt hn]
  · have hf := hend f
    simp only
    rw [Nat.mod_eq_of_lt (by omega : b.translationTableOffsets f + b.addSize ino n < 2 ^ 64)]
  · have hino := hend ino
    simp only
    rw [hfresh.syncCount, show (b.checksumOffset + 2 ^ 64 -
      (b.translationTableOffsets ino + b.tableSize ino)) % 2 ^ 64 =
      b.checksumOffset - (b.translationTableOffsets ino + b.tableSize ino) by omega]

variable {positions : List Nat}

section

variable (hins : Inserted sbi s b ino n positions s' b')

include hins

/-- The size of each table behind a call. -/
theorem Inserted.tableSize_eq (hlt : b.lastPageIndex ino < n) (f : SpecialFile) :
    b'.tableSize f = b.tableSize f + if f = ino then b.addSize ino n else 0 := by
  unfold tableSize addSize
  rw [hins.last f]
  split
  · next heq =>
    subst heq
    simp only [sizeofRecord_eq]
    omega
  · rfl

/-- The size of several tables behind a call. -/
theorem Inserted.tablesSize_eq
    (hlt : b.lastPageIndex ino < n) {files : List SpecialFile} (hnodup : files.Nodup) :
    b'.tablesSize files = b.tablesSize files + if ino ∈ files then b.addSize ino n else 0 := by
  induction files with
  | nil => rfl
  | cons f files ih =>
    obtain ⟨hnot, hnodup⟩ := nodup_cons.mp hnodup
    rw [tablesSize_cons, tablesSize_cons, ih hnodup, hins.tableSize_eq hlt]
    by_cases heq : f = ino
    · subst heq
      rw [if_pos rfl, if_neg hnot, if_pos mem_cons_self]
      omega
    · have hmem : ino ∈ f :: files ↔ ino ∈ files := by simp [Ne.symm heq]
      simp only [if_neg heq, hmem]
      omega

/-- The end of the last table behind a call. -/
theorem Inserted.end_eq (h : b.LaidOut order) (hlt : b.lastPageIndex ino < n) :
    ∃ f, b'.translationTableOffsets f + b'.tableSize f = b.checksumOffset + b.addSize ino n := by
  obtain ⟨f, hf⟩ := h.endsAt.2
  refine ⟨f, ?_⟩
  rw [hins.offset, hins.tableSize_eq hlt]
  by_cases heq : f = ino
  · subst heq
    simp only [le_refl, if_true]
    omega
  -- the last table begins behind the others
  have hino := h.endsAt.1 ino
  have hpos := b.tableSize_pos ino
  have hbehind : b.translationTableOffsets ino < b.translationTableOffsets f := by
    rcases h.apart heq with hle | hle <;> omega
  rw [if_neg (by omega), if_neg heq]
  omega

end

/-- **A call keeps the layout** as long as the size is a 32-bit value. -/
theorem LaidOut.inserted (h : b.LaidOut order) (hlt : b.lastPageIndex ino < n)
    (hfits : b.checksumOffset + b.addSize ino n < 2 ^ 32)
    (hins : Inserted sbi s b ino n positions s' b') : b'.LaidOut order where
  perm := h.perm
  laid := by
    rw [laidFrom_iff]
    intro pre f post hsplit
    have hnodup := h.nodup
    rw [hsplit, nodup_append] at hnodup
    rw [hins.offset, hins.tablesSize_eq hlt hnodup.1]
    by_cases hpre : ino ∈ pre
    · -- `f` lies behind the table that grows
      obtain ⟨first, mid, hmid⟩ := append_of_mem hpre
      have hbehind := h.end_le_offset
        (show order = first ++ ino :: (mid ++ f :: post) by simp [hsplit, hmid])
        (show f ∈ mid ++ f :: post by simp)
      have hpos := b.tableSize_pos ino
      rw [if_neg (by omega), if_pos hpre, h.offset_eq hsplit, Nat.add_assoc]
    · have hle : b.translationTableOffsets f ≤ b.translationTableOffsets ino := by
        have hmem : ino ∈ order := h.perm.mem_iff.mpr (mem_all ino)
        rw [hsplit, mem_append, mem_cons] at hmem
        rcases hmem with hmem | rfl | hpost
        · exact absurd hmem hpre
        · exact le_rfl
        · have := h.end_le_offset hsplit hpost
          omega
      rw [if_pos hle, if_neg hpre, h.offset_eq hsplit, Nat.add_zero]
  checksum := by
    rw [hins.checksum, Nat.mod_eq_of_lt hfits, hins.tablesSize_eq hlt h.nodup,
      if_pos (h.perm.mem_iff.mpr (mem_all ino)), h.checksum, Nat.add_assoc]
  checksum_lt := by
    rw [hins.checksum]
    exact Nat.mod_lt _ (by decide)

/-- **The records of the other files, and the old ones of the file, stay.** -/
theorem Inserted.record_eq (hins : Inserted sbi s b ino n positions s' b') (h : b.LaidOut order)
    (h' : b'.LaidOut order) {i : Nat} (hi : i ≤ b.lastPageIndex f) :
    b'.record f i = b.record f i := by
  have hend := h.endsAt.1 f
  -- the record lies inside its table
  have hinside : sizeofRecord * i + sizeofRecord ≤ b.tableSize f := by
    unfold tableSize
    simp only [sizeofRecord_eq]
    omega
  have hnew : sizeofRecord * (b.lastPageIndex ino + 1 + positions.length) =
      b.tableSize ino + b.addSize ino n := by
    rw [hins.length, Nat.mul_add]
    rfl
  have hold : sizeofRecord * (b.lastPageIndex ino + 1) = b.tableSize ino := rfl
  rw [record, record, h.vdfs4GetTable_eq, h'.vdfs4GetTable_eq, hins.offset, hins.bytes]
  apply recordAt_congr
  intro k hk
  by_cases hle : b.translationTableOffsets f ≤ b.translationTableOffsets ino
  · -- before the end of the table that grows
    have hbefore : b.translationTableOffsets f + b.tableSize f ≤
        b.translationTableOffsets ino + b.tableSize ino := by
      by_cases heq : f = ino
      · rw [heq]
      · have hpos := b.tableSize_pos ino
        rcases h.apart heq with hap | hap <;> omega
    rw [if_pos hle, storeRecords_outside (.inl (by omega)), ByteMemory.memmove_outside
      (.inl (by omega))]
  · -- behind it: the bytes were moved
    have hbehind : b.translationTableOffsets ino + b.tableSize ino ≤
      b.translationTableOffsets f := by
      have hpos := b.tableSize_pos f
      rcases h.apart (fun heq : f = ino => hle (by rw [heq])) with hap | hap <;> omega
    rw [if_neg hle, storeRecords_outside (.inr (by omega))]
    obtain ⟨d, hd⟩ := Nat.exists_eq_add_of_le hbehind
    have hdst : b.translationTableOffsets f + b.addSize ino n + sizeofRecord * i + k =
        b.translationTableOffsets ino + b.tableSize ino + b.addSize ino n +
          (d + sizeofRecord * i + k) := by omega
    have hsrc : b.translationTableOffsets f + sizeofRecord * i + k =
        b.translationTableOffsets ino + b.tableSize ino + (d + sizeofRecord * i + k) := by omega
    rw [hdst, hsrc]
    exact ByteMemory.memmove_inside (by omega)

theorem Inserted.record_new (hins : Inserted sbi s b ino n positions s' b') (h' : b'.LaidOut order)
    {i : Nat} (hi : i < positions.length) :
    b'.record ino (b.lastPageIndex ino + 1 + i) =
      ⟨positions[i] % 2 ^ 64, s.syncCount % 2 ^ 32, sbi.mountCounter % 2 ^ 32⟩ := by
  rw [record, h'.vdfs4GetTable_eq, hins.offset, if_pos le_rfl, hins.bytes]
  exact recordAt_storeRecords hi

end call

end BaseTableBuffer

end Vdfs4
