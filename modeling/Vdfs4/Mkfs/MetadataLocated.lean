import Vdfs4.Mkfs.Placement

/-!
# The kernel finds the metadata

Placement appends: each special file takes the next **region** of the metadata extent and
the next records of the table buffer. `Layout` says this of a list of regions, one call of
`place_on_volume_subsystem` adds a region to it (`Layout.place`), and everything the
kernel computes from the table follows from the layout.

* `Region`, `Layout` — the invariant of placement.
* `Layout.place`, `Layout.placeAll` — what one call and all calls of `main` preserve.
* `Layout.record?_eq` — the record of a chunk, read through the offsets of the header.
* `metadata_found_by_kernel` — writer and reader agree.
-/

namespace Vdfs4.Mkfs

open Nat hiding sum_append
open Option hiding map_map
open List MetadataSizes

/-! ### Sizes without overflow -/

/-- The number of chunks of a special file. -/
def chunkCount (file : SpecialFile) (size : Nat) : Nat :=
  if file.isTree then size else byteToBlock size

/-- Where the next file starts when the extent has `blockCount` blocks. -/
def alignedCount (k : Nat) (file : SpecialFile) (blockCount : Nat) : Nat :=
  if file.isTree then (blockCount + k - 1) / k * k else blockCount

/-- The blocks of the extent after a file was placed. -/
def nextCount (k blockCount : Nat) (file : SpecialFile × Nat) : Nat :=
  alignedCount k file.1 blockCount + blocksOf k file.1 file.2

variable {k size i : Nat} {file : SpecialFile} {regions : List Region} {sb sb' : MkfsSb}
  {r : Region} {m : MetadataSizes}

theorem iblockSize_pos (hk : 0 < k) (file : SpecialFile) : 0 < iblockSize k file := by
  unfold iblockSize
  split <;> omega

theorem blocksOf_eq (k : Nat) (file : SpecialFile) (size : Nat) :
    blocksOf k file size = chunkCount file size * iblockSize k file := by
  unfold blocksOf chunkCount iblockSize
  split <;> simp

theorem le_alignedCount (hk : 0 < k) (file : SpecialFile) (blockCount : Nat) :
    blockCount ≤ alignedCount k file blockCount := by
  unfold alignedCount
  split
  · have hmod := mod_lt (blockCount + k - 1) hk
    have hdiv := div_add_mod' (blockCount + k - 1) k
    omega
  · exact le_refl _

theorem le_foldl_nextCount (hk : 0 < k) (files : List (SpecialFile × Nat)) (blockCount : Nat) :
    blockCount ≤ files.foldl (nextCount k) blockCount := by
  induction files generalizing blockCount with
  | nil => exact le_refl _
  | cons f files ih =>
    rw [foldl_cons]
    refine le_trans ?_ (ih _)
    exact le_trans (le_alignedCount hk f.1 blockCount) (le_add_right _ _)

theorem byteToBlock_pos {bytes : Nat} (h : bytes ≠ 0) : 0 < byteToBlock bytes := by
  unfold byteToBlock blockSize
  split <;> omega

/-- Without overflow the gap leads to the next multiple of the super page. -/
theorem add_alignGap (hk : 0 < k) {blockCount : Nat} (hsize : 0 < chunkCount file size)
    (hfit : nextCount k blockCount (file, size) < 2 ^ 32) :
    blockCount + alignGap k file blockCount = alignedCount k file blockCount := by
  simp only [nextCount] at hfit
  rw [blocksOf_eq] at hfit
  have hle := le_alignedCount hk file blockCount
  unfold alignGap alignedCount iblockSize at *
  split
  · rename_i htree
    simp only [htree, if_true] at hfit hle
    have hk' : k ≤ chunkCount file size * k := Nat.le_mul_of_pos_left k hsize
    have hmod := mod_lt (blockCount + k - 1) hk
    have hdiv := div_add_mod' (blockCount + k - 1) k
    rw [mod_eq_of_lt (show blockCount + k - 1 < 2 ^ 32 by omega)]
    have hgap : (blockCount + k - 1) / k * k + 2 ^ 32 - blockCount =
        (blockCount + k - 1) / k * k - blockCount + 2 ^ 32 := by omega
    rw [hgap, add_mod_right, mod_eq_of_lt (by omega)]
    omega
  · rfl

/-! ### The layout -/

/-- The part of the metadata extent that one special file takes. -/
structure Region where
  file : SpecialFile
  start : Nat
  count : Nat
deriving DecidableEq, Repr

/-- The block behind the region. -/
def Region.stop (k : Nat) (r : Region) : Nat := r.start + r.count * iblockSize k r.file

/-- The records of the region. -/
def Region.records (k : Nat) (r : Region) : List BaseTableRecord :=
  chunkRecords k r.file r.start r.count

@[simp] theorem Region.length_records (k : Nat) (r : Region) :
    (r.records k).length = r.count := by
  simp [Region.records, chunkRecords]

/-- The state after the files of `regions` were placed in this order. -/
structure Layout (k : Nat) (sb : MkfsSb) (regions : List Region) : Prop where
  files : (regions.map Region.file).Nodup
  records : sb.table.records = regions.flatMap (Region.records k)
  /-- the tables follow each other without gap -/
  offsets : ∀ l r l', regions = l ++ r :: l' →
    sb.table.translationTableOffsets r.file =
      sizeofBaseTable + sizeofRecord * (l.map Region.count).sum
  last : ∀ r ∈ regions, sb.table.lastPageIndex r.file + 1 = r.count
  unplaced : ∀ file ∉ regions.map Region.file, sb.table.lastPageIndex file = 0
  bufferSize : sb.bufferSize = sizeofBaseTable + sizeofRecord * (regions.map Region.count).sum
  ordered : regions.Pairwise fun a b => a.stop k ≤ b.start
  inside : ∀ r ∈ regions, r.stop k ≤ sb.metadataExtent.blockCount
  aligned : ∀ r ∈ regions, r.file.isTree = true → k ∣ r.start
  /-- the extent is empty until the first file gives it a place -/
  based : (regions = [] ∧ sb.metadataExtent = ⟨0, 0⟩) ∨ sb.metadataExtent.firstBlock ≠ 0

theorem layout_start (k : Nat) (spaceManager : SpaceManager) :
    Layout k (.start spaceManager) [] where
  files := nodup_nil
  records := rfl
  offsets := by simp
  last := by simp
  unplaced _ _ := rfl
  bufferSize := rfl
  ordered := .nil
  inside := by simp
  aligned := by simp
  based := .inl ⟨rfl, rfl⟩

/-- What a successful `place_on_volume_subsystem` did, when no 32 bit value overflows. The
new records lie at the aligned end of the extent. -/
theorem placeOnVolumeSubsystem_spec (hk : 0 < k) (hlayout : Layout k sb regions)
    (hsuper : regions = [] → ¬ sb.spaceManager.IsFree 0) (hsize : 0 < chunkCount file size)
    (hfit : nextCount k sb.metadataExtent.blockCount (file, size) < 2 ^ 32)
    (h : placeOnVolumeSubsystem k sb file size = some (.ok sb')) :
    sb'.bufferSize = sb.bufferSize + sizeofRecord * chunkCount file size ∧
    sb'.table = {
      translationTableOffsets :=
        Function.update sb.table.translationTableOffsets file sb.bufferSize
      lastPageIndex := Function.update sb.table.lastPageIndex file (chunkCount file size - 1)
      records := sb.table.records ++ chunkRecords k file
        (alignedCount k file sb.metadataExtent.blockCount) (chunkCount file size) } ∧
    sb'.metadataExtent.blockCount = nextCount k sb.metadataExtent.blockCount (file, size) ∧
    sb'.metadataExtent.firstBlock ≠ 0 := by
  have hgap := add_alignGap hk hsize hfit
  have hsz := iblockSize_pos hk file
  have hpos := mul_pos hsize hsz
  simp only [nextCount] at hfit ⊢
  have hblocks : blocksOf k file size % 2 ^ 32 = blocksOf k file size :=
    mod_eq_of_lt (by omega)
  have hchunks : blocksOf k file size / iblockSize k file = chunkCount file size := by
    rw [blocksOf_eq, Nat.mul_div_cancel _ hsz]
  unfold placeOnVolumeSubsystem at h
  simp only [hblocks, hchunks] at h
  split at h
  · cases h
  rename_i hroom
  -- the reallocated buffer holds all records, so its size did not wrap
  have hnew : (sb.bufferSize + sizeofRecord * chunkCount file size % 2 ^ 32) % 2 ^ 32 =
      sb.bufferSize + sizeofRecord * chunkCount file size := by
    omega
  split at h
  · cases h
  rename_i startBlock spaceManager halloc
  split at h
  · cases h
  rename_i hassert
  cases h
  have hlength : 0 < (blocksOf k file size +
      alignGap k file sb.metadataExtent.blockCount) % 2 ^ 32 := by
    rw [mod_eq_of_lt (by omega)]
    rw [blocksOf_eq]
    omega
  -- the file starts where the extent ended
  have hstart : (if sb.metadataExtent.firstBlock = 0 then startBlock
        else sb.metadataExtent.firstBlock) ≠ 0 ∧
      startBlock - (if sb.metadataExtent.firstBlock = 0 then startBlock
        else sb.metadataExtent.firstBlock) = sb.metadataExtent.blockCount := by
    rcases hlayout.based with ⟨hnil, hempty⟩ | hbased
    · have hfree := getFreeSpace_any_isFree hlength
        (show getFreeSpace sb.spaceManager addrAny _ = some (startBlock, spaceManager) by
          rw [hempty] at halloc ⊢
          exact halloc)
      have hne : startBlock ≠ 0 := fun h0 => hsuper hnil (h0 ▸ hfree)
      simp [hempty, hne]
    · have hend : sb.metadataExtent.firstBlock + sb.metadataExtent.blockCount = startBlock :=
        not_not.mp fun hne => hassert ⟨hbased, hne⟩
      rw [if_neg hbased]
      exact ⟨hbased, by omega⟩
  have hlast : (chunkCount file size + 2 ^ 32 - 1) % 2 ^ 32 = chunkCount file size - 1 := by
    have hcount : chunkCount file size ≤ blocksOf k file size := by
      rw [blocksOf_eq]
      exact Nat.le_mul_of_pos_right _ hsz
    rw [show chunkCount file size + 2 ^ 32 - 1 = chunkCount file size - 1 + 2 ^ 32 by omega,
      add_mod_right, mod_eq_of_lt (by omega)]
  refine ⟨hnew, ?_, ?_, hstart.1⟩
  · rw [hstart.2, hgap, hlast]
  · show (sb.metadataExtent.blockCount + (blocksOf k file size +
      alignGap k file sb.metadataExtent.blockCount)) % 2 ^ 32 = _
    rw [mod_eq_of_lt (by omega)]
    omega

/-- Where a file will be placed. -/
def regionOf (k blockCount : Nat) (file : SpecialFile × Nat) : Region :=
  ⟨file.1, alignedCount k file.1 blockCount, chunkCount file.1 file.2⟩

theorem stop_regionOf (k blockCount : Nat) (file : SpecialFile × Nat) :
    (regionOf k blockCount file).stop k = nextCount k blockCount file := by
  simp [regionOf, Region.stop, nextCount, blocksOf_eq]

section

variable (hk : 0 < k) (hlayout : Layout k sb regions)
  (hsuper : regions = [] → ¬ sb.spaceManager.IsFree 0)

include hk hlayout hsuper

/-- One call of `place_on_volume_subsystem` adds a region behind the others. -/
theorem Layout.place (hnew : file ∉ regions.map Region.file) (hsize : 0 < chunkCount file size)
    (hfit : nextCount k sb.metadataExtent.blockCount (file, size) < 2 ^ 32)
    (h : placeOnVolumeSubsystem k sb file size = some (.ok sb')) :
    Layout k sb' (regions ++ [regionOf k sb.metadataExtent.blockCount (file, size)]) ∧
      sb'.metadataExtent.blockCount = nextCount k sb.metadataExtent.blockCount (file, size) := by
  obtain ⟨hbuffer, htable, hcount, hfirst⟩ :=
    placeOnVolumeSubsystem_spec hk hlayout hsuper hsize hfit h
  have hle : sb.metadataExtent.blockCount ≤ alignedCount k file sb.metadataExtent.blockCount :=
    le_alignedCount hk _ _
  have hother : ∀ r ∈ regions, r.file ≠ file := fun r hr heq =>
    hnew (heq ▸ mem_map_of_mem hr)
  refine ⟨?_, hcount⟩
  exact {
    files := by
      rw [map_append, nodup_append]
      refine ⟨hlayout.files, nodup_singleton _, ?_⟩
      rintro a ha b hb rfl
      obtain rfl : a = file := mem_singleton.mp hb
      exact hnew ha
    records := by
      rw [htable, flatMap_append, flatMap_singleton, ← hlayout.records]
      rfl
    offsets := by
      intro l r l' hsplit
      rw [htable]
      rcases l'.eq_nil_or_concat with rfl | ⟨l'', last, rfl⟩
      · obtain ⟨rfl, hr⟩ := append_inj' hsplit rfl
        obtain rfl := singleton_inj.mp hr
        exact (Function.update_self ..).trans hlayout.bufferSize
      · rw [concat_eq_append, ← cons_append, ← append_assoc] at hsplit
        obtain ⟨hregions, -⟩ := append_inj' hsplit rfl
        have hmem : r ∈ regions := by rw [hregions]; simp
        exact (Function.update_of_ne (hother r hmem) ..).trans (hlayout.offsets l r l'' hregions)
    last := by
      intro r hr
      rw [htable]
      rcases mem_append.mp hr with hr | hr
      · exact (congrArg (· + 1) (Function.update_of_ne (hother r hr) ..)).trans
          (hlayout.last r hr)
      · obtain rfl := mem_singleton.mp hr
        refine (congrArg (· + 1) (Function.update_self ..)).trans ?_
        exact Nat.sub_add_cancel hsize
    unplaced := by
      intro f hf
      rw [map_append, mem_append, not_or] at hf
      rw [htable]
      have hne : f ≠ file := fun heq => hf.2 (by simp [heq, regionOf])
      exact (Function.update_of_ne hne ..).trans (hlayout.unplaced f hf.1)
    bufferSize := by
      rw [hbuffer, hlayout.bufferSize]
      simp only [map_append, map_singleton, sum_append, sum_singleton]
      simp only [regionOf, Nat.mul_add, Nat.add_assoc]
    ordered := by
      rw [pairwise_append]
      refine ⟨hlayout.ordered, pairwise_singleton _ _, ?_⟩
      intro a ha b hb
      obtain rfl := mem_singleton.mp hb
      exact (hlayout.inside a ha).trans hle
    inside := by
      intro r hr
      rw [hcount]
      rcases mem_append.mp hr with hr | hr
      · have hin := hlayout.inside r hr
        exact hin.trans (hle.trans (le_add_right _ _))
      · obtain rfl := mem_singleton.mp hr
        exact (stop_regionOf ..).le
    aligned := by
      intro r hr htree
      rcases mem_append.mp hr with hr | hr
      · exact hlayout.aligned r hr htree
      · obtain rfl := mem_singleton.mp hr
        have htree' : file.isTree = true := htree
        simp only [regionOf, alignedCount, htree', if_true]
        exact dvd_mul_left _ _
    based := .inr hfirst }

/-- All placement calls: the regions follow the order of the files. -/
theorem Layout.placeAll {files : List (SpecialFile × Nat)}
    (hnodup : (regions.map Region.file ++ files.map Prod.fst).Nodup)
    (hsize : ∀ f ∈ files, 0 < chunkCount f.1 f.2)
    (hfit : files.foldl (nextCount k) sb.metadataExtent.blockCount < 2 ^ 32)
    (h : placeSubsystems k sb files = some (.ok sb')) :
    ∃ new : List Region, Layout k sb' (regions ++ new) ∧
      new.map (fun r => (r.file, r.count)) = files.map (fun f => (f.1, chunkCount f.1 f.2)) ∧
      sb'.metadataExtent.blockCount = files.foldl (nextCount k) sb.metadataExtent.blockCount := by
  induction files generalizing sb regions with
  | nil =>
    cases h
    exact ⟨[], by simpa using hlayout, rfl, rfl⟩
  | cons f files ih =>
    obtain ⟨file, size⟩ := f
    rw [placeSubsystems] at h
    split at h
    · rename_i sb1 hplace
      have hnew : file ∉ regions.map Region.file := by
        intro hmem
        rw [nodup_append] at hnodup
        exact hnodup.2.2 file hmem file (by simp) rfl
      have hfirst : nextCount k sb.metadataExtent.blockCount (file, size) < 2 ^ 32 := by
        refine lt_of_le_of_lt ?_ hfit
        rw [foldl_cons]
        exact le_foldl_nextCount hk _ _
      obtain ⟨hlayout1, hcount1⟩ := hlayout.place hk hsuper hnew
        (hsize _ mem_cons_self) hfirst hplace
      obtain ⟨new, hlayout', hnew', hcount'⟩ := ih hlayout1 (by simp)
        (by simpa [regionOf] using hnodup) (fun g hg => hsize g (mem_cons_of_mem _ hg))
        (by rw [hcount1]; exact hfit) h
      refine ⟨regionOf k sb.metadataExtent.blockCount (file, size) :: new, ?_, ?_, ?_⟩
      · simpa using hlayout'
      · simp [hnew', regionOf]
      · rw [hcount', hcount1, foldl_cons]
    · cases h
    · cases h

end

/-- The preallocation only makes the extent longer. -/
theorem Layout.preallocate {len : Nat} (hlayout : Layout k sb regions) (hne : regions ≠ [])
    (hfit : sb.metadataExtent.blockCount + len < 2 ^ 32)
    (h : placeOnVolumePreallocation sb len = some (.ok sb')) : Layout k sb' regions := by
  unfold placeOnVolumePreallocation at h
  split at h
  · cases h
  split at h
  · cases h
  cases h
  have hinside : ∀ r ∈ regions, r.stop k ≤ (sb.metadataExtent.blockCount + len) % 2 ^ 32 := by
    intro r hr
    rw [mod_eq_of_lt hfit]
    exact le_add_right_of_le (hlayout.inside r hr)
  have hbased := hlayout.based.resolve_left fun hempty => hne hempty.1
  exact { hlayout with inside := hinside, based := .inr hbased }

/-! ### Reading the table -/

/-- The records in front of a region are those of the regions in front of it. -/
theorem length_flatMap_records (k : Nat) (l : List Region) :
    (l.flatMap (Region.records k)).length = (l.map Region.count).sum := by
  simp [length_flatMap]

/-- The record of a chunk, read through the offset of its file in the header. -/
theorem Layout.record?_eq {l l' : List Region} (hlayout : Layout k sb (l ++ r :: l'))
    (hi : i < r.count) :
    sb.table.record? r.file i = some ⟨r.start + i * iblockSize k r.file, 1, 0⟩ := by
  have hoffset := hlayout.offsets l r l' rfl
  have hindex : (sizeofBaseTable + sizeofRecord * (l.map Region.count).sum + sizeofRecord * i -
      sizeofBaseTable) = sizeofRecord * ((l.map Region.count).sum + i) := by
    rw [mul_add]
    omega
  unfold TableBuffer.record? TableBuffer.recordAt
  rw [hoffset, hindex, if_pos ⟨by omega, mul_mod_right _ _⟩,
    Nat.mul_div_cancel_left _ (by decide), hlayout.records, flatMap_append,
    ← length_flatMap_records k, getElem?_append_right (le_add_right _ _),
    Nat.add_sub_cancel_left, flatMap_cons,
    getElem?_append_left (by rw [Region.length_records]; exact hi)]
  simp [Region.records, chunkRecords, hi]

/-- The same for a region given by membership. -/
theorem Layout.record?_of_mem (hlayout : Layout k sb regions) (hr : r ∈ regions)
    (hi : i < r.count) :
    sb.table.record? r.file i = some ⟨r.start + i * iblockSize k r.file, 1, 0⟩ := by
  obtain ⟨l, l', rfl⟩ := append_of_mem hr
  exact hlayout.record?_eq hi

/-- A chunk of a region ends inside the region. -/
theorem Region.chunk_le_stop (hi : i < r.count) :
    r.start + i * iblockSize k r.file + iblockSize k r.file ≤ r.stop k := by
  have h := mul_le_mul_right (iblockSize k r.file) (succ_le_of_lt hi)
  rw [succ_mul] at h
  unfold Region.stop
  omega

/-- Chunks of different regions, and different chunks of one region, do not meet. -/
theorem Layout.chunks_disjoint {a b : Region} {j : Nat} (hlayout : Layout k sb regions)
    (ha : a ∈ regions) (hb : b ∈ regions) (hi : i < a.count) (hj : j < b.count)
    (hne : (a.file, i) ≠ (b.file, j)) :
    a.start + i * iblockSize k a.file + iblockSize k a.file ≤
        b.start + j * iblockSize k b.file ∨
      b.start + j * iblockSize k b.file + iblockSize k b.file ≤
        a.start + i * iblockSize k a.file := by
  have hia := Region.chunk_le_stop (k := k) hi
  have hjb := Region.chunk_le_stop (k := k) hj
  by_cases hab : a = b
  · subst hab
    have hij : i ≠ j := fun h => hne (h ▸ rfl)
    rcases lt_or_gt_of_ne hij with hlt | hgt
    · have h := mul_le_mul_right (iblockSize k a.file) (succ_le_of_lt hlt)
      rw [succ_mul] at h
      exact .inl (by omega)
    · have h := mul_le_mul_right (iblockSize k a.file) (succ_le_of_lt hgt)
      rw [succ_mul] at h
      exact .inr (by omega)
  · -- the list is ordered, so one of the two regions lies in front of the other
    have horder : a.stop k ≤ b.start ∨ b.stop k ≤ a.start := by
      have hor : regions.Pairwise fun a b => a.stop k ≤ b.start ∨ b.stop k ≤ a.start :=
        hlayout.ordered.imp fun h => .inl h
      have : Std.Symm fun a b : Region => a.stop k ≤ b.start ∨ b.stop k ≤ a.start :=
        ⟨fun _ _ h => h.symm⟩
      exact hor.forall ha hb hab
    rcases horder with h | h
    · exact .inl (by omega)
    · exact .inr (by omega)

/-- The kernel reads a page of a special file from the block mkfs wrote it to. -/
theorem Layout.kernelBlock_eq {log : Nat} {size page : Nat} (hlayout : Layout (2 ^ log) sb regions)
    (hr : r ∈ regions) (hcount : r.count = chunkCount r.file size)
    (hpage : page < r.count * iblockSize (2 ^ log) r.file) :
    ∃ b, flushedBlock (2 ^ log) sb r.file size page = some b ∧
      kernelBlock log sb r.file page = .ok b := by
  have hk : 0 < 2 ^ log := Nat.two_pow_pos log
  have hinside := hlayout.inside r hr
  have hlast := hlayout.last r hr
  have hread : ∀ iblock < sb.metadataExtent.blockCount,
      getMetaBlock iblock 0 (metaExtents sb) = .ok (sb.metadataExtent.firstBlock + iblock) := by
    intro iblock hlt
    simp [metaExtents, getMetaBlock, hlt]
  cases htree : r.file.isTree with
  | true =>
    simp only [iblockSize, htree, if_true] at hpage
    have hchunk : page / 2 ^ log < r.count := Nat.div_lt_of_lt_mul (by rwa [Nat.mul_comm] at hpage)
    have hmod := mod_lt page hk
    have hstop := Region.chunk_le_stop (k := 2 ^ log) hchunk
    have hrecord := hlayout.record?_of_mem hr hchunk
    simp only [iblockSize, htree, if_true] at hstop hrecord
    have hsize : page / 2 ^ log < size := by
      rw [hcount] at hchunk
      simpa [chunkCount, htree] using hchunk
    refine ⟨sb.metadataExtent.firstBlock + (r.start + page / 2 ^ log * 2 ^ log + page % 2 ^ log),
      ?_, ?_⟩
    · rw [flushedBlock, if_pos htree, if_pos hsize, hrecord, map_some, some.injEq]
      dsimp only
      omega
    · have hindex : getTableIndex (kernelSbInfo log) r.file page = page / 2 ^ log := by
        simp [getTableIndex, htree, kernelSbInfo]
      have hle : ¬ sb.table.lastPageIndex r.file < page / 2 ^ log := by omega
      simp only [kernelBlock, hindex, hle, if_false, hrecord, htree, if_true]
      exact hread _ (by omega)
  | false =>
    simp only [iblockSize, htree, Bool.false_eq_true, if_false, mul_one] at hpage
    have hstop := Region.chunk_le_stop (k := 2 ^ log) hpage
    have hfirst := hlayout.record?_of_mem hr (zero_lt_of_lt hpage)
    have hrecord := hlayout.record?_of_mem hr hpage
    simp only [iblockSize, htree, Bool.false_eq_true, if_false, mul_one, add_zero]
      at hstop hfirst hrecord
    refine ⟨sb.metadataExtent.firstBlock + (r.start + page), ?_, ?_⟩
    · rw [flushedBlock, if_neg (by simp [htree]), if_pos (by omega), hfirst, map_some,
        some.injEq]
      dsimp only
      omega
    have hindex : getTableIndex (kernelSbInfo log) r.file page = page := by
      simp [getTableIndex, htree]
    have hle : ¬ sb.table.lastPageIndex r.file < page := by omega
    simp only [kernelBlock, hindex, hle, if_false, hrecord, htree, Bool.false_eq_true,
      add_zero]
    exact hread _ (by omega)

/-! ### The result -/

/-- The special files of an image with their numbers of chunks, in the order of
placement. -/
def MetadataSizes.chunks (m : MetadataSizes) (readOnlyImage : Bool) : List (SpecialFile × Nat) :=
  (m.files readOnlyImage).map fun f => (f.1, chunkCount f.1 f.2)

/-- The blocks of the metadata extent, with alignment gaps and preallocation. -/
def MetadataSizes.blocks (m : MetadataSizes) (readOnlyImage : Bool) (k : Nat) : Nat :=
  (m.files readOnlyImage).foldl (nextCount k) 0 + m.preallocation

/-- What the kernel relies on in a table that describes `files`, given with their numbers
of chunks. -/
structure Located (k : Nat) (files : List (SpecialFile × Nat)) (sb : MkfsSb) : Prop where
  /-- every chunk has a record, whose range lies inside the metadata extent -/
  inside : ∀ f n, (f, n) ∈ files → ∀ i < n, ∃ r, sb.table.record? f i = some r ∧
    r.metaIblock + iblockSize k f ≤ sb.metadataExtent.blockCount
  /-- ranges of different records are disjoint -/
  disjoint : ∀ f n g m, (f, n) ∈ files → (g, m) ∈ files → ∀ i < n, ∀ j < m, (f, i) ≠ (g, j) →
    ∀ r r', sb.table.record? f i = some r → sb.table.record? g j = some r' →
      r.metaIblock + iblockSize k f ≤ r'.metaIblock ∨
        r'.metaIblock + iblockSize k g ≤ r.metaIblock
  /-- records of trees are multiples of the blocks of a super page -/
  aligned : ∀ f n, (f, n) ∈ files → f.isTree = true → ∀ i < n, ∀ r,
    sb.table.record? f i = some r → k ∣ r.metaIblock
  /-- the last page index is the number of records minus one -/
  last : ∀ f n, (f, n) ∈ files → sb.table.lastPageIndex f + 1 = n
  /-- the tables follow each other without gap -/
  gapless : ∀ l f n l', files = l ++ (f, n) :: l' →
    sb.table.translationTableOffsets f =
      sizeofBaseTable + sizeofRecord * (l.map Prod.snd).sum
  bufferSize : sb.bufferSize = sizeofBaseTable + sizeofRecord * (files.map Prod.snd).sum

theorem Layout.located (hlayout : Layout k sb regions) :
    Located k (regions.map fun r => (r.file, r.count)) sb := by
  have hregion : ∀ f n, (f, n) ∈ regions.map (fun r => (r.file, r.count)) →
      ∃ r ∈ regions, r.file = f ∧ r.count = n := by
    intro f n h
    obtain ⟨r, hr, heq⟩ := mem_map.mp h
    exact ⟨r, hr, congrArg Prod.fst heq, congrArg Prod.snd heq⟩
  exact {
    inside := by
      intro f n hf i hi
      obtain ⟨r, hr, rfl, rfl⟩ := hregion f n hf
      exact ⟨_, hlayout.record?_of_mem hr hi,
        (Region.chunk_le_stop hi).trans (hlayout.inside r hr)⟩
    disjoint := by
      intro f n g m hf hg i hi j hj hne r r' hr hr'
      obtain ⟨a, ha, rfl, rfl⟩ := hregion f n hf
      obtain ⟨b, hb, rfl, rfl⟩ := hregion g m hg
      rw [hlayout.record?_of_mem ha hi, some.injEq] at hr
      rw [hlayout.record?_of_mem hb hj, some.injEq] at hr'
      subst hr hr'
      exact hlayout.chunks_disjoint ha hb hi hj hne
    aligned := by
      intro f n hf htree i hi r hr
      obtain ⟨a, ha, rfl, rfl⟩ := hregion f n hf
      rw [hlayout.record?_of_mem ha hi, some.injEq] at hr
      subst hr
      simp only [iblockSize, htree, if_true]
      exact (Nat.dvd_add_left (Nat.dvd_mul_left k i)).mpr (hlayout.aligned a ha htree)
    last := by
      intro f n hf
      obtain ⟨r, hr, rfl, rfl⟩ := hregion f n hf
      exact hlayout.last r hr
    gapless := by
      intro l f n l' hsplit
      obtain ⟨rl, rest, hregions, hl, hrest⟩ := map_eq_append_iff.mp hsplit
      obtain ⟨r, rl', rfl, hr, -⟩ := map_eq_cons_iff.mp hrest
      obtain ⟨rfl, -⟩ := Prod.mk.injEq .. ▸ hr
      rw [hlayout.offsets rl r rl' hregions, ← hl, map_map]
      rfl
    bufferSize := by
      rw [hlayout.bufferSize, map_map]
      rfl }

/-- The placement of `main` ends in a layout of all files. -/
theorem layout_placeMetadata {spaceManager : SpaceManager} (hk : 0 < k)
    (hsuper : ¬ spaceManager.IsFree 0) (hfit : m.blocks spaceManager.readOnlyImage k < 2 ^ 32)
    (h : placeMetadata k spaceManager m = some (.ok sb)) :
    ∃ regions, Layout k sb regions ∧
      regions.map (fun r => (r.file, r.count)) = m.chunks spaceManager.readOnlyImage := by
  unfold placeMetadata at h
  split at h
  · rename_i sb1 hplaced
    have hnodup : ((m.files spaceManager.readOnlyImage).map Prod.fst).Nodup := by
      unfold files
      cases spaceManager.readOnlyImage <;> simp
    have hsize : ∀ f ∈ m.files spaceManager.readOnlyImage, 0 < chunkCount f.1 f.2 := by
      have hspace : m.spaceBitmap.toNat ≠ 0 := fun h0 =>
        m.spaceBitmap_pos (UInt32.toNat_inj.mp h0)
      have hinode : m.inodeBitmap.toNat ≠ 0 := fun h0 =>
        m.inodeBitmap_pos (UInt32.toNat_inj.mp h0)
      have hcat := m.catTree_two
      have hext := m.extentsTree_two
      have hxattr := m.xattrTree_two
      have htrees : 0 < m.catTree ∧ 0 < m.extentsTree ∧ 0 < m.xattrTree := by omega
      unfold files
      cases spaceManager.readOnlyImage <;>
        simp [chunkCount, SpecialFile.isTree, byteToBlock_pos hspace, byteToBlock_pos hinode,
          htrees]
    unfold blocks at hfit
    have hplacedFit : (m.files spaceManager.readOnlyImage).foldl (nextCount k) 0 < 2 ^ 32 := by
      omega
    obtain ⟨regions, hlayout, hregions, hcount⟩ :=
      (layout_start k spaceManager).placeAll hk (fun _ => hsuper) (by simpa using hnodup) hsize
        hplacedFit hplaced
    have hne : regions ≠ [] := by
      rintro rfl
      have hlength := congrArg length hregions
      simp [files] at hlength
    refine ⟨regions, hlayout.preallocate hne ?_ h, hregions⟩
    rw [hcount]
    exact hfit
  · exact absurd h (by rename_i hno; intro heq; exact hno sb heq)

/-- The table size the kernel computes from the last indexes, in both kinds of image. -/
theorem Layout.kernelChecksumOffset_eq {readOnlyImage : Bool} (hlayout : Layout k sb regions)
    (hregions : regions.map (fun r => (r.file, r.count)) = m.chunks readOnlyImage) :
    kernelChecksumOffset sb.table =
      sb.bufferSize + (if readOnlyImage then 2 * sizeofRecord else 0) := by
  have hlocated := hlayout.located
  rw [hregions] at hlocated
  have hlast : ∀ f ∈ m.files readOnlyImage,
      sb.table.lastPageIndex f.1 + 1 = chunkCount f.1 f.2 := fun f hf =>
    hlocated.last _ _ (mem_map_of_mem hf)
  have hfiles : regions.map Region.file = (m.files readOnlyImage).map Prod.fst := by
    have h := congrArg (map Prod.fst) hregions
    simpa [chunks, map_map, Function.comp_def] using h
  rw [hlocated.bufferSize]
  unfold kernelChecksumOffset SpecialFile.all chunks
  cases readOnlyImage with
  | false =>
    have h1 := hlast (.spaceBitmap, m.spaceBitmap.toNat) (by simp [MetadataSizes.files])
    have h2 := hlast (.freeInodeBitmap, m.inodeBitmap.toNat) (by simp [MetadataSizes.files])
    have h3 := hlast (.catTree, m.catTree) (by simp [MetadataSizes.files])
    have h4 := hlast (.extentsTree, m.extentsTree) (by simp [MetadataSizes.files])
    have h5 := hlast (.xattrTree, m.xattrTree) (by simp [MetadataSizes.files])
    simp [MetadataSizes.files, h1, h2, h3, h4, h5, sizeofRecord]
    omega
  | true =>
    -- the two bitmaps were never placed, so their last index is still zero
    have h1 := hlayout.unplaced .spaceBitmap (by rw [hfiles]; simp [MetadataSizes.files])
    have h2 := hlayout.unplaced .freeInodeBitmap (by rw [hfiles]; simp [MetadataSizes.files])
    have h3 := hlast (.catTree, m.catTree) (by simp [MetadataSizes.files])
    have h4 := hlast (.extentsTree, m.extentsTree) (by simp [MetadataSizes.files])
    have h5 := hlast (.xattrTree, m.xattrTree) (by simp [MetadataSizes.files])
    simp [MetadataSizes.files, h1, h2, h3, h4, h5, sizeofRecord]
    omega

/-- **The kernel finds the metadata.** When block 0, the superblock, is taken and the
metadata has fewer than `2 ^ 32` blocks, a successful placement yields a table that
locates every special file; in a writable image the size of the table is the one the
kernel computes from the last indexes, in a read-only image, which has no bitmaps, that
computation counts a record for each of them; and the kernel reads every page from the
block mkfs wrote it to. -/
theorem metadata_found_by_kernel (log : Nat) (spaceManager : SpaceManager) (m : MetadataSizes)
    (sb : MkfsSb) (hsuper : ¬ spaceManager.IsFree 0)
    (hfit : m.blocks spaceManager.readOnlyImage (2 ^ log) < 2 ^ 32)
    (h : placeMetadata (2 ^ log) spaceManager m = some (.ok sb)) :
    Located (2 ^ log) (m.chunks spaceManager.readOnlyImage) sb ∧
    kernelChecksumOffset sb.table = sb.bufferSize +
      (if spaceManager.readOnlyImage then 2 * sizeofRecord else 0) ∧
    ∀ f size, (f, size) ∈ m.files spaceManager.readOnlyImage →
      ∀ page < blocksOf (2 ^ log) f size, ∃ b,
        flushedBlock (2 ^ log) sb f size page = some b ∧ kernelBlock log sb f page = .ok b := by
  obtain ⟨regions, hlayout, hregions⟩ :=
    layout_placeMetadata (Nat.two_pow_pos log) hsuper hfit h
  have hlocated := hlayout.located
  rw [hregions] at hlocated
  refine ⟨hlocated, ?_, ?_⟩
  · exact hlayout.kernelChecksumOffset_eq hregions
  intro f size hf page hpage
  have hmem : (f, chunkCount f size) ∈ regions.map fun r => (r.file, r.count) := by
    rw [hregions]
    exact mem_map.mpr ⟨(f, size), hf, rfl⟩
  obtain ⟨r, hr, heq⟩ := mem_map.mp hmem
  obtain ⟨rfl, hcount⟩ := Prod.mk.injEq .. ▸ heq
  rw [blocksOf_eq, ← hcount] at hpage
  exact hlayout.kernelBlock_eq hr hcount hpage

/-! ### A read-only image -/

/-- The smallest trees: a head bnode and a root bnode each. -/
def smallTrees : MetadataSizes :=
  ⟨4096, 4096, 2, 2, 2, 0, by decide, by decide, by decide, by decide, by decide⟩

/-- A read-only image whose first 100 blocks are taken. -/
def readOnlySpace : SpaceManager := ⟨true, false, 0, 100, [], fun _ => false, 0⟩

/-- A writable image of 1000 blocks whose first 16 blocks are taken. -/
def writableSpace : SpaceManager :=
  ⟨false, false, 0, 0, [⟨16, 984⟩], fun b => decide (b < 16), 984⟩

/-- The two table sizes after a successful placement. -/
def tableSizes (r : Option (Except Errno MkfsSb)) : Option (Nat × Nat) :=
  r.bind fun r => r.toOption.map fun sb => (sb.bufferSize, kernelChecksumOffset sb.table)

theorem exists_of_tableSizes {r : Option (Except Errno MkfsSb)} {a b : Nat}
    (h : tableSizes r = some (a, b)) :
    ∃ sb, r = some (.ok sb) ∧ sb.bufferSize = a ∧ kernelChecksumOffset sb.table = b := by
  rcases r with _ | (err | sb)
  · cases h
  · cases h
  · simp only [tableSizes, bind_some, Except.toOption, map_some, some.injEq,
      Prod.mk.injEq] at h
    exact ⟨sb, rfl, h⟩

/-- A small writable image fulfils the hypotheses of the theorem. -/
theorem metadata_found_in_small_image :
    ¬ writableSpace.IsFree 0 ∧ smallTrees.blocks false (2 ^ 1) < 2 ^ 32 ∧
    ∃ sb, placeMetadata (2 ^ 1) writableSpace smallTrees = some (.ok sb) ∧
      Located (2 ^ 1) (smallTrees.chunks false) sb ∧
      kernelChecksumOffset sb.table = sb.bufferSize := by
  have hsuper : ¬ writableSpace.IsFree 0 := by
    simp [SpaceManager.IsFree, writableSpace]
  have hfit : smallTrees.blocks false (2 ^ 1) < 2 ^ 32 := by decide +kernel
  obtain ⟨sb, hplaced, -⟩ : ∃ sb,
      placeMetadata (2 ^ 1) writableSpace smallTrees = some (.ok sb) ∧ sb.bufferSize = 232 ∧
        kernelChecksumOffset sb.table = 232 :=
    exists_of_tableSizes (by decide +kernel)
  obtain ⟨hlocated, hsize, -⟩ :=
    metadata_found_by_kernel 1 writableSpace smallTrees sb hsuper hfit hplaced
  exact ⟨hsuper, hfit, sb, hplaced, hlocated, hsize⟩

/-- In a read-only image the checksum lies 32 bytes in front of the place the kernel's
formula gives. -/
theorem read_only_table_size_differs :
    ∃ sb, placeMetadata (2 ^ 1) readOnlySpace smallTrees = some (.ok sb) ∧
      sb.bufferSize = 200 ∧ kernelChecksumOffset sb.table = 232 :=
  exists_of_tableSizes (by decide +kernel)

end Vdfs4.Mkfs
