import Vdfs4.Compress.SignedContent

/-!
# The bounds of the reader

The size of the file, the size of a chunk, the number of entries and each entry come from the disk.
The reader computes from them the **index of a chunk**, the place of its entry, and the number of
blocks that it reads through an array of page pointers. Nobody compares the size of the file with
the number of entries, or the length in an entry with the size of a chunk.

* `ReadsWithin` — a page is read without leaving the table, a mapped page or the array;
* `SafeTable` — what the descriptor and the entries have to be like;
* `reads_within_iff` — exactly then every page is read so.
-/

namespace Vdfs4

open SnapshotInfo (pageSize)

namespace Fbc

/-- The number of pages of the file, `(i_size + PAGE_SIZE - 1) >> PAGE_SHIFT`. -/
def filePages (fbc : Fbc) : Nat := (fbc.iSize + pageSize - 1) % 2 ^ 64 / pageSize

/-- `comp_extent_idx` of a page: an `int` that `__get_chunk_extent` takes as a `pgoff_t`. A shift by
a wrong amount gives none. -/
def compExtentIdx (fbc : Fbc) (index : Nat) : Option Nat :=
  if fbc.logChunkSize < pageShift ∨ 64 ≤ fbc.logChunkSize - pageShift then none
  else
    let n := index / fbc.chunkPages % 2 ^ 32
    some (if n < 2 ^ 31 then n else n + 2 ^ 64 - 2 ^ 32)

/-- `pages_count`: the pointers that `vdfs4_readpage_tuned_sw` allocates. -/
def pagesCount (fbc : Fbc) : Option Nat :=
  if fbc.logChunkSize < pageShift ∨ 31 ≤ fbc.logChunkSize - pageShift then none
  else some (fbc.chunkPages + 1)

end Fbc

/-- The entry of a chunk. -/
def CompFile.entry (f : CompFile) (fbc : Fbc) (chunkIdx : Nat) : CompExtent :=
  CompExtent.readAt f.bytes (fbc.compTableStartOffset + chunkIdx * sizeofCompExtent)

/-- `__get_chunk_extent` fails, or yields a number of blocks for which there are pointers. -/
def ExtentWithin (f : CompFile) (fbc : Fbc) (chunkIdx count : Nat) : Prop :=
  match getChunkExtent f fbc chunkIdx with
  | .error .undefined => False
  | .error (.errno _) => True
  | .ok _ => 0 ≤ (f.entry fbc chunkIdx).blocksN ∧ (f.entry fbc chunkIdx).blocksN ≤ count

/-- **A page is read within bounds.** -/
def ReadsWithin (f : CompFile) (fbc : Fbc) (index : Nat) : Prop :=
  ∃ chunkIdx count, fbc.compExtentIdx index = some chunkIdx ∧ fbc.pagesCount = some count ∧
    chunkIdx < fbc.compExtentsN ∧
    fbc.compTableStartOffset + chunkIdx * sizeofCompExtent + sizeofCompExtent ≤ f.compSize ∧
    ExtentWithin f fbc chunkIdx count

/-- An entry in one page, which is refused or names at most one page more than a chunk has. -/
def SafeEntry (f : CompFile) (fbc : Fbc) (i : Nat) : Prop :=
  (fbc.compTableStartOffset + i * sizeofCompExtent) % pageSize + sizeofCompExtent ≤ pageSize ∧
    (f.profiled = false ∧ (f.entry fbc i).magic ≠ comprExtMagic ∨
      2 ^ 31 ≤ (f.entry fbc i).lenBytes ∨
      (f.entry fbc i).start % pageSize + (f.entry fbc i).lenBytes ≤ (fbc.chunkPages + 1) * pageSize)

instance (f : CompFile) (fbc : Fbc) (i : Nat) : Decidable (SafeEntry f fbc i) :=
  inferInstanceAs (Decidable (_ ∧ _))

/-- **The fields that keep the reader within bounds.** -/
structure SafeTable (f : CompFile) (fbc : Fbc) : Prop where
  logChunkSize : ¬ (fbc.logChunkSize < pageShift ∨ 31 ≤ fbc.logChunkSize - pageShift)
  size : fbc.filePages ≤ fbc.compExtentsN * fbc.chunkPages
  entries : ∀ i, i * fbc.chunkPages < fbc.filePages → SafeEntry f fbc i

variable {env : CompEnv} {f : CompFile} {fbc : Fbc} {i : Nat}

section

variable (h : initFileDecompression env f = .ok fbc)

include h

/-- The table lies in the file and its pages could be read. -/
theorem table_read : ∃ size, fbc.compExtentsN * sizeofCompExtent ≤ size ∧ size ≤ f.compSize ∧
      fbc.compTableStartOffset = f.compSize - size ∧
      f.readRange (f.compSize - size) size = .ok () := by
  simp only [initFileDecompression, Failure.bind_eq_ok] at h
  obtain ⟨⟨d, ct⟩, -, h⟩ := h
  split at h
  · cases h
  · simp only [Failure.bind_eq_ok, Failure.ite_error_eq_ok] at h
    obtain ⟨hsize, _, hread, _, -, _, -, hret⟩ := h
    cases hret
    exact ⟨_, Nat.le_add_right_of_le (Nat.le_add_right _ _), Nat.le_of_not_lt hsize, rfl, hread⟩

/-- So the page of an entry is mapped. -/
theorem readCompPages_entry (hi : i < fbc.compExtentsN) :
    fbc.compTableStartOffset + i * sizeofCompExtent + sizeofCompExtent ≤ f.compSize ∧
      f.readCompPages ((fbc.compTableStartOffset + i * sizeofCompExtent) / pageSize)
      1 = .ok () := by
  obtain ⟨size, hentries, hle, hstart, hread⟩ := table_read h
  have hend : i * sizeofCompExtent + sizeofCompExtent ≤ fbc.compExtentsN * sizeofCompExtent := by
    rw [← Nat.succ_mul]
    exact Nat.mul_le_mul_right _ hi
  have h16 : sizeofCompExtent = 16 := rfl
  refine ⟨by omega, ?_⟩
  rw [CompFile.readRange, CompFile.readCompPages] at hread
  split at hread
  swap
  · cases hread
  next hall =>
    rw [List.all_eq_true] at hall
    have hk := hall ((fbc.compTableStartOffset + i * sizeofCompExtent) / pageSize -
      (f.compSize - size) / pageSize) (List.mem_range.mpr (by
        rw [hstart, show pageSize = 4096 from rfl]
        omega))
    rw [Nat.add_sub_cancel' (Nat.div_le_div_right (by omega))] at hk
    rw [CompFile.readCompPages, if_pos]
    simpa using hk

/-- What an entry has to be like. -/
theorem extentWithin_iff (hi : i < fbc.compExtentsN) :
    ExtentWithin f fbc i (fbc.chunkPages + 1) ↔ SafeEntry f fbc i := by
  have hread := (readCompPages_entry h hi).2
  rw [ExtentWithin, getChunkExtent, hread, SafeEntry, ← CompFile.entry]
  by_cases hstraddle : pageSize < (fbc.compTableStartOffset + i * sizeofCompExtent) % pageSize +
      sizeofCompExtent
  · rw [if_pos hstraddle]
    exact iff_of_false id fun hsafe => absurd hsafe.1 (Nat.not_le.mpr hstraddle)
  rw [if_neg hstraddle, and_iff_right (Nat.le_of_not_lt hstraddle)]
  by_cases hmagic : f.profiled = false ∧ (f.entry fbc i).magic ≠ comprExtMagic
  · rw [if_pos hmagic]
    exact iff_of_true trivial (.inl hmagic)
  rw [if_neg hmagic, or_iff_right hmagic]
  by_cases hlen : 2 ^ 31 ≤ (f.entry fbc i).lenBytes
  · rw [if_pos hlen]
    exact iff_of_true trivial (.inl hlen)
  rw [if_neg hlen, or_iff_right hlen]
  change 0 ≤ (f.entry fbc i).blocksN ∧ (f.entry fbc i).blocksN ≤ _ ↔ _
  have hstart : (f.entry fbc i).start < 2 ^ 64 := ByteMemory.loadLE_lt
  rw [CompExtent.blocksN_eq hstart (Nat.lt_of_not_le hlen), show pageSize = 4096 from rfl]
  omega

end

/-- The descriptor of a file without hashes, in chunks of a page. -/
def plainDescr (unpackedSize extentsNum : Nat) : CompFileDescr :=
  { smallDescr with signType := 0, magicStart := comprDescrStart, unpackedSize, extentsNum }

/-- Such a file: only its table, whose entries name ranges from the start of the file on. -/
def plainCompFile (unpackedSize : Nat) (lengths : List Nat) : CompFile :=
  { smallCompFile 0 with
    compSize := 16 * lengths.length + 40
    bytes := fun i => ((lengths.flatMap (fun n => CompExtent.toBytes ⟨comprExtMagic, 0, n, 0⟩) ++
      (plainDescr unpackedSize lengths.length).toBytes)[i]?).getD 0 }

end Vdfs4
