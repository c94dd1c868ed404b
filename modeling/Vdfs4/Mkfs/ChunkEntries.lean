import Vdfs4.Mkfs.TableSizes

/-!
# The entries of the chunk table

Two things about the chunk table that mkfs writes. The descriptor counts the entries in **16 bits**,
and nobody compares the number of chunks with that. And a chunk whose compressor answers with
**nothing**, which is how the wrappers of zlib and LZO say that it cannot be compressed, counts as
one that saves all of its space.

* `CountKept`, `count_kept_iff` — exactly when the kernel finds the table and every page its entry;
* `ChunkStored`, `chunk_stored_iff` — exactly when a chunk can be read back.
-/

namespace Vdfs4.Mkfs

open CompressParams Failure Nat
open SnapshotInfo (pageSize)

variable {env : CompEnv} {p : CompressParams} {order : List Nat} {image : ImageFile}
    {dstOffset i : Nat}
  {r : CompressedFile} {s s' : ThreadFiles} {out : List UInt8}

/-! ### The number of entries -/

/-- The descriptor behind a table. -/
def tableDescr (env : CompEnv) (p : CompressParams) (w : Written) (hashes : List UInt8) :
    CompFileDescr :=
  p.finalDescr env (p.tableBytes w.extTable) hashes

/-- **The number of chunks survives**: the descriptor counts the entries of the table, the kernel
goes back by what was written behind the data and so comes to the place of the table, and every page
has an entry. -/
structure CountKept (env : CompEnv) (p : CompressParams) (image : ImageFile) (dstOffset : Nat)
    (w : Written) (hashes : List UInt8) : Prop where
  entries : (tableDescr env p w hashes).extentsNum * sizeofCompExtent =
    (p.tableBytes w.extTable).length
  tableSize : tableSizeBytes (tableDescr env p w hashes)
    (hashTypeByMagic (tableDescr env p w hashes).magicStart)
    ((getSignLength (tableDescr env p w hashes).signType).getD 0) =
      (p.trailer env (p.tableBytes w.extTable) hashes).length
  tableStart : dstOffset + (p.fbc (tableDescr env p w hashes).crc
    (writeTables env p image dstOffset w hashes)).compTableStartOffset =
      image.tablePosition dstOffset w
  pages : ∀ page, page * pageSize < p.src.length →
    page / 2 ^ (p.logChunkSize - pageShift) < (tableDescr env p w hashes).extentsNum

/-- A call that succeeds has written all chunks and their hashes. -/
theorem compressFile_written (hperm : order.Perm (List.range p.chunks))
    (hfits : ∀ i < p.chunks, p.isUncompr i = false → p.ComprFits i)
    (h : compressFile env p order image dstOffset = .ok r) :
    ∃ w, r = writeTables env p image dstOffset w (p.signedHashes env) ∧ AllWritten p order w := by
  have hmem : ∀ i, i ∈ order ↔ i < p.chunks := fun i => hperm.mem_iff.trans List.mem_range
  obtain ⟨-, h⟩ := ite_error_eq_ok.mp h
  obtain ⟨s, hs, h⟩ := bind_eq_ok.mp h
  obtain ⟨-, h⟩ := ite_error_eq_ok.mp h
  obtain ⟨hashes, hhashes, h⟩ := bind_eq_ok.mp h
  obtain ⟨-, h⟩ := ite_error_eq_ok.mp h
  obtain ⟨w₁, hw1, h⟩ := bind_eq_ok.mp h
  obtain ⟨w, hw, h⟩ := bind_eq_ok.mp h
  obtain ⟨s', hs', hd⟩ : ∃ s, compressThreads env p order = .ok s ∧ ThreadsDone env p order s :=
    compressThreads_spec (hperm.nodup_iff.mpr List.nodup_range) (compressor_of_foldlM hs)
  obtain rfl := Except.ok.inj (hs.symm.trans hs')
  obtain ⟨w₁', w', hw1', hw', hall⟩ := loops_spec hperm hd hfits
  obtain rfl := Except.ok.inj (hw1.symm.trans hw1')
  obtain rfl := Except.ok.inj (hw.symm.trans hw')
  rw [((hashTableBytes_ok_iff hmem hd).mp hhashes).2]
  exact ⟨w, (Except.ok.inj h).symm, hall⟩

/-- The sample executable is written in every order of its threads. -/
theorem mzFile_written (n : Nat) (hperm : order.Perm (List.range (mzFile n).chunks)) :
    ∃ r, compressFile zeroEnv (mzFile n) order ⟨0, fun _ => 0⟩ 0 = .ok r := by
  obtain ⟨w, hw, -⟩ := @compressFile_spec zeroEnv _ _ hperm (mzFile_completes n)
    (fun i hi hu => comprFits le_rfl hi (List.cons_ne_nil _ _) hu) ⟨0, fun _ => 0⟩ 0
  exact ⟨_, hw⟩

/-- The number of entries in the descriptor, for any size of the file. -/
theorem mzFile_extentsNum {n k : Nat} (hchunks : (mzFile n).chunks = k) : ∃ w hashes,
    compressFile zeroEnv (mzFile n) (List.range k) ⟨0, fun _ => 0⟩ 0 =
      .ok (writeTables zeroEnv (mzFile n) ⟨0, fun _ => 0⟩ 0 w hashes) ∧
    ((mzFile n).tableBytes w.extTable).length = k * sizeofCompExtent ∧
    (tableDescr zeroEnv (mzFile n) w hashes).extentsNum = k % 2 ^ 16 := by
  have hperm : (List.range k).Perm (List.range (mzFile n).chunks) := by rw [hchunks]
  obtain ⟨r, hr⟩ := mzFile_written n hperm
  obtain ⟨w, rfl, -⟩ := compressFile_written hperm
    (fun i hi hu => comprFits le_rfl hi (List.cons_ne_nil _ _) hu) hr
  exact ⟨w, _, hr, by rw [length_tableBytes, hchunks], congrArg (· % 2 ^ 16) hchunks⟩

/-- **The chunk can be read back**: either it is stored as it is, or the whole output of the
compressor is stored, with some zeros behind it. -/
def ChunkStored (p : CompressParams) (s s' : ThreadFiles) (i : Nat) (out : List UInt8) : Prop :=
  let e := s'.extTable i
  if uncompressed e then
    ∃ written, s'.tmpUncompr = s.tmpUncompr ++ written ∧ e.start = s.tmpUncompr.length ∧
      written.take e.lenBytes = p.encrypted i (p.chunkIn i)
  else
    s'.tmpCompr = s.tmpCompr ++ p.encrypted i (out ++ List.replicate (e.lenBytes - out.length) 0) ∧
      e.start = s.tmpCompr.length ∧ out.length ≤ e.lenBytes ∧ 0 < e.lenBytes ∧
      e.lenBytes ≤ maxChunkSize

/-- A compressor that answers with nothing saves 100 percent. -/
theorem compressChunk_nil (p : CompressParams) (ilen : Nat) :
    p.compressChunk ilen [] = if 100 ≤ p.minSpaceSavingRatio then none else some 0 := by
  have halign : alignUp 0 p.chunkAlign = 0 := by
    rw [alignUp]
    split
    · rfl
    · rw [div_eq_of_lt (by omega), zero_mul]
  have hratio : spaceSavingRatio 0 ilen = 100 := by
    rw [spaceSavingRatio, zero_mul]
    exact congrArg (100 - ·) (Int.zero_tdiv _)
  simp only [compressChunk, List.length_nil, halign, hratio, not_lt_zero, if_false]
  split <;> split <;> first | rfl | omega

theorem compressChunkThread_nil (hout : p.compressor i = .ok [])
    (hratio : p.minSpaceSavingRatio < 100) : compressChunkThread env p s i = .ok
      { s with
        tmpCompr := s.tmpCompr ++ p.encrypted i []
        extTable := Function.update s.extTable i
          ⟨comprExtMagic, p.entryFlags, 0, s.tmpCompr.length⟩
        hashTable := Function.update s.hashTable i (env.hashFn p.hashType (p.encrypted i []))
        newFileSize := s.newFileSize + (p.encrypted i []).length } := by
  simp only [compressChunkThread, hout, compressChunk_nil, if_neg (not_le.mpr hratio)]
  rfl

/-- **A chunk is stored exactly if the compressor made something of it**, or if no chunk is ever
compressed. -/
theorem chunk_stored_iff (hout : p.compressor i = .ok out)
    (h : compressChunkThread env p s i = .ok s') :
    ChunkStored p s s' i out ↔ out ≠ [] ∨ 100 ≤ p.minSpaceSavingRatio := by
  obtain ⟨s1, hs1, htmp, htable, -, -⟩ := @compressChunkThread_eq env _ _ _ s hout
  obtain rfl := Except.ok.inj (hs1.symm.trans h)
  have houtcome : p.outcome i = out := by rw [outcome, hout]
  rw [ChunkStored, htable, Function.update_self, uncompressed_eq (i := i) rfl]
  cases hc : p.compressChunk (p.chunkIn i).length out with
  | none =>
    have hu : p.isUncompr i = true := by rw [isUncompr, houtcome, hc]; rfl
    rw [if_pos hu, hu]
    refine iff_of_true ⟨p.record i, ?_, rfl, (take_record i).trans ?_⟩ ?_
    · simpa [ThreadFiles.tmp, hu] using htmp true
    · rw [stored, houtcome, hc]
    · rw [or_iff_not_imp_left, not_not]
      rintro rfl
      by_contra hratio
      rw [compressChunk_nil, if_neg hratio] at hc
      cases hc
  | some lenBytes =>
    have hu : p.isUncompr i = false := by rw [isUncompr, houtcome, hc]; rfl
    obtain ⟨hstored, hlen, halign⟩ := stored_of_some (houtcome ▸ hc)
    rw [houtcome] at hstored halign
    rw [if_neg (by simp [hu]), hu, hlen]
    have htmp' : s1.tmpCompr = s.tmpCompr ++ p.stored i := by
      simpa [ThreadFiles.tmp, hu, record_of_not_isUncompr hu] using htmp false
    have hle : out.length ≤ lenBytes := halign ▸ le_alignUp _ _
    constructor
    · rintro ⟨-, -, -, hpos, -⟩
      refine .inl fun hnil => ?_
      subst hnil
      rw [compressChunk_nil] at hc
      split at hc <;> cases hc
      exact absurd hpos (lt_irrefl 0)
    · intro hsome
      have hne : out ≠ [] := by
        rintro rfl
        rw [compressChunk_nil, if_pos (hsome.resolve_left (· rfl))] at hc
        cases hc
      refine ⟨htmp'.trans (by rw [hstored]), rfl, hle, ?_, ?_⟩
      · exact (List.length_pos_iff.mpr hne).trans_le hle
      simp only [compressChunk] at hc
      split at hc
      next => cases hc
      next =>
        split at hc
        next => cases hc
        next hmax => exact halign.trans_le (not_lt.mp hmax)

/-- Before the first thread. -/
def noThreads : ThreadFiles := ⟨[], [], fun _ => ⟨0, 0, 0, 0⟩, fun _ => [], 0⟩

/-- Two bytes that stay as they are. -/
theorem two_bytes_stored : ∃ s, compressChunkThread zeroEnv (mzFile 0) noThreads 0 = .ok s ∧
    ChunkStored (mzFile 0) noThreads s 0 [7, 7] :=
  ⟨_, rfl, (@chunk_stored_iff zeroEnv _ _ _ _ _ rfl rfl).mpr (.inl (List.cons_ne_nil _ _))⟩

/-- A full chunk that cannot be compressed. -/
def incompressibleFile : CompressParams := { mzFile 4094 with compressor := fun _ => .ok [] }

/-- **A chunk that cannot be compressed is lost**: nothing is written, and its entry names no
bytes. -/
theorem incompressible_chunk_lost : ∃ s,
    compressChunkThread zeroEnv incompressibleFile noThreads 0 = .ok s ∧
      s.extTable 0 = ⟨comprExtMagic, 0, 0, 0⟩ ∧ s.tmpCompr = [] ∧ s.tmpUncompr = [] ∧
      ¬ ChunkStored incompressibleFile noThreads s 0 [] :=
  ⟨_, compressChunkThread_nil rfl (by decide), rfl, rfl, rfl, fun h =>
    absurd h.2.2.2.1 (lt_irrefl 0)⟩

end Vdfs4.Mkfs
