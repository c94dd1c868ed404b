import Vdfs4.Mkfs.CompressRun

/-!
# Sizes of chunks and tables

How long the chunks are that `compress_file` stores, and how much the **kernel** goes back from the
end of the area to come to the chunk table. mkfs writes as many bytes of signature as the key has,
while the descriptor knows two lengths of keys only.

* `CompressParams.comprFits` — a compressed chunk fits into the pages of a chunk.
* `CompressParams.fbc` — what the kernel keeps of the file.
* `compTableStartOffset_add` — where the table starts for the kernel.
-/

namespace Vdfs4.Mkfs

open Nat ByteMemory CompFileDescr List
open CompressParams (trailer signedHashes chunkSize tableBytes hashBytes le_alignUp)

/-! ### Sizes of the chunks -/

namespace CompressParams

variable {p : CompressParams} {i lenBytes : Nat}

theorem chunkSize_pos (p : CompressParams) : 0 < p.chunkSize := Nat.two_pow_pos _

/-- The chunks are those that begin inside the source. -/
theorem lt_chunks_iff : i < p.chunks ↔ i * p.chunkSize < p.src.length := by
  rw [chunks, lt_div_iff_mul_lt p.chunkSize_pos]
  have hpos := p.chunkSize_pos
  constructor <;> intro h <;> omega

theorem length_chunkIn (i : Nat) :
    (p.chunkIn i).length = min p.chunkSize (p.src.length - i * p.chunkSize) := by
  rw [chunkIn, length_take, length_drop]

theorem length_chunkIn_le (i : Nat) : (p.chunkIn i).length ≤ p.chunkSize := by
  rw [length_chunkIn]
  exact min_le_left _ _

theorem length_chunkIn_pos (h : i < p.chunks) : 0 < (p.chunkIn i).length := by
  rw [lt_chunks_iff] at h
  have hpos := p.chunkSize_pos
  rw [length_chunkIn]
  omega

/-- The alignment of chunks divides every size of chunks. -/
theorem chunkAlign_dvd (h : 12 ≤ p.logChunkSize) :
    p.chunkAlign = 0 ∨ p.chunkAlign ∣ p.chunkSize := by
  have h64 : 64 ∣ p.chunkSize := by
    rw [show (64 : Nat) = 2 ^ 6 from rfl, chunkSize]
    exact pow_dvd_pow 2 (by omega)
  have h16 : 16 ∣ p.chunkSize := dvd_trans (by decide) h64
  have hcases : p.chunkAlign = 0 ∨ p.chunkAlign = 16 ∨ p.chunkAlign = 64 := by
    rw [chunkAlign]
    cases p.doEncrypt <;> cases p.comprType <;> decide
  obtain h0 | h0 | h0 := hcases
  · exact .inl h0
  · exact .inr (h0 ▸ h16)
  · exact .inr (h0 ▸ h64)

/-- A chunk that counts as compressed **became smaller**. -/
theorem length_outcome_lt (hi : i < p.chunks)
    (h : p.compressChunk (p.chunkIn i).length (p.outcome i) = some lenBytes) :
    (p.outcome i).length < (p.chunkIn i).length := by
  obtain ⟨-, -, hlen⟩ := stored_of_some h
  have hle := le_alignUp (p.outcome i).length p.chunkAlign
  simp only [compressChunk] at h
  split at h
  · cases h
  next hratio =>
    split at h
    · cases h
    next hmax =>
      -- so the product of the ratio does not overflow
      have hsmall : (p.outcome i).length * 100 < 2 ^ 31 := by
        rw [maxChunkSize] at hmax
        omega
      have hint : toInt32 ((p.outcome i).length * 100) = ((p.outcome i).length * 100 : Nat) := by
        rw [toInt32, mod_eq_of_lt (by omega), if_pos hsmall]
      rw [spaceSavingRatio, hint, ← Int.ofNat_tdiv] at hratio
      have hquot : (p.outcome i).length * 100 / (p.chunkIn i).length < 100 := by omega
      rw [div_lt_iff_lt_mul (length_chunkIn_pos hi)] at hquot
      omega

/-- A compressed chunk fits into the pages of a chunk. -/
theorem comprFits (hlog : 12 ≤ p.logChunkSize) (hi : i < p.chunks) (hne : p.outcome i ≠ [])
    (hu : p.isUncompr i = false) : p.ComprFits i := by
  cases hc : p.compressChunk (p.chunkIn i).length (p.outcome i) with
  | none =>
    rw [isUncompr, hc] at hu
    cases hu
  | some lenBytes =>
    obtain ⟨-, hlen, halign⟩ := stored_of_some hc
    have hle := le_alignUp (p.outcome i).length p.chunkAlign
    have hpos : 0 < (p.outcome i).length := length_pos_of_ne_nil hne
    have hbound : (p.outcome i).length ≤ p.chunkSize :=
      (length_outcome_lt hi hc).le.trans (length_chunkIn_le i)
    have hup := alignUp_le hbound (chunkAlign_dvd hlog)
    exact ⟨by omega, by omega⟩

end CompressParams

/-! ### The table for the kernel -/

/-- What the kernel keeps of the file when it finds its descriptor. -/
def CompressParams.fbc (p : CompressParams) (crc : Nat) (r : CompressedFile) : Fbc :=
  let d := { p.prepareFileDescr with crc := crc }
  let hashType := hashTypeByMagic p.magicStart
  ⟨d, p.comprType, hashType,
    r.newFileSize - tableSizeBytes d hashType ((getSignLength p.signType).getD 0)⟩

section Area

variable {env : CompEnv} {p : CompressParams} {image : ImageFile} {dstOffset : Nat} {w : Written}
  {hashes : List UInt8}

@[simp] theorem length_tableBytes (table : Nat → CompExtent) :
    (p.tableBytes table).length = p.chunks * sizeofCompExtent := by
  rw [tableBytes, length_flatMap]
  simp

theorem length_trailer (table : List UInt8) :
    (p.trailer env table hashes).length = table.length + hashes.length + sizeofCompFileDescr := by
  simp [trailer, add_assoc]

theorem length_hashBytes :
    (p.hashBytes env fun i => env.hashFn p.hashType (p.stored i)).length =
      p.hashType.hashLen * (p.chunks + 1) := by
  rw [hashBytes, length_append, env.length_hashFn, length_flatMap]
  simp [env.length_hashFn, mul_succ, mul_comm]

theorem length_signedHashes (hr : p.rsaSize = some n) :
    (p.signedHashes env).length = p.hashType.hashLen * (p.chunks + 1) + n := by
  rw [signedHashes, hr]
  rw [length_append, length_hashBytes, length_window]

/-- The bytes of the signature that the kernel does not expect: those of a key whose length the
descriptor does not know. -/
def CompressParams.unknownSignature (p : CompressParams) : Nat :=
  match p.rsaSize with
  | none => 0
  | some n => if n = 128 ∨ n = 256 then 0 else n

theorem hashTypeByMagic_magicStart :
    hashTypeByMagic p.magicStart = p.rsaSize.map fun _ => p.hashType := by
  rw [CompressParams.magicStart]
  cases p.rsaSize <;> cases p.hashType <;> rfl

/-- The size the kernel computes from the descriptor. -/
theorem tableSizeBytes_add (hchunks : p.chunks ≤ 65535) (table : List UInt8)
    (htable : table.length = p.chunks * sizeofCompExtent) :
    tableSizeBytes (p.finalDescr env table (p.signedHashes env)) (hashTypeByMagic p.magicStart)
        ((getSignLength p.signType).getD 0) + p.unknownSignature =
      (p.trailer env table (p.signedHashes env)).length := by
  have hextents : (p.finalDescr env table (p.signedHashes env)).extentsNum = p.chunks :=
    mod_eq_of_lt (by omega)
  have hdescr : getFileDescrLength (p.finalDescr env table (p.signedHashes env)) =
      sizeofCompFileDescr := rfl
  unfold tableSizeBytes
  rw [length_trailer, hextents, hdescr, htable, hashTypeByMagic_magicStart]
  cases hr : p.rsaSize with
  | none =>
    have hhashes : p.signedHashes env = [] := by rw [signedHashes, hr]
    have hunknown : p.unknownSignature = 0 := by rw [CompressParams.unknownSignature, hr]
    rw [hhashes, hunknown]
    simp
  | some n =>
    have hhashes : (p.signedHashes env).length = _ := length_signedHashes hr
    have hsign : (getSignLength p.signType).getD 0 + p.unknownSignature = n := by
      rw [CompressParams.signType, CompressParams.unknownSignature, hr]
      by_cases h128 : n = 128
      · subst h128
        rfl
      by_cases h256 : n = 256
      · subst h256
        rfl
      dsimp only
      rw [if_neg (by omega)]
      split
      · next heq => exact absurd (Option.some.inj heq) h128
      · next heq => exact absurd (Option.some.inj heq) h256
      · exact zero_add n
    rw [hhashes]
    dsimp only [Option.map]
    omega

/-- Where the table starts for the kernel. -/
theorem compTableStartOffset_add (hchunks : p.chunks ≤ 65535) (crc : Nat) :
    (p.fbc crc (writeTables env p image dstOffset w (p.signedHashes env))).compTableStartOffset =
      w.newFileSize + w.alignedSize + p.unknownSignature := by
  have hsize : tableSizeBytes (p.finalDescr env _ (p.signedHashes env)) _ _ + _ = _ :=
    tableSizeBytes_add hchunks (p.tableBytes w.extTable) (length_tableBytes w.extTable)
  change w.newFileSize + w.alignedSize +
      (p.trailer env (p.tableBytes w.extTable) (p.signedHashes env)).length -
    tableSizeBytes (p.finalDescr env (p.tableBytes w.extTable) (p.signedHashes env))
      (hashTypeByMagic p.magicStart) ((getSignLength p.signType).getD 0) = _
  omega

end Area

/-! ### Small files -/

/-- Hashes and a crc of zeros. -/
def zeroEnv : CompEnv where
  allowLegacySign := false
  hashFn t _ := List.replicate t.hashLen 0
  length_hashFn _ _ := List.length_replicate
  checkSignature _ _ _ := false
  crc32 _ := 0
  decompFn _ _ _ := .error .einval

/-- An executable of `n + 2` bytes whose chunks all become two bytes in the compressor, not
signed. -/
def mzFile (n : Nat) : CompressParams where
  logChunkSize := 12
  comprType := .lzo
  minSpaceSavingRatio := 30
  src := 0x4d :: 0x5a :: replicate n 0
  compressor _ := .ok [7, 7]
  doEncrypt := false
  aesNonce := 0
  encryptChunk _ l := l
  length_encryptChunk _ _ := rfl
  heap _ := 0
  hashType := .sha256
  rsaSize := none
  signRsa _ _ := 0
  hasFreeSpace := true

theorem mzFile_chunks (n : Nat) : (mzFile n).chunks = (n + 4097) / 4096 := by
  change ((0x4d :: 0x5a :: replicate n 0).length + 2 ^ 12 - 1) / 2 ^ 12 = _
  rw [length_cons, length_cons, length_replicate]
  rfl

theorem mzFile_completes (n : Nat) : (mzFile n).Completes where
  logChunkSize := by
    change 12 < 31
    decide
  compressor _ _ := ⟨_, rfl⟩
  worth := .inr (.inl (decide_eq_true (.inr rfl)))
  rsaSize := nofun
  hasFreeSpace := rfl

/-- Two chunks, a full one that becomes smaller and one of a byte that does not; the thread of the
second one writes first. -/
theorem twoChunks_perm : [1, 0].Perm (List.range (mzFile 4095).chunks) := by
  rw [mzFile_chunks]
  exact List.Perm.swap 0 1 []

end Vdfs4.Mkfs
