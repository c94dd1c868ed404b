import Vdfs4.Compress.Layout

/-!
# Reading a compressed file

The kernel's side of file-based compression. `vdfs4_init_file_decompression` runs when the file
is opened: it finds the descriptor at the end of the file, from it the **place of the chunk
table**, checks the crc and, on an authenticated volume, the signature over the hashes and the
hash of the descriptor. A page of the file is read through the entry of its chunk:
`__get_chunk_extent` names the stored bytes, `vdfs4_read_chunk` reads the pages they lie in, and
`vdfs4_auth_decompress_sw` compares their hash and **unpacks** them, or leaves the pages as they
are when the entry says that the chunk is not compressed.

* `CompFile` — a stored file; `CompEnv` — the hash, signature and crc functions.
* `initFileDecompression` — the open; `Fbc` is what it keeps.
* `getChunkExtent`, `checkHashChunk`, `readpageTuned` — the read of a page.

Memory is never short here and the device returns every page that is mapped.
-/

namespace Vdfs4

open ByteMemory
open SnapshotInfo (pageSize)

/-! ### The file and the functions it is checked with -/

/-- How a call can fail: with an error code, or where the behaviour of the code is **undefined**
(a `BUG_ON`, a shift by a wrong amount, an access behind a buffer). -/
inductive Failure where
  | errno (e : Errno)
  | undefined
deriving DecidableEq, Repr

/-- Both parts of a sequence that succeeds succeed. -/
theorem Failure.bind_eq_ok {α β : Type} {x : Except Failure α} {g : α → Except Failure β} {r : β} :
    (x >>= g) = .ok r ↔ ∃ a, x = .ok a ∧ g a = .ok r := by
  cases x with
  | error e => simp [bind, Except.bind]
  | ok a => simp [bind, Except.bind]

theorem Failure.ite_error_eq_ok {α : Type} {p : Prop} [Decidable p] {e : Failure}
    {x : Except Failure α} {r : α} :
    (if p then .error e else x) = .ok r ↔ ¬ p ∧ x = .ok r := by
  by_cases hp : p <;> simp [hp]

/-- The hash algorithms of authenticated files. -/
inductive HashType where
  | md5 | sha1 | sha256
deriving DecidableEq, Repr

/-- `VDFS4_MD5_HASH_LEN`, `VDFS4_SHA1_HASH_LEN`, `VDFS4_SHA256_HASH_LEN`. -/
def HashType.hashLen : HashType → Nat
  | md5 => 16
  | sha1 => 20
  | sha256 => 32

/-- The compression algorithms. -/
inductive ComprType where
  | zlib | gzip | lzo | zstd
deriving DecidableEq, Repr

/-- `vdfs4_get_comprtype_by_magic`: `Lzo`, `Zip`, `Gzp`, `Zst`. -/
def getComprtypeByMagic (magicType : Nat) : Option ComprType :=
  if magicType = 0x6f7a4c then some .lzo
  else if magicType = 0x70695a then some .zlib
  else if magicType = 0x707a47 then some .gzip
  else if magicType = 0x74735a then some .zstd
  else none

/-- `VDFS4_COMPR_DESCR_START`, the letter `C`. -/
def comprDescrStart : Nat := 0x43

/-- `VDFS4_MD5_AUTH`, `VDFS4_SHA1_AUTH`, `VDFS4_SHA256_AUTH`: the letters `I`, `H`, `h`. -/
def hashTypeByMagic (magicStart : Nat) : Option HashType :=
  if magicStart = 0x49 then some .md5
  else if magicStart = 0x48 then some .sha1
  else if magicStart = 0x68 then some .sha256
  else none

/-- `get_sign_length`: `VDFS4_SIGN_NONE`, `VDFS4_SIGN_RSA1024`, `VDFS4_SIGN_RSA2048`. -/
def getSignLength (signType : Nat) : Option Nat :=
  if signType = 0 then some 0
  else if signType = 1 then some 128
  else if signType = 2 then some 256
  else none

/-- What a file is checked with. -/
structure CompEnv where
  /-- `CONFIG_VDFS4_ALLOW_LEGACY_SIGN` -/
  allowLegacySign : Bool
  hashFn : HashType → List UInt8 → List UInt8
  length_hashFn : ∀ t l, (hashFn t l).length = t.hashLen
  /-- `rsa_check_signature` with the key of a sign type, on a signature and a hash -/
  checkSignature : Nat → List UInt8 → List UInt8 → Bool
  crc32 : List UInt8 → UInt32
  /-- the unpacking functions, on the packed bytes and the size of the target -/
  decompFn : ComprType → List UInt8 → Nat → Except Errno (List UInt8)

/-- A stored file. -/
structure CompFile where
  /-- `comp_size`, the stored size -/
  compSize : Nat
  bytes : ByteMemory
  /-- the pages of the file that have a block -/
  mapped : Nat → Bool
  /-- `VDFS4_PROFILED_FILE` -/
  profiled : Bool
  /-- `VOLUME_AUTH` -/
  volumeAuth : Bool

/-- `vdfs4_get_block_file_based` for some pages. -/
def CompFile.readCompPages (f : CompFile) (first n : Nat) : Except Failure Unit :=
  if (List.range n).all (fun k => f.mapped (first + k)) then .ok ()
  else .error (.errno .einval)

/-- The pages that hold a range of bytes. -/
def CompFile.readRange (f : CompFile) (a n : Nat) : Except Failure Unit :=
  f.readCompPages (a / pageSize) ((a + n + pageSize - 1) / pageSize - a / pageSize)

/-! ### Opening the file -/

/-- `vdfs4_file_descriptor_verify`. -/
def fileDescriptorVerify (d : CompFileDescr) : Except Failure ComprType :=
  if d.layoutVersion ≠ comprLayoutVer06 ∧ d.layoutVersion ≠ comprLayoutVer05 then
    .error (.errno .einval)
  else if d.magicStart ≠ comprDescrStart ∧ hashTypeByMagic d.magicStart = none then
    .error (.errno .einval)
  else match getComprtypeByMagic d.magicType with
    | none => .error (.errno .eopnotsupp)
    | some t => .ok t

/-- `get_file_descriptor`: the old layout has no sign type. -/
def getFileDescriptor (env : CompEnv) (f : CompFile) : Except Failure (CompFileDescr × ComprType) :=
  let raw := CompFileDescr.readAt f.bytes (f.compSize - sizeofCompFileDescr)
  let d := if raw.layoutVersion = comprLayoutVer05 then { raw with signType := 1 } else raw
  if f.compSize < sizeofCompFileDescr then .error (.errno .einval)
  else do
    f.readRange (f.compSize - sizeofCompFileDescr) sizeofCompFileDescr
    if raw.layoutVersion = comprLayoutVer05 ∧ env.allowLegacySign = false then
      .error (.errno .eperm)
    else do
      let t ← fileDescriptorVerify d
      return (d, t)

/-- `get_file_descr_length`. -/
def getFileDescrLength (d : CompFileDescr) : Nat :=
  if d.layoutVersion = comprLayoutVer06 then 40 else 32

/-- `struct vdfs4_file_based_info`: what the open finds out. -/
structure Fbc where
  descr : CompFileDescr
  comprType : ComprType
  hashType : Option HashType
  compTableStartOffset : Nat
deriving DecidableEq, Repr

namespace Fbc

/-- `comp_extents_n`. -/
def compExtentsN (fbc : Fbc) : Nat := fbc.descr.extentsNum

/-- `log_chunk_size`. -/
def logChunkSize (fbc : Fbc) : Nat := fbc.descr.logChunkSize

/-- `i_size_read`. -/
def iSize (fbc : Fbc) : Nat := fbc.descr.unpackedSize

/-- The pages of a chunk, `1 << (log_chunk_size - PAGE_SHIFT)`. -/
def chunkPages (fbc : Fbc) : Nat := 2 ^ (fbc.logChunkSize - pageShift)

end Fbc

/-- The bytes from the chunk table to the end of the file. -/
def tableSizeBytes (d : CompFileDescr) (hashType : Option HashType) (signLen : Nat) : Nat :=
  d.extentsNum * sizeofCompExtent + getFileDescrLength d +
    match hashType with
    | none => 0
    | some t => t.hashLen * (d.extentsNum + 1) + signLen

/-- The hashes: one of each chunk and one of the descriptor. -/
def CompFile.hashes (f : CompFile) (fbc : Fbc) (t : HashType) : List UInt8 :=
  f.bytes.window (fbc.compTableStartOffset + fbc.compExtentsN * sizeofCompExtent)
    ((fbc.compExtentsN + 1) * t.hashLen)

/-- The signature behind the hashes. -/
def CompFile.signature (f : CompFile) (fbc : Fbc) (t : HashType) : List UInt8 :=
  f.bytes.window (fbc.compTableStartOffset + fbc.compExtentsN * sizeofCompExtent +
    (fbc.compExtentsN + 1) * t.hashLen) ((getSignLength fbc.descr.signType).getD 0)

/-- `vdfs4_verify_file_signature`: the signature covers the **hashes**. -/
def verifyFileSignature (env : CompEnv) (f : CompFile) (fbc : Fbc) (t : HashType) :
    Except Failure Unit :=
  if env.checkSignature fbc.descr.signType (f.signature fbc t) (env.hashFn t (f.hashes fbc t)) then
    .ok ()
  else .error (.errno .einval)

/-- `vdfs4_get_and_cmp_hash`. -/
def getAndCmpHash (f : CompFile) (fbc : Fbc) (t : HashType) (chunkIdx : Nat)
    (hashCalc : List UInt8) : Except Failure Unit := do
  let hashOffset := fbc.compTableStartOffset + fbc.compExtentsN * sizeofCompExtent +
    t.hashLen * chunkIdx
  f.readRange hashOffset t.hashLen
  if f.bytes.window hashOffset t.hashLen ≠ hashCalc then .error (.errno .einval)
  else .ok ()

/-- The bytes of the descriptor that its hash covers: all of them with the crc cleared, or in the
old layout those from the magic up to the crc. -/
def CompFileDescr.hashed (d : CompFileDescr) : List UInt8 :=
  if d.layoutVersion = comprLayoutVer06 then { d with crc := 0 }.toBytes
  else packLE d.magicToCrc

/-- `vdfs4_check_hash_meta`. -/
def checkHashMeta (env : CompEnv) (f : CompFile) (fbc : Fbc) (t : HashType) :
    Except Failure Unit :=
  getAndCmpHash f fbc t fbc.compExtentsN (env.hashFn t fbc.descr.hashed)

/-- `verity_compext_table_crc`: the crc of the table, the hashes and the descriptor, with the
stored crc cleared. -/
def verityCompextTableCrc (env : CompEnv) (f : CompFile) (start tableLen : Nat) :
    Except Failure Unit :=
  let descr := CompFileDescr.readAt f.bytes (f.compSize - sizeofCompFileDescr)
  if tableLen < sizeofCompFileDescr then .error (.errno .einval)
  else if env.crc32 (f.bytes.window start (tableLen - sizeofCompFileDescr) ++
      { descr with crc := 0 }.toBytes) ≠ UInt32.ofNat descr.crc then .error (.errno .einval)
  else .ok ()

/-- The checks of an authenticated file: the signature, then the hash of the descriptor. -/
def checkAuthentication (env : CompEnv) (f : CompFile) (fbc : Fbc) : Except Failure Unit :=
  match fbc.hashType with
  | none => .ok ()
  | some t =>
    if f.volumeAuth then do
      verifyFileSignature env f fbc t
      checkHashMeta env f fbc t
    else .ok ()

/-- `vdfs4_init_file_decompression`. -/
def initFileDecompression (env : CompEnv) (f : CompFile) : Except Failure Fbc := do
  let (descr, comprType) ← getFileDescriptor env f
  let hashType := hashTypeByMagic descr.magicStart
  match getSignLength descr.signType with
  | none => .error (.errno .eopnotsupp)
  | some signLen =>
    let size := tableSizeBytes descr hashType signLen
    -- the table would start in front of the file: a page far behind every device is read
    if f.compSize < size then .error (.errno .eio)
    else do
      f.readRange (f.compSize - size) size
      verityCompextTableCrc env f (f.compSize - size) size
      let fbc : Fbc := { descr, comprType, hashType, compTableStartOffset := f.compSize - size }
      checkAuthentication env f fbc
      return fbc

/-! ### Reading a page -/

/-- `struct vdfs4_comp_extent_info`. -/
structure CompExtentInfo where
  flags : Nat
  startBlock : Nat
  offset : Nat
  lenBytes : Nat
  blocksN : Nat
deriving DecidableEq, Repr

/-- The flag `VDFS4_CHUNK_FLAG_UNCOMPR`. -/
def CompExtentInfo.uncompr (c : CompExtentInfo) : Bool := c.flags % 2 = 1

/-- `blocks_n`, as the `int` that it is. -/
def CompExtent.blocksN (e : CompExtent) : Int :=
  let lastBlock : Nat := (e.start + e.lenBytes + pageSize - 1) % 2 ^ 64 / pageSize
  let n : Nat := (lastBlock + 2 ^ 64 - e.start / pageSize) % 2 ^ 32
  if n < 2 ^ 31 then n else (n : Int) - 2 ^ 32

/-- The number of blocks is never negative: all the numbers wrap at the same blocks. -/
theorem CompExtent.blocksN_eq {e : CompExtent} (hstart : e.start < 2 ^ 64)
    (hlen : e.lenBytes < 2 ^ 31) :
    e.blocksN = ((e.start % pageSize + e.lenBytes + pageSize - 1) / pageSize : Nat) := by
  simp only [blocksN, show pageSize = 4096 from rfl]
  split <;> omega

/-- The range an entry names; a negative `blocks_n` reads no page. -/
def CompExtent.info (e : CompExtent) : CompExtentInfo where
  flags := e.flags
  startBlock := e.start / pageSize
  offset := e.start % pageSize
  lenBytes := e.lenBytes
  blocksN := e.blocksN.toNat

/-- `__get_chunk_extent`: one page is mapped, so an entry that crosses its end is read beyond
it. -/
def getChunkExtent (f : CompFile) (fbc : Fbc) (chunkIdx : Nat) : Except Failure CompExtentInfo := do
  let extentOffset := fbc.compTableStartOffset + chunkIdx * sizeofCompExtent
  let rawExtent := CompExtent.readAt f.bytes extentOffset
  f.readCompPages (extentOffset / pageSize) 1
  if pageSize < extentOffset % pageSize + sizeofCompExtent then .error .undefined
  else if f.profiled = false ∧ rawExtent.magic ≠ comprExtMagic then .error (.errno .einval)
  else if 2 ^ 31 ≤ rawExtent.lenBytes then .error (.errno .einval)
  else return rawExtent.info

/-- `vdfs4_chunk_page_count`. -/
def chunkPageCount (fbc : Fbc) (compExtentIdx : Nat) : Nat :=
  let size := fbc.iSize % 2 ^ fbc.logChunkSize
  if compExtentIdx < fbc.compExtentsN - 1 ∨ size = 0 then fbc.chunkPages
  else (size + pageSize - 1) / pageSize

/-- The pages `vdfs4_read_chunk` fills, as one memory. An uncompressed chunk is read into the
pages of the file, and the block of a page is found from its index **within the chunk**. -/
def CompFile.chunkSource (f : CompFile) (fbc : Fbc) (c : CompExtentInfo) : ByteMemory :=
  fun o =>
    let page := if c.uncompr then o / pageSize % fbc.chunkPages else o / pageSize
    f.bytes ((c.startBlock + page) * pageSize + o % pageSize)

/-- The bytes whose hash is compared: those the entry names. -/
def CompFile.stored (f : CompFile) (fbc : Fbc) (c : CompExtentInfo) : List UInt8 :=
  (f.chunkSource fbc c).window c.offset c.lenBytes

/-- `vdfs4_check_hash_chunk`. -/
def checkHashChunk (env : CompEnv) (f : CompFile) (fbc : Fbc) (c : CompExtentInfo)
    (extentIdx : Nat) : Except Failure Unit :=
  match fbc.hashType with
  | none => .ok ()
  | some t =>
    if f.volumeAuth then
      getAndCmpHash f fbc t extentIdx (env.hashFn t (f.stored fbc c))
    else .ok ()

/-- The bytes of page `k` of a chunk that lie in front of the end of the file. -/
def Fbc.visible (fbc : Fbc) (chunkIdx k : Nat) : Nat :=
  min pageSize (fbc.iSize - (chunkIdx * fbc.chunkPages + k) * pageSize)

/-- `vdfs4_read_chunk`: it has one page more than a chunk has. -/
def readChunk (f : CompFile) (fbc : Fbc) (chunkIdx : Nat) : Except Failure CompExtentInfo := do
  let c ← getChunkExtent f fbc chunkIdx
  if fbc.chunkPages + 1 < c.blocksN then .error .undefined
  else do
    f.readCompPages c.startBlock (if c.uncompr then min c.blocksN fbc.chunkPages else c.blocksN)
    return c

/-- `vdfs4_auth_decompress_sw`: what page `k` of the chunk holds afterwards. A page that was not
filled is reported as an error by the caller. -/
def authDecompressSw (env : CompEnv) (f : CompFile) (fbc : Fbc) (c : CompExtentInfo)
    (chunkIdx k : Nat) : Except Failure (List UInt8) :=
  if fbc.compExtentsN ≤ chunkIdx then .error .undefined
  else do
    checkHashChunk env f fbc c chunkIdx
    if c.uncompr then
      if c.blocksN ≤ k then .error (.errno .eio)
      else return (f.chunkSource fbc c).window (k * pageSize) pageSize
    else
      let pagesCount := chunkPageCount fbc chunkIdx
      match env.decompFn fbc.comprType (f.stored fbc c) (pagesCount * pageSize) with
      | .error e => .error (.errno e)
      | .ok out =>
        if pagesCount ≤ k then .error (.errno .eio)
        else return (out.drop (k * pageSize)).take pageSize

/-- `vdfs4_readpage_tuned_sw`: the bytes a reader gets of page `k` of a chunk. -/
def readpageTuned (env : CompEnv) (f : CompFile) (fbc : Fbc) (chunkIdx k : Nat) :
    Except Failure (List UInt8) :=
  if fbc.logChunkSize < pageShift ∨ 31 ≤ fbc.logChunkSize then .error .undefined
  -- a page behind the end of the file is cleared
  else if fbc.visible chunkIdx k = 0 then .ok []
  else do
    let c ← readChunk f fbc chunkIdx
    let page ← authDecompressSw env f fbc c chunkIdx k
    return page.take (fbc.visible chunkIdx k)

end Vdfs4
