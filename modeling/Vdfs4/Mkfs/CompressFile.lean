import Vdfs4.Lib.Appending
import Vdfs4.Compress.FileBased
import Vdfs4.Mkfs.SpaceManager

/-!
# How mkfs compresses a file

`compress_file` cuts a file into chunks and hands each one to a thread. A thread compresses its
chunk and **appends** what is to be stored to one of two temporary files, one for the chunks that
did not become small enough and one for the others; the threads finish in any order. Then the
chunks are copied to the image: first the uncompressed ones in the order of the file, then the
compressed ones in the order they were finished, some behind a gap of zeros. At the end come the
chunk table, the hashes with the signature, and the descriptor.

* `CompressParams` — the file, its options and what the compressor makes of each chunk.
* `compressChunkThread` — one thread; `compressThreads` — all of them in some order.
* `writeUncompressed`, `writeCompressed` — the two copy loops.
* `compressFile` — the call, on an image file.
-/

namespace Vdfs4.Mkfs

/-! ### The chunks -/

/-- A file to be compressed. -/
structure CompressParams where
  logChunkSize : Nat
  comprType : ComprType
  /-- `min_space_saving_ratio`, in percent -/
  minSpaceSavingRatio : Nat
  /-- the content of the source file -/
  src : List UInt8
  /-- what the compressor returns for each chunk; one that fails has set `errno` -/
  compressor : Nat → Except Errno (List UInt8)
  doEncrypt : Bool
  aesNonce : Nat
  /-- `encrypt_chunk`, by the index of the chunk -/
  encryptChunk : Nat → List UInt8 → List UInt8
  length_encryptChunk : ∀ i l, (encryptChunk i l).length = l.length
  /-- the bytes of a fresh buffer behind the encrypted ones -/
  heap : ByteMemory
  hashType : HashType
  /-- `RSA_size` of the key, if the file is signed -/
  rsaSize : Option Nat
  /-- `sign_rsa` with the key -/
  signRsa : List UInt8 → ByteMemory
  /-- there is free space: the image is read-only or its list of free chunks is not empty -/
  hasFreeSpace : Bool

/-- `ALIGN`, where an alignment of 0 means none. -/
def alignUp (x align : Nat) : Nat := if align = 0 then x else (x + align - 1) / align * align

/-- `compr_align`; the alignments of starts and of lengths are the same. -/
def comprAlign : ComprType → Nat
  | .zlib | .gzip => 64
  | .lzo | .zstd => 0

/-- `encrypted_chunk_align`: the least common multiple with `VDFS4_AES_CHUNK_ALIGN_START`, which
is also `VDFS4_AES_CHUNK_ALIGN_LEN`. -/
def encryptedChunkAlign (align : Nat) : Nat := Nat.lcm (if align = 0 then 1 else align) 16

/-- `HW_DECOMPRESSOR_PAGES_NUM << PAGE_SHIFT`. -/
def maxChunkSize : Nat := 32 * 4096

/-- A product of C `int`s: the low 32 bits with their sign. -/
def toInt32 (x : Nat) : Int :=
    if x % 2 ^ 32 < 2 ^ 31 then (x % 2 ^ 32 : Nat) else (x % 2 ^ 32 : Nat) - 2 ^ 32

namespace CompressParams

variable (p : CompressParams)

/-- `1 << log_chunk_size`. -/
def chunkSize : Nat := 2 ^ p.logChunkSize

/-- The number of chunks. -/
def chunks : Nat := (p.src.length + p.chunkSize - 1) / p.chunkSize

/-- What is read of the source file for a chunk. -/
def chunkIn (i : Nat) : List UInt8 := (p.src.drop (i * p.chunkSize)).take p.chunkSize

/-- `is_exec_file_fd`: the file starts with the letters of ELF or of an MZ executable. -/
def isExecFile : Bool := p.src.take 4 = [0x7f, 0x45, 0x4c, 0x46] ∨ p.src.take 2 = [0x4d, 0x5a]

/-- The alignment of a chunk. -/
def chunkAlign : Nat :=
  if p.doEncrypt then encryptedChunkAlign (comprAlign p.comprType) else comprAlign p.comprType

/-- The space a chunk saves, in percent. -/
def spaceSavingRatio (compressedSize ilen : Nat) : Int :=
  100 - (toInt32 (compressedSize * 100)).tdiv ilen

/-- `compress_chunk`: the length of the chunk compressed, or `none` if it is left as it is. -/
def compressChunk (ilen : Nat) (out : List UInt8) : Option Nat :=
  let lenBytes := alignUp out.length p.chunkAlign
  if spaceSavingRatio out.length ilen ≤ p.minSpaceSavingRatio then none
  else if maxChunkSize < lenBytes then none
  else some lenBytes

/-- The data of a chunk, encrypted if this is asked for. -/
def encrypted (i : Nat) (data : List UInt8) : List UInt8 :=
  if p.doEncrypt then p.encryptChunk i data else data

/-- What stands in the buffer behind the data of an uncompressed chunk. -/
def tail (n : Nat) : List UInt8 :=
  if p.doEncrypt then p.heap.window 0 n else List.replicate n 0

/-- The flags of an entry before the chunk is compressed. -/
def entryFlags : Nat := if p.doEncrypt then chunkFlagEncrypted else 0

end CompressParams

/-! ### The threads -/

/-- What the threads of a file share: the two temporary files, the chunk table and the hashes. -/
structure ThreadFiles where
  tmpUncompr : List UInt8
  tmpCompr : List UInt8
  extTable : Nat → CompExtent
  hashTable : Nat → List UInt8
  newFileSize : Nat

/-- One round of `compress_chunk_thread`; a thread holds the mutex of a temporary file from its
write to the update of the offset. -/
def compressChunkThread (env : CompEnv) (p : CompressParams) (s : ThreadFiles) (i : Nat) :
    Except Failure ThreadFiles :=
  let input := p.chunkIn i
  match p.compressor i with
  | .error e => .error (.errno e)
  | .ok out =>
    match p.compressChunk input.length out with
    | none =>
      let data := p.encrypted i input
      let written := data ++ p.tail (alignUp input.length p.chunkAlign - input.length)
      .ok { s with
        tmpUncompr := s.tmpUncompr ++ written
        extTable := Function.update s.extTable i
          ⟨comprExtMagic, p.entryFlags + chunkFlagUncompr, input.length, s.tmpUncompr.length⟩
        hashTable := Function.update s.hashTable i (env.hashFn p.hashType data)
        newFileSize := s.newFileSize + written.length }
    | some lenBytes =>
      let data := p.encrypted i (out ++ List.replicate (lenBytes - out.length) 0)
      .ok { s with
        tmpCompr := s.tmpCompr ++ data
        extTable := Function.update s.extTable i
          ⟨comprExtMagic, p.entryFlags, lenBytes, s.tmpCompr.length⟩
        hashTable := Function.update s.hashTable i (env.hashFn p.hashType data)
        newFileSize := s.newFileSize + data.length }

/-- The threads, in the order in which they write. -/
def compressThreads (env : CompEnv) (p : CompressParams) (order : List Nat) :
    Except Failure ThreadFiles :=
  order.foldlM (compressChunkThread env p) ⟨[], [], fun _ => ⟨0, 0, 0, 0⟩, fun _ => [], 0⟩

/-! ### The image -/

/-- The flag `VDFS4_CHUNK_FLAG_UNCOMPR` of an entry. -/
def uncompressed (e : CompExtent) : Bool := e.flags % 2 = 1

/-- `is_all_chunks_uncompressed`. -/
def isAllChunksUncompressed (table : Nat → CompExtent) (count : Nat) : Bool :=
  0 < count ∧ (List.range count).all fun i => uncompressed (table i)

/-- What has been written to the image and the table with the new starts. -/
structure Written where
  data : List UInt8
  extTable : Nat → CompExtent
  newFileSize : Nat

/-- The entry of a chunk that starts somewhere else. -/
def startAt (e : CompExtent) (start : Nat) : CompExtent := { e with start := start }

/-- A chunk is copied behind some zeros. -/
def Written.place (w : Written) (i : Nat) (gap : Nat) (piece : List UInt8) : Written where
  data := w.data ++ (List.replicate gap 0 ++ piece)
  extTable := Function.update w.extTable i (startAt (w.extTable i) (w.data.length + gap))
  newFileSize := w.newFileSize + gap

theorem Written.place_extTable_self (w : Written) (i gap : Nat) (piece : List UInt8) :
    (w.place i gap piece).extTable i = startAt (w.extTable i) (w.data.length + gap) :=
  Function.update_self ..

theorem Written.place_extTable_of_ne (w : Written) {i j : Nat} (h : j ≠ i) (gap : Nat)
    (piece : List UInt8) : (w.place i gap piece).extTable j = w.extTable j :=
  Function.update_of_ne h ..

/-- One chunk of the first copy loop. -/
def writeUncompressedChunk (p : CompressParams) (tmp : List UInt8) (w : Written) (i : Nat) :
    Except Failure Written :=
  let e := w.extTable i
  if uncompressed e then
    let alignedLen := alignUp e.lenBytes p.chunkAlign
    let piece := (tmp.drop e.start).take alignedLen
    if piece.length ≠ alignedLen then .error (.errno .eperm)
    else .ok (w.place i 0 piece)
  else .ok w

/-- The first copy loop: the uncompressed chunks, in the order of the file. -/
def writeUncompressed (p : CompressParams) (tmp : List UInt8) (w : Written) :
    Except Failure Written :=
  (List.range p.chunks).foldlM (writeUncompressedChunk p tmp) w

/-- `get_comp_extent_starting_at`. -/
def getCompExtentStartingAt (table : Nat → CompExtent) (count startAt : Nat) : Option Nat :=
  (List.range count).find? fun i => !uncompressed (table i) && (table i).start == startAt

/-- The zeros in front of a compressed chunk: `align = len_bytes + cur_offset % block_size -
volume_chunk_size`, and if this is positive `block_size - align` zeros. -/
def zeroArea (p : CompressParams) (curOffset lenBytes : Nat) : Nat :=
  let align := lenBytes + curOffset % blockSize - p.chunkSize
  if 0 < align then blockSize - align else 0

/-- The second copy loop: the compressed chunks, in the order of the temporary file. It ends when
`left` chunks have been written; an area of a negative length is not allocated. -/
def writeCompressed (p : CompressParams) (tmp : List UInt8) (copy : Nat → CompExtent) :
    (left curPackedOffset : Nat) → Written → Except Failure Written
  | 0, _, w => .ok w
  | left + 1, curPackedOffset, w =>
    match getCompExtentStartingAt copy p.chunks curPackedOffset with
    | none => .error .undefined
    | some i =>
      let lenBytes := (w.extTable i).lenBytes
      let piece := (tmp.drop curPackedOffset).take lenBytes
      if p.chunkSize + blockSize < lenBytes + w.data.length % blockSize then
        .error (.errno .enomem)
      else if piece.length ≠ lenBytes then .error (.errno .einval)
      else
        writeCompressed p tmp copy left (curPackedOffset + lenBytes)
          (w.place i (zeroArea p w.data.length lenBytes) piece)

/-- An image in a regular file; the `st_size` of a device would stay 0. -/
structure ImageFile where
  /-- `st_size` -/
  size : Nat
  bytes : ByteMemory

/-- What `compress_file` leaves: the image, where its area starts and how long it is. -/
structure CompressedFile where
  image : ImageFile
  dstOffset : Nat
  newFileSize : Nat

namespace CompressParams

variable (p : CompressParams)

/-- `get_sign_type`. -/
def signType : Nat :=
  match p.rsaSize with
  | some 128 => 1
  | some 256 => 2
  | _ => 0

/-- The letters of a compression algorithm in the descriptor. -/
def magicType : Nat :=
  match p.comprType with
  | .lzo => 0x6f7a4c
  | .zlib => 0x70695a
  | .gzip => 0x707a47
  | .zstd => 0x74735a

/-- The first letter of the descriptor. -/
def magicStart : Nat :=
  match p.rsaSize, p.hashType with
  | none, _ => comprDescrStart
  | some _, .md5 => 0x49
  | some _, .sha1 => 0x48
  | some _, .sha256 => 0x68

/-- `prepare_file_descr`. -/
def prepareFileDescr : CompFileDescr where
  reserved := 0
  signType := p.signType
  magicStart := p.magicStart
  magicType := p.magicType
  extentsNum := p.chunks % 2 ^ 16
  layoutVersion := comprLayoutVer06
  unpackedSize := p.src.length
  crc := 0
  logChunkSize := p.logChunkSize
  pad2 := p.aesNonce % 2 ^ 64

/-- The chunk table as it is written. -/
def tableBytes (table : Nat → CompExtent) : List UInt8 :=
  (List.range p.chunks).flatMap fun i => (table i).toBytes

/-- The hashes of the chunks and of the descriptor. -/
def hashBytes (env : CompEnv) (hashTable : Nat → List UInt8) : List UInt8 :=
  (List.range p.chunks).flatMap hashTable ++ env.hashFn p.hashType p.prepareFileDescr.toBytes

/-- The hashes and their signature, if the file is signed. The padding of the signature needs
eleven bytes beside the hash. -/
def hashTableBytes (env : CompEnv) (hashTable : Nat → List UInt8) : Except Failure (List UInt8) :=
  match p.rsaSize with
  | none => .ok []
  | some rsaSize =>
    let hashes := p.hashBytes env hashTable
    if rsaSize < p.hashType.hashLen + 11 then .error (.errno .einval)
    else .ok (hashes ++ (p.signRsa (env.hashFn p.hashType hashes)).window 0 rsaSize)

end CompressParams

/-- The descriptor with its crc over everything that is written behind the chunks. -/
def CompressParams.finalDescr (p : CompressParams) (env : CompEnv) (table hashes : List UInt8) :
    CompFileDescr :=
  { p.prepareFileDescr with
    crc := (env.crc32 (table ++ hashes ++ p.prepareFileDescr.toBytes)).toNat }

/-- What is written behind the chunks. -/
def CompressParams.trailer (p : CompressParams) (env : CompEnv) (table hashes : List UInt8) :
    List UInt8 :=
  table ++ hashes ++ (p.finalDescr env table hashes).toBytes

/-- `aligned_size`: the bytes up to the alignment of the table. -/
def Written.alignedSize (w : Written) : Nat :=
    alignUp w.newFileSize sizeofCompExtent - w.newFileSize

/-- Where the table is put: **behind the end of the image file**, by `fstat`. -/
def ImageFile.tablePosition (image : ImageFile) (dstOffset : Nat) (w : Written) : Nat :=
  max image.size (dstOffset + w.data.length) + w.alignedSize

/-- The last writes: the table, the hashes and the descriptor. -/
def writeTables (env : CompEnv) (p : CompressParams) (image : ImageFile) (dstOffset : Nat)
    (w : Written) (hashes : List UInt8) : CompressedFile :=
  let trailer := p.trailer env (p.tableBytes w.extTable) hashes
  let position := image.tablePosition dstOffset w
  { image :=
      { size := position + trailer.length
        bytes := (image.bytes.store dstOffset w.data).store position trailer }
    dstOffset := dstOffset
    newFileSize := w.newFileSize + w.alignedSize + trailer.length }

/-- `compress_file`, up to the allocation of the blocks. A shift of an `int` by 31 or more is
undefined. -/
def compressFile (env : CompEnv) (p : CompressParams) (order : List Nat) (image : ImageFile)
    (dstOffset : Nat) : Except Failure CompressedFile :=
  if 31 ≤ p.logChunkSize then .error .undefined
  else do
    let s ← compressThreads env p order
    if isAllChunksUncompressed s.extTable p.chunks ∧ p.isExecFile = false ∧ p.doEncrypt = false then
      .error (.errno .enotcompr)
    else do
      let hashes ← p.hashTableBytes env s.hashTable
      if p.hasFreeSpace = false then .error (.errno .enospc)
      else do
        let w ← writeUncompressed p s.tmpUncompr ⟨[], s.extTable, s.newFileSize⟩
        let noWrittenChunks :=
          ((List.range p.chunks).filter fun i => uncompressed (w.extTable i)).length
        let w ← writeCompressed p s.tmpCompr w.extTable (p.chunks - noWrittenChunks) 0 w
        return writeTables env p image dstOffset w hashes

end Vdfs4.Mkfs
