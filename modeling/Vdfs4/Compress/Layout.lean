import Vdfs4.Lib.ByteMemory
import Vdfs4.Snapshot.Cow

/-!
# The layout of a compressed file

A compressed file is an area of bytes that is read **from its end**: the last bytes are the
*descriptor*, in front of it lie the hashes and the signature, in front of these the **chunk
table**, and everything before the table is the data of the chunks.

* `CompExtent` — an entry of the chunk table, `struct vdfs4_comp_extent`.
* `CompFileDescr` — the descriptor, `struct vdfs4_comp_file_descr`.
* `CompFileDescr.toBytes`, `CompFileDescr.readAt` — the descriptor as it is written and read.
-/

namespace Vdfs4

open ByteMemory List

variable {d : CompFileDescr} {m : ByteMemory}

/-! ### Entries of the chunk table -/

/-- `sizeof(struct vdfs4_comp_extent)`. -/
def sizeofCompExtent : Nat := 16

/-- `VDFS4_COMPR_EXT_MAGIC`: the letters `XT`. -/
def comprExtMagic : Nat := 0x5458

/-- `VDFS4_CHUNK_FLAG_UNCOMPR`. -/
def chunkFlagUncompr : Nat := 0x1

/-- `VDFS4_CHUNK_FLAG_ENCRYPTED`. -/
def chunkFlagEncrypted : Nat := 0x2

/-- `struct vdfs4_comp_extent`. -/
structure CompExtent where
  magic : Nat
  flags : Nat
  lenBytes : Nat
  start : Nat
deriving DecidableEq, Repr

namespace CompExtent

/-- The widths and values of the fields. -/
def fields (e : CompExtent) : List (Nat × Nat) :=
  [(2, e.magic), (2, e.flags), (4, e.lenBytes), (8, e.start)]

/-- The entry as it is written. -/
def toBytes (e : CompExtent) : List UInt8 := packLE e.fields

/-- The entry at an address. -/
def readAt (m : ByteMemory) (a : Nat) : CompExtent where
  magic := m.loadLE a 2
  flags := m.loadLE (a + 2) 2
  lenBytes := m.loadLE (a + 4) 4
  start := m.loadLE (a + 8) 8

@[simp] theorem length_toBytes (e : CompExtent) : e.toBytes.length = sizeofCompExtent := by
  simp [toBytes, fields, sizeofCompExtent]

end CompExtent

/-! ### The descriptor -/

/-- `sizeof(struct vdfs4_comp_file_descr)`. -/
def sizeofCompFileDescr : Nat := 40

/-- `VDFS4_COMPR_LAYOUT_VER_05`. -/
def comprLayoutVer05 : Nat := 5

/-- `VDFS4_COMPR_LAYOUT_VER_06`. -/
def comprLayoutVer06 : Nat := 6

/-- `struct vdfs4_comp_file_descr`; the first character of the magic says how the file is
authenticated, the other three how its chunks are compressed. The last eight bytes are padding
for the kernel and the nonce of the encryption for mkfs. -/
structure CompFileDescr where
  reserved : Nat
  signType : Nat
  magicStart : Nat
  magicType : Nat
  extentsNum : Nat
  layoutVersion : Nat
  unpackedSize : Nat
  crc : Nat
  logChunkSize : Nat
  pad2 : Nat
deriving DecidableEq, Repr

namespace CompFileDescr

/-- The fields from the magic up to the crc. -/
def magicToCrc (d : CompFileDescr) : List (Nat × Nat) :=
  [(1, d.magicStart), (3, d.magicType), (2, d.extentsNum), (2, d.layoutVersion),
    (8, d.unpackedSize)]

/-- The widths and values of the fields. -/
def fields (d : CompFileDescr) : List (Nat × Nat) :=
  [(7, d.reserved), (1, d.signType)] ++ d.magicToCrc ++
    [(4, d.crc), (4, d.logChunkSize), (8, d.pad2)]

/-- The descriptor as it is written. -/
def toBytes (d : CompFileDescr) : List UInt8 := packLE d.fields

/-- The descriptor at an address. -/
def readAt (m : ByteMemory) (a : Nat) : CompFileDescr where
  reserved := m.loadLE a 7
  signType := m.loadLE (a + 7) 1
  magicStart := m.loadLE (a + 8) 1
  magicType := m.loadLE (a + 9) 3
  extentsNum := m.loadLE (a + 12) 2
  layoutVersion := m.loadLE (a + 14) 2
  unpackedSize := m.loadLE (a + 16) 8
  crc := m.loadLE (a + 24) 4
  logChunkSize := m.loadLE (a + 28) 4
  pad2 := m.loadLE (a + 32) 8

/-- Every field fits its width. -/
def Fits (d : CompFileDescr) : Prop := ∀ f ∈ d.fields, f.2 < 256 ^ f.1

@[simp] theorem length_toBytes (d : CompFileDescr) : d.toBytes.length = sizeofCompFileDescr := by
  simp [toBytes, fields, magicToCrc, sizeofCompFileDescr]

/-- The bounds of the fields, one by one. -/
theorem fits_iff (d : CompFileDescr) :
    d.Fits ↔ d.reserved < 256 ^ 7 ∧ d.signType < 256 ^ 1 ∧ d.magicStart < 256 ^ 1 ∧
      d.magicType < 256 ^ 3 ∧ d.extentsNum < 256 ^ 2 ∧ d.layoutVersion < 256 ^ 2 ∧
      d.unpackedSize < 256 ^ 8 ∧ d.crc < 256 ^ 4 ∧ d.logChunkSize < 256 ^ 4 ∧
      d.pad2 < 256 ^ 8 := by
  simp only [Fits, fields, magicToCrc, cons_append, nil_append, forall_mem_cons,
    not_mem_nil, false_imp_iff, implies_true, and_true]

theorem Fits.withCrc (h : d.Fits) {crc : Nat} (hcrc : crc < 256 ^ 4) :
    { d with crc := crc }.Fits := by
  rw [fits_iff] at h ⊢
  tauto

theorem Fits.withSignType (h : d.Fits) {signType : Nat}
    (hsign : signType < 256 ^ 1) : { d with signType := signType }.Fits := by
  rw [fits_iff] at h ⊢
  tauto

/-- The fields of a descriptor that was read fit. -/
theorem fits_readAt (m : ByteMemory) (a : Nat) : (CompFileDescr.readAt m a).Fits := by
  rw [fits_iff]
  exact ⟨loadLE_lt, loadLE_lt, loadLE_lt, loadLE_lt, loadLE_lt, loadLE_lt, loadLE_lt, loadLE_lt,
    loadLE_lt, loadLE_lt⟩

end CompFileDescr

end Vdfs4
