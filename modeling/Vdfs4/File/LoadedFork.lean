import Vdfs4.Compress.FileBased
import Vdfs4.File.BlockMap

/-!
# Loading a fork

The record of a file holds its fork: nine extents, or in the same bytes the data itself
(**inline**), or compressed data. `vdfs4_parse_fork` checks the fork and loads what the flags of the
inode say. The check adds begin and length of an extent in **64 bits**; the loader keeps 32 bits of
the length, and it counts the extents with a block **wherever they are**.

* `vdfs4ParseFork` — the function, for a regular file or a symbolic link.
* `ForkInfo.InVolume` — the used extents are the first ones and lie in the volume.
* `parsed_fork_in_volume_iff` — when that is so.
-/

namespace Vdfs4

open ByteMemory

/-- `vdfs4_fork`; `data` are the bytes of its union. -/
structure Fork where
  sizeInBytes : Nat
  totalBlocksCount : Nat
  data : ByteMemory

/-- What the flags of the inode say about its fork. -/
inductive ForkKind where
  | extents | inlineData | compInlineData
deriving DecidableEq, Repr

/-- The union of the inode, as it is filled. -/
inductive ForkData where
  | extents (fork : ForkInfo)
  | inlineData (bytes : List UInt8)
  | compInlineData (type : Option ComprType) (compSize : Nat) (bytes : List UInt8)

/-- `VDFS4_INLINE_DATA_MAX_SIZE`. -/
def inlineDataMaxSize : Nat := 200

/-- `VDFS4_COMP_INLINE_DATA_MAX_SIZE`. -/
def compInlineDataMaxSize : Nat := 196

namespace Fork

variable (fork : Fork) (i : Nat)

/-- `extents[i].extent.begin`. -/
def extentBegin : Nat := loadLE fork.data (24 * i) 8

/-- `extents[i].extent.length`. -/
def extentLength : Nat := loadLE fork.data (24 * i + 8) 8

/-- `extents[i].iblock`. -/
def extentIblock : Nat := loadLE fork.data (24 * i + 16) 8

/-- `comp_inline_data.comp_type`. -/
def compType : Option ComprType := getComprtypeByMagic (loadLE fork.data 0 3)

/-- `is_fork_valid`. The size of inline data is compared as a signed number, the sum of an extent is
one of 64 bits. -/
def isForkValid (volumeBlocksCount : Nat) (kind : ForkKind) : Bool :=
  fork.totalBlocksCount ≤ volumeBlocksCount &&
    match kind with
    | .inlineData => fork.sizeInBytes ≤ inlineDataMaxSize || 2 ^ 63 ≤ fork.sizeInBytes
    | .compInlineData => (fork.data 3).toNat ≤ compInlineDataMaxSize && fork.compType.isSome
    | .extents => (List.range extentsCountInFork).all fun i =>
        (fork.extentBegin i + fork.extentLength i) % 2 ^ 64 ≤ volumeBlocksCount

/-- `vdfs4_lfork_to_rfork` counts the extents with a block. -/
@[irreducible] def usedExtents : Nat :=
  ((Finset.range extentsCountInFork).filter fun i => fork.extentBegin i ≠ 0).card

/-- `vdfs4_fill_ifork`. -/
def vdfs4FillIfork : ForkInfo where
  totalBlockCount := fork.totalBlocksCount % 2 ^ 32
  extents := (List.range extentsCountInFork).map fun i =>
    ⟨fork.extentBegin i, fork.extentIblock i, fork.extentLength i % 2 ^ 32⟩
  usedExtents := fork.usedExtents
  length_extents := by simp

/-- `vdfs4_parse_fork` of a regular file or a symbolic link. A negative size of inline data is
accepted and given to `memcpy`. -/
def vdfs4ParseFork (volumeBlocksCount : Nat) (kind : ForkKind) : Except Failure ForkData :=
  if fork.isForkValid volumeBlocksCount kind then
    match kind with
    | .inlineData =>
      if inlineDataMaxSize < fork.sizeInBytes then .error .undefined
      else .ok (.inlineData (window fork.data 0 fork.sizeInBytes ++
        List.replicate (inlineDataMaxSize - fork.sizeInBytes) 0))
    | .compInlineData => .ok (.compInlineData fork.compType (fork.data 3).toNat
        (window fork.data 4 compInlineDataMaxSize))
    | .extents => .ok (.extents fork.vdfs4FillIfork)
  else .error (.errno .einval)

/-- The extents with a block come first. -/
def Leading : Prop :=
  ∃ k ≤ extentsCountInFork, ∀ i < extentsCountInFork, fork.extentBegin i ≠ 0 ↔ i < k

end Fork

/-- **The used extents are the first ones and lie in the volume**, and so do the blocks that are
computed from them. -/
structure ForkInfo.InVolume (ifork : ForkInfo) (volume : Nat) : Prop where
  range : ∀ i < ifork.usedExtents, (ifork.slot i).firstBlock + (ifork.slot i).blockCount ≤ volume
  leading : ∀ i < extentsCountInFork, (ifork.slot i).firstBlock ≠ 0 ↔ i < ifork.usedExtents
  phys : ∀ i < ifork.usedExtents, ∀ x, (ifork.slot i).Covers x → (ifork.slot i).phys x < volume

variable {fork : Fork} {ifork : ForkInfo} {volume i : Nat}

namespace Fork

theorem usedExtents_le (fork : Fork) : fork.usedExtents ≤ extentsCountInFork := by
  rw [usedExtents]
  exact (Finset.card_filter_le _ _).trans (Finset.card_range _).le

theorem slot_vdfs4FillIfork (hi : i < extentsCountInFork) : fork.vdfs4FillIfork.slot i =
    ⟨fork.extentBegin i, fork.extentIblock i, fork.extentLength i % 2 ^ 32⟩ := by
  simp [ForkInfo.slot, vdfs4FillIfork, hi]

theorem Leading.ne_zero_iff (h : fork.Leading) (hi : i < extentsCountInFork) :
    fork.extentBegin i ≠ 0 ↔ i < fork.usedExtents := by
  obtain ⟨k, hk, hiff⟩ := h
  have hfirst : (Finset.range extentsCountInFork).filter (fun i => fork.extentBegin i ≠ 0) =
      Finset.range k := by
    ext j
    rw [Finset.mem_filter, Finset.mem_range, Finset.mem_range]
    exact ⟨fun h => (hiff j h.1).mp h.2, fun h => ⟨h.trans_le hk, (hiff j (h.trans_le hk)).mpr h⟩⟩
  rw [usedExtents, hfirst, Finset.card_range]
  exact hiff i hi

/-- What loading a fork with extents does. -/
theorem vdfs4ParseFork_extents : fork.vdfs4ParseFork volume .extents = .ok (.extents ifork) ↔
    fork.isForkValid volume .extents = true ∧ fork.vdfs4FillIfork = ifork := by
  rw [vdfs4ParseFork]
  split <;> simp_all

theorem isForkValid_extents : fork.isForkValid volume .extents = true ↔
    fork.totalBlocksCount ≤ volume ∧ ∀ i < extentsCountInFork,
      (fork.extentBegin i + fork.extentLength i) % 2 ^ 64 ≤ volume := by
  simp [isForkValid]

end Fork

open Fork

/-- **When a fork that is accepted maps only blocks of the volume**: the extents with a block come
first, and none of them reaches behind the volume by a sum that wraps. -/
theorem parsed_fork_in_volume_iff
    (hparse : fork.vdfs4ParseFork volume .extents = .ok (.extents ifork)) :
    ifork.InVolume volume ↔ fork.Leading ∧ ∀ i < extentsCountInFork, fork.extentBegin i ≠ 0 →
      fork.extentBegin i + fork.extentLength i < 2 ^ 64 ∨
        fork.extentBegin i + fork.extentLength i % 2 ^ 32 ≤ volume := by
  obtain ⟨hvalid, rfl⟩ := vdfs4ParseFork_extents.mp hparse
  have hlt : ∀ {i}, i < fork.usedExtents → i < extentsCountInFork := fun hi =>
    hi.trans_le fork.usedExtents_le
  constructor
  · intro h
    have hiff : ∀ i < extentsCountInFork, fork.extentBegin i ≠ 0 ↔ i < fork.usedExtents := by
      intro i hi
      have hlead := h.leading i hi
      rwa [slot_vdfs4FillIfork hi] at hlead
    refine ⟨⟨_, fork.usedExtents_le, hiff⟩, fun i hi hne => .inr ?_⟩
    have hrange := h.range i ((hiff i hi).mp hne)
    rwa [slot_vdfs4FillIfork hi] at hrange
  · rintro ⟨hlead, hfit⟩
    have hrange : ∀ i < fork.usedExtents,
        fork.extentBegin i + fork.extentLength i % 2 ^ 32 ≤ volume := by
      intro i hi
      obtain hsmall | hin := hfit i (hlt hi) ((hlead.ne_zero_iff (hlt hi)).mpr hi)
      · -- the sum did not wrap, and the loader makes the length only smaller
        have hsum := (isForkValid_extents.mp hvalid).2 i (hlt hi)
        have hmod := Nat.mod_le (fork.extentLength i) (2 ^ 32)
        rw [Nat.mod_eq_of_lt hsmall] at hsum
        omega
      · exact hin
    refine ⟨fun i hi => ?_, fun i hi => ?_, fun i hi x hx => ?_⟩
    · rw [slot_vdfs4FillIfork (hlt hi)]
      exact hrange i hi
    · rw [slot_vdfs4FillIfork hi]
      exact hlead.ne_zero_iff hi
    · rw [slot_vdfs4FillIfork (hlt hi)] at hx ⊢
      have hle := hrange i hi
      have hx1 : fork.extentIblock i ≤ x := hx.1
      have hx2 : x < fork.extentIblock i + fork.extentLength i % 2 ^ 32 := hx.2
      change fork.extentBegin i + (x - fork.extentIblock i) < _
      omega

/-- A fork with one extent. -/
def oneExtentFork (begin length : Nat) : Fork :=
  ⟨4096, 1, store (fun _ => 0) 0 (toLE 8 begin ++ toLE 8 length)⟩

theorem oneExtentFork_in_volume :
    (oneExtentFork 7 1).vdfs4ParseFork 100 .extents =
        .ok (.extents (oneExtentFork 7 1).vdfs4FillIfork) ∧
      (oneExtentFork 7 1).vdfs4FillIfork.InVolume 100 := by
  have hparse := vdfs4ParseFork_extents.mpr
    ⟨(by decide +kernel : (oneExtentFork 7 1).isForkValid 100 .extents = true), rfl⟩
  exact ⟨hparse, (parsed_fork_in_volume_iff hparse).mpr
    ⟨⟨1, by decide, by decide +kernel⟩, by decide +kernel⟩⟩

/-- **The sum wraps**: an extent of two blocks from the last block number on is accepted. -/
theorem wrapped_extent_accepted :
    (oneExtentFork (2 ^ 64 - 1) 2).vdfs4ParseFork 100 .extents =
        .ok (.extents (oneExtentFork (2 ^ 64 - 1) 2).vdfs4FillIfork) ∧
      ¬ (oneExtentFork (2 ^ 64 - 1) 2).vdfs4FillIfork.InVolume 100 := by
  refine ⟨vdfs4ParseFork_extents.mpr ⟨by decide +kernel, rfl⟩, fun h => ?_⟩
  exact absurd (h.range 0 (by decide +kernel)) (by decide +kernel)

end Vdfs4
