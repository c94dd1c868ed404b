import Vdfs4.Snapshot.Table

/-!
# The space manager of mkfs

mkfs hands out the blocks of a new volume through `allocate_space`. For a **writable**
image it keeps a list of free chunks sorted by offset, and a request names its address or
takes the first chunk that is long enough; for a **read-only** image the free space is
everything behind `first_free_address`, and a request that names an address must name
exactly this one.

* `SpaceManager` — the state of both kinds.
* `allocateSpace` — the allocator; `none` is `-ENOSPC`.
* `SpaceManager.IsFree` — the blocks not handed out yet.
-/

namespace Vdfs4.Mkfs

/-- `BLOCK_SIZE_DEFAULT`, the only block size mkfs uses. -/
def blockSize : Nat := 4096

/-- `byte_to_block`. -/
def byteToBlock (bytes : Nat) : Nat :=
  bytes / blockSize + if bytes % blockSize ≠ 0 then 1 else 0

/-- `block_to_byte`. -/
def blockToByte (blocks : Nat) : Nat := blocks * blockSize

/-- `ADDR_ANY`. -/
def addrAny : Nat := 0

/-- `struct space_manager_item`: a chunk of free blocks. -/
structure SpaceManagerItem where
  offset : Nat
  length : Nat
deriving DecidableEq, Repr

/-- The fields of `struct vdfs4_sb_info` that the allocator reads and writes. -/
structure SpaceManager where
  /-- `READ_ONLY_IMAGE` -/
  readOnlyImage : Bool
  /-- `LIMITED_SIZE` -/
  limitedSize : Bool
  minVolumeSize : Nat
  firstFreeAddress : Nat
  spaceManagerList : List SpaceManagerItem
  /-- the free space bitmap: the blocks marked as used -/
  bitmap : Nat → Bool
  freeBlocksCount : Nat

/-- `put_space_manager_list_sorted`. -/
def putSpaceManagerListSorted (item : SpaceManagerItem) :
    List SpaceManagerItem → List SpaceManagerItem
  | [] => [item]
  | x :: list =>
    if item.offset < x.offset then item :: x :: list
    else x :: putSpaceManagerListSorted item list

/-- `shrink_list_item`: the chunk at index `i` became `item`; an empty one leaves the
list. -/
def shrinkListItem (list : List SpaceManagerItem) (i : Nat) (item : SpaceManagerItem) :
    List SpaceManagerItem :=
  if item.length = 0 then list.eraseIdx i else list.set i item

/-- The test of the search loop of `get_free_space`. -/
def SpaceManagerItem.serves (item : SpaceManagerItem) (offset length : Nat) : Bool :=
  if offset = addrAny then length ≤ item.length
  else item.offset ≤ offset && offset + length ≤ item.offset + item.length

/-- The body of the search loop: `length` blocks leave the chunk `item` at index `i`. -/
def carveItem (list : List SpaceManagerItem) (i : Nat) (item : SpaceManagerItem)
    (offset length : Nat) : Nat × List SpaceManagerItem :=
  if offset = addrAny ∨ offset = item.offset then
    (item.offset, shrinkListItem list i ⟨item.offset + length, item.length - length⟩)
  else if offset + length = item.offset + item.length then
    (offset, shrinkListItem list i ⟨item.offset, item.length - length⟩)
  else
    -- the chunk is cut in two
    (offset, putSpaceManagerListSorted
      ⟨offset + length, item.length - length - (offset - item.offset)⟩
      (putSpaceManagerListSorted ⟨item.offset, offset - item.offset⟩ (list.eraseIdx i)))

/-- The state after the chunk `item` at index `i` served a request. -/
def SpaceManager.carved (s : SpaceManager) (i : Nat) (item : SpaceManagerItem)
    (offset length : Nat) : SpaceManager :=
  let carved := carveItem s.spaceManagerList i item offset length
  { s with
    spaceManagerList := carved.2
    bitmap := fun b => s.bitmap b || (carved.1 ≤ b && b < carved.1 + length)
    freeBlocksCount := s.freeBlocksCount - length }

/-- `get_free_space`; `none` is a negative address. -/
def getFreeSpace (s : SpaceManager) (offset length : Nat) : Option (Nat × SpaceManager) :=
  if s.readOnlyImage then
    if s.limitedSize && s.minVolumeSize < blockToByte (s.firstFreeAddress + length) then none
    else if offset ≠ addrAny ∧ offset ≠ s.firstFreeAddress then none
    else some (s.firstFreeAddress, { s with firstFreeAddress := s.firstFreeAddress + length })
  else
    match s.spaceManagerList.findIdx? (·.serves offset length) with
    | none => none
    | some i =>
      match s.spaceManagerList[i]? with
      | none => none
      | some item =>
        some ((carveItem s.spaceManagerList i item offset length).1,
          s.carved i item offset length)

/-- `allocate_space`: the length is passed as a `u_int32_t`. -/
def allocateSpace (s : SpaceManager) (blockOffset blockCount : Nat) :
    Option (Nat × SpaceManager) :=
  getFreeSpace s blockOffset (blockCount % 2 ^ 32)

/-- Block `b` can still be handed out. -/
def SpaceManager.IsFree (s : SpaceManager) (b : Nat) : Prop :=
  if s.readOnlyImage then s.firstFreeAddress ≤ b
  else ∃ item ∈ s.spaceManagerList, item.offset ≤ b ∧ b < item.offset + item.length

/-! ### What the allocator returns -/

variable {s s' : SpaceManager} {offset length addr : Nat}

/-- Everything a successful request can have done. -/
theorem getFreeSpace_cases (h : getFreeSpace s offset length = some (addr, s')) :
    (s.readOnlyImage = true ∧ (offset = addrAny ∨ offset = s.firstFreeAddress) ∧
      addr = s.firstFreeAddress ∧
      s' = { s with firstFreeAddress := s.firstFreeAddress + length }) ∨
    (s.readOnlyImage = false ∧ ∃ i item, s.spaceManagerList[i]? = some item ∧
      item.serves offset length = true ∧
      addr = (carveItem s.spaceManagerList i item offset length).1 ∧
      s' = s.carved i item offset length) := by
  unfold getFreeSpace at h
  split at h
  · rename_i hro
    split at h
    · cases h
    split at h
    · cases h
    rename_i hnamed
    cases h
    refine .inl ⟨hro, ?_, rfl, rfl⟩
    by_cases hany : offset = addrAny
    · exact .inl hany
    · exact .inr (not_not.mp fun hne => hnamed ⟨hany, hne⟩)
  · rename_i hro
    split at h
    · cases h
    · rename_i i hi
      obtain ⟨hlt, hserves, -⟩ := List.findIdx?_eq_some_iff_getElem.mp hi
      rw [List.getElem?_eq_getElem hlt] at h
      cases h
      exact .inr ⟨Bool.eq_false_iff.mpr hro, i, _, List.getElem?_eq_getElem hlt, hserves, rfl, rfl⟩

/-- A request without an address gets one that was free. -/
theorem getFreeSpace_any_isFree (hlen : 0 < length)
    (h : getFreeSpace s addrAny length = some (addr, s')) : s.IsFree addr := by
  unfold SpaceManager.IsFree
  obtain ⟨hro, -, rfl, -⟩ | ⟨hro, i, item, hitem, hserves, rfl, -⟩ := getFreeSpace_cases h
  · simp [hro]
  rw [hro, if_neg Bool.false_ne_true]
  have hle : length ≤ item.length := by simpa [SpaceManagerItem.serves] using hserves
  have haddr : (carveItem s.spaceManagerList i item addrAny length).1 = item.offset := by
    simp [carveItem]
  rw [haddr]
  exact ⟨item, List.mem_of_getElem? hitem, Nat.le_refl _, by omega⟩

end Vdfs4.Mkfs
