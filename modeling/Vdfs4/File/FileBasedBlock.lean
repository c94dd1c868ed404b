import Vdfs4.File.BlockMapRun

/-!
# The block of a page of a compressed file

`vdfs4_get_block_file_based` looks the page up in the block map and adds its distance from the
start of the extent. A lookup that finds nothing clears the **first block** of the extent and
leaves the rest: the extent is a neighbour, or, for a file without blocks, whatever the stack
held. The caller tests the sum for zero.

* `vdfs4GetBlockFileBased` — the function; its extent is not initialised.
* `file_based_block_iff` — the block is the right one or zero **exactly for the mapped pages** (and
  where the stack or an error of the tree happens to save the call).
-/

namespace Vdfs4

open ExtentMap

/-- The lookup asks the overflow tree. -/
def BlockMap.asksTree (m : BlockMap) (iblock : Nat) : Prop :=
  m.fork.usedExtents = extentsCountInFork ∧
    ∀ e ∈ m.fork.extents.take m.fork.usedExtents, ¬ e.Covers iblock

/-- The lookup leaves the extent as it was. -/
def BlockMap.untouched (m : BlockMap) : Prop :=
  m.fork.totalBlockCount = 0 ∨ m.fork.usedExtents = 0

instance (m : BlockMap) (iblock : Nat) : Decidable (m.asksTree iblock) :=
  inferInstanceAs (Decidable (_ ∧ _))

instance (m : BlockMap) : Decidable m.untouched := inferInstanceAs (Decidable (_ ∨ _))

/-- `pext.first_block + page_idx - pext.iblock`, in 64 bits. -/
def ExtentInfo.blockOf (pext : ExtentInfo) (pageIdx : Nat) : Nat :=
  (pext.firstBlock + pageIdx + 2 ^ 64 - pext.iblock) % 2 ^ 64

/-- `vdfs4_get_block_file_based`. `stack` is what the extent `pext` holds before the lookup,
`treeError` an error of the overflow tree other than `ENOENT`. -/
def vdfs4GetBlockFileBased (m : BlockMap) (treeError : Option Errno) (stack : ExtentInfo)
    (pageIdx : Nat) : Except Errno Nat :=
  if m.untouched then .ok (stack.blockOf pageIdx)
  else match treeError with
    | some err =>
      if m.asksTree pageIdx then .error err
      else .ok ((vdfs4GetIblockExtent m pageIdx).1.blockOf pageIdx)
    | none => .ok ((vdfs4GetIblockExtent m pageIdx).1.blockOf pageIdx)

/-- What `vdfs4__read` relies on: an error, no block, or the block of the page. -/
def BlockSafe (M : Nat → Option Nat) (pageIdx : Nat) (r : Except Errno Nat) : Prop :=
  ∀ block, r = .ok block → block ≠ 0 → M pageIdx = some block

/-- All numbers of the map are 64 bit numbers. -/
structure BlockMap.InRange (m : BlockMap) (used : List ExtentInfo) (M : Nat → Option Nat) :
    Prop where
  logical : ∀ e ∈ used ++ m.exttree, e.iblock + e.blockCount < 2 ^ 64
  physical : ∀ x block, M x = some block → block < 2 ^ 64

section

variable {m : BlockMap} {used : List ExtentInfo} {M : Nat → Option Nat} {pageIdx : Nat}

/-- What the sum is when the map was looked at. -/
theorem blockOf_getIblockExtent (hinv : MapInv m used M) (hrange : m.InRange used M)
    (hpage : pageIdx < 2 ^ 64) (hlooked : ¬ m.untouched) :
    (M pageIdx = none → (vdfs4GetIblockExtent m pageIdx).1.blockOf pageIdx ≠ 0) ∧
      ∀ block, M pageIdx = some block →
        (vdfs4GetIblockExtent m pageIdx).1.blockOf pageIdx = block := by
  rcases vdfs4GetIblockExtent_spec hinv pageIdx with
    ⟨e, -, hcov, hget, hM⟩ | ⟨hM, ⟨hempty, -⟩ | ⟨e, he, hcov, hget⟩⟩
  · -- the extent of the page
    refine ⟨fun hnone => absurd (hnone.symm.trans hM) (Option.some_ne_none _).symm,
      fun block hb => ?_⟩
    obtain rfl := Option.some.inj (hM.symm.trans hb)
    have hlt := hrange.physical _ _ hM
    have hle := hcov.1
    rw [Extent.phys] at hlt
    rw [hget, ExtentInfo.blockOf, Extent.phys,
      show e.firstBlock + pageIdx + 2 ^ 64 - e.iblock =
        e.firstBlock + (pageIdx - e.iblock) + 2 ^ 64 by omega,
      Nat.add_mod_right, Nat.mod_eq_of_lt hlt]
  · exact absurd hempty hlooked
  · -- a neighbour, which starts elsewhere since it is not empty
    refine ⟨fun _ => ?_, fun block hb => absurd (hM.symm.trans hb) (Option.some_ne_none _).symm⟩
    have hpos := hinv.list.ordered.pos e he
    have hlt := hrange.logical e he
    have hne : e.iblock ≠ pageIdx := by
      rintro rfl
      exact hcov ⟨le_rfl, Nat.lt_add_of_pos_right hpos⟩
    rw [hget, ExtentInfo.blockOf]
    dsimp only
    omega

/-- **When a page's block is safe**: it is mapped, or an error of the overflow tree is reported,
or the file has no blocks and the stack happens to give zero. -/
theorem file_based_block_iff (hinv : MapInv m used M) (hrange : m.InRange used M)
    (hpage : pageIdx < 2 ^ 64) (treeError : Option Errno) (stack : ExtentInfo) :
    BlockSafe M pageIdx (vdfs4GetBlockFileBased m treeError stack pageIdx) ↔
      (M pageIdx).isSome ∨ (m.untouched ∧ stack.blockOf pageIdx = 0) ∨
        (¬ m.untouched ∧ treeError.isSome ∧ m.asksTree pageIdx) := by
  have hok : ∀ n, BlockSafe M pageIdx (.ok n) ↔ (n ≠ 0 → M pageIdx = some n) := fun n =>
    ⟨fun h => h n rfl, fun h block hb => Except.ok.inj hb ▸ h⟩
  by_cases hun : m.untouched
  · -- no lookup: the file has no blocks
    have hM : M pageIdx = none := by
      rcases vdfs4GetIblockExtent_spec hinv pageIdx with ⟨e, he, -, -, -⟩ | ⟨hM, -⟩
      · refine absurd he ?_
        rw [hinv.eq_nil hun]
        exact List.not_mem_nil
      · exact hM
    unfold vdfs4GetBlockFileBased
    rw [if_pos hun, hok, hM]
    simp [hun]
  · obtain ⟨hzero, hblock⟩ := blockOf_getIblockExtent hinv hrange hpage hun
    have hlook : BlockSafe M pageIdx (.ok ((vdfs4GetIblockExtent m pageIdx).1.blockOf pageIdx)) ↔
        (M pageIdx).isSome := by
      rw [hok]
      cases hM : M pageIdx with
      | none => simpa using hzero hM
      | some block => simp [hblock block hM]
    unfold vdfs4GetBlockFileBased
    rw [if_neg hun]
    cases treeError with
    | none => simpa [hun] using hlook
    | some err =>
      dsimp only
      split
      · next hask => simp [BlockSafe, hask, hun]
      · next hask => simpa [hun, hask] using hlook

end

/-- A file of one block, at logical block 5. -/
def oneBlockFile : BlockMap where
  fork := ⟨1, ⟨100, 5, 1⟩ :: List.replicate 8 ExtentInfo.zero, 1, rfl⟩
  exttree := []

theorem oneBlockFile_mapInv : MapInv oneBlockFile [⟨100, 5, 1⟩] (lookup [⟨100, 5, 1⟩]) where
  slots := ⟨rfl, rfl⟩
  list := ⟨⟨by decide, by decide⟩, by decide, fun _ => rfl⟩
  full h := absurd rfl h
  total_eq := rfl
  total_lt := by decide

theorem oneBlockFile_inRange : oneBlockFile.InRange [⟨100, 5, 1⟩] (lookup [⟨100, 5, 1⟩]) where
  logical := by decide
  physical x block h := by
    obtain ⟨e, he, hcov, rfl⟩ := oneBlockFile_mapInv.list.ordered.lookup_eq_some_iff.mp h
    obtain rfl := List.mem_singleton.mp he
    simp only [Extent.Covers] at hcov
    simp only [Extent.phys]
    omega

theorem oneBlockFile_block_safe : BlockSafe (lookup [⟨100, 5, 1⟩]) 5
    (vdfs4GetBlockFileBased oneBlockFile none ⟨7, 3, 1⟩ 5) :=
  (file_based_block_iff oneBlockFile_mapInv oneBlockFile_inRange (by decide) none ⟨7, 3, 1⟩).mpr
    (.inl (by decide))

/-- Behind the last block, **block 2 of the volume** is returned for page 7; and for a file
without blocks what the stack held. -/
theorem unmapped_page_gets_block :
    vdfs4GetBlockFileBased oneBlockFile none ExtentInfo.zero 7 = .ok 2 ∧
      ¬ BlockSafe (lookup [⟨100, 5, 1⟩]) 7
        (vdfs4GetBlockFileBased oneBlockFile none ExtentInfo.zero 7) ∧
      ¬ BlockSafe (fun _ => none) 0 (vdfs4GetBlockFileBased BlockMap.empty none ⟨7, 3, 1⟩ 0) := by
  have hok : vdfs4GetBlockFileBased oneBlockFile none ExtentInfo.zero 7 = .ok 2 := by decide +kernel
  have hempty : vdfs4GetBlockFileBased BlockMap.empty none ⟨7, 3, 1⟩ 0 = .ok 4 := by decide +kernel
  refine ⟨hok, fun h => ?_, fun h => ?_⟩
  · exact absurd (h 2 hok (by decide)) (by decide)
  · exact absurd (h 4 hempty (by decide)) (by decide)

end Vdfs4
