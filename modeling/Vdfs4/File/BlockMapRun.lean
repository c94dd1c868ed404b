import Vdfs4.Lib.Run
import Vdfs4.File.BlockMapInvariant

/-!
# A file's block map is a finite map

Runs of `insert_extent` on ranges not yet mapped and of `vdfs4_truncate_blocks`, from an
empty fork, with the finite map from logical to physical blocks as the **specification**
beside the code's state.

* `FileMap` — what the block map looks like from outside: lookups, the order of slots and
  records, blank slots, the block counter.
* `fileStep`, `MapOp.Allowed` — the system.
* `blockMap_refines` — in every run whose truncations reach the records they have to
  remove, the code's map is the specification.
* `truncate_leaves_records` — the search for the **last record** starts at
  `IBLOCK_MAX_NUMBER`, so a record behind it is never removed.
-/

namespace Vdfs4

open ExtentMap GuardedRun List Option

/-! ### Lookups -/

section lookup

variable {m : BlockMap} {used tree : List ExtentInfo} {M : Nat → Option Nat} {r : ExtentInfo}
  {x : Nat}

/-- The record `exttreeFind` finds: every other one that starts at or before the block
ends before it. -/
theorem exttreeFind_eq_some (hord : Ordered tree) (h : exttreeFind tree x = some r) :
    r ∈ tree ∧ ∀ r' ∈ tree, r'.Covers x → r' = r := by
  obtain ⟨l, hl⟩ := getLast?_eq_some_iff.mp h
  have hr : r ∈ tree := mem_of_mem_filter (mem_of_getLast? h)
  refine ⟨hr, fun r' hr' hcov => ?_⟩
  have hmem : r' ∈ l ++ [r] := by
    rw [← hl]
    exact mem_filter.mpr ⟨hr', by simpa using hcov.1⟩
  rcases mem_append.mp hmem with hmem | hmem
  · -- a record before the last one ends before it
    have hord' : Ordered (l ++ [r]) := by
      rw [← hl]
      exact hord.of_sublist filter_sublist
    have hle := (Ordered.append_iff.mp hord').2.2 r' hmem r mem_cons_self
    have hrx : r.iblock ≤ x := by
      have : r ∈ tree.filter fun r => r.iblock ≤ x := mem_of_getLast? h
      simpa using (mem_filter.mp this).2
    obtain ⟨-, hlt⟩ := hcov
    unfold Extent.stop at hle
    omega
  · exact mem_singleton.mp hmem

theorem exttreeFind_eq_none (h : exttreeFind tree x = none) : ∀ r ∈ tree, ¬ r.Covers x := by
  intro r hr hcov
  have hnil := getLast?_eq_none_iff.mp h
  have hmem : r ∈ tree.filter fun r => r.iblock ≤ x := mem_filter.mpr ⟨hr, by
    simpa using hcov.1⟩
  rw [hnil] at hmem
  cases hmem

/-- A list without blocks is empty. -/
theorem eq_nil_of_total_eq_zero {l : List ExtentInfo} (hord : Ordered l) (h : total l = 0) :
    l = [] := by
  cases l with
  | nil => rfl
  | cons e l =>
    have := hord.pos e mem_cons_self
    rw [total_cons] at h
    omega

/-- A file without blocks has no extents. -/
theorem MapInv.eq_nil (hinv : MapInv m used M)
    (h : m.fork.totalBlockCount = 0 ∨ m.fork.usedExtents = 0) : used ++ m.exttree = [] := by
  rcases h with h | h
  · exact eq_nil_of_total_eq_zero hinv.list.ordered (hinv.total_eq.symm.trans h)
  rw [hinv.slots.usedExtents] at h
  have htree : m.exttree = [] := by
    by_contra htree
    rw [hinv.full htree] at h
    cases h
  rw [htree, length_eq_zero_iff.mp h]
  rfl

/-- **`vdfs4_get_iblock_extent`** gives the extent of a mapped block. For another one it gives
no first block, in an extent that is left as it was or is some **other** one. -/
theorem vdfs4GetIblockExtent_spec (hinv : MapInv m used M) (x : Nat) :
    (∃ e ∈ used ++ m.exttree, e.Covers x ∧ (vdfs4GetIblockExtent m x).1 = e ∧
      M x = some (e.phys x)) ∨
    M x = none ∧ ((m.fork.totalBlockCount = 0 ∨ m.fork.usedExtents = 0) ∧
        (vdfs4GetIblockExtent m x).1 = ExtentInfo.zero ∨
      ∃ e ∈ used ++ m.exttree, ¬ e.Covers x ∧
        (vdfs4GetIblockExtent m x).1 = { e with firstBlock := 0 }) := by
  have hsome : ∀ e ∈ used ++ m.exttree, e.Covers x → M x = some (e.phys x) := fun e he hx => by
    rw [← hinv.list.lookup_eq, hinv.list.ordered.lookup_of_mem he hx]
  have hnone : (∀ e ∈ used ++ m.exttree, ¬ e.Covers x) → M x = none := fun h => by
    rw [← hinv.list.lookup_eq, lookup_eq_none_iff]
    exact h
  unfold vdfs4GetIblockExtent
  split
  · -- no blocks
    rename_i hempty
    refine .inr ⟨hnone fun e he => ?_, .inl ⟨hempty, rfl⟩⟩
    rw [hinv.eq_nil hempty] at he
    cases he
  rename_i hempty
  rw [not_or] at hempty
  have hpos : used.length - 1 < used.length := by
    have := hinv.slots.usedExtents
    omega
  rw [hinv.slots.take_usedExtents]
  split
  · -- a used slot
    rename_i e hfind
    have he : e ∈ used ++ m.exttree := mem_append_left _ (mem_of_find?_eq_some hfind)
    have hx : e.Covers x := by simpa using find?_some hfind
    exact .inl ⟨e, he, hx, rfl, hsome e he hx⟩
  rename_i hfind
  have hslots : ∀ e ∈ used, ¬ e.Covers x := by simpa using hfind
  have hrest : (∀ r ∈ m.exttree, ¬ r.Covers x) → M x = none := fun h => hnone fun e he =>
    (mem_append.mp he).elim (hslots e) (h e)
  have hlast : ∃ e ∈ used ++ m.exttree, ¬ e.Covers x ∧ m.fork.slot (used.length - 1) = e := by
    rw [hinv.slots.slot_eq_getElem hpos]
    have hmem := getElem_mem hpos
    exact ⟨_, mem_append_left _ hmem, hslots _ hmem, rfl⟩
  split
  · -- a fork that is not full has no records
    rename_i hlt
    obtain ⟨e, he, hx, hslot⟩ := hlast
    rw [hinv.slots.usedExtents, hslot]
    refine .inr ⟨hrest fun r hr => ?_, .inr ⟨e, he, hx, rfl⟩⟩
    rw [hinv.slots.usedExtents] at hlt
    refine absurd (hinv.full fun h => ?_) (Nat.ne_of_lt hlt)
    rw [h] at hr
    cases hr
  · have hord := (Ordered.append_iff.mp hinv.list.ordered).2.1
    rcases hfound : exttreeFind m.exttree x with _ | r
    · rename_i hfull
      have hlen : extentsCountInFork = used.length := by
        have := hinv.slots.length_le
        have := hinv.slots.usedExtents
        omega
      obtain ⟨e, he, hx, hslot⟩ := hlast
      simp only [vdfs4ExttreeGetExtent, hfound, getD_none]
      rw [hlen, hslot]
      exact .inr ⟨hrest (exttreeFind_eq_none hfound), .inr ⟨e, he, hx, rfl⟩⟩
    · obtain ⟨hr, honly⟩ := exttreeFind_eq_some hord hfound
      have hmem : r ∈ used ++ m.exttree := mem_append_right _ hr
      simp only [vdfs4ExttreeGetExtent, hfound, getD_some,
        if_neg (hinv.list.first_ne r hmem)]
      split
      · rename_i hx
        exact .inl ⟨r, hmem, hx, rfl, hsome r hmem hx⟩
      · rename_i hx
        refine .inr ⟨hrest fun r' hr' hx' => hx ?_, .inr ⟨r, hmem, hx, rfl⟩⟩
        rwa [← honly r' hr' hx']

/-- There is no first block for a block that is not mapped. -/
theorem vdfs4GetIblockExtent_firstBlock (hinv : MapInv m used M) (hM : M x = none) :
    (vdfs4GetIblockExtent m x).1.firstBlock = 0 := by
  rcases vdfs4GetIblockExtent_spec hinv x with
    ⟨e, -, -, -, hsome⟩ | ⟨-, ⟨-, hget⟩ | ⟨e, -, -, hget⟩⟩
  · rw [hM] at hsome
    cases hsome
  · rw [hget]
    rfl
  · rw [hget]

end lookup

/-! ### The block map from outside -/

/-- The block map of a file is the finite map `M`. -/
structure FileMap (m : BlockMap) (M : Nat → Option Nat) : Prop where
  /-- a first block is returned exactly for the mapped blocks -/
  get_ne_zero_iff : ∀ x, (vdfs4GetIblockExtent m x).1.firstBlock ≠ 0 ↔ (M x).isSome = true
  /-- and then the extent gives the place -/
  get_phys : ∀ x p, M x = some p →
    (vdfs4GetIblockExtent m x).1.iblock ≤ x ∧
      (vdfs4GetIblockExtent m x).1.firstBlock + (x - (vdfs4GetIblockExtent m x).1.iblock) = p
  /-- the used slots are sorted and disjoint -/
  fork_sorted : (m.fork.extents.take m.fork.usedExtents).Pairwise fun a b => a.stop ≤ b.iblock
  /-- every record starts behind every used slot -/
  tree_behind : ∀ e ∈ m.fork.extents.take m.fork.usedExtents, ∀ r ∈ m.exttree, e.stop ≤ r.iblock
  /-- there are records behind a full fork only -/
  tree_full : m.exttree ≠ [] → m.fork.usedExtents = extentsCountInFork
  /-- unused slots are blank -/
  unused_zero : ∀ i, m.fork.usedExtents ≤ i → i < extentsCountInFork →
    m.fork.slot i = ExtentInfo.zero
  /-- the counter is the number of mapped blocks -/
  finite_mapped : {x | (M x).isSome = true}.Finite
  total_eq_ncard : m.fork.totalBlockCount = {x | (M x).isSome = true}.ncard

/-- The invariant seen from outside. -/
theorem MapInv.fileMap {m : BlockMap} {used : List ExtentInfo} {M : Nat → Option Nat}
    (hinv : MapInv m used M) : FileMap m M := by
  obtain ⟨hused, -, hbehind⟩ := Ordered.append_iff.mp hinv.list.ordered
  obtain ⟨hfin, hcard⟩ := hinv.list.ordered.ncard_mapped
  simp only [hinv.list.lookup_eq] at hfin hcard
  refine ⟨fun x => ?_, fun x p hp => ?_, ?_, ?_, ?_, fun i hi _ => ?_, hfin, ?_⟩
  · rcases vdfs4GetIblockExtent_spec hinv x with ⟨e, he, -, hget, hM⟩ | ⟨hM, -⟩
    · rw [hget, hM]
      simpa using hinv.list.first_ne e he
    · simp [vdfs4GetIblockExtent_firstBlock hinv hM, hM]
  · rcases vdfs4GetIblockExtent_spec hinv x with ⟨e, -, hx, hget, hM⟩ | ⟨hM, -⟩
    · rw [hM, some.injEq] at hp
      rw [hget]
      exact ⟨hx.1, hp⟩
    · rw [hM] at hp
      cases hp
  · rw [hinv.slots.take_usedExtents]
    exact hused.sorted
  · rw [hinv.slots.take_usedExtents]
    exact hbehind
  · rw [hinv.slots.usedExtents]
    exact hinv.full
  · rw [hinv.slots.usedExtents] at hi
    exact hinv.slots.slot_eq_zero hi
  · rw [hcard, hinv.total_eq]

/-! ### Runs -/

/-- The specification of a truncation: what is left before the new size. -/
def restrictTo (M : Nat → Option Nat) (newSize : Nat) : Nat → Option Nat :=
  fun x => if x < newSize then M x else none

/-- A file: the code's block map and the specification. -/
structure FileState where
  map : BlockMap
  spec : Nat → Option Nat

/-- A file without blocks. -/
def FileState.empty : FileState := ⟨BlockMap.empty, fun _ => none⟩

/-- What happens to the block map: a call of `insert_extent` (the erase it may ask for can
fail) or of `vdfs4_truncate_blocks` (each return of blocks can fail). -/
inductive MapOp where
  | insert (extent : ExtentInfo) (eraseError : Option Errno)
  | truncate (newSize : Nat) (putError : Nat → Option Errno)

/-- One call, on the code's map and on the specification. A truncation that stops early
has unmapped the ranges it gave back. -/
def fileStep (st : FileState) : MapOp → Option FileState
  | .insert extent eraseError =>
    match insertExtent st.map extent eraseError none with
    | .error _ => some st
    | .ok m => some ⟨m, mapExtent st.spec extent⟩
  | .truncate newSize putError =>
    let t := vdfs4TruncateBlockMap st.map newSize putError []
    some ⟨t.map, if t.error = none then restrictTo st.spec newSize
      else unmapAll st.spec t.freed⟩

/-- The calls of a run: insertions of ranges that are not mapped, and any truncation. -/
def MapOp.Allowed (st : FileState) : MapOp → Prop
  | .insert extent _ => Unmapped st.spec extent
  | .truncate _ _ => True

/-- The allowed calls the code is right for: the file stays below `2 ^ 32` blocks, the logical
blocks are 64 bit numbers, and a truncation finds the records it has to remove. -/
def MapOp.InReach (st : FileState) (op : MapOp) : Prop :=
  op.Allowed st ∧
    match op with
    | .insert extent _ => st.map.fork.totalBlockCount + extent.blockCount < 2 ^ 32 ∧
      extent.iblock + extent.blockCount < 2 ^ 64
    | .truncate newSize _ => TreeInReach st.map newSize

instance (M : Nat → Option Nat) (e : ExtentInfo) : Decidable (Unmapped M e) :=
  decidable_of_iff (0 < e.blockCount ∧ e.firstBlock ≠ 0 ∧
      ∀ k < e.blockCount, M (e.iblock + k) = none) <| by
    refine ⟨fun ⟨hpos, hfirst, hfresh⟩ => ⟨hpos, hfirst, fun x hx => ?_⟩,
      fun h => ⟨h.pos, h.first_ne, fun k hk => h.fresh _ ⟨by omega, by omega⟩⟩⟩
    obtain ⟨hlo, hhi⟩ := hx
    rw [← Nat.add_sub_of_le hlo]
    exact hfresh _ (by omega)

instance (st : FileState) (op : MapOp) : Decidable (op.Allowed st) :=
  match op with
  | .insert extent _ => inferInstanceAs (Decidable (Unmapped st.spec extent))
  | .truncate _ _ => inferInstanceAs (Decidable True)

instance (st : FileState) (op : MapOp) : Decidable (op.InReach st) :=
  match op with
  | .insert _ _ => inferInstanceAs (Decidable (_ ∧ _ < _ ∧ _ < _))
  | .truncate newSize _ => inferInstanceAs (Decidable (_ ∧ TreeInReach st.map newSize))

/-- An insertion whose erase fails does nothing. -/
theorem insertExtent_eraseError {m : BlockMap} {e : ExtentInfo} {err : Errno}
    {treeError : Option Errno} : insertExtent m e (some err) treeError = .error err :=
  rfl

/-- **One call keeps the invariant.** -/
theorem fileStep_mapInv {st st' : FileState} {op : MapOp}
    (hinv : ∃ used, MapInv st.map used st.spec) (hok : op.InReach st)
    (hstep : fileStep st op = some st') : ∃ used, MapInv st'.map used st'.spec := by
  obtain ⟨used, hinv⟩ := hinv
  cases op with
  | insert extent eraseError =>
    rcases eraseError with _ | err
    · obtain ⟨m', used', hins, hinv'⟩ := insertExtent_mapInv hinv ⟨hok.1, hok.2.1⟩
      simp only [fileStep, hins, some.injEq] at hstep
      subst hstep
      exact ⟨used', hinv'⟩
    · simp only [fileStep, insertExtent_eraseError, some.injEq] at hstep
      subst hstep
      exact ⟨used, hinv⟩
  | truncate newSize putError =>
    obtain ⟨used', t, ht, hspec⟩ := vdfs4TruncateBlockMap_spec putError hinv hok.2
    simp only [fileStep, ht, some.injEq] at hstep
    subst hstep
    refine ⟨used', ?_⟩
    split
    · -- without an error nothing behind the new size is left
      rename_i herr
      have hrestrict : unmapAll st.spec t.freed = restrictTo st.spec newSize := by
        funext x
        unfold restrictTo
        split
        · rename_i hx
          refine unmapAll_of_not_covers fun e he hcov => ?_
          have := hspec.behind e he
          exact absurd (hcov.1.trans_lt hx) (Nat.not_lt.mpr this)
        · rename_i hx
          rw [← hspec.inv.list.lookup_eq, lookup_eq_none_iff]
          intro e he hcov
          exact hx (hcov.2.trans_le (hspec.done herr e he))
      rw [← hrestrict]
      exact hspec.inv
    · exact hspec.inv

/-- **A file's block map is a finite map**: in every run from an empty fork whose calls
are in reach, the code's map is the specification. -/
theorem blockMap_refines {st : FileState}
    (h : Reaches (fun st op => MapOp.InReach st op) fileStep FileState.empty st) :
    FileMap st.map st.spec := by
  obtain ⟨used, hinv⟩ := h.invariant (I := fun st => ∃ used, MapInv st.map used st.spec)
    ⟨[], mapInv_empty⟩ fun _ _ _ hinv hok hstep => fileStep_mapInv hinv hok hstep
  exact hinv.fileMap

/-- Ten separate extents at even logical blocks, the last one at logical block `last`. -/
def scattered (last : Nat) : List MapOp :=
  (List.range 9).map (fun i => .insert ⟨100 + 10 * i, 2 * i, 1⟩ none) ++
    [.insert ⟨500, last, 1⟩ none]

/-- Ten extents, an insertion in the middle that pushes a slot out, and a truncation
that cuts. -/
def sampleFile : Option FileState :=
  guardedRun (fun st op => MapOp.InReach st op) fileStep
    (scattered 30 ++ [.insert ⟨700, 9, 1⟩ none, .insert ⟨800, 40, 4⟩ none,
      .truncate 42 fun _ => none]) FileState.empty

/-- In the sample the overflow tree has three records, and the last one is cut. -/
theorem blockMap_refines_sample :
    ∃ st ∈ sampleFile, st.map.exttree = [⟨180, 16, 1⟩, ⟨500, 30, 1⟩, ⟨800, 40, 2⟩] ∧
      st.spec 41 = some 801 ∧ FileMap st.map st.spec := by
  have hsome : sampleFile.isSome = true := by decide +kernel
  obtain ⟨st, hst⟩ := isSome_iff_exists.mp hsome
  have hmap : sampleFile.map (fun st => (st.map.exttree, st.spec 41)) =
      some ([⟨180, 16, 1⟩, ⟨500, 30, 1⟩, ⟨800, 40, 2⟩], some 801) := by decide +kernel
  rw [hst, map_some, some.injEq, Prod.mk.injEq] at hmap
  exact ⟨st, hst, hmap.1, hmap.2, blockMap_refines (reaches_of_guardedRun hst)⟩

/-- A record at logical block `2 ^ 32`, then a truncation to nothing. -/
def farFile : Option FileState :=
  guardedRun (fun st op => MapOp.Allowed st op) fileStep
    (scattered (2 ^ 32) ++ [.truncate 0 fun _ => none]) FileState.empty

/-- **Truncation leaves records behind `IBLOCK_MAX_NUMBER`**: the file is truncated to
nothing, its fork is empty, and the record is still there and still counted. -/
theorem truncate_leaves_records :
    ∃ st, Reaches (fun st op => MapOp.Allowed st op) fileStep FileState.empty st ∧
      st.map.fork.usedExtents = 0 ∧ st.map.exttree = [⟨500, 2 ^ 32, 1⟩] ∧
      st.map.fork.totalBlockCount = 1 ∧ st.spec (2 ^ 32) = none ∧
      ¬ FileMap st.map st.spec := by
  have hsome : farFile.isSome = true := by decide +kernel
  obtain ⟨st, hst⟩ := isSome_iff_exists.mp hsome
  have hmap : farFile.map (fun st => (st.map.fork.usedExtents, st.map.exttree,
      st.map.fork.totalBlockCount, st.spec (2 ^ 32))) =
      some (0, [⟨500, 2 ^ 32, 1⟩], 1, none) := by decide +kernel
  rw [hst] at hmap
  simp only [map_some, some.injEq, Prod.mk.injEq] at hmap
  obtain ⟨hused, htree, htotal, hspec⟩ := hmap
  refine ⟨st, reaches_of_guardedRun hst, hused, htree, htotal, hspec, fun hfile => ?_⟩
  have hfull := hfile.tree_full (by rw [htree]; exact cons_ne_nil _ _)
  rw [hused] at hfull
  exact absurd hfull (by decide)

end Vdfs4
