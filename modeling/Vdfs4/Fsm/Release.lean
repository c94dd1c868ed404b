import Vdfs4.Fsm.Allocate
import Vdfs4.Fsm.EraseCounters

/-!
# What a release, a commit and a mount do

* `Marked` — the state after `vdfs4_fsm_get_free_block` handed out a range.
* `Released` — the state after `vdfs4_fsm_put_free_block` of a range in use.
* `Committed` — the state after `vdfs4_commit_free_space`.
* `vdfs4FsmBuildManagement_spec` — the state of a mounted volume.
-/

namespace Vdfs4

open RunSet FsmInfo Finset

variable {g : FsmGeometry} {o : FsmOracle} {fsm : FsmInfo} {data : Bitmap} {lengthInBlocks : Nat}

/-! ### The free blocks -/

/-- A range that is marked is not free any more. -/
theorem zeroBelow_setRange {d pos len : Nat} :
    zeroBelow (data.setRange pos len) d = zeroBelow data d \ Finset.Ico pos (pos + len) := by
  ext x
  rw [mem_sdiff, mem_zeroBelow, mem_zeroBelow, mem_Ico, Bitmap.setRange]
  split
  · rename_i hx
    simp [hx]
  · rename_i hx
    simp [hx]

/-- A range of the volume that is released is free. -/
theorem zeroBelow_clearRange {d pos len : Nat} (hle : pos + len ≤ d) :
    zeroBelow (data.clearRange pos len) d = zeroBelow data d ∪ Finset.Ico pos (pos + len) := by
  ext x
  rw [mem_union, mem_zeroBelow, mem_zeroBelow, mem_Ico, Bitmap.clearRange]
  split
  · rename_i hx
    simp only [hx, and_true, or_true, iff_true]
    omega
  · rename_i hx
    simp [hx]

/-! ### Allocation -/

/-- A range was handed out. -/
structure Marked (g : FsmGeometry) (fsm fsm' : FsmInfo) (pos len : Nat) : Prop where
  trees : TreesInv g fsm'
  data_eq : fsm'.data = fsm.data.setRange pos len
  next_eq : fsm'.nextFreeList = fsm.nextFreeList
  /-- the blocks were free and not pending -/
  range : ∀ x, pos ≤ x → x < pos + len →
    x ∈ zeroBelow fsm.data g.volumeBlocksCount ∧ x ∉ covered fsm.nextFreeList

/-- The trees after a range was taken and marked. -/
theorem Taken.marked {fsm1 fsm2 : FsmInfo} {pos len : Nat} (h : TreesInv g fsm)
    (hprep : Prepared g o fsm fsm1) (htaken : Taken fsm1 fsm2 pos len) (hlen : 0 < len)
    (delayed : Bool) (counters : List Nat) :
    Marked g fsm (fsm2.markRange delayed pos len counters) pos len := by
  obtain ⟨hdata, hlist, -⟩ := hprep.frame
  have h1 := hprep.trees h
  have h2 := htaken.trees h1
  have hdata2 : fsm2.data = fsm.data := by rw [htaken.frame, ← hdata]
  have hlist2 : fsm2.nextFreeList = fsm.nextFreeList := by rw [htaken.frame, ← hlist]
  have hrange : ∀ x, pos ≤ x → x < pos + len →
      x ∈ zeroBelow fsm.data g.volumeBlocksCount ∧ x ∉ covered fsm.nextFreeList := by
    intro x hlo hhi
    have hmem := htaken.range x hlo hhi
    exact ⟨hdata ▸ h1.tree_free hmem, hlist ▸ h1.disjoint x hmem⟩
  have hcast : pos % 2 ^ 32 = pos := by
    have := (mem_zeroBelow.mp (hrange pos le_rfl (by omega)).1).1
    have hsmall := h.small
    exact Nat.mod_eq_of_lt (by omega)
  have ht := h2.tree
  have hn := h2.next
  refine ⟨⟨⟨ht.separated, ht.sorted, ht.hashed, ht.nodup, ht.nodes⟩,
    ⟨hn.separated, hn.nodes, hn.blocks⟩, fun x hx => ?_, fun x hx => ?_, h2.disjoint, h.small⟩,
    by rw [← hdata2, markRange, hcast], hlist2, hrange⟩
  · -- the tree gave up the range
    simp only [markRange, hcast, zeroBelow_setRange, mem_sdiff, mem_Ico]
    exact ⟨h2.tree_free hx, (htaken.sub x hx).2⟩
  · -- the range was not pending
    simp only [markRange, hcast, zeroBelow_setRange, mem_sdiff, mem_Ico]
    have hx' : x ∈ covered fsm2.nextFreeList := hx
    refine ⟨h2.next_free hx', fun hin => (hrange x hin.1 hin.2).2 ?_⟩
    rwa [← hlist2]

/-! ### Release -/

/-- A range to release: some blocks of the volume, all in use. -/
structure PutOk (g : FsmGeometry) (fsm : FsmInfo) (blockOffset lengthInBlocks : Nat) : Prop where
  pos : 0 < lengthInBlocks
  volume : blockOffset + lengthInBlocks ≤ g.volumeBlocksCount
  set : fsm.data.allSet blockOffset lengthInBlocks = true

/-- A range was released. -/
structure Released (g : FsmGeometry) (o : FsmOracle) (fsm fsm' : FsmInfo)
    (blockOffset lengthInBlocks : Nat) (flags : FsmFreeFlags) : Prop where
  trees : TreesInv g fsm'
  data_eq : fsm'.data = fsm.data.clearRange blockOffset lengthInBlocks
  area_eq : fsm'.freeArea = fsm.freeArea
  reserved_eq : fsm'.reservedBlocksCount = fsm.reservedBlocksCount +
    if flags.reserve then (lengthInBlocks : Int) else 0
  free_eq : fsm'.freeBlocksCount = fsm.freeBlocksCount +
    if flags.reserve = false ∧ flags.unused = true then (lengthInBlocks : Int) else 0
  untracked_eq : fsm'.untrackedBlocks = fsm.untrackedBlocks +
    if flags.unused then (lengthInBlocks : Int) else 0
  next_eq : fsm'.nextFreeBlocks = fsm.nextFreeBlocks +
    if flags.unused then 0 else (lengthInBlocks : Int)
  untrackedNext_ge : fsm.untrackedNextFree ≤ fsm'.untrackedNextFree
  pending_sub : covered fsm.nextFreeList ⊆ covered fsm'.nextFreeList
  /-- an unused range is not pending; another one is when there was a node for it -/
  unused : flags.unused = true → fsm'.nextFreeList = fsm.nextFreeList
  pending : flags.unused = false → o.allocNode blockOffset = true →
    covered fsm'.nextFreeList = covered fsm.nextFreeList ∪
      Finset.Ico blockOffset (blockOffset + lengthInBlocks)

/-- The trees when a range is released: the new tree of pending extents is given. -/
theorem TreesInv.release {fsm' : FsmInfo} {blockOffset : Nat} (h : TreesInv g fsm)
    (hvol : blockOffset + lengthInBlocks ≤ g.volumeBlocksCount)
    (hset : ∀ x, blockOffset ≤ x → x < blockOffset + lengthInBlocks → fsm.data x = true)
    (htree : TreeInv fsm' none) (hnext : NextInv fsm') (harea : fsm'.freeArea = fsm.freeArea)
    (hdata : fsm'.data = fsm.data.clearRange blockOffset lengthInBlocks)
    (hsub : covered fsm'.nextFreeList ⊆
      covered fsm.nextFreeList ∪ Finset.Ico blockOffset (blockOffset + lengthInBlocks)) :
    TreesInv g fsm' := by
  refine ⟨htree, hnext, ?_, ?_, fun x hx hx' => ?_, h.small⟩
  · rw [harea, hdata, zeroBelow_clearRange hvol]
    exact h.tree_free.trans subset_union_left
  · rw [hdata, zeroBelow_clearRange hvol]
    exact hsub.trans (union_subset_union_left h.next_free)
  · rw [harea] at hx
    rcases mem_union.mp (hsub hx') with hmem | hmem
    · exact h.disjoint x hx hmem
    · -- a block in use is not in the tree
      obtain ⟨hlo, hhi⟩ := mem_Ico.mp hmem
      obtain ⟨-, hclear⟩ := mem_zeroBelow.mp (h.tree_free hx)
      rw [hset x hlo hhi] at hclear
      cases hclear

/-- **`vdfs4_fsm_put_free_block`** of a range in use: only the erase block counters could stop
it. -/
theorem vdfs4FsmPutFreeBlock_spec (o : FsmOracle) {blockOffset : Nat} (flags : FsmFreeFlags)
    (h : TreesInv g fsm) (hok : PutOk g fsm blockOffset lengthInBlocks) :
    ∃ fsm' : FsmInfo, fsm.vdfs4FsmPutFreeBlock g o blockOffset lengthInBlocks flags =
        (fsmDecEraseBlocksCounters g fsm.eraseBlocksCounters blockOffset lengthInBlocks).map
          (fun counters => { fsm' with eraseBlocksCounters := counters }) ∧
      ∀ counters, Released g o fsm { fsm' with eraseBlocksCounters := counters } blockOffset
        lengthInBlocks flags := by
  obtain ⟨hpos, hvol, hall⟩ := hok
  have hset := Bitmap.allSet_eq_true.mp hall
  have ht := h.tree
  have hn := h.next
  have hsmall := h.small
  have hcast : blockOffset % 2 ^ 32 = blockOffset := Nat.mod_eq_of_lt (by omega)
  unfold vdfs4FsmPutFreeBlock
  simp only [hcast, hall]
  rw [if_neg (by omega), if_neg (by simp)]
  -- the bitmap and the two counters of the superblock
  obtain ⟨base, hbase⟩ : ∃ base : FsmInfo, base = { fsm with
      data := fsm.data.clearRange blockOffset lengthInBlocks
      reservedBlocksCount := fsm.reservedBlocksCount +
        if flags.reserve then (lengthInBlocks : Int) else 0
      freeBlocksCount := fsm.freeBlocksCount +
        if flags.reserve = false ∧ flags.unused = true then (lengthInBlocks : Int) else 0 } :=
    ⟨_, rfl⟩
  have hsuper : (if flags.reserve then
        { fsm with
          data := fsm.data.clearRange blockOffset lengthInBlocks
          reservedBlocksCount := fsm.reservedBlocksCount + lengthInBlocks }
      else if flags.unused then
        { fsm with
          data := fsm.data.clearRange blockOffset lengthInBlocks
          freeBlocksCount := fsm.freeBlocksCount + lengthInBlocks }
      else { fsm with data := fsm.data.clearRange blockOffset lengthInBlocks }) = base := by
    rw [hbase]
    obtain ⟨unused, reserve⟩ := flags
    cases unused <;> cases reserve <;> simp
  rw [hsuper]
  have htree : TreeInv base none := by
    rw [hbase]
    exact ⟨ht.separated, ht.sorted, ht.hashed, ht.nodup, ht.nodes⟩
  have hnext : NextInv base := by
    rw [hbase]
    exact ⟨hn.separated, hn.nodes, hn.blocks⟩
  cases hunused : flags.unused with
  | true =>
    simp only [if_true]
    refine ⟨base.addUntracked lengthInBlocks, by rw [hbase]; rfl, fun counters => ?_⟩
    have hlist : base.nextFreeList = fsm.nextFreeList := by rw [hbase]
    refine ⟨h.release hvol hset
      ⟨htree.separated, htree.sorted, htree.hashed, htree.nodup, htree.nodes⟩
      ⟨hnext.separated, hnext.nodes, hnext.blocks⟩ (by rw [hbase]; rfl) (by rw [hbase]; rfl) ?_,
      by rw [hbase]; rfl, by rw [hbase]; rfl, by rw [hbase]; rfl, by rw [hbase]; rfl, ?_, ?_,
      by rw [hbase]; exact le_rfl, ?_, fun _ => hlist, fun hno => ?_⟩
    · show covered base.nextFreeList ⊆ _
      rw [hlist]
      exact subset_union_left
    · rw [hunused, hbase]
      rfl
    · rw [hunused, hbase]
      simp [addUntracked]
    · show _ ⊆ covered base.nextFreeList
      rw [hlist]
    · rw [hunused] at hno
      cases hno
  | false =>
    simp only [Bool.false_eq_true, if_false]
    -- a block in use is not pending
    have hnot : ∀ x, (⟨blockOffset, lengthInBlocks⟩ : FsmNode).Has x →
        x ∉ covered base.nextFreeList := by
      rintro x ⟨hlo, hhi⟩ hmem
      rw [hbase] at hmem
      obtain ⟨-, hclear⟩ := mem_zeroBelow.mp (h.next_free hmem)
      rw [hset x hlo hhi] at hclear
      cases hclear
    have hfits : covered (⟨blockOffset, lengthInBlocks⟩ :: base.nextFreeList) ⊆ blocks32 := by
      rw [hbase, covered_cons]
      refine union_subset (fun x hx => ?_)
        (h.next_free.trans (zeroBelow_subset_blocks32 hsmall))
      have : x < blockOffset + lengthInBlocks := (mem_Ico.mp hx).2
      exact mem_range.mpr (by omega)
    obtain ⟨fsm', hadd, honly, hnext', hblocks, hcases⟩ :=
      fsmAddFreeSpace_spec o hnext hpos hnot hfits
    simp only at hadd hcases
    have hlist : base.nextFreeList = fsm.nextFreeList := by rw [hbase]
    have htree' : TreeInv fsm' none := by
      rw [honly]
      exact ⟨htree.separated, htree.sorted, htree.hashed, htree.nodup, htree.nodes⟩
    have hcounters : fsm'.eraseBlocksCounters = fsm.eraseBlocksCounters := by rw [honly, hbase]
    rw [hadd, hcounters]
    have huntracked : fsm.untrackedNextFree ≤ fsm'.untrackedNextFree := by
      have heq : base.untrackedNextFree = fsm.untrackedNextFree := by rw [hbase]
      rcases hcases with ⟨-, h1⟩ | ⟨-, -, h1⟩ <;> omega
    rw [hlist] at hcases
    have hsub : covered fsm'.nextFreeList ⊆ covered fsm.nextFreeList ∪
        Finset.Ico blockOffset (blockOffset + lengthInBlocks) := by
      rcases hcases with ⟨hcov, -⟩ | ⟨-, heq, -⟩
      · exact hcov.subset
      · rw [heq]
        exact subset_union_left
    have hsub' : covered fsm.nextFreeList ⊆ covered fsm'.nextFreeList := by
      rcases hcases with ⟨hcov, -⟩ | ⟨-, heq, -⟩
      · rw [hcov]
        exact subset_union_left
      · rw [heq]
    have hpending : o.allocNode blockOffset = true → covered fsm'.nextFreeList =
        covered fsm.nextFreeList ∪ Finset.Ico blockOffset (blockOffset + lengthInBlocks) := by
      intro halloc
      rcases hcases with ⟨hcov, -⟩ | ⟨hfail, -, -⟩
      · exact hcov
      · rw [halloc] at hfail
        cases hfail
    refine ⟨fsm', rfl, fun counters => ⟨h.release hvol hset
      ⟨htree'.separated, htree'.sorted, htree'.hashed, htree'.nodup, htree'.nodes⟩
      ⟨hnext'.separated, hnext'.nodes, hnext'.blocks⟩ ?_ ?_ hsub, ?_, ?_, ?_, ?_, ?_, ?_,
      huntracked, hsub', fun hyes => ?_, fun _ => hpending⟩⟩
    all_goals try (simp only; rw [honly, hbase])
    · simp [hunused]
    · simp only
      rw [hblocks, hunused, hbase]
      simp
    · rw [hunused] at hyes
      cases hyes

/-! ### Commit -/

/-- The pending blocks were committed. -/
structure Committed (g : FsmGeometry) (fsm fsm' : FsmInfo) : Prop where
  trees : TreesInv g fsm'
  data_eq : fsm'.data = fsm.data
  next_nil : fsm'.nextFreeList = []
  next_eq : fsm'.nextFreeBlocks = 0
  reserved_eq : fsm'.reservedBlocksCount = fsm.reservedBlocksCount
  free_eq : fsm'.freeBlocksCount = fsm.freeBlocksCount + fsm.nextFreeBlocks
  size_eq : (size fsm'.freeArea : Int) + fsm'.untrackedBlocks =
    size fsm.freeArea + fsm.untrackedBlocks + fsm.nextFreeBlocks
  counters_eq : fsm'.eraseBlocksCounters = fsmDelayedDiscard fsm.eraseBlocksCounters

/-- `fsm_verify_state` finds counters that do not match the tree. -/
theorem size_eq_of_fsmVerifyState (h : TreeInv fsm none) (hstate : fsm.fsmVerifyState = true) :
    (size fsm.freeArea : Int) + fsm.untrackedBlocks =
      fsm.freeBlocksCount + fsm.reservedBlocksCount := by
  simp only [fsmVerifyState, Bool.and_eq_true, decide_eq_true_eq] at hstate
  have hsize := hstate.1.2
  rw [size_perm h.perm_listedNodes] at hsize
  omega

/-- **`vdfs4_commit_free_space`** moves every pending block to the tree or the untracked ones. -/
theorem vdfs4CommitFreeSpace_spec (o : FsmOracle) (h : TreesInv g fsm) :
    (∃ fsm', fsm.vdfs4CommitFreeSpace g o = .ok fsm' ∧ Committed g fsm fsm') ∨
      (fsm.vdfs4CommitFreeSpace g o = .error .verifyState ∧
        (size fsm.freeArea : Int) + fsm.untrackedBlocks ≠
          fsm.freeBlocksCount + fsm.reservedBlocksCount) := by
  obtain ⟨t, hfold, honly, htree, hsub, hsize, -⟩ := foldl_fsmCommitNode_spec o h.tree
    h.next.separated (fun x hx hx' => h.disjoint x hx' hx)
    ((union_subset h.tree_free h.next_free).trans (zeroBelow_subset_blocks32 h.small))
  obtain ⟨fsm', hfsm'⟩ : ∃ fsm' : FsmInfo, fsm' = t.fsmCommitUntracked.fsmInitNextTree := ⟨_, rfl⟩
  have hblocks := h.next.blocks
  have hfree : fsm'.freeBlocksCount = fsm.freeBlocksCount + fsm.nextFreeBlocks := by
    have h1 : fsm'.freeBlocksCount = t.freeBlocksCount + t.untrackedNextFree := by rw [hfsm']; rfl
    have h2 : t.freeBlocksCount = fsm.freeBlocksCount + size fsm.nextFreeList := by rw [honly]
    have h3 : t.untrackedNextFree = fsm.untrackedNextFree := by rw [honly]
    omega
  have hcount : (size fsm'.freeArea : Int) + fsm'.untrackedBlocks =
      size fsm.freeArea + fsm.untrackedBlocks + fsm.nextFreeBlocks := by
    have h1 : fsm'.untrackedBlocks = t.untrackedBlocks + t.untrackedNextFree := by rw [hfsm']; rfl
    have h2 : t.untrackedNextFree = fsm.untrackedNextFree := by rw [honly]
    have h3 : fsm'.freeArea = t.freeArea := by rw [hfsm']; rfl
    rw [h3]
    omega
  have hreserved : fsm'.reservedBlocksCount = fsm.reservedBlocksCount := by
    rw [hfsm', honly]
    rfl
  have hdata : fsm'.data = fsm.data := by
    rw [hfsm', honly]
    rfl
  have htree' : TreeInv fsm' none := by
    rw [hfsm']
    exact ⟨htree.separated, htree.sorted, htree.hashed, htree.nodup, htree.nodes⟩
  have hnext' : NextInv fsm' := by
    rw [hfsm']
    exact ⟨Separated.nil, rfl, rfl⟩
  have hlist : fsm'.nextFreeList = [] := by rw [hfsm']; rfl
  have harea : fsm'.freeArea = t.freeArea := by rw [hfsm']; rfl
  have hcommitted : Committed g fsm
      { fsm' with eraseBlocksCounters := fsmDelayedDiscard fsm'.eraseBlocksCounters } := by
    refine ⟨⟨⟨htree'.separated, htree'.sorted, htree'.hashed, htree'.nodup, htree'.nodes⟩,
      ⟨hnext'.separated, hnext'.nodes, hnext'.blocks⟩, ?_, ?_, ?_, h.small⟩, hdata, hlist, ?_,
      hreserved, hfree, hcount, ?_⟩
    · simp only [hdata, harea]
      exact hsub.trans (union_subset h.tree_free h.next_free)
    · simp [hlist]
    · simp [hlist]
    · rw [hfsm']
      rfl
    · rw [hfsm', honly]
      rfl
  -- the self-check before and behind the loop
  have hrun : fsm.verified g = .ok fsm → fsm'.verified g = .ok fsm' →
      fsm.vdfs4CommitFreeSpace g o = .ok
        { fsm' with eraseBlocksCounters := fsmDelayedDiscard fsm'.eraseBlocksCounters } := by
    intro h1 h2
    simp only [vdfs4CommitFreeSpace, fsmCommitFreeSpace, h1, Except.bind]
    rw [hfold, ← hfsm', h2]
    rfl
  by_cases hsizes : (size fsm.freeArea : Int) + fsm.untrackedBlocks =
      fsm.freeBlocksCount + fsm.reservedBlocksCount
  · exact .inl ⟨_, hrun (verified_of_inv g h.tree h.next hsizes)
      (verified_of_inv g htree' hnext' (by omega)), hcommitted⟩
  cases hdebug : g.configDebug with
  | false =>
    refine .inl ⟨_, hrun ?_ ?_, hcommitted⟩
    · simp [verified, hdebug]
    · simp [verified, hdebug]
  | true =>
    refine .inr ⟨?_, hsizes⟩
    have hstate : fsm.fsmVerifyState = false := by
      by_contra hstate
      exact hsizes (size_eq_of_fsmVerifyState h.tree (by simpa using hstate))
    simp [vdfs4CommitFreeSpace, fsmCommitFreeSpace, verified, hdebug,
      hstate, Except.bind, Except.map]

/-! ### Mount -/

/-- **`vdfs4_fsm_build_management`** completes; nothing is reserved and nothing pending. -/
theorem vdfs4FsmBuildManagement_spec {g : FsmGeometry} (o : FsmOracle) (data : Bitmap)
    (hsmall : g.volumeBlocksCount < 2 ^ 32) :
    ∃ fsm, vdfs4FsmBuildManagement g o data = .ok fsm ∧ TreesInv g fsm ∧
      EraseInv g data fsm.eraseBlocksCounters ∧ fsm.data = data ∧ fsm.nextFreeList = [] ∧
      fsm.nextFreeBlocks = 0 ∧ fsm.reservedBlocksCount = 0 ∧
      fsm.freeBlocksCount = (zeroBelow data g.volumeBlocksCount).card ∧
      (size fsm.freeArea : Int) + fsm.untrackedBlocks =
        (zeroBelow data g.volumeBlocksCount).card := by
  obtain ⟨counters, hinit, herase⟩ := fsmInitEraseBlocksCounters_ok g data
  obtain ⟨hbuilt, hframe⟩ := fsmBuildTree_spec g o (blank data counters) rfl rfl rfl rfl rfl
    (.of_lt hsmall)
  obtain ⟨fsm, hfsm⟩ : ∃ fsm, fsm = (blank data counters).fsmBuildTree g o := ⟨_, rfl⟩
  rw [← hfsm] at hbuilt hframe
  have hdata : fsm.data = data := by rw [hframe]; rfl
  have hlist : fsm.nextFreeList = [] := by rw [hframe]; rfl
  have hreserved : fsm.reservedBlocksCount = 0 := by rw [hframe]; rfl
  have hnext : NextInv fsm := by
    rw [hframe]
    exact ⟨Separated.nil, rfl, rfl⟩
  have hverified : fsm.verified g = .ok fsm := by
    refine verified_of_inv g hbuilt.tree hnext ?_
    rw [hbuilt.size_eq, hbuilt.free_eq, hreserved]
    omega
  refine ⟨fsm, ?_, ⟨hbuilt.tree, hnext, ?_, ?_, ?_, hsmall⟩, ?_, hdata, hlist, ?_, hreserved,
    hbuilt.free_eq, hbuilt.size_eq⟩
  · rw [vdfs4FsmBuildManagement, hinit]
    simp only [Except.bind, ← hfsm, hverified]
  · rw [hdata]
    exact hbuilt.zero
  · simp [hlist]
  · simp [hlist]
  · rw [hframe]
    exact herase
  · rw [hframe]
    rfl

end Vdfs4
