import Vdfs4.Fsm.Accounting
import Vdfs4.Fsm.Reserved

/-!
# Discard never destroys live data

The erase block counters in **any** run of the free space manager: nothing is assumed about
its trees, and calls may stop at any other assertion.

* `fsmDiscards` — the ranges `fsm_delayed_discard` sends to the device.
* `FsmOp.WholeFree` — a release finds **all** bits of its range set, or all clear.
* `eraseCounters_exact` — in every run of such calls the counters are exact and only empty
  erase blocks are discarded.
* `partial_free_counters` — a release that finds some bits set and some clear clears the set
  ones and does not count them.
-/

namespace Vdfs4

open GuardedRun FsmInfo

/-- The ranges of blocks discarded by `fsm_delayed_discard`, the last one cut at the end of the
volume. -/
def fsmDiscards (g : FsmGeometry) (counters : List Nat) : List Run :=
  ((List.range counters.length).filter fun i => counters.getD i 0 = delayedDiscardMagic).map
    fun i => ⟨i * g.eraseBlockSizeInBlocks,
      min g.eraseBlockSizeInBlocks (g.volumeBlocksCount - i * g.eraseBlockSizeInBlocks)⟩

section counters

variable {g : FsmGeometry} {o : FsmOracle} {fsm fsm' : FsmInfo}

/-- Only erase blocks without a block in use are discarded. -/
theorem EraseInv.fsmDiscards {data : Bitmap} {counters : List Nat} (h : EraseInv g data counters)
    {r : Run} (hr : r ∈ fsmDiscards g counters) {x : Nat} (hx : r.Has x) : data x = false := by
  obtain ⟨i, hi, rfl⟩ := List.mem_map.mp hr
  obtain ⟨hlt, hmagic⟩ := List.mem_filter.mp hi
  have hmagic : counters.getD i 0 = delayedDiscardMagic := by simpa using hmagic
  have hpos := g.eraseBlockSizeInBlocks_pos
  obtain ⟨hlo, hhi⟩ := hx
  simp only at hlo hhi
  have hvolume : x < g.volumeBlocksCount := by omega
  have hnum : x / g.eraseBlockSizeInBlocks = i := by
    refine Nat.div_eq_of_lt_le hlo ?_
    rw [Nat.succ_mul]
    omega
  -- the magic number is no count, so the erase block is empty
  have hempty : (usedBlocks g data i).card = 0 := by
    rcases h.count i (List.mem_range.mp hlt) with hcount | ⟨-, hzero⟩
    · have hle := card_usedBlocks_le g data i
      have hmax := g.eraseBlockSizeInBlocks_lt
      omega
    · exact hzero
  by_contra hset
  have hmem : x ∈ usedBlocks g data i := mem_usedBlocks.mpr ⟨hvolume, hnum, by simpa using hset⟩
  rw [Finset.card_eq_zero.mp hempty] at hmem
  cases hmem

/-- The counters of a state are exact. -/
def FsmInfo.Exact (g : FsmGeometry) (fsm : FsmInfo) : Prop :=
  EraseInv g fsm.data fsm.eraseBlocksCounters

/-- The assertions on the counters are not met. -/
def NotCounter (bug : FsmBug) : Prop := bug ≠ .eraseBlocksCounter

theorem OutsideTrees.exact (h : OutsideTrees fsm fsm') (hexact : fsm.Exact g) : fsm'.Exact g := by
  unfold FsmInfo.Exact
  rw [h.data, h.counters]
  exact hexact

/-- A range is marked: its bits were clear. -/
theorem FsmInfo.Exact.fsmMarkAllocated (h : fsm.Exact g) (hsmall : g.volumeBlocksCount < 2 ^ 32)
    (delayed : Bool) (blockOffset length : Nat) :
    Ends NotCounter (fun r => r.1.Exact g)
      (fsm.fsmMarkAllocated g delayed blockOffset length) := by
  unfold FsmInfo.fsmMarkAllocated
  split
  · exact h
  split
  · exact fun herr => by cases herr
  rename_i hvolume
  simp only [markRange, Nat.mod_eq_of_lt (show blockOffset < 2 ^ 32 by omega)]
  split
  · exact fun herr => by cases herr
  rename_i hclear
  obtain ⟨counters, hinc, herase⟩ := fsmIncEraseBlocksCounters_ok h (Nat.le_of_not_lt hvolume)
    (Bitmap.anySet_eq_false.mp (by simpa using hclear))
  rw [hinc]
  exact herase

theorem FsmInfo.Exact.fsmTrimAligned (h : fsm.Exact g) (hsmall : g.volumeBlocksCount < 2 ^ 32)
    (delayed : Bool) (blockOffset length minimal optimal lengthInBlocks : Nat) :
    Ends NotCounter (fun r => r.1.Exact g)
      (fsm.fsmTrimAligned g delayed blockOffset length minimal optimal lengthInBlocks) := by
  unfold FsmInfo.fsmTrimAligned
  split
  · exact nofun
  · exact FsmInfo.Exact.fsmMarkAllocated (show (fsm.addUntracked _).Exact g from h) hsmall
      _ _ _

/-- **Allocation** keeps the counters exact, in any state of the trees. -/
theorem FsmInfo.Exact.get (h : fsm.Exact g) (hsmall : g.volumeBlocksCount < 2 ^ 32)
    (blockOffset lengthInBlocks minBlkCount : Nat) (flags : FsmAllocFlags) :
    Ends NotCounter (fun r => r.1.Exact g)
      (fsm.vdfs4FsmGetFreeBlock g o blockOffset lengthInBlocks minBlkCount flags) := by
  have hspace : ∀ start minLength length, Ends NotCounter (fun r => r.1.Exact g)
      (fsm.fsmAllocateSpace g o start minLength length) := fun start minLength length =>
    ((fsmAllocateSpace_treeWork fsm start minLength length).monoError
      fun _ hbug => hbug.2).mono fun r hr => hr.exact h
  unfold vdfs4FsmGetFreeBlock
  simp only
  split
  · exact h
  split
  · -- an aligned request
    unfold fsmGetAligned
    split
    · exact nofun
    refine (hspace _ _ _).bind fun ⟨fsm1, start, length⟩ h1 => ?_
    simp only at h1 ⊢
    split
    · exact h1.fsmTrimAligned hsmall _ _ _ _ _ _
    unfold fsmGetLongest
    split
    · exact h1
    simp only
    split
    · exact h1
    refine ((fsmAllocateFromNode_treeWork _ _ _).monoError fun _ hbug => hbug.2).bind
      fun fsm2 h2 => ?_
    exact (h2.exact h1).fsmTrimAligned hsmall _ _ _ _ _ _
  · exact (hspace _ _ _).bind fun ⟨fsm1, start, length⟩ h1 =>
      FsmInfo.Exact.fsmMarkAllocated h1 hsmall _ _ _

theorem FsmInfo.fsmAddFreeSpace_outside (start length : Nat) :
    OutsideTrees fsm (fsm.fsmAddFreeSpace o start length) := by
  unfold fsmAddFreeSpace
  simp only
  split
  · exact ⟨rfl, rfl, rfl⟩
  split
  · exact ⟨rfl, rfl, rfl⟩
  · exact ⟨rfl, rfl, rfl⟩
  · split <;> exact ⟨rfl, rfl, rfl⟩

/-- **Release** of a range whose bits are all set, or all clear. -/
theorem FsmInfo.Exact.put (h : fsm.Exact g) (hsmall : g.volumeBlocksCount < 2 ^ 32)
    {blockOffset lengthInBlocks : Nat} (flags : FsmFreeFlags)
    (hwhole : fsm.data.allSet blockOffset lengthInBlocks = true ∨
      fsm.data.anySet blockOffset lengthInBlocks = false) :
    Ends NotCounter (fun fsm' => fsm'.Exact g)
      (fsm.vdfs4FsmPutFreeBlock g o blockOffset lengthInBlocks flags) := by
  unfold vdfs4FsmPutFreeBlock
  split
  · exact nofun
  rename_i hvolume
  simp only [Nat.mod_eq_of_lt (show blockOffset < 2 ^ 32 by omega)]
  split
  · -- nothing was set, so nothing is cleared
    rename_i hnot
    have hclear := Bitmap.anySet_eq_false.mp (hwhole.resolve_left (by simpa using hnot))
    refine EraseInv.congr h fun x _ => ?_
    cases hx : fsm.data x with
    | false =>
      by_contra hne
      have hset := Bitmap.clearRange_eq_true.mp (show
        fsm.data.clearRange blockOffset lengthInBlocks x = true by simpa using hne)
      rw [hx] at hset
      cases hset.2
    | true =>
      refine Bitmap.clearRange_eq_true.mpr ⟨fun hin => ?_, hx⟩
      rw [hclear x hin.1 hin.2] at hx
      cases hx
  · rename_i hset
    obtain ⟨counters, hdec, herase⟩ := fsmDecEraseBlocksCounters_ok h (Nat.le_of_not_lt hvolume)
      (Bitmap.allSet_eq_true.mp (by simpa using hset))
    -- neither the counts of free blocks nor the trees touch bitmap and counters
    have hrest : ∀ fsm1 : FsmInfo,
        fsm1.data = fsm.data.clearRange blockOffset lengthInBlocks →
        fsm1.eraseBlocksCounters = fsm.eraseBlocksCounters →
        Ends NotCounter (fun fsm' => fsm'.Exact g)
          ((fsmDecEraseBlocksCounters g fsm1.eraseBlocksCounters blockOffset lengthInBlocks).map
            fun counters => { fsm1 with eraseBlocksCounters := counters }) := by
      intro fsm1 hdata hcounters
      rw [hcounters, hdec]
      show EraseInv g fsm1.data counters
      rw [hdata]
      exact herase
    obtain ⟨unused, reserve⟩ := flags
    cases unused with
    | true =>
      refine hrest _ ?_ ?_
      · cases reserve <;> rfl
      · cases reserve <;> rfl
    | false =>
      refine hrest _ ((fsmAddFreeSpace_outside _ _).data.trans ?_)
        ((fsmAddFreeSpace_outside _ _).counters.trans ?_)
      · cases reserve <;> rfl
      · cases reserve <;> rfl

theorem FsmInfo.fsmCommitNode_outside (node : FsmNode) :
    OutsideTrees fsm (fsm.fsmCommitNode o node) := by
  unfold fsmCommitNode
  split
  · exact ⟨rfl, rfl, rfl⟩
  simp only
  split
  · exact ⟨rfl, rfl, rfl⟩
  · exact ⟨rfl, rfl, rfl⟩
  · split <;> exact ⟨rfl, rfl, rfl⟩

theorem FsmInfo.foldl_fsmCommitNode_outside (nodes : List FsmNode) (fsm : FsmInfo) :
    OutsideTrees fsm (nodes.foldl (fsmCommitNode o) fsm) := by
  induction nodes generalizing fsm with
  | nil => exact ⟨rfl, rfl, rfl⟩
  | cons node nodes ih =>
    rw [List.foldl_cons]
    exact (fsmCommitNode_outside node).trans (ih _)

/-- **Commit**: the empty erase blocks are discarded. -/
theorem FsmInfo.Exact.commit (h : fsm.Exact g) :
    Ends NotCounter (fun fsm' => fsm'.Exact g) (fsm.vdfs4CommitFreeSpace g o) := by
  have hverified : ∀ fsm1 : FsmInfo, fsm1.Exact g →
      Ends NotCounter (fun fsm' => fsm'.Exact g) (fsm1.verified g) := fun fsm1 h1 =>
    (verified_treeWork.monoError fun _ hbug => hbug.2).mono fun _ h2 => h2.exact h1
  refine Ends.map ((hverified fsm h).bind fun fsm1 h1 => hverified _ ?_)
    fun fsm2 h2 => EraseInv.fsmDelayedDiscard h2
  have hfold := (foldl_fsmCommitNode_outside (o := o) fsm1.nextFreeList fsm1).exact h1
  exact hfold

end counters

/-- A release finds all bits of its range set, or all of them clear, and nobody takes more from the
reserve than it has. -/
def FsmOp.WholeFree (fsm : FsmInfo) : FsmOp → Prop
  | .put _ blockOffset lengthInBlocks flags =>
    (fsm.data.allSet blockOffset lengthInBlocks = true ∨
      fsm.data.anySet blockOffset lengthInBlocks = false) ∧
      (flags.reserve = true → flags.unused = true)
  | .get _ _ lengthInBlocks _ flags =>
    flags.delayed = true → (lengthInBlocks : Int) ≤ fsm.reservedBlocksCount
  | .freeReserved count => (count : Int) ≤ fsm.reservedBlocksCount
  | .reserve _ => True
  | .commit _ => True

instance instDecidableWholeFree (fsm : FsmInfo) (op : FsmOp) : Decidable (op.WholeFree fsm) :=
  match op with
  | .put _ _ _ _ => inferInstanceAs (Decidable ((_ ∨ _) ∧ _))
  | .get _ _ _ _ _ => inferInstanceAs (Decidable (_ → _))
  | .reserve _ => .isTrue trivial
  | .freeReserved _ => inferInstanceAs (Decidable (_ ≤ _))
  | .commit _ => .isTrue trivial

/-- **One call** keeps the counters exact and does not meet an assertion on them. -/
theorem FsmInfo.Exact.step {g : FsmGeometry} {fsm : FsmInfo} (h : fsm.Exact g)
    (hsmall : g.volumeBlocksCount < 2 ^ 32) {op : FsmOp} (hwhole : op.WholeFree fsm) :
    Ends NotCounter (fun fsm' => fsm'.Exact g) (fsmStep g fsm op) := by
  cases op with
  | get o blockOffset lengthInBlocks minBlkCount flags =>
    exact (h.get hsmall blockOffset lengthInBlocks minBlkCount flags).map fun r hr => hr
  | put o blockOffset lengthInBlocks flags => exact h.put hsmall flags hwhole.1
  | reserve count =>
    show FsmInfo.Exact g _
    unfold vdfs4ReserveSpace
    split <;> exact h
  | freeReserved count =>
    show Ends _ _ (fsm.vdfs4FreeReservedSpace count)
    unfold vdfs4FreeReservedSpace
    split
    · exact h
    split
    · exact nofun
    · exact h
  | commit o => exact h.commit

/-- **Discard never destroys live data and the erase counters stay exact.** In every run after a
mount of fewer than `2 ^ 32` blocks in which each release finds its range set or clear as a whole
and the reserve is not overdrawn, every counter is the
number of blocks in use of its erase block (the magic number stands for 0), no such call meets
the range check of the counters, and every block that a commit discards is not in use. -/
theorem eraseCounters_exact (g : FsmGeometry) (o : FsmOracle) (data : Bitmap)
    (hsmall : g.volumeBlocksCount < 2 ^ 32) :
    ∃ fsm₀, FsmInfo.vdfs4FsmBuildManagement g o data = .ok fsm₀ ∧
      ∀ fsm, Reaches (fun fsm op => FsmOp.WholeFree fsm op)
          (fun s op => (fsmStep g s op).toOption) fsm₀ fsm →
        EraseInv g fsm.data fsm.eraseBlocksCounters ∧
        (∀ op : FsmOp, op.WholeFree fsm → fsmStep g fsm op ≠ .error .eraseBlocksCounter) ∧
        ∀ r ∈ fsmDiscards g fsm.eraseBlocksCounters, ∀ x, r.Has x → fsm.data x = false := by
  obtain ⟨fsm₀, hbuild, -, herase, hdata, -⟩ := vdfs4FsmBuildManagement_spec o data hsmall
  refine ⟨fsm₀, hbuild, fun fsm hreach => ?_⟩
  have hexact : fsm.Exact g := by
    refine hreach.invariant (I := fun fsm => fsm.Exact g) ?_ fun t op u ht hwhole hstep => ?_
    · rw [← hdata] at herase
      exact herase
    · exact (ht.step hsmall hwhole).of_eq_ok (eq_ok_of_toOption hstep)
  refine ⟨hexact, fun op hwhole herr => ?_, fun r hr x hx => EraseInv.fsmDiscards hexact hr hx⟩
  have hends := hexact.step hsmall hwhole
  rw [herr] at hends
  exact hends rfl

/-- On a volume with blocks 10 to 19 free, blocks 8 and 9 are released, which are all blocks in
use of an erase block of eight; in between two free blocks are released once more. -/
def discardOps : List FsmOp :=
  [.put .allSucceed 8 1 ⟨false, false⟩, .put .allSucceed 10 2 ⟨false, false⟩,
    .put .allSucceed 9 1 ⟨false, false⟩]

def discardRun : Option FsmInfo :=
  (FsmInfo.vdfs4FsmBuildManagement fsmSampleGeometry .allSucceed
    fun x => x < 10 || 20 ≤ x).toOption.bind
    (guardedRun (fun fsm op => FsmOp.WholeFree fsm op)
      (fun s op => (fsmStep fsmSampleGeometry s op).toOption) discardOps)

theorem eraseCounters_exact_sample :
    ∃ fsm ∈ discardRun, fsmDiscards fsmSampleGeometry fsm.eraseBlocksCounters = [⟨8, 8⟩] ∧
      EraseInv fsmSampleGeometry fsm.data fsm.eraseBlocksCounters ∧ fsm.data 9 = false := by
  have hrun : discardRun.map (fun fsm => fsmDiscards fsmSampleGeometry fsm.eraseBlocksCounters) =
      some [⟨8, 8⟩] := by decide +kernel
  obtain ⟨fsm0, hbuild, hall⟩ := eraseCounters_exact fsmSampleGeometry .allSucceed
    (fun x => x < 10 || 20 ≤ x) (by decide)
  obtain ⟨fsm, hfsm, hdiscards⟩ := Option.map_eq_some_iff.mp hrun
  have hreach := hfsm
  rw [discardRun, hbuild] at hreach
  obtain ⟨herase, -, hdead⟩ := hall fsm (reaches_of_guardedRun hreach)
  refine ⟨fsm, hfsm, hdiscards, herase, hdead ⟨8, 8⟩ ?_ 9 (by decide)⟩
  rw [hdiscards]
  exact List.mem_singleton.mpr rfl

/-- A range of four blocks is released of which the first two are free. -/
def partialFreeRun : Option FsmInfo :=
  (FsmInfo.vdfs4FsmBuildManagement fsmSampleGeometry .allSucceed
    fun x => x < 10 || 20 ≤ x).toOption.bind
    (guardedRun (fun _ _ => True) (fun s op => (fsmStep fsmSampleGeometry s op).toOption)
      [.put .allSucceed 18 4 ⟨false, false⟩])

/-- **A release that is let pass leaves a counter too high**: blocks 22 and 23 are in use of the
third erase block, its counter says 4. -/
theorem partial_free_counters :
    ∃ fsm₀ fsm, FsmInfo.vdfs4FsmBuildManagement fsmSampleGeometry .allSucceed
        (fun x => x < 10 || 20 ≤ x) = .ok fsm₀ ∧
      Reaches (fun _ _ => True) (fun s op => (fsmStep fsmSampleGeometry s op).toOption) fsm₀ fsm ∧
      fsm.eraseBlocksCounters.getD 2 0 = 4 ∧
      (usedBlocks fsmSampleGeometry fsm.data 2).card = 2 ∧
      ¬ EraseInv fsmSampleGeometry fsm.data fsm.eraseBlocksCounters := by
  have hrun : partialFreeRun.map (fun fsm => (fsm.eraseBlocksCounters.getD 2 0,
      (usedBlocks fsmSampleGeometry fsm.data 2).card, fsm.eraseBlocksCounters.length)) =
      some (4, 2, 6) := by decide +kernel
  obtain ⟨fsm₀, hbuild, -⟩ := @vdfs4FsmBuildManagement_spec fsmSampleGeometry .allSucceed
    (fun x => x < 10 || 20 ≤ x) (by decide)
  obtain ⟨fsm, hfsm, hmap⟩ := Option.map_eq_some_iff.mp hrun
  simp only [Prod.mk.injEq] at hmap
  obtain ⟨hcounter, hused, hlength⟩ := hmap
  rw [partialFreeRun, hbuild] at hfsm
  refine ⟨fsm₀, fsm, hbuild, reaches_of_guardedRun hfsm, hcounter, hused, fun herase => ?_⟩
  rcases herase.count 2 (by omega) with h | ⟨h, -⟩
  · omega
  · rw [hcounter] at h
    exact absurd h (by decide)

end Vdfs4
