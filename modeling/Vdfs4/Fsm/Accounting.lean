import Vdfs4.Fsm.Release
import Vdfs4.Lib.Run

/-!
# Free space accounting

The free space manager as a **state machine** over the calls of the file system, and the
invariant of all its runs.

* `FsmOp`, `fsmStep` — the calls, each with the decisions of the environment.
* `FsmInv` — the trees, the sums of the counters, and the erase block counters.
* `FsmOp.Allowed` — the calls under which the invariant holds. What is excluded:
  - a **node allocation that fails at the end of a bitmap block** inside a pending extent
    (`RebuildOk`): the rebuild then leaves a part of the extent in the tree;
  - `FREE_RESERVE` without `FREE_UNUSED`, which counts the range twice;
  - a release of block 0, which cannot be handed out again;
  - calls that an assertion on the arguments refuses.
* `freeSpace_accounting` — in every run of such calls the invariant holds and no call stops.
-/

namespace Vdfs4

open RunSet GuardedRun FsmInfo

/-- A call of the free space manager. -/
inductive FsmOp where
  | get (o : FsmOracle) (blockOffset lengthInBlocks minBlkCount : Nat) (flags : FsmAllocFlags)
  | put (o : FsmOracle) (blockOffset lengthInBlocks : Nat) (flags : FsmFreeFlags)
  | reserve (count : Nat)
  | freeReserved (count : Nat)
  | commit (o : FsmOracle)

/-- One call. -/
def fsmStep (g : FsmGeometry) (fsm : FsmInfo) : FsmOp → Except FsmBug FsmInfo
  | .get o blockOffset lengthInBlocks minBlkCount flags =>
    (fsm.vdfs4FsmGetFreeBlock g o blockOffset lengthInBlocks minBlkCount flags).map (·.1)
  | .put o blockOffset lengthInBlocks flags =>
    fsm.vdfs4FsmPutFreeBlock g o blockOffset lengthInBlocks flags
  | .reserve count => .ok ((fsm.vdfs4ReserveSpace count).getD fsm)
  | .freeReserved count => fsm.vdfs4FreeReservedSpace count
  | .commit o => fsm.vdfs4CommitFreeSpace g o

/-- The sums of the counters. -/
structure CountsInv (g : FsmGeometry) (fsm : FsmInfo) : Prop where
  /-- free and reserved blocks are tracked or counted as untracked -/
  accounts : (size fsm.freeArea : Int) + fsm.untrackedBlocks =
    fsm.freeBlocksCount + fsm.reservedBlocksCount
  /-- every clear bit is free, reserved or pending -/
  total : ((zeroBelow fsm.data g.volumeBlocksCount).card : Int) =
    fsm.freeBlocksCount + fsm.reservedBlocksCount + fsm.nextFreeBlocks
  /-- so the unsigned counters of the superblock do not wrap -/
  free_nonneg : 0 ≤ fsm.freeBlocksCount
  reserved_nonneg : 0 ≤ fsm.reservedBlocksCount
  untrackedNext_nonneg : 0 ≤ fsm.untrackedNextFree

/-- The invariant of the free space manager. -/
structure FsmInv (g : FsmGeometry) (fsm : FsmInfo) : Prop where
  trees : TreesInv g fsm
  counts : CountsInv g fsm
  /-- block 0 is in use -/
  zero : fsm.data 0 = true
  erase : EraseInv g fsm.data fsm.eraseBlocksCounters

/-- The calls that are in order in a state. -/
def FsmOp.Allowed (g : FsmGeometry) (fsm : FsmInfo) : FsmOp → Prop
  | .get o _ lengthInBlocks minBlkCount flags => GetOk g o fsm lengthInBlocks minBlkCount flags
  | .put _ blockOffset lengthInBlocks flags =>
    PutOk g fsm blockOffset lengthInBlocks ∧ 0 < blockOffset ∧
      (flags.reserve = true → flags.unused = true)
  | .reserve _ => True
  | .freeReserved count => (count : Int) ≤ fsm.reservedBlocksCount
  | .commit _ => True

/-! ### One call -/

section step

variable {g : FsmGeometry} {o : FsmOracle} {fsm fsm' fsm₁ fsm₂ : FsmInfo}

/-- The counters in the state a range is taken from. -/
theorem FsmInv.counts_prepared (h : FsmInv g fsm) (hprep : Prepared g o fsm fsm₁) :
    CountsInv g fsm₁ ∧ fsm.freeBlocksCount ≤ fsm₁.freeBlocksCount := by
  rcases hprep.cases_of_set h.trees h.zero with rfl | hre
  · exact ⟨h.counts, le_rfl⟩
  obtain ⟨hdata, -, hreserved, -⟩ := hprep.frame
  obtain ⟨-, htotal, hfree, hnonneg, huntracked⟩ := h.counts
  have hblocks := h.trees.next.blocks
  have hnext : fsm₁.nextFreeBlocks = size fsm.nextFreeList := by
    have heq : fsm₁.nextFreeBlocks = fsm.nextFreeBlocks - fsm.untrackedNextFree := by
      rw [hre.frame]
    omega
  -- the forgotten blocks become free
  have hle : fsm.freeBlocksCount ≤ fsm₁.freeBlocksCount := by
    have := hre.free_eq
    omega
  refine ⟨⟨by rw [hreserved]; exact hre.size_eq, ?_, by omega, by omega, by rw [hre.frame]⟩, hle⟩
  rw [hdata, hreserved, hnext]
  exact hre.free_eq.symm

/-- The counters after a range was taken and marked. -/
theorem CountsInv.mark {pos len : Nat} (h : CountsInv g fsm₁) (htaken : Taken fsm₁ fsm₂ pos len)
    (htrees : TreesInv g fsm₁) {delayed : Bool}
    (hroom : (len : Int) ≤ if delayed then fsm₁.reservedBlocksCount else fsm₁.freeBlocksCount)
    (hlen : 0 < len) (counters : List Nat) :
    CountsInv g (fsm₂.markRange delayed pos len counters) := by
  have hsize := htaken.size_eq
  obtain ⟨haccounts, htotal, hfree0, hreserved0, huntracked0⟩ := h
  have hfree : fsm₂.freeBlocksCount = fsm₁.freeBlocksCount := by rw [htaken.frame]
  have hreserved : fsm₂.reservedBlocksCount = fsm₁.reservedBlocksCount := by rw [htaken.frame]
  have hnext : fsm₂.nextFreeBlocks = fsm₁.nextFreeBlocks := by rw [htaken.frame]
  have hdata : fsm₂.data = fsm₁.data := by rw [htaken.frame]
  have huntracked : fsm₂.untrackedNextFree = fsm₁.untrackedNextFree := by rw [htaken.frame]
  have hsub : Finset.Ico pos (pos + len) ⊆ zeroBelow fsm₁.data g.volumeBlocksCount := fun x hx =>
    htrees.tree_free (htaken.range x (Finset.mem_Ico.mp hx).1 (Finset.mem_Ico.mp hx).2)
  have hcard := Finset.card_sdiff_add_card_eq_card hsub
  rw [Nat.card_Ico, Nat.add_sub_cancel_left] at hcard
  have hcast : pos % 2 ^ 32 = pos := by
    have hvolume := (mem_zeroBelow.mp (hsub (Finset.mem_Ico.mpr ⟨le_rfl, by omega⟩))).1
    have hsmall := htrees.small
    exact Nat.mod_eq_of_lt (by omega)
  refine ⟨?_, ?_, ?_, ?_, by simp only [markRange]; omega⟩
  · simp only [markRange]
    split <;> omega
  · simp only [markRange, hcast, zeroBelow_setRange, hdata]
    split <;> omega
  · simp only [markRange]
    split <;> simp_all
  · simp only [markRange]
    split <;> simp_all

/-- A range taken from the tree is clear, so its erase blocks are not full. -/
theorem FsmInv.inc {pos len : Nat} (h : FsmInv g fsm) (hprep : Prepared g o fsm fsm₁)
    (htaken : Taken fsm₁ fsm₂ pos len) (hlen : 0 < len) :
    ∃ counters, fsmIncEraseBlocksCounters g fsm.eraseBlocksCounters pos len = .ok counters ∧
      EraseInv g (fsm.data.setRange pos len) counters := by
  have hrange := (Taken.marked h.trees hprep htaken hlen false []).range
  have hlast := (mem_zeroBelow.mp (hrange (pos + len - 1) (by omega) (by omega)).1).1
  exact fsmIncEraseBlocksCounters_ok h.erase (by omega) fun x hlo hhi =>
    (mem_zeroBelow.mp (hrange x hlo hhi).1).2

/-- **Allocation** keeps the invariant and does not stop. -/
theorem FsmInv.get (h : FsmInv g fsm) (blockOffset : Nat) {lengthInBlocks minBlkCount : Nat}
    {flags : FsmAllocFlags} (hok : GetOk g o fsm lengthInBlocks minBlkCount flags) :
    ∃ fsm' pos len,
      fsm.vdfs4FsmGetFreeBlock g o blockOffset lengthInBlocks minBlkCount flags =
        .ok (fsm', pos, len) ∧ FsmInv g fsm' := by
  by_cases hfew : fsm.freeBlocksCount < lengthInBlocks ∧ flags.delayed = false
  · refine ⟨fsm, 0, lengthInBlocks, ?_, h⟩
    simp only [vdfs4FsmGetFreeBlock, if_pos hfew]
  have hgot := vdfs4FsmGetFreeBlock_got h.trees blockOffset hok
  generalize fsm.vdfs4FsmGetFreeBlock g o blockOffset lengthInBlocks minBlkCount flags = r at hgot ⊢
  cases hgot with
  | @granted fsm₁ fsm₂ pos len counters hprep htaken hpos hlen hle hcounters =>
    have hmarked := Taken.marked h.trees hprep htaken hlen flags.delayed counters
    obtain ⟨hcounts, hmore⟩ := h.counts_prepared hprep
    have hroom : (len : Int) ≤
        if flags.delayed then fsm₁.reservedBlocksCount else fsm₁.freeBlocksCount := by
      split
      · rename_i hdelayed
        have := hok.delayed hdelayed
        have := hprep.frame.2.2.1
        omega
      · rename_i hdelayed
        have : ¬fsm.freeBlocksCount < lengthInBlocks :=
          fun hlt => hfew ⟨hlt, by simpa using hdelayed⟩
        omega
    obtain ⟨counters', hinc, herase⟩ := h.inc hprep htaken hlen
    rw [hcounters, Except.ok.injEq] at hinc
    subst hinc
    refine ⟨_, _, _, rfl, hmarked.trees,
      hcounts.mark htaken (hprep.trees h.trees) hroom hlen _, ?_, ?_⟩
    · rw [hmarked.data_eq]
      exact Bitmap.setRange_eq_true.mpr (.inr h.zero)
    · rw [hmarked.data_eq]
      exact herase
  | nospace hprep =>
    obtain ⟨hdata, -, -, hcounters, -⟩ := hprep.frame
    refine ⟨_, _, _, rfl, hprep.trees h.trees, (h.counts_prepared hprep).1, ?_, ?_⟩
    · rw [hdata]
      exact h.zero
    · rw [hdata, hcounters]
      exact h.erase
  | counter hprep htaken hlen hbug =>
    obtain ⟨counters, hok', -⟩ := h.inc hprep htaken hlen
    rw [hok'] at hbug
    cases hbug
  | verifyState hne => exact absurd h.counts.accounts hne

/-- **Release** keeps the invariant and does not stop. -/
theorem FsmInv.put (h : FsmInv g fsm) (o : FsmOracle) {blockOffset lengthInBlocks : Nat}
    (flags : FsmFreeFlags) (hok : PutOk g fsm blockOffset lengthInBlocks) (hpos : 0 < blockOffset)
    (hflags : flags.reserve = true → flags.unused = true) :
    ∃ fsm', fsm.vdfs4FsmPutFreeBlock g o blockOffset lengthInBlocks flags = .ok fsm' ∧
      FsmInv g fsm' ∧ Released g o fsm fsm' blockOffset lengthInBlocks flags := by
  have hset := Bitmap.allSet_eq_true.mp hok.set
  obtain ⟨fsm', hput, hreleased⟩ := vdfs4FsmPutFreeBlock_spec o flags h.trees hok
  obtain ⟨counters, hdec, herase⟩ := fsmDecEraseBlocksCounters_ok h.erase hok.volume hset
  obtain ⟨htrees, hdata, harea, hreserved, hfree, huntracked, hnext, hge, -⟩ := hreleased counters
  obtain ⟨haccounts, htotal, hfree0, hreserved0, huntracked0⟩ := h.counts
  -- the range was in use, so it is new among the clear bits
  have hdisj : Disjoint (zeroBelow fsm.data g.volumeBlocksCount)
      (Finset.Ico blockOffset (blockOffset + lengthInBlocks)) := by
    rw [Finset.disjoint_left]
    intro x hx hx'
    obtain ⟨hlo, hhi⟩ := Finset.mem_Ico.mp hx'
    obtain ⟨-, hclear⟩ := mem_zeroBelow.mp hx
    rw [hset x hlo hhi] at hclear
    cases hclear
  refine ⟨{ fsm' with eraseBlocksCounters := counters }, by rw [hput, hdec]; rfl,
    ⟨htrees, ⟨?_, ?_, ?_, ?_, le_trans huntracked0 hge⟩, ?_, ?_⟩, hreleased counters⟩
  · rw [harea, huntracked, hfree, hreserved]
    revert hflags
    cases flags.unused <;> cases flags.reserve <;> simp <;> omega
  · rw [hdata, zeroBelow_clearRange hok.volume, Finset.card_union_of_disjoint hdisj, Nat.card_Ico,
      hfree, hreserved, hnext]
    revert hflags
    cases flags.unused <;> cases flags.reserve <;> simp <;> omega
  · rw [hfree]
    split <;> omega
  · rw [hreserved]
    split <;> omega
  · rw [hdata]
    exact Bitmap.clearRange_eq_true.mpr ⟨by omega, h.zero⟩
  · rw [hdata]
    exact herase

/-- **Commit** keeps the invariant and does not stop. -/
theorem FsmInv.commit (h : FsmInv g fsm) (o : FsmOracle) :
    ∃ fsm', fsm.vdfs4CommitFreeSpace g o = .ok fsm' ∧ FsmInv g fsm' := by
  rcases vdfs4CommitFreeSpace_spec o h.trees with ⟨fsm', hok, hc⟩ | ⟨-, hne⟩
  · obtain ⟨haccounts, htotal, hfree0, hreserved0, huntracked0⟩ := h.counts
    have hblocks := h.trees.next.blocks
    have hblocks' := hc.trees.next.blocks
    have hfree := hc.free_eq
    have hreserved := hc.reserved_eq
    have hsize := hc.size_eq
    have hnext := hc.next_eq
    have hnil : size fsm'.nextFreeList = 0 := by rw [hc.next_nil]; rfl
    refine ⟨fsm', hok, hc.trees, ⟨by omega, ?_, by omega, by omega, by omega⟩, ?_, ?_⟩
    · rw [hc.data_eq]
      omega
    · rw [hc.data_eq]
      exact h.zero
    · rw [hc.data_eq, hc.counters_eq]
      exact h.erase.fsmDelayedDiscard
  · exact absurd h.counts.accounts hne

/-- The trees do not depend on the free and the reserved blocks. -/
theorem TreesInv.move (h : TreesInv g fsm) (free reserved : Int) :
    TreesInv g { fsm with freeBlocksCount := free, reservedBlocksCount := reserved } := by
  have ht := h.tree
  have hn := h.next
  exact ⟨⟨ht.separated, ht.sorted, ht.hashed, ht.nodup, ht.nodes⟩,
    ⟨hn.separated, hn.nodes, hn.blocks⟩, h.tree_free, h.next_free, h.disjoint, h.small⟩

/-- Blocks that move between the free and the reserved ones. -/
theorem FsmInv.move (h : FsmInv g fsm) {free reserved : Int} (hfree : 0 ≤ free)
    (hreserved : 0 ≤ reserved)
    (hsum : free + reserved = fsm.freeBlocksCount + fsm.reservedBlocksCount) :
    FsmInv g { fsm with freeBlocksCount := free, reservedBlocksCount := reserved } := by
  have haccounts := h.counts.accounts
  have htotal := h.counts.total
  exact ⟨h.trees.move _ _, ⟨by simp only; omega, by simp only; omega, hfree, hreserved,
    h.counts.untrackedNext_nonneg⟩, h.zero, h.erase⟩

/-- **Every call that is in order completes and keeps the invariant.** -/
theorem FsmInv.step (h : FsmInv g fsm) {op : FsmOp} (hok : op.Allowed g fsm) :
    ∃ fsm', fsmStep g fsm op = .ok fsm' ∧ FsmInv g fsm' := by
  cases op with
  | get o blockOffset lengthInBlocks minBlkCount flags =>
    obtain ⟨fsm', pos, len, hget, hinv⟩ := h.get blockOffset hok
    exact ⟨fsm', by rw [fsmStep, hget]; rfl, hinv⟩
  | put o blockOffset lengthInBlocks flags =>
    obtain ⟨fsm', hput, hinv, -⟩ := h.put o flags hok.1 hok.2.1 hok.2.2
    exact ⟨fsm', hput, hinv⟩
  | reserve count =>
    refine ⟨_, rfl, ?_⟩
    unfold vdfs4ReserveSpace
    have := h.counts.reserved_nonneg
    split
    · exact h.move (by omega) (by omega) (by omega)
    · exact h
  | freeReserved count =>
    have hle : (count : Int) ≤ fsm.reservedBlocksCount := hok
    have := h.counts.free_nonneg
    simp only [fsmStep, vdfs4FreeReservedSpace]
    split
    · exact ⟨fsm, rfl, h⟩
    · rw [if_neg (by omega)]
      exact ⟨_, rfl, h.move (by omega) (by omega) (by omega)⟩
  | commit o => exact h.commit o

end step

/-- A mounted volume with block 0 in use. -/
theorem vdfs4FsmBuildManagement_fsmInv {g : FsmGeometry} (o : FsmOracle) {data : Bitmap}
    (hsmall : g.volumeBlocksCount < 2 ^ 32) (hzero : data 0 = true) :
    ∃ fsm, vdfs4FsmBuildManagement g o data = .ok fsm ∧ FsmInv g fsm := by
  obtain ⟨fsm, hok, htrees, herase, hdata, hnil, hnext, hreserved, hfree, hsize⟩ :=
    vdfs4FsmBuildManagement_spec o data hsmall
  have hblocks := htrees.next.blocks
  have hnone : size fsm.nextFreeList = 0 := by rw [hnil]; rfl
  refine ⟨fsm, hok, htrees, ⟨by omega, ?_, by omega, by omega, by omega⟩, ?_, ?_⟩
  · rw [hdata]
    omega
  · rw [hdata]
    exact hzero
  · rw [hdata]
    exact herase

theorem FsmInv.of_step {g : FsmGeometry} {fsm fsm' : FsmInfo} (h : FsmInv g fsm) {op : FsmOp}
    (hok : op.Allowed g fsm) (hstep : fsmStep g fsm op = .ok fsm') : FsmInv g fsm' := by
  obtain ⟨u, hu, hinv⟩ := h.step hok
  rw [hstep] at hu
  obtain rfl := Except.ok.inj hu
  exact hinv

/-- Every run of calls that are in order keeps the invariant. -/
theorem FsmInv.reaches {g : FsmGeometry} {P : FsmInfo → FsmOp → Prop} {fsm₀ fsm : FsmInfo}
    (h : FsmInv g fsm₀) (hP : ∀ s op, P s op → op.Allowed g s)
    (hreach : Reaches P (fun s op => (fsmStep g s op).toOption) fsm₀ fsm) : FsmInv g fsm :=
  hreach.invariant h fun s op _ hs hop hstep => hs.of_step (hP s op hop) (eq_ok_of_toOption hstep)

/-- **Free space accounting.** In every run of calls that are in order, from a mounted volume of
fewer than `2 ^ 32` blocks on, the trees and the counters account for every free block, and no
assertion of the free space manager stops a call. -/
theorem freeSpace_accounting (g : FsmGeometry) (o : FsmOracle) (data : Bitmap)
    (hsmall : g.volumeBlocksCount < 2 ^ 32) (hzero : data 0 = true) :
    ∃ fsm₀, FsmInfo.vdfs4FsmBuildManagement g o data = .ok fsm₀ ∧
      ∀ fsm, Reaches (FsmOp.Allowed g) (fun s op => (fsmStep g s op).toOption) fsm₀ fsm →
        FsmInv g fsm ∧ ∀ op : FsmOp, op.Allowed g fsm → ∃ fsm', fsmStep g fsm op = .ok fsm' := by
  obtain ⟨fsm₀, hok, hinv⟩ := vdfs4FsmBuildManagement_fsmInv o hsmall hzero
  refine ⟨fsm₀, hok, fun fsm hreach => ?_⟩
  have hfsm := hinv.reaches (fun _ _ h => h) hreach
  refine ⟨hfsm, fun op hallowed => ?_⟩
  obtain ⟨fsm', hstep, -⟩ := hfsm.step hallowed
  exact ⟨fsm', hstep⟩

/-! ### Runs -/

/-- The request is in order, decided. -/
instance (g : FsmGeometry) (o : FsmOracle) (fsm : FsmInfo) (lengthInBlocks minBlkCount : Nat)
    (flags : FsmAllocFlags) : Decidable (GetOk g o fsm lengthInBlocks minBlkCount flags) :=
  decidable_of_iff (0 < lengthInBlocks ∧ (flags.aligned = true →
      lengthInBlocks % g.blocksPerSuperpage = 0 ∧ minBlkCount ≤ lengthInBlocks ∧
        lengthInBlocks + 2 * g.blocksPerSuperpage < 2 ^ 32) ∧
      (flags.delayed = true → (lengthInBlocks : Int) ≤ fsm.reservedBlocksCount) ∧
      RebuildOk g o fsm)
    ⟨fun h => ⟨h.1, h.2.1, h.2.2.1, h.2.2.2⟩,
      fun h => ⟨h.pos, h.aligned, h.delayed, h.rebuild⟩⟩

/-- The range may be released, decided. -/
instance (g : FsmGeometry) (fsm : FsmInfo) (blockOffset lengthInBlocks : Nat) :
    Decidable (PutOk g fsm blockOffset lengthInBlocks) :=
  decidable_of_iff (0 < lengthInBlocks ∧ blockOffset + lengthInBlocks ≤ g.volumeBlocksCount ∧
      fsm.data.allSet blockOffset lengthInBlocks = true)
    ⟨fun h => ⟨h.1, h.2.1, h.2.2⟩, fun h => ⟨h.pos, h.volume, h.set⟩⟩

instance instDecidableFsmAllowed (g : FsmGeometry) (fsm : FsmInfo) (op : FsmOp) :
    Decidable (op.Allowed g fsm) :=
  match op with
  | .get o _ lengthInBlocks minBlkCount flags =>
    inferInstanceAs (Decidable (GetOk g o fsm lengthInBlocks minBlkCount flags))
  | .put _ blockOffset lengthInBlocks flags =>
    inferInstanceAs (Decidable (PutOk g fsm blockOffset lengthInBlocks ∧ 0 < blockOffset ∧
      (flags.reserve = true → flags.unused = true)))
  | .reserve _ => .isTrue trivial
  | .freeReserved count => inferInstanceAs (Decidable ((count : Int) ≤ fsm.reservedBlocksCount))
  | .commit _ => .isTrue trivial

/-- An environment in which every node allocation succeeds. -/
def FsmOracle.allSucceed : FsmOracle := ⟨fun _ => true, fun _ => true⟩

/-- A volume of 40 blocks with superpages of 4 blocks and erase blocks of 8. -/
def fsmSampleGeometry : FsmGeometry := ⟨512, 40, 2, 3, true, by decide, by decide⟩

/-- Every kind of call: an aligned request, a delayed one of reserved space, a release back to
the reserve, pending releases, and a request that needs a rebuild before the commit. -/
def fsmSampleOps : List FsmOp :=
  let o := FsmOracle.allSucceed
  [.get o 0 4 4 ⟨false, true⟩, .reserve 3, .get o 0 2 1 ⟨true, false⟩, .put o 18 2 ⟨true, true⟩,
    .put o 21 2 ⟨false, false⟩, .put o 9 1 ⟨false, false⟩, .get o 0 1 1 ⟨false, false⟩,
    .freeReserved 1, .commit o, .get o 21 2 1 ⟨true, false⟩]

/-- A run on a volume with blocks 10 to 19 free. -/
def fsmSampleRun (ops : List FsmOp) : Option FsmInfo :=
  (FsmInfo.vdfs4FsmBuildManagement fsmSampleGeometry .allSucceed
    fun x => x < 10 || 20 ≤ x).toOption.bind
    (guardedRun (FsmOp.Allowed fsmSampleGeometry)
      (fun s op => (fsmStep fsmSampleGeometry s op).toOption) ops)

theorem freeSpace_accounting_sample :
    ∃ fsm, fsmSampleRun fsmSampleOps = some fsm ∧ FsmInv fsmSampleGeometry fsm ∧
      fsm.freeArea = [⟨9, 1⟩, ⟨11, 1⟩, ⟨16, 4⟩] ∧ fsm.freeBlocksCount = 6 := by
  have hrun : (fsmSampleRun fsmSampleOps).map (fun fsm => (fsm.freeArea, fsm.freeBlocksCount)) =
      some ([⟨9, 1⟩, ⟨11, 1⟩, ⟨16, 4⟩], 6) := by decide +kernel
  obtain ⟨fsm0, hbuild, hall⟩ := freeSpace_accounting fsmSampleGeometry .allSucceed
    (fun x => x < 10 || 20 ≤ x) (by decide) rfl
  obtain ⟨fsm, hfsm, hmap⟩ := Option.map_eq_some_iff.mp hrun
  have hreach := hfsm
  rw [fsmSampleRun, hbuild] at hreach
  refine ⟨fsm, hfsm, (hall fsm (reaches_of_guardedRun hreach)).1, ?_⟩
  simpa using hmap

/-- **Mounting again loses no block**: the mount from the bitmap of a state counts its free,
reserved and pending blocks as free. -/
theorem remount_counts_free {g : FsmGeometry} {fsm : FsmInfo} (h : FsmInv g fsm) (o : FsmOracle) :
    ∃ fsm', vdfs4FsmBuildManagement g o fsm.data = .ok fsm' ∧ FsmInv g fsm' ∧
      fsm'.freeBlocksCount = fsm.freeBlocksCount + fsm.reservedBlocksCount +
      fsm.nextFreeBlocks := by
  obtain ⟨fsm', hok, hinv⟩ := vdfs4FsmBuildManagement_fsmInv o h.trees.small h.zero
  obtain ⟨_, hok', -, -, -, -, -, -, hfree, -⟩ :=
    vdfs4FsmBuildManagement_spec o fsm.data h.trees.small
  obtain rfl := Except.ok.inj (hok.symm.trans hok')
  exact ⟨fsm', hok, hinv, hfree.trans h.counts.total⟩

/-- Three blocks are free, three are reserved and three pending. -/
theorem remount_sample : ∃ fsm fsm' : FsmInfo,
    fsmSampleRun (fsmSampleOps.take 6) = some fsm ∧ fsm.freeBlocksCount = 3 ∧
      fsm.reservedBlocksCount = 3 ∧ fsm.nextFreeBlocks = 3 ∧
      vdfs4FsmBuildManagement fsmSampleGeometry .allSucceed fsm.data = .ok fsm' ∧
      fsm'.freeBlocksCount = 9 := by
  have hrun : (fsmSampleRun (fsmSampleOps.take 6)).map (fun fsm =>
      (fsm.freeBlocksCount, fsm.reservedBlocksCount, fsm.nextFreeBlocks)) = some (3, 3, 3) := by
    decide +kernel
  obtain ⟨fsm, hfsm, hmap⟩ := Option.map_eq_some_iff.mp hrun
  simp only [Prod.mk.injEq] at hmap
  obtain ⟨fsm₀, hbuild, hinv⟩ := @vdfs4FsmBuildManagement_fsmInv fsmSampleGeometry .allSucceed
    (fun x => x < 10 || 20 ≤ x) (by decide) rfl
  have hreach := hfsm
  rw [fsmSampleRun, hbuild] at hreach
  obtain ⟨fsm', hok, -, hfree⟩ :=
    remount_counts_free (hinv.reaches (fun _ _ h => h) (reaches_of_guardedRun hreach)) .allSucceed
  exact ⟨fsm, fsm', hfsm, hmap.1, hmap.2.1, hmap.2.2, hok, by omega⟩

/-- A volume whose last five blocks lie in the second bitmap block. -/
def boundaryGeometry : FsmGeometry := ⟨512, 3973, 0, 12, true, by decide, by decide⟩

/-- The last block is handed out and given back, and an extent across the end of the first
bitmap block is released. The request then rebuilds the tree, and no node is available for the
part of the extent before the end and for the last block. -/
def boundaryOps : List FsmOp :=
  let o := FsmOracle.allSucceed
  [.get o 0 1 1 ⟨false, false⟩, .put o 3972 1 ⟨true, false⟩, .put o 3967 2 ⟨false, false⟩,
    .get ⟨fun s => s != 3967 && s != 3972, fun _ => true⟩ 0 1 1 ⟨false, false⟩]

/-- The run on a full volume but for its last block. -/
def boundaryRun : Option FsmInfo :=
  (FsmInfo.vdfs4FsmBuildManagement boundaryGeometry .allSucceed fun x => x != 3972).toOption.bind
    (guardedRun (fun _ _ => True) (fun s op => (fsmStep boundaryGeometry s op).toOption)
      boundaryOps)

/-- **A pending block is in use**: the part of the extent behind the end of the bitmap block
was still in the tree and was handed out. -/
theorem rebuild_hands_out_pending :
    ∃ fsm, boundaryRun = some fsm ∧ 3968 ∈ covered fsm.nextFreeList ∧
      3968 ∉ zeroBelow fsm.data boundaryGeometry.volumeBlocksCount := by
  have hrun : boundaryRun.map (fun fsm => (fsm.nextFreeList, fsm.data 3968)) =
      some ([⟨3967, 2⟩], true) := by decide +kernel
  obtain ⟨fsm, hfsm, hmap⟩ := Option.map_eq_some_iff.mp hrun
  obtain ⟨hlist, hset⟩ := Prod.mk.inj hmap
  refine ⟨fsm, hfsm, ?_, ?_⟩
  · rw [hlist]
    decide
  · rw [mem_zeroBelow, hset]
    simp

end Vdfs4
