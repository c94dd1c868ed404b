import Vdfs4.Lib.Run
import Vdfs4.Fsm.Manager

/-!
# Outside the trees of the free space manager

What the free space manager does in **any** state, whether its trees are in order or not.

* `OutsideTrees` — the functions on the trees never touch the reserved blocks, the bitmap and
  the erase block counters, and stop at assertions of their own only (`TreeBug`).
* A delayed allocation takes from the reserve what it hands out; a release back to the reserve
  of a range just handed out gives it back.
-/

namespace Vdfs4

open GuardedRun

/-- The assertion of `vdfs4_free_reserved_space` is another one. -/
def NotUnderflow (bug : FsmBug) : Prop := bug ≠ .reservedUnderflow

/-- An assertion on the trees. -/
def TreeBug (bug : FsmBug) : Prop := bug ≠ .reservedUnderflow ∧ bug ≠ .eraseBlocksCounter

/-- Nothing outside the trees has changed. -/
structure OutsideTrees (fsm fsm' : FsmInfo) : Prop where
  reserved : fsm'.reservedBlocksCount = fsm.reservedBlocksCount
  data : fsm'.data = fsm.data
  counters : fsm'.eraseBlocksCounters = fsm.eraseBlocksCounters

theorem OutsideTrees.trans {fsm fsm1 fsm2 : FsmInfo} (h : OutsideTrees fsm fsm1)
    (h' : OutsideTrees fsm1 fsm2) : OutsideTrees fsm fsm2 :=
  ⟨h'.reserved.trans h.reserved, h'.data.trans h.data, h'.counters.trans h.counters⟩

/-- A computation on the trees. -/
abbrev TreeWork (fsm : FsmInfo) : Except FsmBug FsmInfo → Prop := Ends TreeBug (OutsideTrees fsm)

/-- A computation that leaves the reserved blocks alone. -/
abbrev KeepsReserved (fsm : FsmInfo) : Except FsmBug FsmInfo → Prop :=
  Ends NotUnderflow fun fsm' => fsm'.reservedBlocksCount = fsm.reservedBlocksCount

namespace FsmInfo

variable {g : FsmGeometry} {o : FsmOracle} {fsm : FsmInfo} {pick : FsmNode × Nat × Nat}
  {length start : Nat}

/-! ### The trees -/

theorem verified_treeWork : TreeWork fsm (fsm.verified g) := by
  unfold verified
  split
  · exact ⟨nofun, nofun⟩
  · exact ⟨rfl, rfl, rfl⟩

theorem fsmShrink_outside (node node' : FsmNode) :
    OutsideTrees fsm (fsm.fsmShrink node node') := by
  unfold fsmShrink
  split <;> exact ⟨rfl, rfl, rfl⟩

theorem fsmAllocateFromNode_treeWork (node : FsmNode) (start length : Nat) :
    TreeWork fsm (fsm.fsmAllocateFromNode o node start length) := by
  have hunhash : OutsideTrees fsm (fsm.fsmUnhash node) := ⟨rfl, rfl, rfl⟩
  unfold fsmAllocateFromNode
  simp only
  split
  · exact ⟨nofun, nofun⟩
  split
  · exact hunhash.trans (fsmShrink_outside _ _)
  split
  · exact hunhash.trans (fsmShrink_outside _ _)
  · show OutsideTrees fsm (fsmHash _ _)
    split <;> exact ⟨rfl, rfl, rfl⟩

theorem fsmBuildPiece_outside (s : FsmInfo × Option FsmNode) (piece : ScanPiece) :
    OutsideTrees s.1 (fsmBuildPiece o s piece).1 := by
  obtain ⟨fsm, last⟩ := s
  unfold fsmBuildPiece
  split
  · unfold fsmAppendFreeSpace
    cases last with
    | none =>
      simp only
      split <;> exact ⟨rfl, rfl, rfl⟩
    | some node =>
      simp only
      split
      · exact ⟨rfl, rfl, rfl⟩
      · split <;> exact ⟨rfl, rfl, rfl⟩
  · exact ⟨rfl, rfl, rfl⟩

theorem foldl_fsmBuildPiece_outside (pieces : List ScanPiece) (s : FsmInfo × Option FsmNode) :
    OutsideTrees s.1 (pieces.foldl (fsmBuildPiece o) s).1 := by
  induction pieces generalizing s with
  | nil => exact ⟨rfl, rfl, rfl⟩
  | cons piece pieces ih =>
    rw [List.foldl_cons]
    exact (fsmBuildPiece_outside s piece).trans (ih _)

theorem fsmBuildTree_outside (fsm : FsmInfo) : OutsideTrees fsm (fsm.fsmBuildTree g o) := by
  have hfold := foldl_fsmBuildPiece_outside (o := o) (fsmPieces g fsm.data) (fsm, none)
  unfold fsmBuildTree
  simp only
  split
  · exact hfold
  · exact ⟨hfold.reserved, hfold.data, hfold.counters⟩

theorem fsmCutNode_treeWork (next : FsmNode) : TreeWork fsm (fsm.fsmCutNode o next) := by
  unfold fsmCutNode
  split
  · split
    · exact ⟨nofun, nofun⟩
    · exact ⟨rfl, rfl, rfl⟩
  · split
    · exact ⟨nofun, nofun⟩
    · exact fsmAllocateFromNode_treeWork _ _ _

theorem fsmCutNextFree_treeWork : TreeWork fsm (fsm.fsmCutNextFree o) :=
  Ends.foldlM (fun _ next h => (fsmCutNode_treeWork next).mono fun _ h2 => h.trans h2)
    fsm.nextFreeList ⟨rfl, rfl, rfl⟩

theorem fsmRebuildTree_treeWork : TreeWork fsm (fsm.fsmRebuildTree g o) := by
  unfold fsmRebuildTree
  split
  · exact ⟨rfl, rfl, rfl⟩
  refine Ends.bind (fsmCutNextFree_treeWork.mono fun fsm1 h1 => OutsideTrees.trans ?_ h1)
    fun fsm1 h1 => verified_treeWork.mono fun fsm2 h2 => h1.trans h2
  have hbuild := fsmBuildTree_outside (g := g) (o := o)
    { fsmInitTree { fsm with
      nextFreeBlocks := fsm.nextFreeBlocks - fsm.untrackedNextFree
      untrackedNextFree := 0 } with untrackedBlocks := 0, freeBlocksCount := 0 }
  exact ⟨hbuild.reserved, hbuild.data, hbuild.counters⟩

/-- `fsm_allocate_space`, whatever the lengths. -/
theorem fsmAllocateSpace_treeWork (fsm : FsmInfo) (start minLength length : Nat) :
    Ends TreeBug (fun r => OutsideTrees fsm r.1)
      (fsm.fsmAllocateSpace g o start minLength length) := by
  have hat : ∀ (fsm1 : FsmInfo) (pick : FsmNode × Nat × Nat), OutsideTrees fsm fsm1 →
      Ends TreeBug (fun r => OutsideTrees fsm r.1) (fsm1.fsmAllocateAt o length pick) :=
    fun fsm1 pick h1 => (fsmAllocateFromNode_treeWork _ _ _).map fun fsm2 h2 => h1.trans h2
  have hnone : ∀ fsm1 : FsmInfo, OutsideTrees fsm fsm1 → Ends TreeBug
      (fun r => OutsideTrees fsm r.1) ((fsm1.verified g).map fun fsm => (fsm, 0, length)) :=
    fun fsm1 h1 => verified_treeWork.map fun fsm2 h2 => h1.trans h2
  unfold fsmAllocateSpace
  split
  · exact hat fsm _ ⟨rfl, rfl, rfl⟩
  split
  · refine fsmRebuildTree_treeWork.bind fun fsm1 h1 => ?_
    split
    · exact hat fsm1 _ h1
    · exact hnone fsm1 h1
  · exact hnone fsm ⟨rfl, rfl, rfl⟩

/-! ### Delayed allocation -/

/-- The result of `fsm_allocate_space` for `length` blocks, of which one is enough. -/
def Offered (length : Nat) (r : FsmInfo × Nat × Nat) : Prop :=
  r.2.1 ≠ 0 → 0 < r.2.2 ∧ r.2.2 ≤ length

theorem fsmPickNode_room (h : fsm.fsmPickNode start 1 length = some pick) : 0 < pick.2.2 := by
  unfold fsmPickNode at h
  simp only at h
  split at h
  · rename_i node hhint
    obtain rfl := Option.some.inj h
    split at hhint
    · cases hhint
    · exact of_decide_eq_true (Option.filter_eq_some_iff.mp hhint).2
  split at h
  · cases h
  · split at h
    · cases h
    · obtain rfl := Option.some.inj h
      simp only
      omega

theorem fsmAllocateAt_offered (hlen : 0 < length)
    (hpick : fsm.fsmPickNode start 1 length = some pick) :
    Ends (fun _ => True) (Offered length) (fsm.fsmAllocateAt o length pick) := by
  have hroom := fsmPickNode_room hpick
  refine Ends.map (Ends.trivial _) fun fsm' _ _ => ?_
  exact ⟨Nat.lt_min.mpr ⟨hlen, hroom⟩, Nat.min_le_left _ _⟩

theorem fsmAllocateSpace_offered (start : Nat) (hlen : 0 < length) :
    Ends (fun _ => True) (Offered length) (fsm.fsmAllocateSpace g o start 1 length) := by
  have hnone : ∀ fsm1 : FsmInfo, Ends (fun _ => True) (Offered length)
      ((fsm1.verified g).map fun fsm => (fsm, 0, length)) := fun fsm1 =>
    Ends.map (Ends.trivial _) fun fsm2 _ h => absurd rfl h
  unfold fsmAllocateSpace
  split
  · rename_i pick hpick
    exact fsmAllocateAt_offered hlen hpick
  split
  · refine Ends.bind (Ends.trivial _) fun fsm1 _ => ?_
    split
    · rename_i pick hpick
      exact fsmAllocateAt_offered hlen hpick
    · exact hnone fsm1
  · exact hnone fsm

/-- The result of a delayed request for `length` blocks: no block, or a range that is marked
in the bitmap and taken from the reserved blocks. -/
def Delivered (g : FsmGeometry) (fsm : FsmInfo) (length : Nat) (r : FsmInfo × Nat × Nat) : Prop :=
  (r.2.1 = 0 ∧ r.1.reservedBlocksCount = fsm.reservedBlocksCount) ∨
    (r.2.1 ≠ 0 ∧ 0 < r.2.2 ∧ r.2.2 ≤ length ∧ r.2.1 + r.2.2 ≤ g.volumeBlocksCount ∧
      r.1.data.allSet (r.2.1 % 2 ^ 32) r.2.2 = true ∧
      r.1.reservedBlocksCount = fsm.reservedBlocksCount - r.2.2)

theorem fsmIncEraseBlocksCounters_ends (length block : Nat) (counters : List Nat) :
    Ends NotUnderflow (fun _ => True) (fsmIncEraseBlocksCounters g counters block length) := by
  induction length generalizing block counters with
  | zero => exact trivial
  | succ length ih =>
    simp only [fsmIncEraseBlocksCounters]
    split
    · exact ih _ _
    · split
      · exact nofun
      · exact ih _ _

theorem fsmDecEraseBlocksCounters_ends (length block : Nat) (counters : List Nat) :
    Ends NotUnderflow (fun _ => True) (fsmDecEraseBlocksCounters g counters block length) := by
  induction length generalizing block counters with
  | zero => exact trivial
  | succ length ih =>
    rw [fsmDecEraseBlocksCounters]
    generalize (if counters.getD (block >>> g.logEraseBlockSizeInBlocks) 0 = 0 then 2 ^ 32 - 1
      else counters.getD (block >>> g.logEraseBlockSizeInBlocks) 0 - 1) = count
    split
    · exact ih _ _
    · split
      · exact nofun
      · exact ih _ _

/-- **A delayed allocation** takes from the reserve what it hands out. -/
theorem vdfs4FsmGetFreeBlock_delivered (blockOffset : Nat) (hlen : 0 < length) :
    Ends NotUnderflow (Delivered g fsm length)
      (fsm.vdfs4FsmGetFreeBlock g o blockOffset length length ⟨true, false⟩) := by
  unfold vdfs4FsmGetFreeBlock
  simp only [Bool.true_eq_false, and_false, if_false, Bool.false_eq_true]
  have hspace := (fsmAllocateSpace_treeWork (g := g) (o := o) fsm
    ((if g.volumeBlocksCount ≤ blockOffset + length then 0 else blockOffset) % 2 ^ 32)
    1 length).and
      (fsmAllocateSpace_offered _ hlen)
  refine (hspace.monoError fun bug hbug => hbug.1.1).bind
    fun ⟨fsm1, start, len⟩ ⟨houtside, hrange⟩ => ?_
  have hreserved := houtside.reserved
  simp only [Offered] at hreserved hrange ⊢
  unfold fsmMarkAllocated
  split
  · exact .inl ⟨rfl, hreserved⟩
  rename_i hstart
  split
  · exact nofun
  rename_i hvolume
  split
  · exact nofun
  refine (fsmIncEraseBlocksCounters_ends _ _ _).map fun counters _ => .inr ?_
  obtain ⟨hpos, hle⟩ := hrange hstart
  refine ⟨hstart, hpos, hle, Nat.le_of_not_lt hvolume, ?_, ?_⟩
  · rw [Bitmap.allSet_eq_true]
    intro x hlo hhi
    simp only [markRange]
    rw [Bitmap.setRange_eq_true]
    exact .inl ⟨hlo, hhi⟩
  · simp only [markRange, if_true, hreserved]

/-! ### Release -/

/-- A release of a range whose bits are set: back to the reserve if asked for. -/
theorem vdfs4FsmPutFreeBlock_reserve {pos len : Nat} (unused : Bool)
    (hall : fsm.data.allSet (pos % 2 ^ 32) len = true) :
    Ends NotUnderflow (fun fsm' => fsm'.reservedBlocksCount = fsm.reservedBlocksCount + len)
      (fsm.vdfs4FsmPutFreeBlock g o pos len ⟨unused, true⟩) := by
  unfold vdfs4FsmPutFreeBlock
  split
  · exact nofun
  simp only [hall, Bool.not_true, Bool.false_eq_true, if_false, if_true]
  refine (fsmDecEraseBlocksCounters_ends _ _ _).map fun counters _ => ?_
  simp only
  split
  · rfl
  simp only [fsmAddFreeSpace]
  split
  · rfl
  split
  · rfl
  · rfl
  · split <;> rfl

/-- Any other release leaves the reserve alone. -/
theorem vdfs4FsmPutFreeBlock_reserved (pos len : Nat) :
    KeepsReserved fsm (fsm.vdfs4FsmPutFreeBlock g o pos len ⟨false, false⟩) := by
  unfold vdfs4FsmPutFreeBlock
  split
  · exact nofun
  simp only [Bool.false_eq_true, if_false]
  split
  · exact rfl
  refine (fsmDecEraseBlocksCounters_ends _ _ _).map fun counters _ => ?_
  simp only [fsmAddFreeSpace]
  split
  · rfl
  split
  · rfl
  · rfl
  · split <;> rfl

end FsmInfo

end Vdfs4
