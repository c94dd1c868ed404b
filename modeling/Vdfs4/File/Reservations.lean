import Vdfs4.File.BlockMapRun
import Vdfs4.File.DelayedAlloc
import Vdfs4.Fsm.Reserved

/-!
# What a call does to the reserve

The calls of delayed allocation on **one** inode.

* `Balanced` — what every call does to the reserve, in any state: reserved blocks and delayed
  blocks change alike.
* `Clean` — the delayed blocks of an inode are not mapped and its runtime list is sorted. A call
  keeps it as long as it takes no **inner** block off the runtime list.
* `Carried` — both, for the result of a call; one lemma for each function.
-/

namespace Vdfs4

open GuardedRun FsmInfo

/-- The calls never stop at the assertion of `vdfs4_free_reserved_space`. -/
def NoUnderflow (bug : FileBug) : Prop := bug ≠ .fsm .reservedUnderflow

theorem noUnderflow_fsm {bug : FsmBug} (h : NotUnderflow bug) : NoUnderflow (.fsm bug) :=
  fun heq => h (FileBug.fsm.inj heq)

/-- The delayed blocks of an inode. -/
def InodeInfo.delayedCount (inode : InodeInfo) : Nat :=
  vdfs4RuntimeExtentCount inode.runtimeExtents

/-- No entry of the runtime list is empty and its blocks are reserved. -/
structure Backed (fsm : FsmInfo) (inode : InodeInfo) : Prop where
  filled : Filled inode.runtimeExtents
  reserved : (inode.delayedCount : Int) ≤ fsm.reservedBlocksCount

/-- The reserve and the delayed blocks changed alike. -/
structure Balanced (fsm : FsmInfo) (inode : InodeInfo) (fsm' : FsmInfo) (inode' : InodeInfo) :
    Prop where
  filled : Filled inode'.runtimeExtents
  reserved : fsm'.reservedBlocksCount - inode'.delayedCount =
    fsm.reservedBlocksCount - inode.delayedCount

/-- The blocks of the inode, mapped or delayed, with `n` more. -/
def InodeInfo.Room (inode : InodeInfo) (n : Nat) : Prop :=
  inode.map.fork.totalBlockCount + inode.delayedCount + n < 2 ^ 32

instance (inode : InodeInfo) (n : Nat) : Decidable (inode.Room n) :=
  inferInstanceAs (Decidable (_ < _))

/-- The block map is a map, the runtime list is sorted, and no delayed block is mapped. -/
structure Clean (inode : InodeInfo) : Prop where
  filled : Filled inode.runtimeExtents
  ascending : Ascending inode.runtimeExtents
  map : ∃ used M, MapInv inode.map used M ∧ ∀ x, Delayed inode.runtimeExtents x → M x = none
  room : inode.Room 0

section calls

variable {g : FileGeometry} {fsm fsm' fsm'' : FsmInfo} {inode inode' inode'' : InodeInfo}
  {kzalloc : Bool}

theorem Backed.balanced_self (h : Backed fsm inode) : Balanced fsm inode fsm inode :=
  ⟨h.filled, rfl⟩

theorem Balanced.backed (h : Balanced fsm inode fsm' inode') (hb : Backed fsm inode) :
    Backed fsm' inode' := by
  have h1 := h.reserved
  have h2 := hb.reserved
  exact ⟨h.filled, by omega⟩

theorem Balanced.trans (h : Balanced fsm inode fsm' inode')
    (h' : Balanced fsm' inode' fsm'' inode'') : Balanced fsm inode fsm'' inode'' :=
  ⟨h'.filled, h'.reserved.trans h.reserved⟩

/-- Giving `n` blocks of the reserve back. -/
theorem vdfs4FreeReservedSpace_ends {n : Nat} (h : (n : Int) ≤ fsm.reservedBlocksCount) :
    Ends NoUnderflow (fun fsm' => fsm'.reservedBlocksCount = fsm.reservedBlocksCount - n)
      ((fsm.vdfs4FreeReservedSpace n).mapError FileBug.fsm) := by
  unfold vdfs4FreeReservedSpace
  by_cases hn : n = 0
  · rw [if_pos hn, hn]
    exact (Int.sub_zero _).symm
  · rw [if_neg hn, if_neg (by omega)]
    exact rfl

theorem vdfs4ReserveSpace_reserved {n : Nat} (h : fsm.vdfs4ReserveSpace n = some fsm') :
    fsm'.reservedBlocksCount = fsm.reservedBlocksCount + n := by
  unfold vdfs4ReserveSpace at h
  split at h
  · obtain rfl := Option.some.inj h
    rfl
  · cases h

/-- A looked-up block has no first block exactly when it is not mapped. -/
theorem MapInv.unmapped_iff {m : BlockMap} {used : List ExtentInfo} {M : Nat → Option Nat}
    (h : MapInv m used M) (x : Nat) :
    (vdfs4GetIblockExtent m x).1.firstBlock = 0 ↔ M x = none := by
  have hiff := h.fileMap.get_ne_zero_iff x
  rw [← Option.not_isSome_iff_eq_none, Bool.not_eq_true, ← Bool.not_eq_true, ← hiff, not_not]

/-! ### The block map -/

section map

variable {m m' : BlockMap} {used : List ExtentInfo} {M : Nat → Option Nat} {e : ExtentInfo}

/-- An insertion that succeeds does what it does when nothing fails. -/
theorem insertExtent_ok {eraseError treeError : Option Errno}
    (h : insertExtent m e eraseError treeError = .ok m') : insertExtent m e none none = .ok m' := by
  have hfork : ∀ pos, insertInFork m e pos treeError = .ok m' →
      insertInFork m e pos none = .ok m' := by
    intro pos hpos
    cases treeError with
    | none => exact hpos
    | some err =>
      simp only [insertInFork, vdfs4ExtreeInsertExtent] at hpos ⊢
      split at hpos
      · rename_i hblank
        rw [if_pos hblank]
        exact hpos
      rename_i hblank
      rw [if_neg hblank]
      split at hpos
      · cases hpos
      rename_i hend
      rw [if_neg hend]
      split at hpos
      · cases hpos
      rename_i hfull
      rw [if_neg hfull]
      exact hpos
  cases eraseError with
  | some err => cases h
  | none =>
    simp only [insertExtent] at h ⊢
    split at h
    · rename_i hused
      rw [if_pos hused]
      exact h
    rename_i hused
    rw [if_neg hused]
    split at h
    · rename_i hfirst
      rw [if_pos hfirst]
      exact hfork _ h
    rename_i hfirst
    rw [if_neg hfirst]
    split at h
    · rename_i hjoin
      rw [if_pos hjoin]
      exact h
    rename_i hjoin
    rw [if_neg hjoin]
    exact hfork _ h

/-- A successful insertion of an unmapped range maps it and counts its blocks. -/
theorem MapInv.insertExtent (h : MapInv m used M) (he : Unmapped M e)
    (hfits : m.fork.totalBlockCount + e.blockCount < 2 ^ 32) {eraseError treeError : Option Errno}
    (hins : insertExtent m e eraseError treeError = .ok m') :
    (∃ used', MapInv m' used' (mapExtent M e)) ∧
      m'.fork.totalBlockCount ≤ m.fork.totalBlockCount + e.blockCount := by
  obtain ⟨m1, used', hins', hinv⟩ := insertExtent_mapInv h ⟨he, hfits⟩
  obtain rfl : m1 = m' := Except.ok.inj (hins'.symm.trans (insertExtent_ok hins))
  refine ⟨⟨used', hinv⟩, ?_⟩
  -- the counters are the numbers of mapped blocks
  have hsub : {x | (mapExtent M e x).isSome = true} ⊆
      {x | (M x).isSome = true} ∪ ↑(Finset.Ico e.iblock (e.iblock + e.blockCount)) := by
    intro x hx
    by_cases hcov : e.Covers x
    · right
      rw [Finset.coe_Ico]
      exact hcov
    · left
      simpa only [mapExtent, hcov, if_false, Set.mem_ofPred_eq] using hx
  have hfin := h.fileMap.finite_mapped.union
    (Finset.finite_toSet (Finset.Ico e.iblock (e.iblock + e.blockCount)))
  calc m1.fork.totalBlockCount
      = {x | (mapExtent M e x).isSome = true}.ncard := hinv.fileMap.total_eq_ncard
    _ ≤ ({x | (M x).isSome = true} ∪
          ↑(Finset.Ico e.iblock (e.iblock + e.blockCount))).ncard := Set.ncard_le_ncard hsub hfin
    _ ≤ {x | (M x).isSome = true}.ncard +
          (↑(Finset.Ico e.iblock (e.iblock + e.blockCount)) : Set Nat).ncard :=
        Set.ncard_union_le _ _
    _ = m.fork.totalBlockCount + e.blockCount := by
        rw [← h.fileMap.total_eq_ncard, Set.ncard_coe_finset, Nat.card_Ico,
          Nat.add_sub_cancel_left]

theorem unmapAll_eq_none {freed : List ExtentInfo} {x : Nat} (h : M x = none) :
    unmapAll M freed x = none := by
  induction freed generalizing M with
  | nil => exact h
  | cons e freed ih =>
    refine ih ?_
    unfold unmapExtent
    split
    · rfl
    · exact h

/-- A truncation unmaps blocks and maps none. -/
theorem MapInv.truncate (h : MapInv m used M) {n : Nat} (hreach : TreeInReach m n)
    (stopError : Nat → Option Errno) :
    ∃ used' M', MapInv (vdfs4TruncateBlockMap m n stopError []).map used' M' ∧
      (∀ x, M x = none → M' x = none) ∧
      (vdfs4TruncateBlockMap m n stopError []).map.fork.totalBlockCount ≤
        m.fork.totalBlockCount := by
  obtain ⟨used', t, ht, hspec⟩ := vdfs4TruncateBlockMap_spec stopError h hreach
  rw [ht]
  refine ⟨used', _, hspec.inv, fun x hx => unmapAll_eq_none hx, ?_⟩
  rw [hspec.inv.fileMap.total_eq_ncard, h.fileMap.total_eq_ncard]
  refine Set.ncard_le_ncard (fun x hx => ?_) h.fileMap.finite_mapped
  by_contra hnot
  have hnone : M x = none := by simpa using hnot
  have hnone' : unmapAll M t.freed x = none := unmapAll_eq_none hnone
  simp only [Set.mem_ofPred_eq, hnone', Option.isSome_none, Bool.false_eq_true] at hx

end map

/-! ### Clean inodes -/

variable {list : List RuntimeExtent} {x n : Nat}

/-- Any list that stands for fewer blocks will do. -/
theorem Clean.setRuntime (h : Clean inode) (hfilled : Filled list) (hasc : Ascending list)
    (hsub : ∀ y, Delayed list y → Delayed inode.runtimeExtents y)
    (hcount : vdfs4RuntimeExtentCount list ≤ inode.delayedCount) :
    Clean { inode with runtimeExtents := list } := by
  obtain ⟨used, M, hinv, hnone⟩ := h.map
  have hroom := h.room
  unfold InodeInfo.Room at hroom
  exact ⟨hfilled, hasc, ⟨used, M, hinv, fun y hy => hnone y (hsub y hy)⟩,
    show inode.map.fork.totalBlockCount + vdfs4RuntimeExtentCount list + 0 < 2 ^ 32 by omega⟩

/-- A block that is not an inner one is taken off the list. -/
theorem Clean.del (h : Clean inode) (hinner : ¬ Inner inode.runtimeExtents x)
    (hdel : vdfs4RuntimeExtentDel x kzalloc inode.runtimeExtents = .ok list) :
    Clean { inode with runtimeExtents := list } ∧
      ∀ y, Delayed list y ↔ Delayed inode.runtimeExtents y ∧ y ≠ x := by
  obtain ⟨hfilled, hcount⟩ := vdfs4RuntimeExtentDel_filled h.filled hdel
  obtain ⟨hasc, hiff⟩ := vdfs4RuntimeExtentDel_ascending h.filled h.ascending hinner hdel
  refine ⟨h.setRuntime hfilled hasc (fun y hy => ((hiff y).mp hy).1) ?_, hiff⟩
  rw [InodeInfo.delayedCount, ← hcount]
  exact Nat.le_succ _

/-- The inode grew by at most `n` delayed blocks, all of them in `blocks`. -/
structure Grown (inode : InodeInfo) (blocks : Nat → Prop) (n : Nat) (inode' : InodeInfo) :
    Prop where
  clean : Clean inode'
  map_eq : inode'.map = inode.map
  count_le : inode'.delayedCount ≤ inode.delayedCount + n
  delayed : ∀ y, Delayed inode'.runtimeExtents y → Delayed inode.runtimeExtents y ∨ blocks y

/-- An unmapped block is put on the list. -/
theorem Clean.add (h : Clean inode) {allocHint : Nat}
    (hun : (vdfs4GetIblockExtent inode.map x).1.firstBlock = 0) (hroom : inode.Room 1)
    (hadd : vdfs4RuntimeExtentAdd x allocHint kzalloc inode.runtimeExtents = .ok list) :
    Grown inode (· = x) 1 { inode with runtimeExtents := list } := by
  obtain ⟨used, M, hinv, hnone⟩ := h.map
  obtain ⟨hfilled, hcount⟩ := vdfs4RuntimeExtentAdd_filled h.filled hadd
  obtain ⟨hasc, -, hiff⟩ := vdfs4RuntimeExtentAdd_ascending h.filled h.ascending hadd
  have hcount' : vdfs4RuntimeExtentCount list = inode.delayedCount + 1 := hcount
  unfold InodeInfo.Room at hroom
  refine ⟨⟨hfilled, hasc, ⟨used, M, hinv, fun y hy => ?_⟩, ?_⟩, rfl, hcount'.le,
    fun y hy => (hiff y).mp hy⟩
  · rcases (hiff y).mp hy with hy | rfl
    · exact hnone y hy
    · exact (hinv.unmapped_iff y).mp hun
  · show inode.map.fork.totalBlockCount + vdfs4RuntimeExtentCount list + 0 < 2 ^ 32
    omega

/-- Delayed blocks are placed: the range `[first, first + count)` of logical blocks is mapped
and leaves the list. -/
theorem Clean.place (h : Clean inode) {e : ExtentInfo} {m : BlockMap}
    {eraseError treeError : Option Errno} (hpos : 0 < e.blockCount) (hfirst : e.firstBlock ≠ 0)
    (hdelayed : ∀ y, e.Covers y → Delayed inode.runtimeExtents y)
    (hins : insertExtent inode.map e eraseError treeError = .ok m) (hfilled : Filled list)
    (hasc : Ascending list)
    (hiff : ∀ y, Delayed list y → Delayed inode.runtimeExtents y ∧ ¬ e.Covers y)
    (hcount : vdfs4RuntimeExtentCount list + e.blockCount = inode.delayedCount) :
    Clean { inode with map := m, runtimeExtents := list } := by
  obtain ⟨used, M, hinv, hnone⟩ := h.map
  have hroom := h.room
  unfold InodeInfo.Room at hroom
  obtain ⟨⟨used', hinv'⟩, htotal⟩ := hinv.insertExtent
    ⟨hpos, hfirst, fun y hy => hnone y (hdelayed y hy)⟩ (by omega) hins
  refine ⟨hfilled, hasc, ⟨used', _, hinv', fun y hy => ?_⟩, ?_⟩
  · obtain ⟨hy, hcov⟩ := hiff y hy
    rw [mapExtent, if_neg hcov]
    exact hnone y hy
  · show m.fork.totalBlockCount + vdfs4RuntimeExtentCount list + 0 < 2 ^ 32
    omega

/-! ### The calls -/

/-- What a call does: it keeps the balance, and under its condition a clean inode. -/
def Carried (cond : Prop) (fsm : FsmInfo) (inode : InodeInfo) (r : InodeResult) : Prop :=
  Balanced fsm inode r.1 r.2.1 ∧ (cond → Clean inode → Clean r.2.1)

theorem Backed.carried (h : Backed fsm inode) (cond : Prop) (err : Option Errno) :
    Carried cond fsm inode (fsm, inode, err) :=
  ⟨h.balanced_self, fun _ hclean => hclean⟩

theorem checkResBlock_ends (extent : ExtentInfo) (iblock : Nat) :
    Ends NoUnderflow (fun _ => True) (checkResBlock g extent iblock) := by
  unfold checkResBlock
  simp only
  split
  · exact nofun
  split
  · split
    · exact nofun
    · exact trivial
  · exact trivial

/-- What the calls that reserve block `x` do; with an error the inode stays as it is. -/
def ReservedOne (fsm : FsmInfo) (inode : InodeInfo) (x : Nat) (r : InodeResult) : Prop :=
  Balanced fsm inode r.1 r.2.1 ∧ (r.2.2 ≠ none → r.2.1 = inode) ∧
    (inode.Room 1 → Clean inode → Grown inode (· = x) 1 r.2.1)

theorem Backed.reservedOne (h : Backed fsm inode) (err : Option Errno) :
    ReservedOne fsm inode x (fsm, inode, err) :=
  ⟨h.balanced_self, fun _ => rfl,
    fun _ hclean => ⟨hclean, rfl, Nat.le_succ _, fun _ hy => .inl hy⟩⟩

/-- An unmapped block is reserved. -/
theorem reserveBlock_ends (hb : Backed fsm inode)
    (hun : (vdfs4GetIblockExtent inode.map x).1.firstBlock = 0) (allocHint : Nat)
    (kzalloc : Bool) :
    Ends NoUnderflow (ReservedOne fsm inode x) (reserveBlock fsm inode x allocHint kzalloc) := by
  unfold reserveBlock
  split
  · exact hb.reservedOne _
  rename_i fsm1 hreserve
  have hreserved := vdfs4ReserveSpace_reserved hreserve
  have hbacked := hb.reserved
  split
  · rename_i err _
    refine (vdfs4FreeReservedSpace_ends (by omega)).map fun fsm2 h2 => ?_
    have hbal : Balanced fsm inode fsm2 inode := ⟨hb.filled, by omega⟩
    exact ⟨hbal, (hb.reservedOne (some err)).2⟩
  rename_i list hadd
  obtain ⟨hfilled, hcount⟩ := vdfs4RuntimeExtentAdd_filled hb.filled hadd
  refine ⟨⟨hfilled, ?_⟩, fun h => absurd rfl h, fun hroom hclean =>
    hclean.add hun hroom hadd⟩
  simp only [InodeInfo.delayedCount, hcount]
  omega

/-- **`vdfs4_get_block_prep_da`**. -/
theorem vdfs4GetBlockPrepDa_ends (hb : Backed fsm inode) (iblock : Nat) (env : PrepEnv) :
    Ends NoUnderflow (ReservedOne fsm inode iblock)
      (vdfs4GetBlockPrepDa g fsm inode iblock env) := by
  unfold vdfs4GetBlockPrepDa
  split
  · exact hb.reservedOne _
  simp only
  split
  · exact (checkResBlock_ends _ _).map fun err _ => hb.reservedOne err
  rename_i hun
  split
  · exact hb.reservedOne _
  split
  · exact hb.reservedOne _
  split
  · exact hb.reservedOne _
  · exact reserveBlock_ends hb (not_not.mp hun) _ _

/-- Failing to map what was taken from the reserve puts it back. -/
theorem putBack_ends {o : FsmOracle} {firstBlock count length : Nat} (hb : Backed fsm inode)
    (hget : FsmInfo.Delivered g.fsm fsm length (fsm', firstBlock, count)) (hne : firstBlock ≠ 0)
    (err : Errno) :
    Ends NoUnderflow (fun r => Balanced fsm inode r.1 inode ∧ r.2 = (inode, some err))
      (((fsm'.vdfs4FsmPutFreeBlock g.fsm o firstBlock count freeToReserve).mapError
        FileBug.fsm).map fun fsm => (fsm, inode, some err)) := by
  rcases hget with ⟨hzero, -⟩ | ⟨-, -, -, -, hall, hreserved⟩
  · exact absurd hzero hne
  refine ((vdfs4FsmPutFreeBlock_reserve true hall).mapError
    fun _ => noUnderflow_fsm).map fun fsm'' h'' => ?_
  refine ⟨⟨hb.filled, ?_⟩, rfl⟩
  simp only at hreserved h'' ⊢
  omega

/-- **`vdfs4_get_int_block`** with the delayed flag, on a block that is not an inner one. -/
theorem vdfs4GetIntBlock_ends (hb : Backed fsm inode) (iblock : Nat) (create : Bool)
    (env : PlaceEnv) :
    Ends NoUnderflow (Carried (¬ Inner inode.runtimeExtents iblock) fsm inode)
      (vdfs4GetIntBlock g fsm inode iblock create true env) := by
  unfold vdfs4GetIntBlock
  split
  · exact hb.carried _ _
  simp only [if_true]
  split
  · exact (checkResBlock_ends _ _).map fun err _ => hb.carried _ err
  split
  · exact hb.carried _ _
  split
  · exact nofun
  rename_i hexists
  have hdelayed : Delayed inode.runtimeExtents iblock := by
    rw [← exists_iff_delayed]
    simpa using hexists
  refine ((vdfs4FsmGetFreeBlock_delivered _ Nat.one_pos).mapError
    fun _ => noUnderflow_fsm).bind fun ⟨fsm1, firstBlock, count⟩ hget => ?_
  simp only
  split
  · -- no block
    rename_i hzero
    rcases hget with ⟨-, hreserved⟩ | ⟨hne, -⟩
    · have hbal : Balanced fsm inode fsm1 inode := ⟨hb.filled, by
        simp only at hreserved
        omega⟩
      exact ⟨hbal, fun _ hclean => hclean⟩
    · exact absurd hzero hne
  rename_i hne
  split
  · refine (putBack_ends hb hget hne _).mono fun ⟨fsm2, r⟩ ⟨hbal, heq⟩ => ?_
    obtain rfl := heq
    exact ⟨hbal, fun _ hclean => hclean⟩
  rename_i m hins
  split
  · exact nofun
  rename_i list hdel
  obtain ⟨hfilled, hcount⟩ := vdfs4RuntimeExtentDel_filled hb.filled hdel
  rcases hget with ⟨hzero, -⟩ | ⟨-, hpos, hle, -, -, hreserved⟩
  · exact absurd hzero hne
  simp only at hpos hle hreserved
  obtain rfl : count = 1 := by omega
  refine (checkResBlock_ends _ _).map fun err _ => ⟨⟨hfilled, ?_⟩, fun hinner hclean => ?_⟩
  · simp only [InodeInfo.delayedCount]
    omega
  obtain ⟨hclean', hiff⟩ := hclean.del hinner hdel
  have hcov : ∀ y, (⟨firstBlock, iblock, 1⟩ : ExtentInfo).Covers y ↔ y = iblock := by
    intro y
    simp only [Extent.Covers]
    omega
  refine hclean.place Nat.one_pos hne (fun y hy => ?_) hins hfilled hclean'.ascending
    (fun y hy => ?_) hcount
  · rw [(hcov y).mp hy]
    exact hdelayed
  · rw [hcov y]
    exact (hiff y).mp hy

/-- The loop of `vdfs4_allocate_space`: blocks leave the list, and without an error none is
left. -/
theorem vdfs4AllocateSpaceLoop_ends (doErase : Bool) (env : Nat → RoundEnv) (fuel : Nat)
    {fsm : FsmInfo} {inode : InodeInfo} (hb : Backed fsm inode)
    (hfuel : inode.delayedCount < fuel) :
    Ends NoUnderflow
      (fun r => Carried True fsm inode r ∧ (r.2.2 = none → r.2.1.runtimeExtents = []) ∧
        (Clean inode → ∀ y, Delayed r.2.1.runtimeExtents y → Delayed inode.runtimeExtents y))
      (vdfs4AllocateSpaceLoop g doErase env fuel fsm inode) := by
  induction fuel generalizing fsm inode with
  | zero => omega
  | succ fuel ih =>
    rw [vdfs4AllocateSpaceLoop]
    split
    · rename_i hnil
      exact ⟨hb.carried _ _, fun _ => hnil, fun _ _ hy => hy⟩
    rename_i entry rest hlist
    have hpos : 0 < entry.blockCount := hb.filled entry (by rw [hlist]; exact List.mem_cons_self)
    refine ((vdfs4FsmGetFreeBlock_delivered _ hpos).mapError
      fun _ => noUnderflow_fsm).bind fun ⟨fsm1, firstBlock, count⟩ hget => ?_
    simp only
    split
    · exact nofun
    rename_i hne
    split
    · -- put back, and the call ends
      refine (putBack_ends hb hget hne _).mono fun ⟨fsm2, r⟩ ⟨hbal, heq⟩ => ?_
      obtain rfl := heq
      exact ⟨⟨hbal, fun _ hclean => hclean⟩, nofun, fun _ _ hy => hy⟩
    rename_i m hins
    rcases hget with ⟨hzero, -⟩ | ⟨-, hpos', hle, -, -, hreserved⟩
    · exact absurd hzero hne
    simp only at hpos' hle hreserved
    -- `count` blocks of the first entry are mapped
    have hfilled := hb.filled
    rw [hlist] at hfilled
    obtain ⟨hfilled', hcount⟩ := takeFront_filled hfilled hle
    rw [← hlist] at hcount
    have hcount' : vdfs4RuntimeExtentCount (takeFront entry rest count) + count =
        inode.delayedCount := hcount
    have hbal : Balanced fsm inode fsm1
        { inode with map := m, runtimeExtents := takeFront entry rest count } := by
      refine ⟨hfilled', ?_⟩
      simp only [InodeInfo.delayedCount] at hcount' ⊢
      omega
    have hsub : Clean inode → Clean
          { inode with map := m, runtimeExtents := takeFront entry rest count } ∧
        ∀ y, Delayed (takeFront entry rest count) y → Delayed inode.runtimeExtents y := by
      intro hclean
      have hasc := hclean.ascending
      rw [hlist] at hasc
      obtain ⟨hasc', hiff⟩ := takeFront_ascending hasc hle
      refine ⟨hclean.place hpos' hne (fun y hy => ?_) hins hfilled' hasc' (fun y hy => ?_) hcount',
        fun y hy => ?_⟩
      · rw [hlist, delayed_cons]
        exact .inl ⟨hy.1, hy.2.trans_le (Nat.add_le_add_left hle _)⟩
      · rw [hlist]
        exact (hiff y).mp hy
      · rw [hlist]
        exact ((hiff y).mp hy).1
    refine (ih (hbal.backed hb) ?_).mono fun r ⟨⟨hbal', hclean'⟩, hdone, hdelayed⟩ => ?_
    · show vdfs4RuntimeExtentCount (takeFront entry rest count) < fuel
      omega
    · exact ⟨⟨hbal.trans hbal', fun _ hclean => hclean' trivial (hsub hclean).1⟩, hdone,
        fun hclean y hy => (hsub hclean).2 y (hdelayed (hsub hclean).1 y hy)⟩

/-- **`vdfs4_allocate_space`**: without an error no delayed block is left. -/
theorem vdfs4AllocateSpace_ends (hb : Backed fsm inode) (doErase : Bool) (env : Nat → RoundEnv) :
    Ends NoUnderflow
      (fun r => Carried True fsm inode r ∧ (r.2.2 = none → r.2.1.runtimeExtents = []) ∧
        (Clean inode → ∀ y, Delayed r.2.1.runtimeExtents y → Delayed inode.runtimeExtents y))
      (vdfs4AllocateSpace g fsm inode doErase env) :=
  vdfs4AllocateSpaceLoop_ends doErase env _ hb (Nat.lt_succ_self _)

/-! ### Truncation and eviction -/

/-- The delayed blocks behind the new size are given back. -/
theorem releaseDelayed_ends (hb : Backed fsm inode) (n : Nat) :
    Ends NoUnderflow
      (fun r => Balanced fsm inode r.1 r.2 ∧ r.2.map = inode.map ∧ (Clean inode → Clean r.2))
      (releaseDelayed fsm inode n) := by
  obtain ⟨hfilled, hcount⟩ := vdfs4TruncateRuntimeBlocks_filled n hb.filled
  have hcount' : vdfs4RuntimeExtentCount (vdfs4TruncateRuntimeBlocks n inode.runtimeExtents).1 +
      (vdfs4TruncateRuntimeBlocks n inode.runtimeExtents).2 = inode.delayedCount := hcount
  have hbacked := hb.reserved
  unfold releaseDelayed
  refine (vdfs4FreeReservedSpace_ends (by omega)).map fun fsm1 h1 => ⟨⟨hfilled, ?_⟩, rfl, ?_⟩
  · simp only [InodeInfo.delayedCount] at hcount' ⊢
    omega
  · intro hclean
    refine hclean.setRuntime hfilled
      (vdfs4TruncateRuntimeBlocks_ascending n hb.filled hclean.ascending)
      (fun y hy => ((delayed_vdfs4TruncateRuntimeBlocks n).mp hy).1) (by omega)

/-- The condition under which a truncation to `n` blocks is right. -/
def TruncateEnv.Reaching (env : TruncateEnv) (m : BlockMap) (n : Nat) : Prop :=
  TreeInReach m n ∧ env.removeFails = []

instance (env : TruncateEnv) (m : BlockMap) (n : Nat) : Decidable (env.Reaching m n) :=
  inferInstanceAs (Decidable (_ ∧ _))

/-- The new size of a truncation, in blocks. -/
def FileGeometry.sizeIblocks (g : FileGeometry) (newSize : Nat) : Nat :=
  (newSize + g.fsm.blockSize - 1) >>> g.blockSizeShift

/-- **`vdfs4_truncate_blocks`**. -/
theorem vdfs4TruncateBlocks_ends (hb : Backed fsm inode) (newSize : Nat) (env : TruncateEnv) :
    Ends NoUnderflow
      (Carried (env.Reaching inode.map (g.sizeIblocks newSize)) fsm inode)
      (vdfs4TruncateBlocks g fsm inode newSize env) := by
  unfold vdfs4TruncateBlocks
  refine (releaseDelayed_ends hb _).bind fun ⟨fsm1, inode₁⟩ ⟨hbal, hmap, hclean⟩ => ?_
  simp only at hmap hbal hclean ⊢
  -- the blocks given back do not come from the reserve
  have hput : KeepsReserved fsm1 (List.foldlM (fun (fsm : FsmInfo) (e : ExtentInfo) =>
      fsm.vdfs4FsmPutFreeBlock g.fsm env.oracle e.firstBlock e.blockCount ⟨false, false⟩) fsm1
      (vdfs4TruncateBlockMap inode₁.map (g.sizeIblocks newSize) env.stopError
        env.removeFails).freed) :=
    Ends.foldlM (fun _ e h => (vdfs4FsmPutFreeBlock_reserved _ _).mono
      fun _ h2 => h2.trans h) _ rfl
  refine (hput.mapError fun _ => noUnderflow_fsm).map fun fsm2 h2 =>
    ⟨⟨hbal.filled, ?_⟩, fun ⟨hreach, hremove⟩ hclean0 => ?_⟩
  · have h1 := hbal.reserved
    simp only [InodeInfo.delayedCount] at h1 ⊢
    omega
  have hclean1 := hclean hclean0
  obtain ⟨used, M, hinv, hnone⟩ := hclean1.map
  rw [← hmap] at hreach
  obtain ⟨used', M', hinv', hless, htotal⟩ := hinv.truncate hreach env.stopError
  have hroom := hclean1.room
  unfold InodeInfo.Room at hroom
  rw [hremove]
  refine ⟨hclean1.filled, hclean1.ascending,
    ⟨used', M', hinv', fun y hy => hless y (hnone y hy)⟩, ?_⟩
  show _ + inode₁.delayedCount + 0 < 2 ^ 32
  have htotal' : (vdfs4TruncateBlockMap inode₁.map ((newSize + g.fsm.blockSize - 1) >>>
      g.blockSizeShift) env.stopError []).map.fork.totalBlockCount ≤ _ := htotal
  simp only
  omega

/-- **`vdfs4_evict_inode`**. -/
theorem vdfs4EvictInode_ends (hb : Backed fsm inode) (env : EvictEnv) :
    Ends NoUnderflow (Carried (env.nlink = false →
        env.truncate.Reaching inode.map (g.sizeIblocks 0)) fsm inode)
      (vdfs4EvictInode g fsm inode env) := by
  unfold vdfs4EvictInode
  refine (releaseDelayed_ends hb _).bind fun ⟨fsm1, inode₁⟩ ⟨hbal, hmap, hclean⟩ => ?_
  simp only at hmap hbal hclean ⊢
  split
  · exact ⟨hbal, fun _ => hclean⟩
  rename_i hlink
  split
  · exact ⟨hbal, fun _ => hclean⟩
  · refine (vdfs4TruncateBlocks_ends (hbal.backed hb) 0 env.truncate).mono
      fun r ⟨hbal', hclean'⟩ => ⟨hbal.trans hbal', fun hcond hclean0 => ?_⟩
    refine hclean' ?_ (hclean hclean0)
    rw [hmap]
    exact hcond (by simpa using hlink)

end calls

end Vdfs4
