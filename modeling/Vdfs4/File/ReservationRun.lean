import Vdfs4.File.Reservations
import Vdfs4.Fsm.Accounting

/-!
# Reservations match delayed blocks

`vdfs4_fallocate` and `vdfs4_symlink`, whose error paths take reservations back, and the
system of all inodes of a volume with its free space manager.

* `delayStep` — the calls, as steps of the system.
* `reservations_match` — in every run the reserved blocks are the delayed blocks of all inodes,
  and no block is mapped and delayed at the same time, as long as no **inner** block is taken
  off a runtime list, truncations find and remove the records they have to, and the counters
  of a file do not wrap.
* `delayed_block_mapped` — an inner block taken off the list leaves it unsorted; then a block
  is put on the list twice, and is mapped and delayed at the same time.
-/

namespace Vdfs4

open GuardedRun List Option InodeInfo Nat

section calls

variable {g : FileGeometry} {fsm : FsmInfo} {inode : InodeInfo} {lblk : Nat}

/-! ### `vdfs4_fallocate` -/

/-- More room leaves less room. -/
theorem InodeInfo.Room.mono {n k : Nat} (h : inode.Room n) (hk : k ≤ n) : inode.Room k := by
  unfold InodeInfo.Room at h ⊢
  omega

theorem Grown.room {inode' : InodeInfo} {blocks : Nat → Prop} {n k : Nat}
    (h : Grown inode blocks n inode') (hroom : inode.Room (n + k)) : inode'.Room k := by
  have hcount := h.count_le
  unfold InodeInfo.Room at hroom ⊢
  rw [h.map_eq]
  omega

/-- The loop that reserves the range. -/
theorem fallocateReserve_ends (env : FallocateEnv) (n i hint : Nat) {fsm : FsmInfo}
    {inode : InodeInfo} (hb : Backed fsm inode) :
    Ends NoUnderflow
      (fun r => Balanced fsm inode r.1 r.2.1 ∧ i ≤ r.2.2.1 ∧ r.2.2.1 ≤ i + n ∧
        (inode.Room n → Clean inode →
          Grown inode (fun y => ∃ j < r.2.2.1, y = u32Add lblk j) n r.2.1))
      (fallocateReserve lblk env n i hint fsm inode) := by
  induction n generalizing i hint fsm inode with
  | zero =>
    exact ⟨hb.balanced_self, le_rfl, le_rfl,
      fun _ hclean => ⟨hclean, rfl, le_rfl, fun _ hy => .inl hy⟩⟩
  | succ n ih =>
    have hstay : Clean inode →
        Grown inode (fun y => ∃ j < i, y = u32Add lblk j) (n + 1) inode := fun hclean =>
      ⟨hclean, rfl, le_add_right _ _, fun _ hy => .inl hy⟩
    rw [fallocateReserve]
    split
    · exact ⟨hb.balanced_self, le_rfl, le_add_right _ _, fun _ hclean => hstay hclean⟩
    simp only
    split
    · -- a mapped block is passed over
      refine (ih (i + 1) _ hb).mono fun r ⟨hbal, hlo, hhi, hgrown⟩ =>
        ⟨hbal, by omega, by omega, fun hroom hclean => ?_⟩
      have h := hgrown (hroom.mono (le_succ n)) hclean
      exact ⟨h.clean, h.map_eq, h.count_le.trans (le_succ _), h.delayed⟩
    rename_i hun
    refine (reserveBlock_ends hb (not_not.mp hun) _ _).bind
      fun ⟨fsm1, inode₁, err⟩ ⟨hbal, hsame, hgrown⟩ => ?_
    simp only at hbal hsame hgrown ⊢
    split
    · -- the block is not reserved
      obtain rfl := hsame (some_ne_none _)
      exact ⟨hbal, le_rfl, le_add_right _ _, fun _ hclean => hstay hclean⟩
    refine (ih (i + 1) _ (hbal.backed hb)).mono fun r ⟨hbal', hlo, hhi, hgrown'⟩ =>
      ⟨hbal.trans hbal', by omega, by omega, fun hroom hclean => ?_⟩
    have h1 := hgrown (hroom.mono (by omega)) hclean
    have h2 := hgrown' (h1.room (by rwa [add_comm])) h1.clean
    refine ⟨h2.clean, h2.map_eq.trans h1.map_eq, ?_, fun y hy => ?_⟩
    · have hc1 := h1.count_le
      have hc2 := h2.count_le
      omega
    · rcases h2.delayed y hy with hy | hy
      · rcases h1.delayed y hy with hy | rfl
        · exact .inl hy
        · exact .inr ⟨i, hlo, rfl⟩
      · exact .inr hy

/-- Blocks of a range of fewer than `2 ^ 32` blocks: the block behind block `i` is no earlier
one. -/
theorem u32Add_succ_ne {i m : Nat} (hi : i + 1 < 2 ^ 32) (hm : m ≤ i) :
    u32Add lblk i + 1 ≠ u32Add lblk m := by
  unfold u32Add
  omega

/-- The delayed blocks right behind blocks of the range are blocks of the range that are still
to be taken back. -/
def StillReserved (lblk i : Nat) (l : List RuntimeExtent) : Prop :=
  ∀ k < i, Delayed l (u32Add lblk k + 1) → ∃ m < i, u32Add lblk k + 1 = u32Add lblk m

/-- **The rollback of `vdfs4_fallocate`**: the blocks are taken back from the last one on, so
none is an inner one. -/
theorem fallocateRollback_ends (env : FallocateEnv) (i : Nat) (hi : i < 2 ^ 32) {fsm : FsmInfo}
    {inode : InodeInfo} (hb : Backed fsm inode) :
    Ends NoUnderflow
      (fun r => Balanced fsm inode r.1 r.2 ∧
        (StillReserved lblk i inode.runtimeExtents → Clean inode → Clean r.2))
      (fallocateRollback lblk env i fsm inode) := by
  induction i generalizing fsm inode with
  | zero => exact ⟨hb.balanced_self, fun _ hclean => hclean⟩
  | succ i ih =>
    rw [fallocateRollback]
    split
    · rename_i hexists
      have hdelayed := exists_iff_delayed.mp hexists
      -- the block behind is not delayed any more
      have hinner : StillReserved lblk (i + 1) inode.runtimeExtents →
          ¬ Inner inode.runtimeExtents (u32Add lblk i) := by
        rintro hpend ⟨e, he, hlo, hhi⟩
        obtain ⟨m, hm, heq⟩ := hpend i (lt_succ_self i) ⟨e, he, by omega, hhi⟩
        exact u32Add_succ_ne hi (by omega) heq
      split
      · rename_i err hdel
        refine (ih (by omega) hb).mono ?_
        rintro r ⟨hbal, -⟩
        refine ⟨hbal, fun hpend => ?_⟩
        obtain ⟨l, hok⟩ := vdfs4RuntimeExtentDel_ok (env.delKzalloc i) hdelayed (hinner hpend)
        rw [hok] at hdel
        cases hdel
      · rename_i list hdel
        obtain ⟨hfilled, hcount⟩ := vdfs4RuntimeExtentDel_filled hb.filled hdel
        have hcount' : vdfs4RuntimeExtentCount list + 1 = inode.delayedCount := hcount
        have hbacked := hb.reserved
        refine (vdfs4FreeReservedSpace_ends (by omega)).bind fun fsm1 h1 => ?_
        have hbal : Balanced fsm inode fsm1 { inode with runtimeExtents := list } := by
          refine ⟨hfilled, ?_⟩
          simp only [delayedCount] at hcount' ⊢
          omega
        refine (ih (by omega) (hbal.backed hb)).mono ?_
        rintro r ⟨hbal', hclean'⟩
        refine ⟨hbal.trans hbal', fun hpend hclean => ?_⟩
        obtain ⟨hclean1, hiff⟩ := hclean.del (hinner hpend) hdel
        refine hclean' (fun k hk hy => ?_) hclean1
        obtain ⟨hy, hne⟩ := (hiff _).mp hy
        obtain ⟨m, hm, heq⟩ := hpend k (by omega) hy
        refine ⟨m, lt_of_le_of_ne (le_of_lt_succ hm) fun hmi => hne ?_, heq⟩
        rw [heq, hmi]
    · rename_i hexists
      refine (ih (by omega) hb).mono ?_
      rintro r ⟨hbal, hclean⟩
      refine ⟨hbal, fun hpend => hclean ?_⟩
      intro k hk hy
      obtain ⟨m, hm, heq⟩ := hpend k (by omega) hy
      refine ⟨m, lt_of_le_of_ne (le_of_lt_succ hm) fun hmi => hexists ?_, heq⟩
      rw [exists_iff_delayed, ← hmi, ← heq]
      exact hy

/-- The condition under which `vdfs4_fallocate` of a range is right: no block right behind a
block of the range is delayed. -/
def FallocateClear (lblk n : Nat) (inode : InodeInfo) : Prop :=
  inode.Room n ∧ ∀ k < n, ¬ Delayed inode.runtimeExtents (u32Add lblk k + 1)

/-- **`vdfs4_fallocate`**. -/
theorem vdfs4Fallocate_ends (hb : Backed fsm inode) (keepSize otherMode : Bool) (offset len : Nat)
    (env : FallocateEnv) :
    Ends NoUnderflow (Carried (FallocateClear (fallocateLblk g offset)
        (fallocateMaxBlocks g offset len) inode) fsm inode)
      (vdfs4Fallocate g fsm inode keepSize otherMode offset len env) := by
  have hmax : fallocateMaxBlocks g offset len < 2 ^ 32 := by
    unfold fallocateMaxBlocks u32Sub
    omega
  unfold vdfs4Fallocate
  simp only
  generalize fallocateMaxBlocks g offset len = n at hmax ⊢
  generalize fallocateLblk g offset = lblk
  generalize (if keepSize then none else env.newsizeError) = newsizeError
  split
  · exact hb.carried _ _
  split
  · exact hb.carried _ _
  split
  · exact hb.carried _ _
  split
  · exact hb.carried _ _
  split
  · exact hb.carried _ _
  split
  · -- no block was reserved yet
    exact hb.carried _ _
  refine (fallocateReserve_ends env n 0 0 hb).bind ?_
  rintro ⟨fsm1, inode₁, i, err⟩ ⟨hbal, -, hi, hgrown⟩
  simp only [zero_add] at hbal hi hgrown ⊢
  -- the range is taken back from a state with no more delayed blocks than now
  have hback : ∀ (fsm2 : FsmInfo) (inode₂ : InodeInfo) (err : Errno),
      Balanced fsm inode fsm2 inode₂ →
      (FallocateClear lblk n inode → Clean inode → Clean inode₂ ∧
        ∀ y, Delayed inode₂.runtimeExtents y → Delayed inode₁.runtimeExtents y) →
      Ends NoUnderflow (Carried (FallocateClear lblk n inode) fsm inode)
        ((fallocateRollback lblk env i fsm2 inode₂).map
          fun r => (r.1, r.2, some err)) := by
    intro fsm2 inode₂ err hbal2 hclean2
    refine (fallocateRollback_ends env i (by omega) (hbal2.backed hb)).map ?_
    rintro ⟨fsm3, inode3⟩ ⟨hbal3, hclean3⟩
    refine ⟨hbal2.trans hbal3, fun hclear hclean => ?_⟩
    obtain ⟨hc2, hsub⟩ := hclean2 hclear hclean
    refine hclean3 (fun k hk hy => ?_) hc2
    rcases (hgrown hclear.1 hclean).delayed _ (hsub _ hy) with hy | hy
    · exact absurd hy (hclear.2 k (by omega))
    · exact hy
  split
  · exact hback fsm1 inode₁ _ hbal fun hclear hclean =>
      ⟨(hgrown hclear.1 hclean).clean, fun _ hy => hy⟩
  refine (vdfs4AllocateSpace_ends (hbal.backed hb) true env.rounds).bind ?_
  rintro ⟨fsm2, inode₂, err⟩ ⟨⟨hbal2, hclean2⟩, -, hsub⟩
  simp only at hbal2 hclean2 hsub ⊢
  have hclean2' : FallocateClear lblk n inode → Clean inode → Clean inode₂ ∧
      ∀ y, Delayed inode₂.runtimeExtents y → Delayed inode₁.runtimeExtents y :=
    fun hclear hclean =>
      have h1 := (hgrown hclear.1 hclean).clean
      ⟨hclean2 trivial h1, hsub h1⟩
  split
  · exact hback fsm2 inode₂ _ (hbal.trans hbal2) hclean2'
  · exact ⟨hbal.trans hbal2, fun hclear hclean => (hclean2' hclear hclean).1⟩

/-! ### `vdfs4_symlink` -/

/-- The blocks of `page_symlink`. -/
theorem pageSymlink_ends (pageError : Option Errno) (calls : List (Nat × PrepEnv))
    {fsm : FsmInfo} {inode : InodeInfo} (hb : Backed fsm inode) :
    Ends NoUnderflow (Carried (inode.Room calls.length) fsm inode)
      (pageSymlink g pageError calls fsm inode) := by
  induction calls generalizing fsm inode with
  | nil => exact hb.carried _ _
  | cons call calls ih =>
    obtain ⟨iblock, env⟩ := call
    rw [pageSymlink]
    refine (vdfs4GetBlockPrepDa_ends hb iblock env).bind
      fun ⟨fsm1, inode₁, err⟩ ⟨hbal, _, hgrown⟩ => ?_
    simp only [length_cons] at hbal hgrown ⊢
    split
    · exact ⟨hbal, fun hroom hclean => (hgrown (hroom.mono (by omega)) hclean).clean⟩
    · refine (ih (hbal.backed hb)).mono fun r ⟨hbal', hclean'⟩ =>
        ⟨hbal.trans hbal', fun hroom hclean => ?_⟩
      have h1 := hgrown (hroom.mono (by omega)) hclean
      exact hclean' (h1.room (by rwa [add_comm])) h1.clean

/-- **`vdfs4_symlink`**: the inode created, if there is one, has the reserved blocks. -/
theorem vdfs4Symlink_ends (hreserved : 0 ≤ fsm.reservedBlocksCount) (len nameLen : Nat)
    (env : SymlinkEnv) :
    Ends NoUnderflow
      (fun r => Filled ((r.2.1.map runtimeExtents).getD []) ∧
        r.1.reservedBlocksCount = fsm.reservedBlocksCount +
          ((r.2.1.map delayedCount).getD 0 : Nat) ∧
        (env.calls.length + 1 < 2 ^ 32 → ∀ inode ∈ r.2.1, Clean inode))
      (vdfs4Symlink g fsm len nameLen env) := by
  have hcreated : Clean ⟨true, BlockMap.empty, []⟩ :=
    ⟨filled_nil, .nil, ⟨[], _, mapInv_empty, fun _ h => absurd h delayed_nil⟩, by decide⟩
  unfold vdfs4Symlink
  split
  · exact ⟨filled_nil, (Int.add_zero _).symm, by simp⟩
  split
  · exact ⟨filled_nil, (Int.add_zero _).symm, by simp⟩
  rename_i fsm1 hreserve
  have h1 := vdfs4ReserveSpace_reserved hreserve
  split
  · refine (vdfs4FreeReservedSpace_ends (by omega)).map fun fsm2 h2 => ⟨filled_nil, ?_, by simp⟩
    simp only [map_none, getD_none]
    omega
  simp only
  split
  · refine (vdfs4FreeReservedSpace_ends (by omega)).map fun fsm2 h2 =>
      ⟨filled_nil, ?_, fun _ inode hinode => ?_⟩
    · simp only [map_some, getD_some, delayedCount,
        vdfs4RuntimeExtentCount_nil]
      omega
    · obtain rfl := some.inj hinode
      exact hcreated
  rename_i list hadd
  -- block 0 is reserved; the inode is as `vdfs4_get_block_prep_da` would leave it
  obtain ⟨hfilled, hcount⟩ := vdfs4RuntimeExtentAdd_filled filled_nil hadd
  have hgrown : Grown ⟨true, BlockMap.empty, []⟩ (· = 0) 1 ⟨true, BlockMap.empty, list⟩ :=
    hcreated.add (by decide) (by decide) hadd
  have hb : Backed fsm1 ⟨true, BlockMap.empty, list⟩ := by
    refine ⟨hfilled, ?_⟩
    simp only [delayedCount, hcount, vdfs4RuntimeExtentCount_nil]
    omega
  refine (pageSymlink_ends env.pageError env.calls hb).bind ?_
  rintro ⟨fsm2, inode₂, err⟩ ⟨hbal, hclean⟩
  simp only at hbal hclean ⊢
  have hstart : (delayedCount ⟨true, BlockMap.empty, list⟩ : Int) = 1 := by
    simp only [delayedCount, hcount, vdfs4RuntimeExtentCount_nil]
    rfl
  have hclean2 : env.calls.length + 1 < 2 ^ 32 → Clean inode₂ := by
    intro hcalls
    refine hclean (hgrown.room ?_) hgrown.clean
    show 0 + 0 + (1 + env.calls.length) < 2 ^ 32
    omega
  have hbal2 := hbal.reserved
  split
  · refine ⟨hbal.filled, ?_, fun hcalls inode hinode => ?_⟩
    · simp only [map_some, getD_some]
      omega
    · obtain rfl := some.inj hinode
      exact hclean2 hcalls
  refine (releaseDelayed_ends (hbal.backed hb) 0).map ?_
  rintro ⟨fsm3, inode3⟩ ⟨hbal3, -, hclean3⟩
  refine ⟨hbal3.filled, ?_, fun hcalls inode hinode => ?_⟩
  · have := hbal3.reserved
    simp only [map_some, getD_some] at this ⊢
    omega
  · obtain rfl := some.inj hinode
    exact hclean3 (hclean2 hcalls)

end calls

/-! ### The system -/

/-- The free space manager and the inodes of a volume. -/
structure DelayState where
  fsm : FsmInfo
  inodes : List InodeInfo

/-- The calls that work on reservations; an inode is named by its place in the list, and
`vdfs4_symlink` adds one. -/
inductive DelayOp where
  | getBlockPrepDa (ino iblock : Nat) (env : PrepEnv)
  | getIntBlock (ino iblock : Nat) (create : Bool) (env : PlaceEnv)
  | allocateSpace (ino : Nat) (doErase : Bool) (env : Nat → RoundEnv)
  | truncateBlocks (ino newSize : Nat) (env : TruncateEnv)
  | fallocate (ino : Nat) (keepSize otherMode : Bool) (offset len : Nat) (env : FallocateEnv)
  | symlink (len nameLen : Nat) (env : SymlinkEnv)
  | evictInode (ino : Nat) (env : EvictEnv)

/-- A call on one inode. -/
def DelayState.onInode (st : DelayState) (ino : Nat)
    (call : FsmInfo → InodeInfo → Except FileBug InodeResult) : Except FileBug DelayState :=
  match st.inodes[ino]? with
  | none => .error .noInode
  | some inode => (call st.fsm inode).map fun (fsm, inode, _) => ⟨fsm, st.inodes.set ino inode⟩

/-- One call. -/
def delayStep (g : FileGeometry) (st : DelayState) : DelayOp → Except FileBug DelayState
  | .getBlockPrepDa ino iblock env =>
    st.onInode ino fun fsm inode => vdfs4GetBlockPrepDa g fsm inode iblock env
  | .getIntBlock ino iblock create env =>
    st.onInode ino fun fsm inode => vdfs4GetIntBlock g fsm inode iblock create true env
  | .allocateSpace ino doErase env =>
    st.onInode ino fun fsm inode => vdfs4AllocateSpace g fsm inode doErase env
  | .truncateBlocks ino newSize env =>
    st.onInode ino fun fsm inode => vdfs4TruncateBlocks g fsm inode newSize env
  | .fallocate ino keepSize otherMode offset len env =>
    st.onInode ino fun fsm inode => vdfs4Fallocate g fsm inode keepSize otherMode offset len env
  | .symlink len nameLen env =>
    (vdfs4Symlink g st.fsm len nameLen env).map fun (fsm, created, _) =>
      ⟨fsm, st.inodes ++ created.toList⟩
  | .evictInode ino env => st.onInode ino fun fsm inode => vdfs4EvictInode g fsm inode env

/-- A volume just mounted: nothing is delayed, and every block map is a map. -/
structure DelayState.Mounted (st : DelayState) : Prop where
  reserved : st.fsm.reservedBlocksCount = 0
  none_delayed : ∀ inode ∈ st.inodes, inode.runtimeExtents = []
  maps : ∀ inode ∈ st.inodes, ∃ used M, MapInv inode.map used M

/-- The inode a call works on. -/
def DelayOp.ino : DelayOp → Option Nat
  | .getBlockPrepDa ino _ _ | .getIntBlock ino _ _ _ | .allocateSpace ino _ _
  | .truncateBlocks ino _ _ | .fallocate ino _ _ _ _ _ | .evictInode ino _ => some ino
  | .symlink _ _ _ => none

/-- The condition on the inode under which a call is right. -/
def DelayOp.Careful (g : FileGeometry) (inode : InodeInfo) : DelayOp → Prop
  | .getBlockPrepDa _ iblock _ => inode.Room 1 ∧ iblock + 1 < 2 ^ 64
  | .getIntBlock _ iblock _ _ => ¬ Inner inode.runtimeExtents iblock ∧ iblock + 1 < 2 ^ 64
  | .allocateSpace _ _ _ => True
  | .truncateBlocks _ newSize env => env.Reaching inode.map (g.sizeIblocks newSize)
  | .fallocate _ _ _ offset len _ =>
    FallocateClear (fallocateLblk g offset) (fallocateMaxBlocks g offset len) inode
  | .symlink _ _ env => env.calls.length + 1 < 2 ^ 32
  | .evictInode _ env => env.nlink = false → env.truncate.Reaching inode.map (g.sizeIblocks 0)

/-- The condition on the state; an inode just created is blank. -/
def DelayOp.Safe (g : FileGeometry) (st : DelayState) (op : DelayOp) : Prop :=
  op.Careful g (((op.ino.bind fun ino => st.inodes[ino]?)).getD ⟨true, BlockMap.empty, []⟩)

instance instDecidableDelayed (l : List RuntimeExtent) (x : Nat) : Decidable (Delayed l x) :=
  inferInstanceAs (Decidable (∃ e ∈ l, _))

instance instDecidableCareful (g : FileGeometry) (inode : InodeInfo) (op : DelayOp) :
    Decidable (op.Careful g inode) :=
  match op with
  | .getBlockPrepDa _ _ _ => inferInstanceAs (Decidable (inode.Room 1 ∧ _))
  | .getIntBlock _ iblock _ _ =>
    inferInstanceAs (Decidable (¬ Inner inode.runtimeExtents iblock ∧ _))
  | .allocateSpace _ _ _ => .isTrue trivial
  | .truncateBlocks _ newSize env =>
    inferInstanceAs (Decidable (env.Reaching inode.map (g.sizeIblocks newSize)))
  | .fallocate _ _ _ offset len _ =>
    inferInstanceAs (Decidable (inode.Room _ ∧ ∀ k < fallocateMaxBlocks g offset len,
      ¬ Delayed inode.runtimeExtents (u32Add (fallocateLblk g offset) k + 1)))
  | .symlink _ _ env => inferInstanceAs (Decidable (env.calls.length + 1 < 2 ^ 32))
  | .evictInode _ env =>
    inferInstanceAs (Decidable (_ → env.truncate.Reaching inode.map (g.sizeIblocks 0)))

instance instDecidableSafe (g : FileGeometry) (st : DelayState) (op : DelayOp) :
    Decidable (op.Safe g st) := instDecidableCareful g _ op

/-- The delayed blocks of all inodes. -/
def DelayState.delayedCount (st : DelayState) : Nat :=
  (st.inodes.map InodeInfo.delayedCount).sum

/-- The reserve is right: it is the number of delayed blocks, and no block is
mapped and delayed. -/
structure DelayState.Matches (st : DelayState) : Prop where
  reserved_eq : st.fsm.reservedBlocksCount = st.delayedCount
  exclusive : ∀ inode ∈ st.inodes, ∀ x, ¬ ((vdfs4GetIblockExtent inode.map x).1.firstBlock ≠ 0 ∧
    vdfs4RuntimeExtentExists x inode.runtimeExtents = true)

/-- The books: they are right in every run. -/
structure Books (st : DelayState) : Prop where
  filled : ∀ inode ∈ st.inodes, Filled inode.runtimeExtents
  reserved_eq : st.fsm.reservedBlocksCount = st.delayedCount

section runs

variable {g : FileGeometry} {st st' : DelayState} {inode inode' : InodeInfo} {ino : Nat}

/-- One inode of the list is replaced. -/
theorem delayedCount_set (hget : st.inodes[ino]? = some inode) (fsm : FsmInfo) :
    (DelayState.delayedCount ⟨fsm, st.inodes.set ino inode'⟩ : Int) =
      st.delayedCount - inode.delayedCount + inode'.delayedCount := by
  simp only [DelayState.delayedCount]
  generalize st.inodes = l at hget
  induction l generalizing ino with
  | nil => simp at hget
  | cons a l ih =>
    cases ino with
    | zero =>
      obtain rfl : a = inode := by simpa using hget
      simp only [set_cons_zero, map_cons, sum_cons]
      omega
    | succ ino =>
      have h := ih (show l[ino]? = some inode by simpa using hget)
      simp only [set_cons_succ, map_cons, sum_cons]
      omega

/-- The delayed blocks of one inode are reserved. -/
theorem Books.backed (h : Books st) (hget : st.inodes[ino]? = some inode) :
    Backed st.fsm inode := by
  have hmem : inode ∈ st.inodes := mem_of_getElem? hget
  refine ⟨h.filled inode hmem, ?_⟩
  have hle : inode.delayedCount ≤ st.delayedCount :=
    single_le_sum (fun _ _ => zero_le _) _ (mem_map_of_mem hmem)
  rw [h.reserved_eq]
  exact_mod_cast hle

/-- What a step does: the books stay right, and under its condition clean inodes stay clean. -/
def Kept (cond : Prop) (st st' : DelayState) : Prop :=
  Books st' ∧ (cond → (∀ inode ∈ st.inodes, Clean inode) → ∀ inode ∈ st'.inodes, Clean inode)

/-- A call on one inode, from what it does to the inode. -/
theorem Books.onInode (h : Books st) (op : DelayOp) (hino : op.ino = some ino)
    (call : FsmInfo → InodeInfo → Except FileBug InodeResult)
    (hcall : ∀ inode, Backed st.fsm inode →
      Ends NoUnderflow (Carried (op.Careful g inode) st.fsm inode) (call st.fsm inode)) :
    Ends NoUnderflow (Kept (op.Safe g st) st) (st.onInode ino call) := by
  unfold DelayState.onInode
  split
  · exact nofun
  rename_i inode hget
  rw [DelayOp.Safe, hino, bind_some, hget, getD_some]
  have hb := h.backed hget
  refine (hcall inode hb).map fun ⟨fsm', inode', err⟩ ⟨hbal, hclean⟩ => ⟨⟨fun i hi => ?_, ?_⟩, ?_⟩
  · rcases mem_or_eq_of_mem_set hi with hi | rfl
    · exact h.filled i hi
    · exact hbal.filled
  · have h1 := hbal.reserved
    have h2 := h.reserved_eq
    rw [delayedCount_set hget]
    simp only at h1 ⊢
    omega
  · intro hcond hall i hi
    rcases mem_or_eq_of_mem_set hi with hi | rfl
    · exact hall i hi
    · exact hclean hcond (hall inode (mem_of_getElem? hget))

/-- **One step** keeps the books, and under its condition clean inodes. -/
theorem delayStep_ends (h : Books st) (op : DelayOp) :
    Ends NoUnderflow (Kept (op.Safe g st) st) (delayStep g st op) := by
  cases op with
  | getBlockPrepDa ino iblock env =>
    rw [delayStep]
    refine h.onInode (.getBlockPrepDa ino iblock env) rfl _ fun inode hb => ?_
    refine (vdfs4GetBlockPrepDa_ends hb iblock env).mono fun r ⟨hbal, _, hgrown⟩ => ?_
    exact ⟨hbal, fun hroom hclean => (hgrown hroom.1 hclean).clean⟩
  | getIntBlock ino iblock create env =>
    rw [delayStep]
    refine h.onInode (.getIntBlock ino iblock create env) rfl _ fun inode hb => ?_
    exact (vdfs4GetIntBlock_ends hb iblock create env).mono fun r ⟨hbal, hclean⟩ =>
      ⟨hbal, fun hinner => hclean hinner.1⟩
  | allocateSpace ino doErase env =>
    rw [delayStep]
    refine h.onInode (.allocateSpace ino doErase env) rfl _ fun inode hb => ?_
    exact (vdfs4AllocateSpace_ends hb doErase env).mono fun r hr => hr.1
  | truncateBlocks ino newSize env =>
    rw [delayStep]
    exact h.onInode (.truncateBlocks ino newSize env) rfl _ fun inode hb =>
      vdfs4TruncateBlocks_ends hb newSize env
  | fallocate ino keepSize otherMode offset len env =>
    rw [delayStep]
    exact h.onInode (.fallocate ino keepSize otherMode offset len env) rfl _ fun inode hb =>
      vdfs4Fallocate_ends hb keepSize otherMode offset len env
  | evictInode ino env =>
    rw [delayStep]
    exact h.onInode (.evictInode ino env) rfl _ fun inode hb => vdfs4EvictInode_ends hb env
  | symlink len nameLen env =>
    rw [delayStep]
    have hreserved : 0 ≤ st.fsm.reservedBlocksCount := by
      rw [h.reserved_eq]
      exact Int.natCast_nonneg _
    refine (vdfs4Symlink_ends hreserved len nameLen env).map
      fun ⟨fsm', created, err⟩ ⟨hfilled, hcount, hclean⟩ => ?_
    simp only at hfilled hcount hclean ⊢
    rw [h.reserved_eq] at hcount
    cases created with
    | none =>
      simp only [toList_none, append_nil]
      exact ⟨⟨h.filled, hcount.trans (Int.add_zero _)⟩, fun _ hall => hall⟩
    | some inode =>
      refine ⟨⟨fun i hi => ?_, ?_⟩, fun hcalls hall i hi => ?_⟩
      · rcases mem_append.mp hi with hi | hi
        · exact h.filled i hi
        · rw [mem_singleton.mp hi]
          exact hfilled
      · simp only [DelayState.delayedCount, toList_some, map_append, map_cons,
          map_nil, List.sum_append, sum_cons, sum_nil]
        simp only [DelayState.delayedCount, map_some, getD_some] at hcount
        omega
      · rcases mem_append.mp hi with hi | hi
        · exact hall i hi
        · rw [mem_singleton.mp hi]
          exact hclean hcalls inode rfl

theorem DelayState.Mounted.books (h : st.Mounted) : Books st := by
  refine ⟨fun inode hi => ?_, ?_⟩
  · rw [h.none_delayed inode hi]
    exact filled_nil
  have hzero : st.inodes.map InodeInfo.delayedCount = st.inodes.map fun _ => 0 :=
    map_congr_left fun inode hi => by
      rw [InodeInfo.delayedCount, h.none_delayed inode hi]
      rfl
  rw [h.reserved, DelayState.delayedCount, hzero]
  simp

theorem DelayState.Mounted.clean (h : st.Mounted) (hi : inode ∈ st.inodes) : Clean inode := by
  obtain ⟨used, M, hinv⟩ := h.maps inode hi
  have hnil := h.none_delayed inode hi
  refine ⟨?_, ?_, ⟨used, M, hinv, fun x hx => ?_⟩, ?_⟩
  · rw [hnil]
    exact filled_nil
  · rw [hnil]
    exact .nil
  · rw [hnil] at hx
    exact absurd hx delayed_nil
  · have htotal := hinv.total_lt
    rw [← hinv.total_eq] at htotal
    rw [InodeInfo.Room, InodeInfo.delayedCount, hnil]
    exact htotal

/-- **The books are right in every run**, whatever the order of the runtime lists. -/
theorem Books.reaches {ok : DelayState → DelayOp → Prop} {st0 : DelayState} (h0 : Books st0)
    (h : Reaches ok (fun st op => (delayStep g st op).toOption) st0 st) : Books st :=
  h.invariant h0 fun _ op _ hbooks _ hstep =>
    ((delayStep_ends hbooks op).of_eq_ok (eq_ok_of_toOption hstep)).1

/-- **Reservations match delayed blocks.** In every run after a mount whose calls are all safe
the reserve is the number of delayed blocks of all inodes and no block is mapped and delayed;
no call at all stops at the assertion of `vdfs4_free_reserved_space`. -/
theorem reservations_match (g : FileGeometry) {st₀ st : DelayState} (h₀ : st₀.Mounted)
    (h : Reaches (DelayOp.Safe g) (fun st op => (delayStep g st op).toOption) st₀ st) :
    st.Matches ∧ ∀ op, delayStep g st op ≠ .error (.fsm .reservedUnderflow) := by
  have hbooks := h₀.books.reaches h
  have hclean : Books st ∧ ∀ inode ∈ st.inodes, Clean inode := by
    refine h.invariant (I := fun st => Books st ∧ ∀ inode ∈ st.inodes, Clean inode)
      ⟨h₀.books, fun inode hi => h₀.clean hi⟩ fun t op u ⟨ht, hall⟩ hsafe hstep => ?_
    obtain ⟨hu, hall'⟩ := (delayStep_ends ht op).of_eq_ok (eq_ok_of_toOption hstep)
    exact ⟨hu, hall' hsafe hall⟩
  refine ⟨⟨hbooks.reserved_eq, fun inode hi x ⟨hmapped, hexists⟩ => ?_⟩, fun op herr => ?_⟩
  · obtain ⟨used, M, hinv, hnone⟩ := (hclean.2 inode hi).map
    exact hmapped ((hinv.unmapped_iff x).mpr (hnone x (exists_iff_delayed.mp hexists)))
  · have hends := delayStep_ends (g := g) hbooks op
    rw [herr] at hends
    exact hends rfl

end runs

/-! ### Two runs -/

/-- A volume of 40 blocks of 512 bytes. -/
def delaySampleGeometry : FileGeometry := ⟨fsmSampleGeometry, 9, 40, true, rfl⟩

/-- The free space manager of a volume with blocks 10 to 19 free. -/
def delaySampleFsm : FsmInfo :=
  ((FsmInfo.vdfs4FsmBuildManagement fsmSampleGeometry .allSucceed
    fun x => x < 10 || 20 ≤ x).toOption).getD (FsmInfo.blank Bitmap.zero [])

/-- That volume with one empty file. -/
def delaySampleStart : DelayState := ⟨delaySampleFsm, [⟨false, BlockMap.empty, []⟩]⟩

theorem delaySampleStart_mounted : delaySampleStart.Mounted where
  reserved := by decide +kernel
  none_delayed inode hi := by
    rw [mem_singleton.mp hi]
  maps inode hi := by
    rw [mem_singleton.mp hi]
    exact ⟨[], _, mapInv_empty⟩

/-- Nothing fails. -/
def PrepEnv.allSucceed : PrepEnv := ⟨none, false, none, true⟩

/-- Nothing fails. -/
def PlaceEnv.allSucceed : PlaceEnv := ⟨none, false, .allSucceed, none, true⟩

/-- Nothing fails. -/
def RoundEnv.allSucceed : RoundEnv := ⟨.allSucceed, none, none⟩

/-- Every kind of call: blocks are reserved and placed, a range is reserved but cannot be
erased and is taken back, a symlink is made, a file is truncated and evicted. -/
def delaySampleOps : List DelayOp :=
  [.getBlockPrepDa 0 0 .allSucceed, .getBlockPrepDa 0 1 .allSucceed,
    .getIntBlock 0 0 true .allSucceed, .allocateSpace 0 false fun _ => .allSucceed,
    .fallocate 0 true false 2048 1024 ⟨0, none, none, fun _ => none, fun _ => true,
      fun _ => ⟨.allSucceed, some .eio, none⟩, fun _ => true⟩,
    .symlink 3 4 ⟨none, true, [(0, .allSucceed), (1, .allSucceed)], none⟩,
    .truncateBlocks 0 512 ⟨.allSucceed, fun _ => none, []⟩,
    .evictInode 0 ⟨true, none, ⟨.allSucceed, fun _ => none, []⟩⟩]

def delaySampleRun : Option DelayState :=
  guardedRun (DelayOp.Safe delaySampleGeometry)
    (fun st op => (delayStep delaySampleGeometry st op).toOption) delaySampleOps delaySampleStart

theorem reservations_match_sample :
    ∃ st ∈ delaySampleRun, st.Matches ∧ st.fsm.reservedBlocksCount = 2 ∧
      st.inodes.map InodeInfo.delayedCount = [0, 2] := by
  have hrun : delaySampleRun.map (fun st => (st.fsm.reservedBlocksCount,
      st.inodes.map delayedCount)) = some (2, [0, 2]) := by decide +kernel
  obtain ⟨st, hst, hmap⟩ := map_eq_some_iff.mp hrun
  obtain ⟨hreserved, hcounts⟩ := Prod.mk.inj hmap
  exact ⟨st, hst, (reservations_match delaySampleGeometry delaySampleStart_mounted
    (reaches_of_guardedRun hst)).1, hreserved, hcounts⟩

/-- Blocks 0, 1, 2 are reserved and the one in the middle is placed: the list is now block 2,
block 0. Block 0 is reserved once more, and placed. -/
def innerOps : List DelayOp :=
  [.getBlockPrepDa 0 0 .allSucceed, .getBlockPrepDa 0 1 .allSucceed,
    .getBlockPrepDa 0 2 .allSucceed, .getIntBlock 0 1 true .allSucceed,
    .getBlockPrepDa 0 0 .allSucceed, .getIntBlock 0 0 true .allSucceed]

def innerRun : Option DelayState :=
  guardedRun (fun _ _ => True) (fun st op => (delayStep delaySampleGeometry st op).toOption)
    innerOps delaySampleStart

/-- **A block is mapped and delayed at the same time**, with no failure anywhere. -/
theorem delayed_block_mapped :
    ∃ st, Reaches (fun _ _ => True)
        (fun st op => (delayStep delaySampleGeometry st op).toOption) delaySampleStart st ∧
      (∃ inode ∈ st.inodes, (vdfs4GetIblockExtent inode.map 0).1.firstBlock ≠ 0 ∧
        vdfs4RuntimeExtentExists 0 inode.runtimeExtents = true) ∧ ¬ st.Matches := by
  have hrun : innerRun.map (fun st => st.inodes.map fun inode =>
      ((vdfs4GetIblockExtent inode.map 0).1.firstBlock,
        vdfs4RuntimeExtentExists 0 inode.runtimeExtents)) = some [(11, true)] := by decide +kernel
  obtain ⟨st, hst, hmap⟩ := map_eq_some_iff.mp hrun
  obtain ⟨inode, hi, heq⟩ := mem_map.mp (by rw [hmap]; exact mem_singleton.mpr rfl)
  obtain ⟨hfirst, hexists⟩ := Prod.mk.inj heq
  have hboth : (vdfs4GetIblockExtent inode.map 0).1.firstBlock ≠ 0 ∧
      vdfs4RuntimeExtentExists 0 inode.runtimeExtents = true := ⟨by rw [hfirst]; decide, hexists⟩
  exact ⟨st, reaches_of_guardedRun hst, ⟨inode, hi, hboth⟩, fun hmatch =>
    hmatch.exclusive inode hi 0 hboth⟩

end Vdfs4
