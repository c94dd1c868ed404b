import Vdfs4.Fsm.Accounting
import Vdfs4.File.Reservations

/-!
# Delayed allocation and the rebuilt tree

A write reserves its blocks when it enters the page cache; the blocks themselves are taken at
writeback, from space that was **reserved**. With no node left in the tree the request rebuilds
it: the tree takes the **first 20480 free runs** of the bitmap, pending ones included, and the
pending ones are cut out again.

* `runIndex` — the number of free runs that begin at or before a block.
* `Built.mem_covered_iff` — without failed allocations, the blocks of a tree that is built
  from the bitmap are those of the first 20480 runs.
* `Usable` — a node is in the tree, or a free block that is not pending lies in one of these
  runs.
* `usable_of_few_pending` — with fewer than 20480 pending extents a state with reserved blocks is
  usable.
* `vdfs4AllocateSpaceLoop_bug` — `vdfs4_allocate_space` meets its assertion **exactly when** a
  round begins in a state that is not usable.
* `delayed_get_iff` — a request for reserved blocks is served exactly when the state is usable, and
  what follows for `vdfs4_allocate_space`.
* `delayed_get_fails` — 20480 pending blocks at the start of the volume hide a reserved block
  behind them.
-/

namespace Vdfs4

open RunSet GuardedRun FsmInfo List Except Bitmap

/-! ### Free runs -/

/-- A free run of the bitmap begins at a block. -/
def RunStart (data : Bitmap) (x : Nat) : Prop := data x = false ∧ (x = 0 ∨ data (x - 1) = true)

instance (data : Bitmap) (x : Nat) : Decidable (RunStart data x) :=
  inferInstanceAs (Decidable (_ ∧ _))

/-- The free runs that begin at or before a block. -/
def runIndex (data : Bitmap) (x : Nat) : Nat :=
  ((Finset.range (x + 1)).filter (RunStart data)).card

/-- An environment in which no node allocation fails. -/
def FsmOracle.NeverFails (o : FsmOracle) : Prop := ∀ p, o.allocNode p = true

theorem FsmOracle.neverFails_allSucceed : FsmOracle.allSucceed.NeverFails := fun _ => rfl

/-- Free space before a block begins with a piece of its own. -/
theorem exists_pieceBefore {g : FsmGeometry} {data : Bitmap} {q : Nat} (hq : 0 < q)
    (hclear : data (q - 1) = false) : ∃ p < q, PieceBefore g data q p := by
  obtain ⟨r, hr, hrun, hstart⟩ := exists_run_start _ hclear
  refine ⟨r, by omega, by omega, fun x hx hle => hrun x hle (by omega), ?_⟩
  rcases hstart with rfl | hset
  · exact .inl (Nat.dvd_zero _)
  · exact .inr hset

/-- Without failures a rebuild leaves no pending extent half in the tree. -/
theorem TreesInv.rebuildOk {g : FsmGeometry} {o : FsmOracle} {fsm : FsmInfo} (h : TreesInv g fsm)
    (ho : o.NeverFails) : RebuildOk g o fsm := by
  intro n hn q hq hlt _ _
  have hmem : q - 1 ∈ covered fsm.nextFreeList := mem_covered.mpr ⟨n, hn, by omega, by omega⟩
  obtain ⟨p, hp, hpiece⟩ := exists_pieceBefore (g := g) (show 0 < q by omega)
    (mem_zeroBelow.mp (h.next_free hmem)).2
  exact ⟨p, hp, hpiece, ho p⟩

namespace Built

variable {g : FsmGeometry} {o : FsmOracle} {data : Bitmap} {fsm : FsmInfo} {n : FsmNode} {x : Nat}

/-- Without failures every node begins with a run. -/
theorem runStart (h : Built g o data fsm) (ho : o.NeverFails)
    (hn : n ∈ fsm.freeArea) : RunStart data n.start := by
  have hpos := h.tree.separated.pos n hn
  have hclear : data n.start = false :=
    (mem_zeroBelow.mp (h.zero (mem_covered.mpr ⟨n, hn, le_rfl, by omega⟩))).2
  refine ⟨hclear, ?_⟩
  rcases h.start_cases n hn with hz | hset | ⟨-, hfail, -⟩
  · exact .inl hz
  · exact .inr hset
  · by_contra hno
    rw [not_or] at hno
    obtain ⟨p, -, hp⟩ := exists_pieceBefore (g := g) (show 0 < n.start by omega)
      (by simpa using hno.2)
    have := hfail p hp
    rw [ho p] at this
    cases this

/-- A run that begins in the tree begins a node. -/
theorem start_eq_of_runStart (h : Built g o data fsm) (hn : n ∈ fsm.freeArea) {y : Nat}
    (hy : RunStart data y) (hhas : n.Has y) : n.start = y := by
  obtain ⟨hlo, hhi⟩ := hhas
  by_contra hne
  have hmem : y - 1 ∈ covered fsm.freeArea := mem_covered.mpr ⟨n, hn, by omega, by omega⟩
  have hclear := (mem_zeroBelow.mp (h.zero hmem)).2
  rcases hy.2 with hz | hset
  · omega
  · rw [hset] at hclear
    cases hclear

/-- The starts of the nodes are as many as the nodes. -/
theorem card_starts (h : Built g o data fsm) :
    (fsm.freeArea.map Run.start).toFinset.card = fsm.freeAreaNodes := by
  rw [h.tree.nodes, toFinset_card_of_nodup, length_map]
  refine (nodup_map_iff_inj_on h.tree.separated.nodup).mpr fun a ha b hb heq => ?_
  have hposa := h.tree.separated.pos a ha
  have hposb := h.tree.separated.pos b hb
  exact h.tree.separated.eq_of_has ha hb ⟨le_rfl, by omega⟩ ⟨heq ▸ le_rfl, by omega⟩

/-- **The tree has the first 20480 runs**, when no allocation fails. -/
theorem mem_covered_iff (h : Built g o data fsm) (ho : o.NeverFails)
    (hx : x ∈ zeroBelow data g.volumeBlocksCount) :
    x ∈ covered fsm.freeArea ↔ runIndex data x ≤ fsmMaxFreeNodes := by
  obtain ⟨hvol, hclear⟩ := mem_zeroBelow.mp hx
  constructor
  · intro hcov
    -- every run up to here begins a node
    have hsub : (Finset.range (x + 1)).filter (RunStart data) ⊆
        (fsm.freeArea.map Run.start).toFinset := by
      intro y hy
      obtain ⟨hle, hstart⟩ := Finset.mem_filter.mp hy
      rw [Finset.mem_range] at hle
      have hmem : y ∈ covered fsm.freeArea := by
        by_contra hno
        have hyz : y ∈ zeroBelow data g.volumeBlocksCount :=
          mem_zeroBelow.mpr ⟨by omega, hstart.1⟩
        have := (h.first ho y hyz hno).2 x hcov
        omega
      obtain ⟨n, hn, hhas⟩ := RunSet.mem_covered.mp hmem
      rw [mem_toFinset]
      exact mem_map.mpr ⟨n, hn, h.start_eq_of_runStart hn hstart hhas⟩
    calc runIndex data x ≤ (fsm.freeArea.map Run.start).toFinset.card := Finset.card_le_card hsub
      _ = fsm.freeAreaNodes := h.card_starts
      _ ≤ fsmMaxFreeNodes := h.nodes_le
  · intro hindex
    by_contra hno
    obtain ⟨hmax, hbefore⟩ := h.first ho x hx hno
    obtain ⟨r, hr, hrun, hfirst⟩ := exists_run_start _ hclear
    have hstart : RunStart data r := ⟨hrun r le_rfl hr, hfirst⟩
    -- the run of the block begins no node, since that node would have the block
    have hfresh : r ∉ (fsm.freeArea.map Run.start).toFinset := by
      rw [mem_toFinset, mem_map]
      rintro ⟨n, hn, rfl⟩
      have hstop : n.start + n.length ≤ x := by
        by_contra hlt
        exact hno (RunSet.mem_covered.mpr ⟨n, hn, hr, by omega⟩)
      have hset := h.stop_set n hn (by omega)
      rw [hrun _ (by omega) hstop] at hset
      cases hset
    have hsub : insert r (fsm.freeArea.map Run.start).toFinset ⊆
        (Finset.range (x + 1)).filter (RunStart data) := by
      intro y hy
      rcases Finset.mem_insert.mp hy with rfl | hy
      · exact Finset.mem_filter.mpr ⟨Finset.mem_range.mpr (by omega), hstart⟩
      · obtain ⟨n, hn, rfl⟩ := mem_map.mp (mem_toFinset.mp hy)
        have hpos := h.tree.separated.pos n hn
        have := hbefore n.start (RunSet.mem_covered.mpr ⟨n, hn, le_rfl, by omega⟩)
        exact Finset.mem_filter.mpr ⟨Finset.mem_range.mpr (by omega), h.runStart ho hn⟩
    have hcard := Finset.card_le_card hsub
    rw [Finset.card_insert_of_notMem hfresh, h.card_starts] at hcard
    unfold runIndex at hindex
    omega

end Built

/-! ### Runs without failed allocations -/

/-- No node allocation of the call fails. -/
def FsmOp.NeverFails : FsmOp → Prop
  | .get o _ _ _ _ => o.NeverFails
  | .put o _ _ _ => o.NeverFails
  | .commit o => o.NeverFails
  | .reserve _ => True
  | .freeReserved _ => True

/-- The calls that are in order, in an environment where no node allocation fails. -/
def FsmOp.NoFail (g : FsmGeometry) (fsm : FsmInfo) (op : FsmOp) : Prop :=
  op.Allowed g fsm ∧ op.NeverFails

/-! ### A request for reserved blocks -/

/-- A block can be handed out: the tree has a node, or one of the first 20480 free runs has a
block that is not pending. -/
def Usable (g : FsmGeometry) (fsm : FsmInfo) : Prop :=
  fsm.freeArea ≠ [] ∨ ∃ x ∈ zeroBelow fsm.data g.volumeBlocksCount,
    x ∉ covered fsm.nextFreeList ∧ runIndex fsm.data x ≤ fsmMaxFreeNodes

/-- **Few pending extents hide nothing**: every free run before the first block that is not pending
begins with a pending extent. -/
theorem usable_of_few_pending {g : FsmGeometry} {fsm : FsmInfo} (h : FsmInv g fsm)
    (hreserved : 0 < fsm.reservedBlocksCount) (hfew : fsm.nextFreeList.length < fsmMaxFreeNodes) :
    Usable g fsm := by
  obtain ⟨-, htotal, hfree, -, huntracked⟩ := h.counts
  have hblocks := h.trees.next.blocks
  -- some clear bit is not pending
  have hsome : ∃ x, x ∈ zeroBelow fsm.data g.volumeBlocksCount ∧ x ∉ covered fsm.nextFreeList := by
    by_contra hall
    simp only [not_exists, not_and, not_not] at hall
    have hcard := Finset.card_le_card (fun x hx => hall x hx)
    rw [h.trees.next.separated.card_covered] at hcard
    omega
  obtain ⟨hx, hnot⟩ := Nat.find_spec hsome
  have hmin : ∀ y, y < Nat.find hsome → y ∈ zeroBelow fsm.data g.volumeBlocksCount →
      y ∈ covered fsm.nextFreeList := fun y hy hz =>
    not_not.mp fun hno => Nat.find_min hsome hy ⟨hz, hno⟩
  generalize Nat.find hsome = x at hx hnot hmin
  have hvolume := (mem_zeroBelow.mp hx).1
  refine .inr ⟨x, hx, hnot, ?_⟩
  have hsub : (Finset.range (x + 1)).filter (RunStart fsm.data) ⊆
      insert x (fsm.nextFreeList.map Run.start).toFinset := by
    intro y hy
    obtain ⟨hle, hclear, hfirst⟩ := Finset.mem_filter.mp hy
    rw [Finset.mem_range] at hle
    rw [Finset.mem_insert, mem_toFinset, mem_map]
    obtain rfl | hlt := Nat.eq_or_lt_of_le (show y ≤ x by omega)
    · exact .inl rfl
    obtain ⟨n, hn, hlo, hhi⟩ :=
      mem_covered.mp (hmin y hlt (mem_zeroBelow.mpr ⟨by omega, hclear⟩))
    refine .inr ⟨n, hn, Nat.le_antisymm hlo (Nat.le_of_not_lt fun hinner => ?_)⟩
    -- inside an extent the bit before is clear
    have hprev := (mem_zeroBelow.mp (h.trees.next_free
      (mem_covered.mpr ⟨n, hn, show n.start ≤ y - 1 by omega, by omega⟩))).2
    rw [hfirst.resolve_left (by omega)] at hprev
    cases hprev
  have hcard := (Finset.card_le_card hsub).trans (Finset.card_insert_le _ _)
  have hlen := toFinset_card_le (fsm.nextFreeList.map Run.start)
  rw [length_map] at hlen
  unfold runIndex
  omega

/-- **The two results** of a delayed request for reserved blocks. -/
theorem FsmInv.delayedGet {g : FsmGeometry} {o : FsmOracle} {fsm : FsmInfo} (h : FsmInv g fsm)
    (ho : o.NeverFails) {k : Nat} (hk : 0 < k) (hreserved : (k : Int) ≤ fsm.reservedBlocksCount)
    (blockOffset minBlkCount : Nat) :
    (Usable g fsm ∧ ∃ fsm' pos len,
      fsm.vdfs4FsmGetFreeBlock g o blockOffset k minBlkCount ⟨true, false⟩ = .ok (fsm', pos, len) ∧
        pos ≠ 0 ∧ 1 ≤ len ∧ len ≤ k ∧ fsm'.nextFreeList = fsm.nextFreeList ∧
        fsm'.reservedBlocksCount = fsm.reservedBlocksCount - len) ∨
    (¬ Usable g fsm ∧ ∃ fsm',
      fsm.vdfs4FsmGetFreeBlock g o blockOffset k minBlkCount ⟨true, false⟩ = .ok (fsm', 0, k)) := by
  have htrees := h.trees
  simp only [vdfs4FsmGetFreeBlock]
  generalize (if g.volumeBlocksCount ≤ blockOffset + k then 0 else blockOffset) = hint
  rw [if_neg (by simp), if_neg (by simp)]
  have hspec := fsmAllocateSpace_spec (hint % 2 ^ 32) htrees (htrees.rebuildOk ho) hk Nat.one_pos
  generalize fsm.fsmAllocateSpace g o (hint % 2 ^ 32) 1 k = r at hspec ⊢
  cases hspec with
  | @taken fsm1 fsm2 pos len hcases htaken hlen hle _ =>
    left
    have hprep : Prepared g o fsm fsm1 := hcases.elim (fun h => h ▸ .same) .rebuilt
    have hmem := htaken.range pos le_rfl (by omega)
    refine ⟨?_, ?_⟩
    · rcases hcases with rfl | hre
      · refine .inl fun hnil => ?_
        rw [hnil] at hmem
        simp at hmem
      -- the rebuilt tree has the first runs
      obtain ⟨t, hbuilt, hsub, -⟩ := hre.built
      obtain ⟨hdata, hlist, -⟩ := hprep.frame
      have hfree := hre.trees.tree_free hmem
      rw [hdata] at hfree
      exact .inr ⟨pos, hfree, hlist ▸ hre.trees.disjoint pos hmem,
        (hbuilt.mem_covered_iff ho hfree).mp (hsub hmem)⟩
    · have hpos : pos ≠ 0 := by
        rintro rfl
        have hclear := (mem_zeroBelow.mp ((hprep.trees htrees).tree_free hmem)).2
        rw [hprep.frame.1, h.zero] at hclear
        cases hclear
      obtain ⟨counters, hinc, -⟩ := h.inc hprep htaken hlen
      have hmarked := Taken.marked htrees hprep htaken hlen true counters
      refine ⟨fsm2.markRange true pos len counters, pos, len, ?_, hpos, hlen, hle,
        hmarked.next_eq, by rw [← hprep.frame.2.2.1, markRange, htaken.frame]; rfl⟩
      simp only [Except.bind]
      rw [fsmMarkAllocated_eq htrees hprep htaken hlen hpos, hinc]
      rfl
  | @nospace fsm1 hempty hcases =>
    right
    obtain ⟨hnil, hnil1⟩ := hempty le_rfl
    rcases hcases with ⟨-, hcond⟩ | hre
    · -- reserved blocks off the tree are untracked, so the tree was rebuilt
      have haccounts := h.counts.accounts
      have hfree := h.counts.free_nonneg
      rw [hnil, size_nil] at haccounts
      omega
    · obtain ⟨t, hbuilt, -, hlive⟩ := hre.built
      refine ⟨?_, fsm1, rfl⟩
      rintro (hne | ⟨x, hx, hnot, hindex⟩)
      · exact hne hnil
      · exact hlive ⟨x, (hbuilt.mem_covered_iff ho hx).mpr hindex, hnot⟩ hnil1
  | verifyState hne => exact absurd h.counts.accounts hne

/-- The invariant after such a request. -/
theorem FsmInv.of_delayedGet {g : FsmGeometry} {o : FsmOracle} {fsm fsm' : FsmInfo}
    (h : FsmInv g fsm)
    (ho : o.NeverFails) {k blockOffset minBlkCount : Nat} {r : Nat × Nat} (hk : 0 < k)
    (hreserved : (k : Int) ≤ fsm.reservedBlocksCount)
    (hget : fsm.vdfs4FsmGetFreeBlock g o blockOffset k minBlkCount ⟨true, false⟩ = .ok (fsm', r)) :
    FsmInv g fsm' := by
  have hok : FsmOp.Allowed g fsm (.get o blockOffset k minBlkCount ⟨true, false⟩) :=
    ⟨hk, nofun, fun _ => hreserved, h.trees.rebuildOk ho⟩
  refine h.of_step hok ?_
  rw [fsmStep, hget]
  rfl

/-! ### All rounds -/

section rounds

variable {g : FileGeometry} {fsm : FsmInfo} {inode : InodeInfo} {doErase : Bool}

/-- Round `m` of the loop begins in the state `fsm'`, with an entry left on the list of `inode'`;
`env` numbers the `m + d` rounds from the last one on. -/
def RoundBegins (g : FileGeometry) (doErase : Bool) (env : Nat → RoundEnv) (m d : Nat)
    (fsm : FsmInfo) (inode : InodeInfo) (fsm' : FsmInfo) (inode' : InodeInfo) : Prop :=
  vdfs4AllocateSpaceLoop g doErase (fun i => env (i + d)) m fsm inode = .ok (fsm', inode', none) ∧
    inode'.runtimeExtents ≠ []

/-- What a round keeps: the invariant, the reservations behind the list, and the pending
extents. -/
structure RoundInv (g : FileGeometry) (pending : List FsmNode) (fsm : FsmInfo) (inode : InodeInfo) :
    Prop where
  inv : FsmInv g.fsm fsm
  backed : Backed fsm inode
  pending_eq : fsm.nextFreeList = pending

theorem vdfs4AllocateSpaceLoop_nil {env : Nat → RoundEnv} (hnil : inode.runtimeExtents = [])
    (fuel : Nat) :
    vdfs4AllocateSpaceLoop g doErase env fuel fsm inode = .ok (fsm, inode, none) := by
  cases fuel with
  | zero => rfl
  | succ fuel => rw [vdfs4AllocateSpaceLoop, hnil]

/-- What one round does, whichever rounds come behind it. -/
inductive Round (g : FileGeometry) (doErase : Bool) (pending : List FsmNode) (e : RoundEnv)
    (fsm : FsmInfo) (inode : InodeInfo) : Prop
  /-- a block was had and could not be inserted -/
  | stops (husable : Usable g.fsm fsm) (hround : ∀ env m, env m = e →
      vdfs4AllocateSpaceLoop g doErase env (m + 1) fsm inode ≠ .error .noReservedSpace ∧
      ∀ s i, vdfs4AllocateSpaceLoop g doErase env (m + 1) fsm inode ≠ .ok (s, i, none))
  /-- a block was inserted -/
  | goesOn {fsm' : FsmInfo} {inode' : InodeInfo} (husable : Usable g.fsm fsm)
      (hinv : RoundInv g pending fsm' inode') (hround : ∀ env m, env m = e →
        vdfs4AllocateSpaceLoop g doErase env (m + 1) fsm inode =
          vdfs4AllocateSpaceLoop g doErase env m fsm' inode')
  /-- no block was had -/
  | bug (hnot : ¬Usable g.fsm fsm) (hround : ∀ env m, env m = e →
      vdfs4AllocateSpaceLoop g doErase env (m + 1) fsm inode = .error .noReservedSpace)

variable (doErase) in
theorem RoundInv.round {pending : List FsmNode} {e : RoundEnv} (h : RoundInv g pending fsm inode)
    (ho : e.oracle.NeverFails) (hlist : inode.runtimeExtents ≠ []) :
    Round g doErase pending e fsm inode := by
  obtain ⟨entry, rest, hlist⟩ := exists_cons_of_ne_nil hlist
  obtain ⟨hinv, ⟨hfilled, hreserved⟩, hpending⟩ := h
  rw [InodeInfo.delayedCount, hlist, vdfs4RuntimeExtentCount_cons] at hreserved
  rw [hlist] at hfilled
  have hpos : 0 < entry.blockCount := hfilled entry mem_cons_self
  rcases hinv.delayedGet ho hpos (by omega) entry.allocHint entry.blockCount with
    ⟨husable, fsm1, pos, len, hget, hne, hlen, hle, hnext, hreserved1⟩ | ⟨hnot, fsm1, hget⟩
  · cases hins : insertExtent inode.map ⟨pos, entry.iblock, len⟩
        (if doErase then e.eraseError else none) e.treeError with
    | error err =>
      refine .stops husable fun env m henv => ?_
      rw [vdfs4AllocateSpaceLoop, hlist]
      simp only [henv, allocDelayed, hget, Except.mapError, Except.bind, if_neg hne, hins]
      cases fsm1.vdfs4FsmPutFreeBlock g.fsm e.oracle pos len freeToReserve <;>
        simp [Except.map]
    | ok map =>
      obtain ⟨hfilled1, hcount⟩ := takeFront_filled hfilled hle
      rw [vdfs4RuntimeExtentCount_cons] at hcount
      have hround1 : RoundInv g pending fsm1 { inode with
          map := map, runtimeExtents := takeFront entry rest len } :=
        ⟨hinv.of_delayedGet ho hpos (by omega) hget,
          ⟨hfilled1, by simp only [InodeInfo.delayedCount]; omega⟩, hnext.trans hpending⟩
      refine .goesOn husable hround1 fun env m henv => ?_
      rw [vdfs4AllocateSpaceLoop, hlist]
      simp only [henv, allocDelayed, hget, Except.mapError, Except.bind, if_neg hne, hins]
  · refine .bug hnot fun env m henv => ?_
    rw [vdfs4AllocateSpaceLoop, hlist]
    simp only [henv, allocDelayed, hget, Except.mapError, Except.bind, if_true]

/-- In a usable state the first round is not one that begins in a state that is not usable. -/
theorem RoundBegins.later {env : Nat → RoundEnv} {fuel m d : Nat} {fsm' : FsmInfo}
    {inode' : InodeInfo} (h : RoundBegins g doErase env m (d + 1) fsm inode fsm' inode')
    (husable : Usable g.fsm fsm) (hnot : ¬Usable g.fsm fsm') (hm : m + (d + 1) = fuel + 1) :
    ∃ m', m = m' + 1 ∧ m' + (d + 1) = fuel := by
  cases m with
  | zero =>
    obtain ⟨rfl, -⟩ := Prod.mk.inj (ok.inj h.1)
    exact absurd husable hnot
  | succ m => exact ⟨m, rfl, by omega⟩

variable (doErase) in
/-- The assertion is met where a round begins in a state that is not usable, and only there. -/
theorem vdfs4AllocateSpaceLoop_bug {env : Nat → RoundEnv} {pending : List FsmNode}
    (henv : ∀ i, (env i).oracle.NeverFails) (fuel : Nat) (h : RoundInv g pending fsm inode) :
    (vdfs4AllocateSpaceLoop g doErase env fuel fsm inode = .error .noReservedSpace →
      ∃ m d fsm' inode', m + (d + 1) = fuel ∧
        RoundBegins g doErase env m (d + 1) fsm inode fsm' inode' ∧
        RoundInv g pending fsm' inode' ∧ ¬Usable g.fsm fsm') ∧
    ∀ m d fsm' inode', m + (d + 1) = fuel →
      RoundBegins g doErase env m (d + 1) fsm inode fsm' inode' → ¬Usable g.fsm fsm' →
      vdfs4AllocateSpaceLoop g doErase env fuel fsm inode = .error .noReservedSpace := by
  induction fuel generalizing fsm inode with
  | zero => exact ⟨nofun, fun m d _ _ hm => absurd hm (by omega)⟩
  | succ fuel ih =>
    by_cases hlist : inode.runtimeExtents = []
    · refine ⟨fun hbug => ?_, fun m d fsm' inode' _ hbegins _ => ?_⟩
      · rw [vdfs4AllocateSpaceLoop_nil hlist] at hbug
        cases hbug
      · obtain ⟨hrun, hne⟩ := hbegins
        rw [vdfs4AllocateSpaceLoop_nil hlist] at hrun
        cases hrun
        exact absurd hlist hne
    cases h.round doErase (henv fuel) hlist with
    | stops husable hround =>
      refine ⟨fun hbug => absurd hbug (hround env fuel rfl).1,
        fun m d fsm' inode' hm hbegins hnot => ?_⟩
      obtain ⟨m, rfl, hm'⟩ := hbegins.later husable hnot hm
      exact absurd hbegins.1 ((hround _ m (by rw [hm'])).2 _ _)
    | goesOn husable hinv hround =>
      obtain ⟨hbug, hback⟩ := ih hinv
      refine ⟨fun herr => ?_, fun m d fsm' inode' hm hbegins hnot => ?_⟩
      · rw [hround env fuel rfl] at herr
        obtain ⟨m, d, fsm', inode', hm, hbegins, hrest⟩ := hbug herr
        refine ⟨m + 1, d, fsm', inode', by omega, ⟨?_, hbegins.2⟩, hrest⟩
        rw [hround _ m (by rw [hm])]
        exact hbegins.1
      · obtain ⟨m, rfl, hm'⟩ := hbegins.later husable hnot hm
        rw [hround env fuel rfl]
        refine hback m d fsm' inode' hm' ⟨?_, hbegins.2⟩ hnot
        rw [← hround _ m (by rw [hm'])]
        exact hbegins.1
    | bug hnot hround =>
      exact ⟨fun _ => ⟨0, fuel, fsm, inode, by omega, ⟨rfl, hlist⟩, h, hnot⟩,
        fun _ _ _ _ _ _ _ => hround env fuel rfl⟩

end rounds

/-- **Reserved blocks can be allocated exactly when the state is usable.** In every run without
failed node allocations, on a volume of fewer than `2 ^ 32` blocks:
a delayed request for at most the reserved blocks returns a block and a length from 1 to the
requested one exactly when the tree has a node or one of the first 20480 free runs has a block that
is not pending; `vdfs4_allocate_space`, for an inode whose runtime extents are reserved, meets its
assertion exactly when one of its rounds begins in a state that is not so; and with fewer than 20480
pending extents it never does. -/
theorem delayed_get_iff (g : FileGeometry) (o₀ : FsmOracle) (data : Bitmap)
    (hsmall : g.fsm.volumeBlocksCount < 2 ^ 32) (hzero : data 0 = true) :
    ∃ fsm₀, vdfs4FsmBuildManagement g.fsm o₀ data = .ok fsm₀ ∧
      ∀ fsm, Reaches (FsmOp.NoFail g.fsm) (fun s op => (fsmStep g.fsm s op).toOption) fsm₀ fsm →
        (∀ (o : FsmOracle) (k : Nat), o.NeverFails → 1 ≤ k → (k : Int) ≤ fsm.reservedBlocksCount →
          ∀ blockOffset minBlkCount : Nat, (∃ fsm' pos len,
            fsm.vdfs4FsmGetFreeBlock g.fsm o blockOffset k minBlkCount ⟨true, false⟩ =
              .ok (fsm', pos, len) ∧ pos ≠ 0 ∧ 1 ≤ len ∧ len ≤ k) ↔ Usable g.fsm fsm) ∧
        ∀ (inode : InodeInfo) (doErase : Bool) (env : Nat → RoundEnv), Backed fsm inode →
          (∀ i, (env i).oracle.NeverFails) →
          (vdfs4AllocateSpace g fsm inode doErase env = .error .noReservedSpace ↔
            ∃ m d fsm' inode', m + d = inode.delayedCount ∧
              RoundBegins g doErase env m (d + 1) fsm inode fsm' inode' ∧ ¬Usable g.fsm fsm') ∧
          (fsm.nextFreeList.length < fsmMaxFreeNodes →
            vdfs4AllocateSpace g fsm inode doErase env ≠ .error .noReservedSpace) := by
  obtain ⟨fsm₀, hbuild, hinv₀⟩ := vdfs4FsmBuildManagement_fsmInv o₀ hsmall hzero
  refine ⟨fsm₀, hbuild, fun fsm hreach => ?_⟩
  have hinv := hinv₀.reaches (fun _ _ h => h.1) hreach
  refine ⟨fun o k ho hk hreserved blockOffset minBlkCount => ?_,
    fun inode doErase env hbacked henv => ?_⟩
  · rcases hinv.delayedGet ho hk hreserved blockOffset minBlkCount with
      ⟨husable, fsm', pos, len, hget, hpos, hlen, hle, -⟩ | ⟨hnot, fsm', hget⟩
    · exact ⟨fun _ => husable, fun _ => ⟨fsm', pos, len, hget, hpos, hlen, hle⟩⟩
    · refine ⟨fun ⟨fsm'', pos, len, heq, hpos, _⟩ => ?_, fun husable => absurd husable hnot⟩
      rw [hget] at heq
      exact absurd (Prod.mk.inj (Prod.mk.inj (ok.inj heq)).2).1.symm hpos
  · obtain ⟨hbug, hback⟩ := vdfs4AllocateSpaceLoop_bug doErase henv
      (vdfs4RuntimeExtentCount inode.runtimeExtents + 1) ⟨hinv, hbacked, rfl⟩
    refine ⟨⟨fun herr => ?_, fun ⟨m, d, fsm', inode', hm, hbegins, hnot⟩ => ?_⟩,
      fun hfew herr => ?_⟩
    · obtain ⟨m, d, fsm', inode', hm, hbegins, -, hnot⟩ := hbug herr
      exact ⟨m, d, fsm', inode', Nat.succ.inj hm, hbegins, hnot⟩
    · exact hback m d fsm' inode' (congrArg (· + 1) hm) hbegins hnot
    · obtain ⟨m, d, fsm', inode', -, hbegins, hround, hnot⟩ := hbug herr
      refine hnot (usable_of_few_pending hround.inv ?_ (by rw [hround.pending_eq]; exact hfew))
      -- an entry is left, so blocks are reserved
      cases hlist : inode'.runtimeExtents with
      | nil => exact absurd hlist hbegins.2
      | cons entry rest =>
        have hpos := hround.backed.filled entry (by rw [hlist]; exact mem_cons_self)
        have hreserved := hround.backed.reserved
        rw [InodeInfo.delayedCount, hlist, vdfs4RuntimeExtentCount_cons] at hreserved
        omega

/-- A sample volume on which one block is reserved, for block 3 of a file. -/
theorem delayed_get_iff_sample :
    ∃ (fsm fsm' : FsmInfo) (pos len : Nat), fsm.reservedBlocksCount = 1 ∧
      fsm.vdfs4FsmGetFreeBlock fsmSampleGeometry .allSucceed 0 1 1 ⟨true, false⟩ =
        .ok (fsm', pos, len) ∧ pos ≠ 0 ∧ 1 ≤ len ∧ len ≤ 1 ∧
      vdfs4AllocateSpace ⟨fsmSampleGeometry, 9, 40, true, rfl⟩ fsm
        ⟨false, BlockMap.empty, [⟨3, 0, 1⟩]⟩ false (fun _ => ⟨.allSucceed, none, none⟩) ≠
          .error .noReservedSpace := by
  obtain ⟨fsm0, hbuild, hall⟩ := delayed_get_iff ⟨fsmSampleGeometry, 9, 40, true, rfl⟩ .allSucceed
    (fun x => x < 10 || 20 ≤ x) (by decide) rfl
  have hrun : (vdfs4FsmBuildManagement fsmSampleGeometry .allSucceed
      (fun x => x < 10 || 20 ≤ x)).toOption.map (fun fsm => (fsm.reservedBlocksCount,
        fsm.freeBlocksCount, fsm.freeArea, fsm.nextFreeList)) = some (0, 10, [⟨10, 10⟩], []) := by
    decide +kernel
  rw [hbuild] at hrun
  obtain ⟨hreserved, hfree, harea, hnext⟩ : fsm0.reservedBlocksCount = 0 ∧
      fsm0.freeBlocksCount = 10 ∧ fsm0.freeArea = [⟨10, 10⟩] ∧ fsm0.nextFreeList = [] := by
    simpa using Option.some.inj hrun
  obtain ⟨fsm, hfsm⟩ : ∃ fsm, fsm = { fsm0 with
      freeBlocksCount := fsm0.freeBlocksCount - 1
      reservedBlocksCount := fsm0.reservedBlocksCount + 1 } := ⟨_, rfl⟩
  have hstep : fsmStep fsmSampleGeometry fsm0 (.reserve 1) = .ok fsm := by
    rw [fsmStep, vdfs4ReserveSpace, if_pos (by omega), hfsm]
    rfl
  have hreach : Reaches (FsmOp.NoFail fsmSampleGeometry)
      (fun s op => (fsmStep fsmSampleGeometry s op).toOption) fsm0 fsm :=
    (Reaches.refl fsm0).tail (a := .reserve 1) ⟨trivial, trivial⟩ (by rw [hstep]; rfl)
  have hone : fsm.reservedBlocksCount = 1 := by
    rw [hfsm]
    simp only
    omega
  have husable : Usable fsmSampleGeometry fsm := by
    left
    rw [hfsm]
    simp only [harea]
    decide
  obtain ⟨hget, hspace⟩ := hall fsm hreach
  obtain ⟨fsm', pos, len, hgot, hpos, hlen, hle⟩ := (hget .allSucceed 1
    FsmOracle.neverFails_allSucceed le_rfl (by omega) 0 1).mpr husable
  refine ⟨fsm, fsm', pos, len, hone, hgot, hpos, hlen, hle, (hspace _ false _ ⟨?_, ?_⟩
    fun _ => FsmOracle.neverFails_allSucceed).2 ?_⟩
  · exact fun e he => by rw [mem_singleton.mp he]; decide
  · rw [hone]
    decide
  · rw [hfsm]
    simp only [hnext]
    decide

/-! ### Hidden reserved blocks -/

/-- A volume of 40962 blocks. -/
def hiddenGeometry : FsmGeometry := ⟨4096, 40962, 0, 9, true, by decide, by decide⟩

/-- The last block is reserved, handed out and given back to the reserve; then `n` blocks with
odd numbers are released from the start of the volume on. -/
def hiddenOps (n : Nat) : List FsmOp :=
  let o := FsmOracle.allSucceed
  [.reserve 1, .get o 0 1 1 ⟨true, false⟩, .put o 40961 1 ⟨true, true⟩] ++
    (List.range n).map fun i => .put o (2 * i + 1) 1 ⟨false, false⟩

/-- The state after `n` releases: the last block is reserved and off the tree. -/
structure Hidden (n : Nat) (fsm : FsmInfo) : Prop where
  inv : FsmInv hiddenGeometry fsm
  area : fsm.freeArea = []
  reserved : fsm.reservedBlocksCount = 1
  data : ∀ x < 40962, fsm.data x = false ↔ x = 40961 ∨ (x % 2 = 1 ∧ x < 2 * n)
  pending : ∀ x, x ∈ covered fsm.nextFreeList ↔ x % 2 = 1 ∧ x < 2 * n

theorem Hidden.step {n : Nat} {fsm : FsmInfo} (h : Hidden n fsm) (hn : n < 20480) :
    ∃ fsm', fsmStep hiddenGeometry fsm (.put .allSucceed (2 * n + 1) 1 ⟨false, false⟩) = .ok fsm' ∧
      Hidden (n + 1) fsm' := by
  have hvol : hiddenGeometry.volumeBlocksCount = 40962 := rfl
  have hset : fsm.data (2 * n + 1) = true := by
    by_contra hclear
    have := (h.data (2 * n + 1) (by omega)).mp (by simpa using hclear)
    omega
  have hput : PutOk hiddenGeometry fsm (2 * n + 1) 1 := by
    refine ⟨Nat.one_pos, by omega, allSet_eq_true.mpr fun x h1 h2 => ?_⟩
    rwa [show x = 2 * n + 1 by omega]
  obtain ⟨fsm', hok, hinv, hr⟩ := h.inv.put .allSucceed ⟨false, false⟩ hput (by omega) nofun
  refine ⟨_, hok, hinv, hr.area_eq.trans h.area, ?_, fun x hx => ?_, fun x => ?_⟩
  · rw [hr.reserved_eq, h.reserved]
    rfl
  · rw [hr.data_eq, clearRange]
    have := h.data x hx
    split
    · simp only [true_iff]
      omega
    · rw [this]
      omega
  · rw [hr.pending rfl rfl, Finset.mem_union, h.pending, Finset.mem_Ico]
    omega

/-- The bitmap at mount: only the last block is free. -/
def hiddenBitmap : Bitmap := fun x => x != 40961

theorem hiddenBitmap_eq_false : hiddenBitmap x = false ↔ x = 40961 := bne_eq_false_iff_eq

theorem zeroBelow_hiddenBitmap :
    zeroBelow hiddenBitmap hiddenGeometry.volumeBlocksCount = {40961} := by
  ext x
  rw [mem_zeroBelow, Finset.mem_singleton, hiddenBitmap_eq_false]
  constructor
  · exact fun h => h.2
  · rintro rfl
    exact ⟨by decide, rfl⟩

/-- The reserved block is handed out: nothing is free any more. -/
theorem hidden_get {fsm : FsmInfo} (h : FsmInv hiddenGeometry fsm)
    (hdata : fsm.data = hiddenBitmap) (hlist : fsm.nextFreeList = [])
    (hreserved : fsm.reservedBlocksCount = 1) :
    ∃ fsm', fsmStep hiddenGeometry fsm (.get .allSucceed 0 1 1 ⟨true, false⟩) = .ok fsm' ∧
      FsmInv hiddenGeometry fsm' ∧ fsm'.freeArea = [] ∧ fsm'.nextFreeList = [] ∧
      fsm'.reservedBlocksCount = 0 ∧ fsm'.data = hiddenBitmap.setRange 40961 1 := by
  have hok : GetOk hiddenGeometry .allSucceed fsm 1 1 ⟨true, false⟩ :=
    ⟨Nat.one_pos, nofun, fun _ => by rw [hreserved]; rfl,
      h.trees.rebuildOk FsmOracle.neverFails_allSucceed⟩
  have husable : Usable hiddenGeometry fsm := by
    refine .inr ⟨40961, ?_, by simp [hlist], ?_⟩
    · rw [hdata, zeroBelow_hiddenBitmap]
      exact Finset.mem_singleton_self _
    -- there is one run
    have hsub : (Finset.range (40961 + 1)).filter (RunStart fsm.data) ⊆ {40961} := by
      intro y hy
      have hclear := (Finset.mem_filter.mp hy).2.1
      rw [hdata, hiddenBitmap_eq_false] at hclear
      exact Finset.mem_singleton.mpr hclear
    have hcard := Finset.card_le_card hsub
    rw [Finset.card_singleton] at hcard
    exact hcard.trans (by decide)
  obtain ⟨-, fsm', pos, len, hget, hpos, hlen, hle, -, hreserved'⟩ :=
    (h.delayedGet FsmOracle.neverFails_allSucceed Nat.one_pos (by rw [hreserved]; rfl) 0
      1).resolve_right fun hno => hno.1 husable
  have hstep : fsmStep hiddenGeometry fsm (.get .allSucceed 0 1 1 ⟨true, false⟩) = .ok fsm' := by
    rw [fsmStep, hget]
    rfl
  have hinv := h.of_delayedGet FsmOracle.neverFails_allSucceed Nat.one_pos (hok.delayed rfl) hget
  have hgot := vdfs4FsmGetFreeBlock_got h.trees 0 hok
  rw [hget] at hgot
  obtain rfl : len = 1 := by omega
  cases hgot with
  | nospace => exact absurd rfl hpos
  | @granted fsm1 fsm2 _ _ counters hprep htaken _ hlen _ _ =>
    have hmarked := Taken.marked h.trees hprep htaken hlen true counters
    obtain rfl : pos = 40961 := by
      have hfree := (hmarked.range pos le_rfl (by omega)).1
      rwa [hdata, zeroBelow_hiddenBitmap, Finset.mem_singleton] at hfree
    refine ⟨_, hstep, hinv, ?_, hmarked.next_eq.trans hlist, ?_, hdata ▸ hmarked.data_eq⟩
    · -- no block is free, so the tree is empty
      refine eq_nil_iff_forall_not_mem.mpr fun n hn => ?_
      have hlen := hmarked.trees.tree.separated.pos n hn
      have hfree := hmarked.trees.tree_free (mem_covered.mpr ⟨n, hn, le_rfl, by omega⟩)
      rw [hmarked.data_eq, zeroBelow_setRange, hdata, zeroBelow_hiddenBitmap] at hfree
      simp at hfree
    · rw [hreserved', hreserved]
      rfl

theorem hidden_zero : ∃ fsm0 fsm,
    vdfs4FsmBuildManagement hiddenGeometry .allSucceed hiddenBitmap = .ok fsm0 ∧
      guardedRun (fun _ _ => True) (fun s op => (fsmStep hiddenGeometry s op).toOption)
        (hiddenOps 0) fsm0 = some fsm ∧ Hidden 0 fsm := by
  have hsmall : hiddenGeometry.volumeBlocksCount < 2 ^ 32 := by decide
  obtain ⟨fsm0, hbuild, -, -, hdata, hlist, -, hreserved, hfree, -⟩ :=
    vdfs4FsmBuildManagement_spec .allSucceed hiddenBitmap hsmall
  obtain ⟨fsm0', hbuild', hinv⟩ := vdfs4FsmBuildManagement_fsmInv .allSucceed hsmall
    (show hiddenBitmap 0 = true from rfl)
  rw [hbuild] at hbuild'
  obtain rfl := ok.inj hbuild'
  rw [zeroBelow_hiddenBitmap, Finset.card_singleton] at hfree
  -- a block is reserved
  have hstep1 : fsmStep hiddenGeometry fsm0 (.reserve 1) = .ok { fsm0 with
      freeBlocksCount := fsm0.freeBlocksCount - 1
      reservedBlocksCount := fsm0.reservedBlocksCount + 1 } := by
    rw [fsmStep, vdfs4ReserveSpace, if_pos (by omega)]
    rfl
  have hinv1 := hinv.of_step (show FsmOp.Allowed hiddenGeometry fsm0 (.reserve 1) from trivial)
    hstep1
  -- it is handed out
  obtain ⟨fsm2, hstep2, hinv2, harea, hlist2, hreserved2, hdata2⟩ :=
    hidden_get hinv1 hdata hlist (by simp only; omega)
  -- and given back
  have hput : PutOk hiddenGeometry fsm2 40961 1 := by
    refine ⟨Nat.one_pos, le_rfl, allSet_eq_true.mpr fun x h1 h2 => ?_⟩
    rw [hdata2, setRange_eq_true]
    exact .inl ⟨h1, h2⟩
  obtain ⟨fsm3, hstep3, hinv3, hr⟩ := hinv2.put .allSucceed ⟨true, true⟩ hput (by omega)
    fun _ => rfl
  refine ⟨fsm0, fsm3, hbuild, ?_, hinv3, hr.area_eq.trans harea, ?_,
    fun x hx => ?_, fun x => ?_⟩
  · have hstep3' : fsmStep hiddenGeometry fsm2 (.put .allSucceed 40961 1 ⟨true, true⟩) =
        .ok fsm3 := hstep3
    simp only [hiddenOps, range_zero, map_nil, append_nil, guardedRun, if_true,
      hstep1, hstep2, hstep3', Except.toOption, Option.bind_some]
  · rw [hr.reserved_eq, hreserved2]
    rfl
  · rw [hr.data_eq, hdata2, clearRange, setRange]
    split
    · simp only [true_iff]
      omega
    · rw [hiddenBitmap_eq_false]
      omega
  · rw [hr.unused rfl, hlist2]
    simp

/-- All calls up to `n` releases. -/
theorem hidden_run (n : Nat) (hn : n ≤ 20480) : ∃ fsm0 fsm,
    vdfs4FsmBuildManagement hiddenGeometry .allSucceed hiddenBitmap = .ok fsm0 ∧
      guardedRun (fun _ _ => True) (fun s op => (fsmStep hiddenGeometry s op).toOption)
        (hiddenOps n) fsm0 = some fsm ∧ Hidden n fsm := by
  induction n with
  | zero => exact hidden_zero
  | succ n ih =>
    obtain ⟨fsm0, fsm, hbuild, hrun, hfsm⟩ := ih (by omega)
    obtain ⟨fsm', hstep, hfsm'⟩ := hfsm.step (by omega)
    refine ⟨fsm0, fsm', hbuild, ?_, hfsm'⟩
    have hops : hiddenOps (n + 1) =
        hiddenOps n ++ [.put .allSucceed (2 * n + 1) 1 ⟨false, false⟩] := by
      simp only [hiddenOps, range_succ, map_append, map_cons, map_nil,
        append_assoc]
    rw [hops, guardedRun_append, hrun]
    simp [guardedRun, hstep, Except.toOption]

/-- **A reserved block cannot be allocated**: the 20480 pending blocks at the start of the
volume fill the rebuilt tree and are cut out of it, and the one usable block lies behind
them. -/
theorem delayed_get_fails : ∃ fsm₀ fsm fsm',
    vdfs4FsmBuildManagement hiddenGeometry .allSucceed hiddenBitmap = .ok fsm₀ ∧
      guardedRun (fun _ _ => True) (fun s op => (fsmStep hiddenGeometry s op).toOption)
        (hiddenOps 20480) fsm₀ = some fsm ∧ fsm.reservedBlocksCount = 1 ∧
      fsm.vdfs4FsmGetFreeBlock hiddenGeometry .allSucceed 0 1 1 ⟨true, false⟩ =
        .ok (fsm', 0, 1) := by
  obtain ⟨fsm₀, fsm, hbuild, hrun, h⟩ := hidden_run 20480 le_rfl
  have hnot : ¬ Usable hiddenGeometry fsm := by
    rintro (hne | ⟨x, hx, hpending, hindex⟩)
    · exact hne h.area
    obtain ⟨hvol, hclear⟩ := mem_zeroBelow.mp hx
    have hvol' : x < 40962 := hvol
    -- the block is the last one, behind 20480 runs
    obtain rfl : x = 40961 := by
      rw [h.pending] at hpending
      have := (h.data x hvol').mp hclear
      omega
    have hsub : (Finset.range 20481).image (fun i => 2 * i + 1) ⊆
        (Finset.range (40961 + 1)).filter (RunStart fsm.data) := by
      intro y hy
      obtain ⟨i, hi, rfl⟩ := Finset.mem_image.mp hy
      rw [Finset.mem_range] at hi
      refine Finset.mem_filter.mpr ⟨Finset.mem_range.mpr (by omega), ?_, .inr ?_⟩
      · exact (h.data _ (by omega)).mpr (by omega)
      · by_contra heven
        have := (h.data (2 * i + 1 - 1) (by omega)).mp (by simpa using heven)
        omega
    have hcard := Finset.card_le_card hsub
    rw [Finset.card_image_of_injective _ fun a b (hab : 2 * a + 1 = 2 * b + 1) => by omega,
      Finset.card_range] at hcard
    unfold runIndex fsmMaxFreeNodes at hindex
    omega
  rcases h.inv.delayedGet FsmOracle.neverFails_allSucceed Nat.one_pos
    (by rw [h.reserved]; rfl) 0 1 with ⟨husable, -⟩ | ⟨-, fsm', hget⟩
  · exact absurd husable hnot
  · exact ⟨fsm₀, fsm, fsm', hbuild, hrun, h.reserved, hget⟩

end Vdfs4
