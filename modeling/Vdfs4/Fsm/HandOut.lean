import Vdfs4.Fsm.Accounting

/-!
# No block is handed out twice

What the callers know of the space: the blocks they got and did not give back, the blocks
in use at the last commit, and the blocks released since then. This **history** is kept beside
the free space manager and never reads its state.

* `FsmHistory`, `historyStep` — the manager with the history of its calls.
* `HistoryInv` — the bitmap says what is allocated, and every block released since the last
  commit is pending.
* `handOut_safe` — a range that is handed out has no allocated block and no block that was in
  use at the last commit and released since.
-/

namespace Vdfs4

open RunSet GuardedRun

/-- The free space manager and the history of its calls. -/
structure FsmHistory where
  fsm : FsmInfo
  /-- blocks in use: handed out or in use at mount, and not released -/
  allocated : Bitmap
  /-- blocks in use at the last `vdfs4_commit_free_space` -/
  committed : Bitmap
  /-- blocks released without `FREE_UNUSED` since then -/
  freed : Bitmap

/-- One call, and what its caller knows from the result. -/
def historyStep (g : FsmGeometry) (s : FsmHistory) : FsmOp → Except FsmBug FsmHistory
  | .get o blockOffset lengthInBlocks minBlkCount flags =>
    (s.fsm.vdfs4FsmGetFreeBlock g o blockOffset lengthInBlocks minBlkCount flags).map
      fun (fsm, pos, len) =>
        { s with
          fsm := fsm
          allocated := if pos = 0 then s.allocated else s.allocated.setRange pos len }
  | .put o blockOffset lengthInBlocks flags =>
    (s.fsm.vdfs4FsmPutFreeBlock g o blockOffset lengthInBlocks flags).map fun fsm =>
      { s with
        fsm := fsm
        allocated := s.allocated.clearRange blockOffset lengthInBlocks
        freed := if flags.unused then s.freed else s.freed.setRange blockOffset lengthInBlocks }
  | .commit o =>
    (s.fsm.vdfs4CommitFreeSpace g o).map fun fsm =>
      { s with fsm := fsm, committed := s.allocated, freed := .zero }
  | .reserve count => .ok { s with fsm := (s.fsm.vdfs4ReserveSpace count).getD s.fsm }
  | .freeReserved count =>
    (s.fsm.vdfs4FreeReservedSpace count).map fun fsm => { s with fsm := fsm }

/-- The calls of a run: releases are of allocated ranges and find a node when they need one;
the node allocations of a request leave no pending extent half in the tree; nobody takes more from
the reserve than it has. -/
def FsmOp.HandOutOk (g : FsmGeometry) (s : FsmHistory) : FsmOp → Prop
  | .get o _ lengthInBlocks minBlkCount flags => GetOk g o s.fsm lengthInBlocks minBlkCount flags
  | .put o blockOffset lengthInBlocks flags =>
    0 < lengthInBlocks ∧ blockOffset + lengthInBlocks ≤ g.volumeBlocksCount ∧
      s.allocated.allSet blockOffset lengthInBlocks = true ∧
      (flags.unused = true ∨ o.allocNode blockOffset = true) ∧
      (flags.reserve = true → flags.unused = true)
  | .reserve _ => True
  | .freeReserved count => (count : Int) ≤ s.fsm.reservedBlocksCount
  | .commit _ => True

/-- What the history says of the manager. -/
structure HistoryInv (g : FsmGeometry) (s : FsmHistory) : Prop where
  trees : TreesInv g s.fsm
  allocated : s.fsm.data = s.allocated
  /-- released blocks are pending -/
  freed : ∀ x, s.freed x = true → x ∈ covered s.fsm.nextFreeList

section step

variable {g : FsmGeometry} {s s' : FsmHistory}

/-- A range that was handed out, as its caller sees it. -/
structure Fresh (s : FsmHistory) (pos len : Nat) : Prop where
  not_allocated : ∀ x, pos ≤ x → x < pos + len → s.allocated x = false
  not_freed : ∀ x, pos ≤ x → x < pos + len → ¬ (s.committed x = true ∧ s.freed x = true)

/-- **A request**: the range is fresh, the invariant holds behind it, and the bitmap is not
met by a set bit. -/
theorem HistoryInv.get (h : HistoryInv g s) {o : FsmOracle} (blockOffset : Nat)
    {lengthInBlocks minBlkCount : Nat} {flags : FsmAllocFlags}
    (hok : GetOk g o s.fsm lengthInBlocks minBlkCount flags) :
    (∀ fsm' pos len, s.fsm.vdfs4FsmGetFreeBlock g o blockOffset lengthInBlocks minBlkCount flags =
        .ok (fsm', pos, len) →
      (pos ≠ 0 → Fresh s pos len) ∧
      HistoryInv g { s with
        fsm := fsm'
        allocated := if pos = 0 then s.allocated else s.allocated.setRange pos len }) ∧
    s.fsm.vdfs4FsmGetFreeBlock g o blockOffset lengthInBlocks minBlkCount flags ≠
      .error .bitSet := by
  have hgot := vdfs4FsmGetFreeBlock_got h.trees blockOffset hok
  generalize s.fsm.vdfs4FsmGetFreeBlock g o blockOffset lengthInBlocks minBlkCount
    flags = r at hgot ⊢
  cases hgot with
  | @granted fsm1 fsm2 pos len counters hprep htaken hpos hlen _ _ =>
    have hmarked := Taken.marked h.trees hprep htaken hlen flags.delayed counters
    refine ⟨fun fsm' pos' len' heq => ?_, nofun⟩
    obtain ⟨rfl, rfl, rfl⟩ := Prod.mk.inj (Except.ok.inj heq) |>.imp id Prod.mk.inj
    refine ⟨fun _ => ⟨fun x hlo hhi => ?_, fun x hlo hhi hfreed => ?_⟩, hmarked.trees, ?_,
      fun x hx => ?_⟩
    · rw [← h.allocated]
      exact (mem_zeroBelow.mp (hmarked.range x hlo hhi).1).2
    · exact (hmarked.range x hlo hhi).2 (h.freed x hfreed.2)
    · simp only [if_neg hpos]
      rw [hmarked.data_eq, h.allocated]
    · simp only [hmarked.next_eq]
      exact h.freed x hx
  | nospace hprep =>
    obtain ⟨hdata, hlist, -⟩ := hprep.frame
    refine ⟨fun fsm' pos' len' heq => ?_, nofun⟩
    obtain ⟨rfl, rfl, rfl⟩ := Prod.mk.inj (Except.ok.inj heq) |>.imp id Prod.mk.inj
    refine ⟨fun hne => absurd rfl hne, hprep.trees h.trees, ?_, fun x hx => ?_⟩
    · simp only [if_true]
      rw [hdata, h.allocated]
    · simp only [hlist]
      exact h.freed x hx
  | counter _ _ _ hbug =>
    refine ⟨nofun, ?_⟩
    rw [eq_of_fsmIncEraseBlocksCounters_error hbug]
    nofun
  | verifyState _ => exact ⟨nofun, nofun⟩

/-- **Every call** of a run keeps the invariant when it completes. -/
theorem HistoryInv.step (h : HistoryInv g s) {op : FsmOp} (hok : op.HandOutOk g s)
    (hstep : historyStep g s op = .ok s') : HistoryInv g s' := by
  cases op with
  | get o blockOffset lengthInBlocks minBlkCount flags =>
    have hget := (h.get blockOffset hok).1
    simp only [historyStep] at hstep
    cases hr : s.fsm.vdfs4FsmGetFreeBlock g o blockOffset lengthInBlocks minBlkCount flags with
    | error bug =>
      rw [hr] at hstep
      cases hstep
    | ok r =>
      obtain ⟨fsm', pos, len⟩ := r
      rw [hr] at hstep
      obtain rfl := Except.ok.inj hstep
      exact (hget fsm' pos len hr).2
  | put o blockOffset lengthInBlocks flags =>
    obtain ⟨hpos, hvol, hall, halloc, -⟩ := hok
    have hput : PutOk g s.fsm blockOffset lengthInBlocks :=
      ⟨hpos, hvol, by rw [h.allocated]; exact hall⟩
    obtain ⟨fsm', heq, hreleased⟩ := vdfs4FsmPutFreeBlock_spec o flags h.trees hput
    simp only [historyStep, heq] at hstep
    cases hdec : fsmDecEraseBlocksCounters g s.fsm.eraseBlocksCounters blockOffset
      lengthInBlocks with
    | error bug =>
      rw [hdec] at hstep
      cases hstep
    | ok counters =>
      rw [hdec] at hstep
      obtain rfl := Except.ok.inj hstep
      have hr := hreleased counters
      refine ⟨hr.trees, by rw [hr.data_eq, h.allocated], fun x hx => ?_⟩
      -- what was released before stays pending; the range is pending unless it is unused
      cases hunused : flags.unused with
      | true =>
        simp only [hunused, if_true] at hx
        exact hr.pending_sub (h.freed x hx)
      | false =>
        simp only [hunused, Bool.false_eq_true, if_false] at hx
        rcases Bitmap.setRange_eq_true.mp hx with hin | hfreed
        · have hnode := halloc.resolve_left (by rw [hunused]; exact Bool.false_ne_true)
          exact hr.pending hunused hnode ▸ Finset.mem_union_right _ (Finset.mem_Ico.mpr hin)
        · exact hr.pending_sub (h.freed x hfreed)
  | reserve count =>
    obtain rfl := Except.ok.inj hstep
    simp only [FsmInfo.vdfs4ReserveSpace]
    split
    · exact ⟨h.trees.move _ _, h.allocated, h.freed⟩
    · exact h
  | freeReserved count =>
    simp only [historyStep, FsmInfo.vdfs4FreeReservedSpace] at hstep
    split at hstep
    · obtain rfl := Except.ok.inj hstep
      exact h
    · split at hstep
      · cases hstep
      · obtain rfl := Except.ok.inj hstep
        exact ⟨h.trees.move _ _, h.allocated, h.freed⟩
  | commit o =>
    rcases vdfs4CommitFreeSpace_spec o h.trees with ⟨fsm', hcommit, hc⟩ | ⟨hcommit, -⟩
    · simp only [historyStep, hcommit] at hstep
      obtain rfl := Except.ok.inj hstep
      exact ⟨hc.trees, by rw [hc.data_eq]; exact h.allocated, fun x hx => by cases hx⟩
    · simp only [historyStep, hcommit] at hstep
      cases hstep

end step

/-- The history of a mounted volume: what is in use was in use at the last commit. -/
def FsmHistory.mounted (fsm : FsmInfo) (data : Bitmap) : FsmHistory := ⟨fsm, data, data, .zero⟩

/-- **No block is handed out twice, and none before its release is committed.** In every run
from a mounted volume of fewer than `2 ^ 32` blocks on, a range that a request returns has no block
that is allocated, and no block that was in use at the last commit and released since; the allocator
never meets a set bit. -/
theorem handOut_safe (g : FsmGeometry) (o : FsmOracle) (data : Bitmap)
    (hsmall : g.volumeBlocksCount < 2 ^ 32) :
    ∃ fsm₀, FsmInfo.vdfs4FsmBuildManagement g o data = .ok fsm₀ ∧
      ∀ s, Reaches (fun s op => FsmOp.HandOutOk g s op)
          (fun s op => (historyStep g s op).toOption) (.mounted fsm₀ data) s →
        ∀ (o : FsmOracle) (blockOffset lengthInBlocks minBlkCount : Nat) (flags : FsmAllocFlags),
          FsmOp.HandOutOk g s (.get o blockOffset lengthInBlocks minBlkCount flags) →
          (∀ fsm' pos len,
            s.fsm.vdfs4FsmGetFreeBlock g o blockOffset lengthInBlocks minBlkCount flags =
              .ok (fsm', pos, len) → pos ≠ 0 → Fresh s pos len) ∧
          s.fsm.vdfs4FsmGetFreeBlock g o blockOffset lengthInBlocks minBlkCount flags ≠
            .error .bitSet := by
  obtain ⟨fsm₀, hbuild, htrees, -, hdata, -⟩ := vdfs4FsmBuildManagement_spec o data hsmall
  refine ⟨fsm₀, hbuild, fun s hreach => ?_⟩
  have hstart : HistoryInv g (.mounted fsm₀ data) := ⟨htrees, hdata, fun x hx => by cases hx⟩
  have hs : HistoryInv g s :=
    hreach.invariant hstart fun t op u ht hok hstep =>
      ht.step hok (eq_ok_of_toOption hstep)
  intro o blockOffset lengthInBlocks minBlkCount flags hok
  obtain ⟨hget, hbit⟩ := hs.get blockOffset hok
  exact ⟨fun fsm' pos len heq => (hget fsm' pos len heq).1, hbit⟩

instance (g : FsmGeometry) (s : FsmHistory) (op : FsmOp) : Decidable (op.HandOutOk g s) :=
  match op with
  | .get o _ lengthInBlocks minBlkCount flags =>
    inferInstanceAs (Decidable (GetOk g o s.fsm lengthInBlocks minBlkCount flags))
  | .put o blockOffset lengthInBlocks flags =>
    inferInstanceAs (Decidable (0 < lengthInBlocks ∧
      blockOffset + lengthInBlocks ≤ g.volumeBlocksCount ∧
      s.allocated.allSet blockOffset lengthInBlocks = true ∧
      (flags.unused = true ∨ o.allocNode blockOffset = true) ∧
      (flags.reserve = true → flags.unused = true)))
  | .reserve _ => .isTrue trivial
  | .freeReserved count => inferInstanceAs (Decidable ((count : Int) ≤ s.fsm.reservedBlocksCount))
  | .commit _ => .isTrue trivial

/-- The first calls of the sample run, up to the request that rebuilds the tree. -/
def fsmSampleHistory : Option FsmHistory :=
  (FsmInfo.vdfs4FsmBuildManagement fsmSampleGeometry .allSucceed
    fun x => x < 10 || 20 ≤ x).toOption.bind fun fsm =>
      guardedRun (fun s op => FsmOp.HandOutOk fsmSampleGeometry s op)
        (fun s op => (historyStep fsmSampleGeometry s op).toOption) (fsmSampleOps.take 6)
        (.mounted fsm fun x => x < 10 || 20 ≤ x)

theorem handOut_safe_sample :
    ∃ s fsm', fsmSampleHistory = some s ∧ s.freed 21 = true ∧
      s.fsm.vdfs4FsmGetFreeBlock fsmSampleGeometry .allSucceed 0 1 1 ⟨false, false⟩ =
        .ok (fsm', 10, 1) ∧ Fresh s 10 1 := by
  have hrun : fsmSampleHistory.map (fun s => (s.freed 21,
      (s.fsm.vdfs4FsmGetFreeBlock fsmSampleGeometry .allSucceed 0 1 1 ⟨false, false⟩).toOption.map
        (·.2), decide (FsmOp.HandOutOk fsmSampleGeometry s (.get .allSucceed 0 1 1
          ⟨false, false⟩)))) = some (true, some (10, 1), true) := by decide +kernel
  obtain ⟨fsm0, hbuild, hall⟩ := handOut_safe fsmSampleGeometry .allSucceed
    (fun x => x < 10 || 20 ≤ x) (by decide)
  obtain ⟨s, hs, hmap⟩ := Option.map_eq_some_iff.mp hrun
  obtain ⟨hfreed, hmap⟩ := Prod.mk.inj hmap
  obtain ⟨hget, hok⟩ := Prod.mk.inj hmap
  have hreach := hs
  rw [fsmSampleHistory, hbuild] at hreach
  obtain ⟨r, hr, hpair⟩ := Option.map_eq_some_iff.mp hget
  obtain ⟨fsm', pos, len⟩ := r
  obtain ⟨rfl, rfl⟩ := Prod.mk.inj hpair
  have hgot := eq_ok_of_toOption hr
  have hsafe := (hall s (reaches_of_guardedRun hreach) .allSucceed 0 1 1 ⟨false, false⟩
    (of_decide_eq_true hok)).1
  exact ⟨s, fsm', hs, hfreed, hgot, hsafe fsm' 10 1 hgot (by decide)⟩

/-- The calls before the rebuild of `boundaryOps`. -/
def boundaryHistory : Option FsmHistory :=
  (FsmInfo.vdfs4FsmBuildManagement boundaryGeometry .allSucceed
    fun x => x != 3972).toOption.bind fun fsm =>
      guardedRun (fun _ _ => True) (fun s op => (historyStep boundaryGeometry s op).toOption)
        (boundaryOps.take 3) (.mounted fsm fun x => x != 3972)

/-- **A block is handed out before its release is committed**: no node was available for the
part of the released extent before the end of the bitmap block. -/
theorem handOut_before_commit :
    ∃ s fsm', boundaryHistory = some s ∧
      s.fsm.vdfs4FsmGetFreeBlock boundaryGeometry
        ⟨fun start => start != 3967 && start != 3972, fun _ => true⟩ 0 1 1 ⟨false, false⟩ =
        .ok (fsm', 3968, 1) ∧ s.committed 3968 = true ∧ s.freed 3968 = true := by
  have hrun : boundaryHistory.map (fun s => (s.committed 3968, s.freed 3968,
      (s.fsm.vdfs4FsmGetFreeBlock boundaryGeometry
        ⟨fun start => start != 3967 && start != 3972, fun _ => true⟩ 0 1 1
        ⟨false, false⟩).toOption.map (·.2))) = some (true, true, some (3968, 1)) := by
    decide +kernel
  obtain ⟨s, hs, hmap⟩ := Option.map_eq_some_iff.mp hrun
  obtain ⟨hcommitted, hmap⟩ := Prod.mk.inj hmap
  obtain ⟨hfreed, hget⟩ := Prod.mk.inj hmap
  obtain ⟨⟨fsm', pos, len⟩, hr, hpair⟩ := Option.map_eq_some_iff.mp hget
  obtain ⟨rfl, rfl⟩ := Prod.mk.inj hpair
  exact ⟨s, fsm', hs, eq_ok_of_toOption hr, hcommitted, hfreed⟩

end Vdfs4
