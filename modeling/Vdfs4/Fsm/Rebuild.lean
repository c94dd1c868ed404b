import Vdfs4.Fsm.Build

/-!
# Rebuilding the tree in the middle of a transaction

`fsm_rebuild_tree` builds the tree from the bitmap, where the blocks that wait for the next
commit look free already, and `fsm_cut_next_free` takes them out again.

* `InOrOff` — an extent lies **inside one node** or **off the tree**; no other case is
  handled by `fsm_cut_next_free`.
* `RebuildOk` — what the node allocations of a rebuild must do: a pending extent that
  crosses the end of a bitmap block must not lose the nodes that lead to its end.
* `fsmRebuildTree_spec` — under `RebuildOk` the rebuild completes and takes every pending
  block out.
-/

namespace Vdfs4

open RunSet FsmInfo Finset

/-! ### The self-check passes -/

/-- A sorted list of separated nodes passes the node checks. -/
theorem fsmCheckNodes_of_separated (hsep : Separated l)
    (hsorted : l.Pairwise fun a b => a.start ≤ b.start) {prev : Option FsmNode}
    (hprev : ∀ p, prev = some p → ∀ n ∈ l, p.start + p.length < n.start) :
    fsmCheckNodes prev l = true := by
  induction l generalizing prev with
  | nil => rfl
  | cons n l ih =>
    obtain ⟨hpos, hapart, hrest⟩ := Separated.cons_iff.mp hsep
    obtain ⟨hle, hsorted'⟩ := List.pairwise_cons.mp hsorted
    have htail : fsmCheckNodes (some n) l = true := by
      refine ih hrest hsorted' fun p hp m hm => ?_
      obtain rfl := Option.some.inj hp
      have hord := hle m hm
      rcases hapart m hm with h | h <;> omega
    have hhead : prev.all (fun p => p.start + p.length < n.start &&
        !fsmIntersects p n.start n.length) = true := by
      cases prev with
      | none => rfl
      | some p =>
        have hlt := hprev p rfl n List.mem_cons_self
        simp only [Option.all_some, fsmIntersects, Bool.and_eq_true, decide_eq_true_eq,
          Bool.not_eq_true', Bool.or_eq_false_iff, Bool.and_eq_false_iff, decide_eq_false_iff_not]
        omega
    simp only [fsmCheckNodes, hhead, htail, Bool.and_true, decide_eq_true_eq]
    omega

/-- The free lists hold exactly the nodes of the tree. -/
theorem TreeInv.perm_listedNodes {fsm : FsmInfo} (h : TreeInv fsm none) :
    fsm.listedNodes.Perm fsm.freeArea := by
  have hmem : ∀ n, n ∈ fsm.listedNodes ↔ n ∈ fsm.freeArea := by
    intro n
    simp only [listedNodes, List.mem_flatMap, List.mem_range, h.hashed]
    constructor
    · rintro ⟨order, -, hn, -⟩
      exact hn
    · intro hn
      exact ⟨_, Nat.lt_succ_of_le (Nat.min_le_right _ _), hn, nofun, rfl⟩
  refine (List.perm_ext_iff_of_nodup ?_ h.separated.nodup).mpr hmem
  refine List.nodup_flatMap.mpr ⟨fun order _ => h.nodup order, ?_⟩
  refine List.nodup_range.imp fun {a b} hne n ha hb => hne ?_
  rw [← ((h.hashed a n).mp ha).2.2, ← ((h.hashed b n).mp hb).2.2]

/-- **`fsm_verify_state` passes** when the trees are in order and the tree accounts for the
free and reserved blocks. -/
theorem verified_of_inv (g : FsmGeometry) {fsm : FsmInfo} (h : TreeInv fsm none)
    (hnext : NextInv fsm) (hsize : (size fsm.freeArea : Int) + fsm.untrackedBlocks =
      fsm.freeBlocksCount + fsm.reservedBlocksCount) : fsm.verified g = .ok fsm := by
  have hperm := h.perm_listedNodes
  have hnextPerm : (treeOrder fsm.nextFreeList).Perm fsm.nextFreeList :=
    List.perm_insertionSort _ _
  have h1 : fsmCheckNodes none (treeOrder fsm.nextFreeList) = true :=
    fsmCheckNodes_of_separated (hnext.separated.perm hnextPerm.symm)
      (List.pairwise_insertionSort _ _) nofun
  have h2 : fsmCheckNodes none fsm.freeArea = true :=
    fsmCheckNodes_of_separated h.separated h.sorted nofun
  have h3 : fsm.freeArea.all (· ∈ fsm.listedNodes) = true := by
    simp only [List.all_eq_true, decide_eq_true_eq]
    exact fun n hn => hperm.mem_iff.mpr hn
  have h4 : (List.range (fsmMaxOrder + 1)).all (fun order =>
      (fsm.freeList order).all fun node => fsmOrder node.length = order) = true := by
    simp only [List.all_eq_true, decide_eq_true_eq]
    exact fun order _ n hn => ((h.hashed order n).mp hn).2.2
  have hblocks := hnext.blocks
  have hstate : fsm.fsmVerifyState = true := by
    simp only [fsmVerifyState, h1, h2, h3, h4, size_perm hperm, hperm.length_eq, h.nodes,
      hnext.nodes, Bool.and_true, Bool.true_and, decide_true, Bool.and_eq_true, decide_eq_true_eq]
    omega
  rw [verified, hstate]
  simp

/-! ### Cutting one extent -/

/-- An extent lies inside one node, or shares no block with the tree. -/
def InOrOff (tree : List FsmNode) (n : FsmNode) : Prop :=
  (∃ node ∈ tree, n.Inside node) ∨ ∀ x, n.Has x → x ∉ covered tree

/-- The blocks of a tree from which a range inside a node was taken. -/
theorem mem_covered_cut {node : FsmNode} {keep : Bool} (hsep : Separated l) (hn : node ∈ l)
    (hlo : node.start ≤ start) (hhi : start + length ≤ node.start + node.length) {x : Nat} :
    x ∈ covered (cutPieces node start length keep ++ l.erase node) ↔
      x ∈ covered l ∧ ¬ (start ≤ x ∧ x < start + length) ∧
        (keep = false → node.Has x → x < start) := by
  have hnode : ∀ x, (∃ p ∈ cutPieces node start length keep, p.Has x) ↔
      node.Has x ∧ ¬ (start ≤ x ∧ x < start + length) ∧ (keep = false → x < start) := by
    intro x
    unfold cutPieces Run.Has
    cases keep <;> by_cases h1 : node.start < start <;>
      by_cases h2 : start + length < node.start + node.length <;> simp [h1, h2] <;> omega
  rw [mem_covered, mem_covered]
  constructor
  · rintro ⟨r, hr, hx⟩
    rcases List.mem_append.mp hr with hr | hr
    · obtain ⟨h1, h2, h3⟩ := (hnode x).mp ⟨r, hr, hx⟩
      exact ⟨⟨node, hn, h1⟩, h2, fun hk _ => h3 hk⟩
    · -- another node has none of the blocks of this one
      have hnot := (((Separated.erase_iff hn).mp hsep).2.1 r hr).symm.not_has hx
      refine ⟨⟨r, List.mem_of_mem_erase hr, hx⟩, fun hin => hnot ?_, fun _ hh => absurd hh hnot⟩
      unfold Run.Has
      omega
  · rintro ⟨⟨r, hr, hx⟩, hout, hkeep⟩
    by_cases heq : r = node
    · subst heq
      obtain ⟨p, hp, hpx⟩ := (hnode x).mpr ⟨hx, hout, fun hk => hkeep hk hx⟩
      exact ⟨p, List.mem_append_left _ hp, hpx⟩
    · exact ⟨r, List.mem_append_right _ ((hsep.nodup.mem_erase_iff).mpr ⟨heq, hr⟩), hx⟩

/-- The `len` blocks from `pos` on were taken from the tree. -/
structure Taken (fsm fsm' : FsmInfo) (pos len : Nat) : Prop where
  frame : OnlyTree fsm fsm'
  tree : TreeInv fsm' none
  range : ∀ x, pos ≤ x → x < pos + len → x ∈ covered fsm.freeArea
  sub : ∀ x ∈ covered fsm'.freeArea, x ∈ covered fsm.freeArea ∧ ¬ (pos ≤ x ∧ x < pos + len)
  size_eq : (size fsm'.freeArea : Int) + fsm'.untrackedBlocks + len =
    size fsm.freeArea + fsm.untrackedBlocks

/-- **`fsm_allocate_from_node`** takes the range; what is left of the node is known up to the
loss of the part behind. -/
theorem fsmAllocateFromNode_taken (o : FsmOracle) {fsm : FsmInfo} {node : FsmNode}
    (h : TreeInv fsm none) (hn : node ∈ fsm.freeArea) (hlen : 0 < length) (hlo : node.start ≤ start)
    (hhi : start + length ≤ node.start + node.length) :
    ∃ fsm' keep, fsm.fsmAllocateFromNode o node start length = .ok fsm' ∧
      Taken fsm fsm' start length ∧
      fsm'.freeArea.Perm (cutPieces node start length keep ++ fsm.freeArea.erase node) ∧
      (start = node.start → keep = true) := by
  obtain ⟨fsm', keep, hok, honly, htree, hperm, hun, hkeep⟩ :=
    fsmAllocateFromNode_spec o h hn hlen hlo hhi
  refine ⟨fsm', keep, hok, ⟨honly, htree, fun x h1 h2 => ?_, fun x hx => ?_, ?_⟩, hperm, hkeep⟩
  · exact mem_covered.mpr ⟨node, hn, by omega, by omega⟩
  · rw [covered_perm hperm, mem_covered_cut h.separated hn hlo hhi] at hx
    exact ⟨hx.1, hx.2.1⟩
  · have hcount := size_cutPieces hlo hhi keep
    have hsize := size_perm (List.perm_cons_erase hn)
    rw [size_perm hperm, hun, size_append, hsize, size_cons]
    push_cast
    cases keep <;> simp only [Bool.false_eq_true, if_true, if_false] at hcount ⊢ <;> omega

/-- The block before a run of a separated list belongs to no run. -/
theorem pred_notMem_covered {all : List FsmNode} {n : FsmNode} (hall : Separated all)
    (hn : n ∈ all) (hpos : 0 < n.start) : n.start - 1 ∉ covered all := by
  intro hmem
  obtain ⟨a, ha, hax⟩ := mem_covered.mp hmem
  unfold Run.Has at hax
  have hne : a ≠ n := by
    rintro rfl
    omega
  rcases hall.apart_of_mem ha hn hne with h | h <;> omega

/-- What cutting the extent `n` out of the tree does. -/
structure CutOut (all : List FsmNode) (n : FsmNode) (fsm fsm' : FsmInfo) : Prop where
  frame : OnlyTree fsm fsm'
  tree : TreeInv fsm' none
  sub : ∀ x ∈ covered fsm'.freeArea, x ∈ covered fsm.freeArea ∧ ¬ n.Has x
  size_eq : (size fsm'.freeArea : Int) + fsm'.untrackedBlocks + n.length =
    size fsm.freeArea + fsm.untrackedBlocks
  /-- the other extents can still be cut -/
  others : ∀ m : FsmNode, 0 < m.length → m.Apart n → InOrOff fsm.freeArea m →
    InOrOff fsm'.freeArea m
  /-- a block that is not to be cut stays, or its neighbour does -/
  live : (∃ x ∈ covered fsm.freeArea, x ∉ covered all) → ∃ x ∈ covered fsm'.freeArea,
    x ∉ covered all

section cut

variable {fsm : FsmInfo} {all : List FsmNode} {n node : FsmNode} {g : FsmGeometry}
  {start : Nat} {o : FsmOracle}

/-- A node found has the block. -/
theorem mem_of_fsmFindNode (hfind : fsm.fsmFindNode start = some node) :
    node ∈ fsm.freeArea ∧ node.Has start := by
  have hcond := List.find?_some hfind
  simp only [Bool.and_eq_true, decide_eq_true_eq] at hcond
  exact ⟨List.mem_of_find?_eq_some hfind, hcond⟩

/-- The node that has the start of an extent. -/
theorem fsmFindNode_eq_some (h : TreeInv fsm none) (hnode : node ∈ fsm.freeArea)
    (hhas : node.Has start) : fsm.fsmFindNode start = some node := by
  cases hfind : fsm.fsmFindNode start with
  | none =>
    have := List.find?_eq_none.mp hfind node hnode
    simp only [Bool.and_eq_true, decide_eq_true_eq] at this
    exact absurd hhas this
  | some node' =>
    obtain ⟨hmem, hhas'⟩ := mem_of_fsmFindNode hfind
    rw [h.separated.eq_of_has hmem hnode hhas' hhas]

/-- An extent inside a node is taken from it. -/
theorem fsmCutNode_inside (o : FsmOracle) (h : TreeInv fsm none) (hall : Separated all)
    (hn : n ∈ all) (hnode : node ∈ fsm.freeArea) (hin : n.Inside node) :
    ∃ fsm', fsm.fsmCutNode o n = .ok fsm' ∧ CutOut all n fsm fsm' := by
  obtain ⟨hlo, hhi⟩ := hin
  have hpos := hall.pos n hn
  have hhas : node.Has n.start := by
    unfold Run.Has
    omega
  have hmax : ¬ fsmMaxLength node n.start < n.length := by
    unfold fsmMaxLength
    omega
  obtain ⟨fsm', keep, hok, htaken, hperm, hkeep⟩ :=
    fsmAllocateFromNode_taken o h hnode hpos hlo hhi
  have hcov : ∀ x, x ∈ covered fsm'.freeArea ↔ x ∈ covered fsm.freeArea ∧ ¬ n.Has x ∧
      (keep = false → node.Has x → x < n.start) := by
    intro x
    rw [covered_perm hperm]
    exact mem_covered_cut h.separated hnode hlo hhi
  have hcut : fsm.fsmCutNode o n = .ok fsm' := by
    rw [fsmCutNode, fsmFindNode_eq_some h hnode hhas]
    simp only
    rw [if_neg hmax, hok]
  refine ⟨fsm', hcut, htaken.frame, htaken.tree, htaken.sub, htaken.size_eq,
    fun m hm hapart hio => ?_, ?_⟩
  · rcases hio with ⟨m0, hm0, hmin⟩ | hoff
    · by_cases heq : m0 = node
      · subst heq
        obtain ⟨hmlo, hmhi⟩ := hmin
        rcases hapart with hbefore | hbehind
        · -- in the part before
          refine .inl ⟨⟨m0.start, n.start - m0.start⟩, hperm.mem_iff.mpr ?_, ?_⟩
          · refine List.mem_append_left _ (List.mem_append_left _ ?_)
            rw [if_pos (by omega)]
            exact List.mem_singleton.mpr rfl
          · exact ⟨hmlo, by simp only; omega⟩
        · cases hk : keep with
          | true =>
            refine .inl ⟨⟨n.start + n.length, m0.start + m0.length - (n.start + n.length)⟩,
              hperm.mem_iff.mpr ?_, ?_⟩
            · refine List.mem_append_left _ (List.mem_append_right _ ?_)
              rw [if_pos ⟨by omega, hk⟩]
              exact List.mem_singleton.mpr rfl
            · exact ⟨by simp only; omega, by simp only; omega⟩
          | false =>
            -- the part behind is lost
            refine .inr fun x hx hmem => ?_
            have hlt := ((hcov x).mp hmem).2.2 hk ⟨hmlo.trans hx.1, hx.2.trans_le hmhi⟩
            have := hx.1
            omega
      · refine .inl ⟨m0, hperm.mem_iff.mpr (List.mem_append_right _ ?_), hmin⟩
        exact (h.separated.nodup.mem_erase_iff).mpr ⟨heq, hm0⟩
    · exact .inr fun x hx hmem => hoff x hx ((hcov x).mp hmem).1
  · rintro ⟨x, hx, hnot⟩
    have hnx : ¬ n.Has x := fun hh => hnot (mem_covered.mpr ⟨n, hn, hh⟩)
    by_cases hxn : node.Has x
    · rcases Nat.lt_or_ge node.start n.start with hlt | hge
      · -- the block before the extent stays
        refine ⟨n.start - 1, (hcov _).mpr ⟨mem_covered.mpr ⟨node, hnode, ?_⟩, ?_, fun _ _ => ?_⟩,
          pred_notMem_covered hall hn (by omega)⟩
        · unfold Run.Has
          omega
        · unfold Run.Has
          omega
        · omega
      · have hk := hkeep (by omega)
        exact ⟨x, (hcov x).mpr ⟨hx, hnx, by rw [hk]; nofun⟩, hnot⟩
    · exact ⟨x, (hcov x).mpr ⟨hx, hnx, fun _ hh => absurd hh hxn⟩, hnot⟩

/-- An extent off the tree is taken from the untracked blocks. -/
theorem fsmCutNode_off (o : FsmOracle) (h : TreeInv fsm none) (hall : Separated all)
    (hn : n ∈ all) (hoff : ∀ x, n.Has x → x ∉ covered fsm.freeArea)
    (huntracked : (n.length : Int) ≤ fsm.untrackedBlocks) :
    ∃ fsm', fsm.fsmCutNode o n = .ok fsm' ∧ CutOut all n fsm fsm' := by
  have hpos := hall.pos n hn
  have hfind : fsm.fsmFindNode n.start = none := by
    cases hfind : fsm.fsmFindNode n.start with
    | none => rfl
    | some node =>
      obtain ⟨hmem, hhas⟩ := mem_of_fsmFindNode hfind
      refine absurd (mem_covered.mpr ⟨node, hmem, hhas⟩) (hoff n.start ?_)
      unfold Run.Has
      omega
  refine ⟨fsm.addUntracked (-n.length), ?_, rfl, h.addUntracked _, fun x hx => ?_, ?_,
    fun m _ _ hio => hio, id⟩
  · rw [fsmCutNode, hfind]
    simp only
    rw [if_neg (by omega)]
  · exact ⟨hx, fun hhas => hoff x hhas hx⟩
  · simp only [addUntracked]
    omega

/-- **`fsm_cut_next_free`** completes when every extent is inside a node or off the tree,
and all of them are counted. -/
theorem foldlM_fsmCutNode_spec (o : FsmOracle) {ns : List FsmNode} {free : Finset Nat}
    (hall : Separated all) (hns : Separated ns) (hsub : ∀ n ∈ ns, n ∈ all)
    (h : TreeInv fsm none) (hfree : covered fsm.freeArea ⊆ free) (hpending : covered ns ⊆ free)
    (hsize : (size fsm.freeArea : Int) + fsm.untrackedBlocks = free.card)
    (hio : ∀ n ∈ ns, InOrOff fsm.freeArea n) :
    ∃ fsm', ns.foldlM (fsmCutNode o) fsm = .ok fsm' ∧ OnlyTree fsm fsm' ∧
      TreeInv fsm' none ∧
      (∀ x ∈ covered fsm'.freeArea, x ∈ covered fsm.freeArea ∧ x ∉ covered ns) ∧
      (size fsm'.freeArea : Int) + fsm'.untrackedBlocks + size ns = free.card ∧
      ((∃ x ∈ covered fsm.freeArea, x ∉ covered all) →
        ∃ x ∈ covered fsm'.freeArea, x ∉ covered all) := by
  induction ns generalizing fsm free with
  | nil => exact ⟨fsm, rfl, OnlyTree.refl _, h, fun x hx => ⟨hx, by simp⟩, by simpa using hsize, id⟩
  | cons n ns ih =>
    obtain ⟨hpos, hapart, hrest⟩ := Separated.cons_iff.mp hns
    have hn := hsub n List.mem_cons_self
    have hIco : Finset.Ico n.start (n.start + n.length) ⊆ free := fun x hx =>
      hpending (by rw [covered_cons]; exact mem_union_left _ hx)
    have hstep : ∃ fsm', fsm.fsmCutNode o n = .ok fsm' ∧ CutOut all n fsm fsm' := by
      rcases hio n List.mem_cons_self with ⟨node, hnode, hin⟩ | hoff
      · exact fsmCutNode_inside o h hall hn hnode hin
      refine fsmCutNode_off o h hall hn hoff ?_
      -- the extent is free and off the tree, so the untracked blocks have it
      have hdisj : Disjoint (covered fsm.freeArea) (Finset.Ico n.start (n.start + n.length)) := by
        rw [disjoint_right]
        exact fun x hx => hoff x (mem_Ico.mp hx)
      have hcard := card_le_card (union_subset hfree hIco)
      rw [card_union_of_disjoint hdisj, h.separated.card_covered, Nat.card_Ico] at hcard
      omega
    obtain ⟨fsm1, hok, hcut⟩ := hstep
    have hcard : (free \ Finset.Ico n.start (n.start + n.length)).card + n.length = free.card := by
      have := card_sdiff_add_card_eq_card hIco
      rwa [Nat.card_Ico, Nat.add_sub_cancel_left] at this
    have hsize1 := hcut.size_eq
    have hfree1 : covered fsm1.freeArea ⊆ free \ Finset.Ico n.start (n.start + n.length) := by
      intro x hx
      obtain ⟨h1, h2⟩ := hcut.sub x hx
      exact mem_sdiff.mpr ⟨hfree h1, fun hmem => h2 (mem_Ico.mp hmem)⟩
    have hpending1 : covered ns ⊆ free \ Finset.Ico n.start (n.start + n.length) := by
      intro x hx
      refine mem_sdiff.mpr ⟨hpending ?_, fun hmem => ?_⟩
      · rw [covered_cons]
        exact mem_union_right _ hx
      · obtain ⟨b, hb, hbx⟩ := mem_covered.mp hx
        exact (hapart b hb).not_has (mem_Ico.mp hmem) hbx
    have hio1 : ∀ m ∈ ns, InOrOff fsm1.freeArea m := fun m hm =>
      hcut.others m (hrest.pos m hm) (hapart m hm).symm (hio m (List.mem_cons_of_mem _ hm))
    obtain ⟨fsm', hfold, honly, htree, hsub', hsize', hlive⟩ :=
      ih hrest (fun m hm => hsub m (List.mem_cons_of_mem _ hm)) hcut.tree hfree1 hpending1
        (by omega) hio1
    refine ⟨fsm', ?_, hcut.frame.trans honly, htree, fun x hx => ?_, ?_,
      fun hx => hlive (hcut.live hx)⟩
    · rw [List.foldlM_cons, hok]
      exact hfold
    · obtain ⟨h1, h2⟩ := hsub' x hx
      obtain ⟨h3, h4⟩ := hcut.sub x h1
      refine ⟨h3, fun hmem => ?_⟩
      rw [covered_cons] at hmem
      rcases mem_union.mp hmem with hmem | hmem
      · exact h4 (mem_Ico.mp hmem)
      · exact h2 hmem
    · rw [size_cons]
      push_cast
      omega

end cut

/-! ### The rebuild -/

/-- The two trees: apart from each other, and made of free blocks. -/
structure TreesInv (g : FsmGeometry) (fsm : FsmInfo) : Prop where
  tree : TreeInv fsm none
  next : NextInv fsm
  tree_free : covered fsm.freeArea ⊆ zeroBelow fsm.data g.volumeBlocksCount
  next_free : covered fsm.nextFreeList ⊆ zeroBelow fsm.data g.volumeBlocksCount
  disjoint : ∀ x ∈ covered fsm.freeArea, x ∉ covered fsm.nextFreeList
  /-- block numbers and lengths are 32-bit numbers -/
  small : g.volumeBlocksCount < 2 ^ 32

theorem ShortRuns.of_lt {data : Bitmap} {bound : Nat} (h : bound < 2 ^ 32) : ShortRuns data bound :=
  fun _ _ hle _ => by omega

theorem zeroBelow_subset_blocks32 {data : Bitmap} {bound : Nat} (h : bound < 2 ^ 32) :
    zeroBelow data bound ⊆ blocks32 := by
  intro x hx
  have := (mem_zeroBelow.mp hx).1
  exact mem_range.mpr (by omega)

theorem TreesInv.start_lt {g : FsmGeometry} {fsm : FsmInfo} (h : TreesInv g fsm) :
    ∀ n ∈ fsm.freeArea, n.start < 2 ^ 32 := fun n hn => by
  have := stop_lt_of_covered (h.tree.separated.pos n hn) hn
    (h.tree_free.trans (zeroBelow_subset_blocks32 h.small))
  omega

/-- The node allocations of a rebuild: when a bitmap block begins inside a pending extent
and gets a node, an earlier piece of the same free run got one too. -/
def RebuildOk (g : FsmGeometry) (o : FsmOracle) (fsm : FsmInfo) : Prop :=
  ∀ n ∈ fsm.nextFreeList, ∀ q < n.start + n.length, n.start < q → g.bitBlksize ∣ q →
    o.allocNode q = true → ∃ p < q, PieceBefore g fsm.data q p ∧ o.allocNode p = true

instance (g : FsmGeometry) (o : FsmOracle) (fsm : FsmInfo) : Decidable (RebuildOk g o fsm) :=
  inferInstanceAs (Decidable (∀ n ∈ fsm.nextFreeList, ∀ q < n.start + n.length, _))

/-- In the tree built from the bitmap, a pending extent is inside one node or off the tree. -/
theorem Built.inOrOff {fsm built : FsmInfo} {n : FsmNode} (h : Built g o fsm.data built)
    (hok : RebuildOk g o fsm) (hn : n ∈ fsm.nextFreeList)
    (hzero : ∀ x, n.Has x → x ∈ zeroBelow fsm.data g.volumeBlocksCount) :
    InOrOff built.freeArea n := by
  by_cases hmem : n.start ∈ covered built.freeArea
  · -- the node goes on to the end of the free run
    obtain ⟨m, hm, hlo, hhi⟩ := mem_covered.mp hmem
    refine .inl ⟨m, hm, hlo, ?_⟩
    by_contra hgt
    obtain ⟨hvol, hclear⟩ := mem_zeroBelow.mp (hzero (m.start + m.length) ⟨hhi.le, by omega⟩)
    rw [h.stop_set m hm hvol] at hclear
    cases hclear
  · refine .inr fun x hx hcov => ?_
    obtain ⟨m, hm, hmlo, hmhi⟩ := mem_covered.mp hcov
    obtain ⟨hlo, hhi⟩ := hx
    have hgt : n.start < m.start := by
      by_contra hle
      exact hmem (mem_covered.mpr ⟨m, hm, by omega, by omega⟩)
    rcases h.start_cases m hm with hz | hset | ⟨hdvd, hfail, halloc⟩
    · omega
    · obtain ⟨-, hclear⟩ := mem_zeroBelow.mp (hzero (m.start - 1) ⟨by omega, by omega⟩)
      rw [hset] at hclear
      cases hclear
    · obtain ⟨p, -, hp, hpa⟩ := hok n hn m.start (by omega) hgt hdvd halloc
      rw [hfail p hp] at hpa
      cases hpa

/-- What a rebuild that was not skipped leaves. -/
structure Rebuilt (g : FsmGeometry) (o : FsmOracle) (fsm fsm' : FsmInfo) : Prop where
  frame : fsm' = { fsm with
    freeArea := fsm'.freeArea
    freeList := fsm'.freeList
    freeAreaNodes := fsm'.freeAreaNodes
    untrackedBlocks := fsm'.untrackedBlocks
    freeBlocksCount := fsm'.freeBlocksCount
    nextFreeBlocks := fsm.nextFreeBlocks - fsm.untrackedNextFree
    untrackedNextFree := 0 }
  trees : TreesInv g fsm'
  free_eq : fsm'.freeBlocksCount + fsm.reservedBlocksCount + size fsm.nextFreeList =
    (zeroBelow fsm.data g.volumeBlocksCount).card
  size_eq : (size fsm'.freeArea : Int) + fsm'.untrackedBlocks =
    fsm'.freeBlocksCount + fsm.reservedBlocksCount
  /-- the tree is the one built from the bitmap, without the pending extents -/
  built : ∃ t : FsmInfo, Built g o fsm.data t ∧ covered fsm'.freeArea ⊆ covered t.freeArea ∧
    ((∃ x ∈ covered t.freeArea, x ∉ covered fsm.nextFreeList) → fsm'.freeArea ≠ [])

/-- **The tree from the bitmap**, which a rebuild that is not skipped begins with. -/
theorem fsmRebuildTree_eq (o : FsmOracle) {fsm : FsmInfo} (hsmall : g.volumeBlocksCount < 2 ^ 32)
    (hskip : ¬ (fsm.untrackedNextFree ≠ 0 ∧ fsm.reservedBlocksCount = 0)) :
    ∃ t : FsmInfo, Built g o fsm.data t ∧
      OnlyTree { fsm with
        nextFreeBlocks := fsm.nextFreeBlocks - fsm.untrackedNextFree
        untrackedNextFree := 0, freeBlocksCount := t.freeBlocksCount } t ∧
      fsm.fsmRebuildTree g o = (fsmCutNextFree o { t with
        freeBlocksCount := t.freeBlocksCount - t.nextFreeBlocks - t.reservedBlocksCount }).bind
        (verified g) := by
  obtain ⟨hbuilt, hframe⟩ := fsmBuildTree_spec g o { fsmInitTree { fsm with
      nextFreeBlocks := fsm.nextFreeBlocks - fsm.untrackedNextFree
      untrackedNextFree := 0 } with untrackedBlocks := 0, freeBlocksCount := 0 } rfl rfl rfl rfl rfl
    (.of_lt hsmall)
  exact ⟨_, hbuilt, hframe.trans rfl, by rw [fsmRebuildTree, if_neg hskip]⟩

/-- **`fsm_rebuild_tree`** completes and takes the pending extents out of the tree. -/
theorem fsmRebuildTree_spec {fsm : FsmInfo} (h : TreesInv g fsm) (hok : RebuildOk g o fsm) :
    ∃ fsm', fsm.fsmRebuildTree g o = .ok fsm' ∧
      ((fsm' = fsm ∧ fsm.untrackedNextFree ≠ 0 ∧ fsm.reservedBlocksCount = 0) ∨
        (¬ (fsm.untrackedNextFree ≠ 0 ∧ fsm.reservedBlocksCount = 0) ∧ Rebuilt g o fsm fsm')) := by
  by_cases hskip : fsm.untrackedNextFree ≠ 0 ∧ fsm.reservedBlocksCount = 0
  · exact ⟨fsm, by rw [fsmRebuildTree, if_pos hskip], .inl ⟨rfl, hskip⟩⟩
  obtain ⟨t, hbuilt, hframe, heq⟩ := fsmRebuildTree_eq o h.small hskip
  have hlist : t.nextFreeList = fsm.nextFreeList := by rw [hframe]
  have hblocks : t.nextFreeBlocks = size fsm.nextFreeList := by
    have hcount := h.next.blocks
    rw [hframe]
    simp only
    omega
  have hreserved : t.reservedBlocksCount = fsm.reservedBlocksCount := by rw [hframe]
  -- the pending extents, cut out
  have hzero : ∀ n ∈ fsm.nextFreeList, ∀ x, n.Has x → x ∈ zeroBelow fsm.data g.volumeBlocksCount :=
    fun n hn x hx => h.next_free (mem_covered.mpr ⟨n, hn, hx⟩)
  obtain ⟨t1, ht1⟩ : ∃ t1 : FsmInfo, t1 = { t with
      freeBlocksCount := t.freeBlocksCount - t.nextFreeBlocks - t.reservedBlocksCount } := ⟨_, rfl⟩
  have harea : t1.freeArea = t.freeArea := by rw [ht1]
  have htree : TreeInv t1 none := by
    have := hbuilt.tree
    rw [ht1]
    exact ⟨this.separated, this.sorted, this.hashed, this.nodup, this.nodes⟩
  obtain ⟨fsm', hfold, honly, htree', hsub, hsize, hlive⟩ :=
    foldlM_fsmCutNode_spec o h.next.separated h.next.separated (fun _ hn => hn) htree
      (harea ▸ hbuilt.zero) h.next_free (by rw [harea, ht1]; exact hbuilt.size_eq)
      (fun n hn => harea ▸ hbuilt.inOrOff hok hn (hzero n hn))
  rw [harea] at hsub hlive
  have hframe' : fsm' = { fsm with
      freeArea := fsm'.freeArea
      freeList := fsm'.freeList
      freeAreaNodes := fsm'.freeAreaNodes
      untrackedBlocks := fsm'.untrackedBlocks
      freeBlocksCount := fsm'.freeBlocksCount
      nextFreeBlocks := fsm.nextFreeBlocks - fsm.untrackedNextFree
      untrackedNextFree := 0 } := by
    rw [honly, ht1, hframe]
  have hfree : fsm'.freeBlocksCount + fsm.reservedBlocksCount + size fsm.nextFreeList =
      (zeroBelow fsm.data g.volumeBlocksCount).card := by
    have heq : fsm'.freeBlocksCount =
        t.freeBlocksCount - t.nextFreeBlocks - t.reservedBlocksCount := by
      rw [honly, ht1]
    rw [heq, hbuilt.free_eq, hblocks, hreserved]
    omega
  have hdata' : fsm'.data = fsm.data := by rw [hframe']
  have hlist' : fsm'.nextFreeList = fsm.nextFreeList := by rw [hframe']
  have hreserved' : fsm'.reservedBlocksCount = fsm.reservedBlocksCount := by rw [hframe']
  have hnext : NextInv fsm' := by
    refine ⟨hlist' ▸ h.next.separated, ?_, ?_⟩
    · rw [hframe']
      exact h.next.nodes
    · have hcount := h.next.blocks
      rw [hframe']
      simp only
      omega
  have htrees : TreesInv g fsm' := by
    refine ⟨htree', hnext, fun x hx => ?_, ?_, fun x hx => ?_, h.small⟩
    · rw [hdata']
      exact hbuilt.zero (hsub x hx).1
    · rw [hdata', hlist']
      exact h.next_free
    · rw [hlist']
      exact (hsub x hx).2
  refine ⟨fsm', ?_, .inr ⟨hskip, hframe', htrees, hfree, by omega, t, hbuilt,
    fun x hx => (hsub x hx).1, fun hx hnil => ?_⟩⟩
  · rw [heq, ← ht1, fsmCutNextFree]
    have hlist1 : t1.nextFreeList = fsm.nextFreeList := by rw [ht1]; exact hlist
    rw [hlist1, hfold]
    exact verified_of_inv g htree' hnext (by omega)
  · obtain ⟨y, hy, -⟩ := hlive hx
    rw [hnil] at hy
    simp at hy

end Vdfs4
