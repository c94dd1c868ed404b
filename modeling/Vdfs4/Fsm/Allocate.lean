import Vdfs4.Fsm.Rebuild

/-!
# What an allocation does

`vdfs4_fsm_get_free_block` with all its paths: the hinted node, the node of the best order,
the rebuild when nothing fits, the longest node for aligned requests, and the trimming to
whole superpages.

* `Prepared` — the state an allocation takes its range from: **as it was** or **rebuilt**;
  block 0 may be lost on the way, since it cannot be handed out.
* `Allocated` — the possible results of `fsm_allocate_space`.
* `Got` — the possible results of `vdfs4_fsm_get_free_block`.
-/

namespace Vdfs4

open RunSet FsmInfo

/-! ### Picking a node -/

section pick

variable {fsm : FsmInfo} {node : FsmNode}
  {length minLength lengthInBlocks start minimal optimal minBlkCount : Nat} {delayed : Bool}

/-- A chosen node is in the tree. -/
theorem mem_of_fsmChooseNode (h : TreeInv fsm none)
    (hchoose : fsm.fsmChooseNode length = some node) : node ∈ fsm.freeArea := by
  obtain ⟨order, -, hhead⟩ := List.exists_of_findSome?_eq_some hchoose
  exact ((h.hashed order node).mp (List.mem_of_head? hhead)).1

/-- Only an empty tree has no node to choose. -/
theorem eq_nil_of_fsmChooseNode (h : TreeInv fsm none)
    (hchoose : fsm.fsmChooseNode length = none) : fsm.freeArea = [] := by
  refine List.eq_nil_iff_forall_not_mem.mpr fun n hn => ?_
  have hlist : n ∈ fsm.freeList (fsmOrder n.length) := (h.hashed _ n).mpr ⟨hn, nofun, rfl⟩
  have hlen : fsmOrder length ≤ fsmMaxOrder := Nat.min_le_right _ _
  have hn_le : fsmOrder n.length ≤ fsmMaxOrder := Nat.min_le_right _ _
  -- every order is searched
  have hmem : fsmOrder n.length ∈ List.range' (fsmOrder length)
      (fsmMaxOrder + 1 - fsmOrder length) ++ (List.range fsmMaxOrder).reverse := by
    simp only [List.mem_append, List.mem_range'_1, List.mem_reverse, List.mem_range]
    omega
  have hnone := List.findSome?_eq_none_iff.mp hchoose _ hmem
  rw [List.head?_eq_none_iff] at hnone
  rw [hnone] at hlist
  cases hlist

/-- The node to allocate from, with enough room behind the position. -/
theorem fsmPickNode_spec (h : TreeInv fsm none) (hsmall : ∀ n ∈ fsm.freeArea, n.start < 2 ^ 32)
    {pos room : Nat}
    (hpick : fsm.fsmPickNode start minLength length = some (node, pos, room)) :
    node ∈ fsm.freeArea ∧ node.Has pos ∧ room = fsmMaxLength node pos ∧ minLength ≤ room := by
  unfold fsmPickNode at hpick
  simp only at hpick
  split at hpick
  · rename_i node' hhint
    obtain ⟨rfl, rfl, rfl⟩ := hpick
    split at hhint
    · cases hhint
    · obtain ⟨hfind, hroom⟩ := Option.filter_eq_some_iff.mp hhint
      obtain ⟨hmem, hhas⟩ := mem_of_fsmFindNode hfind
      exact ⟨hmem, hhas, rfl, by simpa using hroom⟩
  · split at hpick
    · cases hpick
    rename_i node' hchoose
    split at hpick
    · cases hpick
    rename_i hroom
    obtain ⟨rfl, rfl, rfl⟩ := hpick
    have hmem := mem_of_fsmChooseNode h hchoose
    have hpos := h.separated.pos _ hmem
    rw [Nat.mod_eq_of_lt (hsmall _ hmem)]
    refine ⟨hmem, ⟨le_rfl, by omega⟩, ?_, by omega⟩
    unfold fsmMaxLength
    omega

/-- With any length acceptable, only an empty tree gives no node. -/
theorem eq_nil_of_fsmPickNode (h : TreeInv fsm none) (hmin : minLength ≤ 1)
    (hpick : fsm.fsmPickNode start minLength length = none) :
    fsm.freeArea = [] := by
  unfold fsmPickNode at hpick
  simp only at hpick
  split at hpick
  · cases hpick
  split at hpick
  · rename_i hchoose
    exact eq_nil_of_fsmChooseNode h hchoose
  · rename_i node' hchoose
    have hpos := h.separated.pos _ (mem_of_fsmChooseNode h hchoose)
    rw [if_neg (by omega)] at hpick
    cases hpick

/-- The loop of `fsm_get_longest_node` behind the first node: a node that it has seen and that is
as long as all of them. -/
theorem foldl_longest (l : List FsmNode) (b : FsmNode) :
    ∃ n, l.foldl (fun best node => match best with
        | none => some node
        | some b => if b.length < node.length then some node else some b) (some b) = some n ∧
      (n = b ∨ n ∈ l) ∧ b.length ≤ n.length ∧ ∀ k ∈ l, k.length ≤ n.length := by
  induction l generalizing b with
  | nil => exact ⟨b, rfl, .inl rfl, le_rfl, nofun⟩
  | cons m l ih =>
    rw [List.foldl_cons]
    simp only
    split
    · next hlt =>
      obtain ⟨n, hfold, hmem, hle, hall⟩ := ih m
      refine ⟨n, hfold, .inr ?_, hlt.le.trans hle, List.forall_mem_cons.mpr ⟨hle, hall⟩⟩
      exact hmem.elim (fun h => h ▸ List.mem_cons_self) (List.mem_cons_of_mem _)
    · next hge =>
      obtain ⟨n, hfold, hmem, hle, hall⟩ := ih b
      exact ⟨n, hfold, hmem.imp id (List.mem_cons_of_mem _), hle,
        List.forall_mem_cons.mpr ⟨(Nat.le_of_not_lt hge).trans hle, hall⟩⟩

/-- **`fsm_get_longest_node`**: a longest node of the tree, and none if the tree is empty. -/
theorem fsmGetLongestNode_spec (fsm : FsmInfo) :
    (fsm.freeArea = [] ∧ fsm.fsmGetLongestNode = none) ∨
      ∃ n ∈ fsm.freeArea, fsm.fsmGetLongestNode = some n ∧ ∀ k ∈ fsm.freeArea,
      k.length ≤ n.length := by
  unfold fsmGetLongestNode
  cases fsm.freeArea with
  | nil => exact .inl ⟨rfl, rfl⟩
  | cons b l =>
    obtain ⟨n, hfold, hmem, hle, hall⟩ := foldl_longest l b
    exact .inr ⟨n, List.mem_cons.mpr hmem, hfold, List.forall_mem_cons.mpr ⟨hle, hall⟩⟩

/-- The longest node is in the tree, and nothing there is longer. -/
theorem longest_of_fsmGetLongestNode (hlong : fsm.fsmGetLongestNode = some node) :
    node ∈ fsm.freeArea ∧ ∀ k ∈ fsm.freeArea, k.length ≤ node.length := by
  rcases fsmGetLongestNode_spec fsm with ⟨-, hnone⟩ | ⟨n, hn, hsome, hall⟩
  · rw [hnone] at hlong
    cases hlong
  · rw [hsome] at hlong
    obtain rfl := Option.some.inj hlong
    exact ⟨hn, hall⟩

end pick

/-! ### `fsm_allocate_space` -/

section allocate

variable {g : FsmGeometry} {o : FsmOracle} {fsm fsm₁ fsm₂ : FsmInfo} {pos len : Nat}

/-- A part of a taken range; the rest of it is untracked. -/
theorem Taken.trim (h : Taken fsm fsm₁ pos len) {pos' len' k : Nat} (hlo : pos ≤ pos')
    (hhi : pos' + len' ≤ pos + len) (hk : len' + k = len) :
    Taken fsm (fsm₁.addUntracked k) pos' len' := by
  refine ⟨h.frame.trans rfl, h.tree.addUntracked _, fun x h1 h2 => h.range x (by omega) (by omega),
    fun x hx => ?_, ?_⟩
  · obtain ⟨hmem, hout⟩ := h.sub x hx
    exact ⟨hmem, by omega⟩
  · have hsize := h.size_eq
    simp only [addUntracked]
    omega

/-- The trees after a range was taken. -/
theorem Taken.trees (h : Taken fsm fsm₁ pos len) (htrees : TreesInv g fsm) : TreesInv g fsm₁ := by
  have hframe := h.frame
  have hdata : fsm₁.data = fsm.data := by rw [hframe]
  have hlist : fsm₁.nextFreeList = fsm.nextFreeList := by rw [hframe]
  refine ⟨h.tree, ?_, fun x hx => ?_, ?_, fun x hx => ?_, htrees.small⟩
  · rw [hframe]
    exact ⟨htrees.next.separated, htrees.next.nodes, htrees.next.blocks⟩
  · rw [hdata]
    exact htrees.tree_free (h.sub x hx).1
  · rw [hdata, hlist]
    exact htrees.next_free
  · rw [hlist]
    exact htrees.disjoint x (h.sub x hx).1

/-- The state a range is taken from. -/
inductive Prepared (g : FsmGeometry) (o : FsmOracle) (fsm : FsmInfo) : FsmInfo → Prop
  /-- as it was -/
  | same : Prepared g o fsm fsm
  /-- rebuilt, since there were untracked blocks -/
  | rebuilt {fsm₁ : FsmInfo} : Rebuilt g o fsm fsm₁ → Prepared g o fsm fsm₁
  /-- a range from block 0 on was taken and cannot be handed out -/
  | lost {fsm₁ fsm₂ : FsmInfo} {len : Nat} : Prepared g o fsm fsm₁ → 0 < len →
      Taken fsm₁ fsm₂ 0 len → Prepared g o fsm fsm₂

/-- What stays the same before a range is taken. -/
theorem Prepared.frame (h : Prepared g o fsm fsm₁) :
    fsm₁.data = fsm.data ∧ fsm₁.nextFreeList = fsm.nextFreeList ∧
      fsm₁.reservedBlocksCount = fsm.reservedBlocksCount ∧
      fsm₁.eraseBlocksCounters = fsm.eraseBlocksCounters ∧ fsm₁.msRdonly = fsm.msRdonly := by
  induction h with
  | same => exact ⟨rfl, rfl, rfl, rfl, rfl⟩
  | rebuilt hre =>
    rw [hre.frame]
    exact ⟨rfl, rfl, rfl, rfl, rfl⟩
  | lost _ _ htaken ih =>
    rw [htaken.frame]
    exact ih

theorem Prepared.trees (h : Prepared g o fsm fsm₁) (htrees : TreesInv g fsm) :
    TreesInv g fsm₁ := by
  induction h with
  | same => exact htrees
  | rebuilt hre => exact hre.trees
  | lost _ _ htaken ih => exact htaken.trees ih

/-- With block 0 in use nothing is lost. -/
theorem Prepared.cases_of_set (h : Prepared g o fsm fsm₁) (htrees : TreesInv g fsm)
    (hzero : fsm.data 0 = true) : fsm₁ = fsm ∨ Rebuilt g o fsm fsm₁ := by
  cases h with
  | same => exact .inl rfl
  | rebuilt hre => exact .inr hre
  | lost hprep hlen htaken =>
    have hmem := (hprep.trees htrees).tree_free (htaken.range 0 le_rfl (by omega))
    obtain ⟨-, hclear⟩ := mem_zeroBelow.mp hmem
    rw [hprep.frame.1, hzero] at hclear
    cases hclear

/-- The results of `fsm_allocate_space` for `length` blocks, `minLength` at least. -/
inductive Allocated (g : FsmGeometry) (o : FsmOracle) (fsm : FsmInfo) (minLength length : Nat) :
    Except FsmBug (FsmInfo × Nat × Nat) → Prop
  /-- a range was taken -/
  | taken {fsm₁ fsm₂ : FsmInfo} {pos len : Nat} : fsm₁ = fsm ∨ Rebuilt g o fsm fsm₁ →
      Taken fsm₁ fsm₂ pos len → 0 < len → len ≤ length → min minLength length ≤ len →
      Allocated g o fsm minLength length (.ok (fsm₂, pos, len))
  /-- there is no range, neither before nor after a rebuild -/
  | nospace {fsm₁ : FsmInfo} : (minLength ≤ 1 → fsm.freeArea = [] ∧ fsm₁.freeArea = []) →
      (fsm₁ = fsm ∧ (fsm.untrackedBlocks = 0 ∨
        (fsm.untrackedNextFree ≠ 0 ∧ fsm.reservedBlocksCount = 0))) ∨ Rebuilt g o fsm fsm₁ →
      Allocated g o fsm minLength length (.ok (fsm₁, 0, length))
  /-- the counters do not match the tree -/
  | verifyState : (size fsm.freeArea : Int) + fsm.untrackedBlocks ≠
        fsm.freeBlocksCount + fsm.reservedBlocksCount →
      Allocated g o fsm minLength length (.error .verifyState)

/-- Allocating from a picked node. -/
theorem fsmAllocateAt_taken (o : FsmOracle) {fsm : FsmInfo} (h : TreesInv g fsm)
    {pick : FsmNode × Nat × Nat} (hlen : 0 < length) (hmin : 0 < minLength)
    (hpick : fsm.fsmPickNode start minLength length = some pick) :
    ∃ fsm' len, fsm.fsmAllocateAt o length pick = .ok (fsm', pick.2.1, len) ∧
      Taken fsm fsm' pick.2.1 len ∧ 0 < len ∧ len ≤ length ∧ min minLength length ≤ len := by
  obtain ⟨node, pos, room⟩ := pick
  obtain ⟨hmem, ⟨hlo, hhi⟩, hroom, hmin'⟩ := fsmPickNode_spec h.tree h.start_lt hpick
  have hmax : room = node.start + node.length - pos := by
    rw [hroom, fsmMaxLength]
    omega
  obtain ⟨fsm', -, hok, htaken, -, -⟩ := fsmAllocateFromNode_taken o h.tree hmem
    (show 0 < min length room by omega) hlo (by omega)
  refine ⟨fsm', min length room, ?_, htaken, by omega, by omega, by omega⟩
  simp only [fsmAllocateAt, hok]
  rfl

/-- **`fsm_allocate_space`.** -/
theorem fsmAllocateSpace_spec (start : Nat) (h : TreesInv g fsm) (hok : RebuildOk g o fsm)
    (hlen : 0 < length) (hmin : 0 < minLength) :
    Allocated g o fsm minLength length (fsm.fsmAllocateSpace g o start minLength length) := by
  unfold fsmAllocateSpace
  cases hpick : fsm.fsmPickNode start minLength length with
  | some pick =>
    obtain ⟨fsm', len, hat, htaken, h1, h2, h3⟩ := fsmAllocateAt_taken o h hlen hmin hpick
    simp only [hat]
    exact .taken (.inl rfl) htaken h1 h2 h3
  | none =>
    have hempty : minLength ≤ 1 → fsm.freeArea = [] := fun hm =>
      eq_nil_of_fsmPickNode h.tree hm hpick
    -- the self-check passes or finds a wrong counter
    have hverify : ∀ {fsm₁ : FsmInfo}, TreesInv g fsm₁ →
        (size fsm₁.freeArea : Int) + fsm₁.untrackedBlocks =
          fsm₁.freeBlocksCount + fsm₁.reservedBlocksCount → fsm₁.verified g = .ok fsm₁ :=
      fun h1 hsize => verified_of_inv g h1.tree h1.next hsize
    have hsame : (fsm.untrackedBlocks = 0 ∨
        (fsm.untrackedNextFree ≠ 0 ∧ fsm.reservedBlocksCount = 0)) →
        Allocated g o fsm minLength length ((fsm.verified g).map fun fsm => (fsm, 0, length)) := by
      intro hcond
      by_cases hsize : (size fsm.freeArea : Int) + fsm.untrackedBlocks =
          fsm.freeBlocksCount + fsm.reservedBlocksCount
      · rw [hverify h hsize]
        exact .nospace (fun hm => ⟨hempty hm, hempty hm⟩) (.inl ⟨rfl, hcond⟩)
      · unfold verified
        split
        · exact .verifyState hsize
        · exact .nospace (fun hm => ⟨hempty hm, hempty hm⟩) (.inl ⟨rfl, hcond⟩)
    simp only
    split
    · obtain ⟨fsm₁, hre, ⟨rfl, hcond⟩ | ⟨-, hrebuilt⟩⟩ := fsmRebuildTree_spec h hok
      · -- the rebuild was skipped
        rw [hre]
        simp only [Except.bind, hpick]
        exact hsame (.inr hcond)
      rw [hre]
      simp only [Except.bind]
      cases hpick1 : fsm₁.fsmPickNode start minLength length with
      | some pick =>
        obtain ⟨fsm', len, hat, htaken, h1, h2, h3⟩ :=
          fsmAllocateAt_taken o hrebuilt.trees hlen hmin hpick1
        simp only [hat]
        exact .taken (.inr hrebuilt) htaken h1 h2 h3
      | none =>
        have hsize : (size fsm₁.freeArea : Int) + fsm₁.untrackedBlocks =
            fsm₁.freeBlocksCount + fsm₁.reservedBlocksCount := by
          rw [hrebuilt.size_eq, (Prepared.rebuilt hrebuilt).frame.2.2.1]
        simp only [hverify hrebuilt.trees hsize]
        exact .nospace
          (fun hm => ⟨hempty hm, eq_nil_of_fsmPickNode hrebuilt.trees.tree hm hpick1⟩)
          (.inr hrebuilt)
    · rename_i hun
      exact hsame (.inl (by simpa using hun))

/-! ### `vdfs4_fsm_get_free_block` -/

/-- The results of `vdfs4_fsm_get_free_block`. -/
inductive Got (g : FsmGeometry) (o : FsmOracle) (fsm : FsmInfo) (delayed : Bool) (length : Nat) :
    Except FsmBug (FsmInfo × Nat × Nat) → Prop
  /-- a range was taken and marked -/
  | granted {fsm₁ fsm₂ : FsmInfo} {pos len : Nat} {counters : List Nat} : Prepared g o fsm fsm₁ →
      Taken fsm₁ fsm₂ pos len → pos ≠ 0 → 0 < len → len ≤ length →
      fsmIncEraseBlocksCounters g fsm.eraseBlocksCounters pos len = .ok counters →
      Got g o fsm delayed length (.ok (fsm₂.markRange delayed pos len counters, pos, len))
  /-- no range -/
  | nospace {fsm₁ : FsmInfo} {len : Nat} : Prepared g o fsm fsm₁ →
      Got g o fsm delayed length (.ok (fsm₁, 0, len))
  /-- an erase block counter is wrong -/
  | counter {fsm₁ fsm₂ : FsmInfo} {pos len : Nat} {bug : FsmBug} : Prepared g o fsm fsm₁ →
      Taken fsm₁ fsm₂ pos len → 0 < len →
      fsmIncEraseBlocksCounters g fsm.eraseBlocksCounters pos len = .error bug →
      Got g o fsm delayed length (.error bug)
  /-- the counters do not match the tree -/
  | verifyState : (size fsm.freeArea : Int) + fsm.untrackedBlocks ≠
        fsm.freeBlocksCount + fsm.reservedBlocksCount →
      Got g o fsm delayed length (.error .verifyState)

section

variable (h : TreesInv g fsm) (hprep : Prepared g o fsm fsm₁) (htaken : Taken fsm₁ fsm₂ pos len)

include h hprep htaken

/-- **A range from the tree can be marked**: it lies inside the volume and its bits are
clear. -/
theorem fsmMarkAllocated_eq (hlen : 0 < len) (hpos : pos ≠ 0) (delayed : Bool) :
    fsm₂.fsmMarkAllocated g delayed pos len =
      (fsmIncEraseBlocksCounters g fsm.eraseBlocksCounters pos len).map fun counters =>
        (fsm₂.markRange delayed pos len counters, pos, len) := by
  have hdata : fsm₂.data = fsm₁.data := by rw [htaken.frame]
  have hcounters : fsm₂.eraseBlocksCounters = fsm.eraseBlocksCounters := by
    rw [← hprep.frame.2.2.2.1, htaken.frame]
  have hfree : ∀ x, pos ≤ x → x < pos + len → x < g.volumeBlocksCount ∧ fsm₁.data x = false :=
    fun x h1 h2 => mem_zeroBelow.mp ((hprep.trees h).tree_free (htaken.range x h1 h2))
  have hvolume := (hfree (pos + len - 1) (by omega) (by omega)).1
  have hsmall := h.small
  have hcast : pos % 2 ^ 32 = pos := Nat.mod_eq_of_lt (by omega)
  have hclear : fsm₂.data.anySet pos len = false := by
    rw [Bitmap.anySet_eq_false, hdata]
    exact fun x h1 h2 => (hfree x h1 h2).2
  rw [fsmMarkAllocated, if_neg hpos, if_neg (by omega), hcast, hclear, if_neg Bool.false_ne_true,
    hcounters]

/-- The end of a request that took a range. -/
theorem fsmMarkAllocated_got (hlen : 0 < len) (hle : len ≤ length)
    (delayed : Bool) : Got g o fsm delayed length (fsm₂.fsmMarkAllocated g delayed pos len) := by
  by_cases hpos : pos = 0
  · subst hpos
    exact .nospace (.lost hprep hlen htaken)
  · rw [fsmMarkAllocated_eq h hprep htaken hlen hpos]
    cases hinc : fsmIncEraseBlocksCounters g fsm.eraseBlocksCounters pos len with
    | ok counters => exact .granted hprep htaken hpos hlen hle hinc
    | error bug => exact .counter hprep htaken hlen hinc

/-- The superpages inside a range. -/
theorem fsmTrimAligned_got (hmin : minimal ≤ len) (hopt : len ≤ optimal)
    (hlen : lengthInBlocks + g.blocksPerSuperpage = len) (hpos : 0 < lengthInBlocks)
    (hle : lengthInBlocks ≤ length) (delayed : Bool) :
    Got g o fsm delayed length
      (fsm₂.fsmTrimAligned g delayed pos len minimal optimal lengthInBlocks) := by
  unfold fsmTrimAligned
  rw [if_neg (by omega)]
  have hsp : 0 < g.blocksPerSuperpage := Nat.two_pow_pos _
  have hlo := Bitmap.le_alignMask pos (g.blocksPerSuperpage - 1)
  have hhi : Bitmap.alignMask pos (g.blocksPerSuperpage - 1) < pos + g.blocksPerSuperpage := by
    unfold Bitmap.alignMask
    rw [Nat.sub_add_cancel hsp]
    have := Nat.div_mul_le_self (pos + (g.blocksPerSuperpage - 1)) g.blocksPerSuperpage
    omega
  exact fsmMarkAllocated_got h hprep (htaken.trim hlo (by omega) hlen) hpos hle delayed

end

/-- The requests that are in order: some blocks, whole superpages when they are to be
aligned, no more from the reserve than it has, and node allocations that leave no pending extent
half in the tree. -/
structure GetOk (g : FsmGeometry) (o : FsmOracle) (fsm : FsmInfo)
    (lengthInBlocks minBlkCount : Nat) (flags : FsmAllocFlags) : Prop where
  pos : 0 < lengthInBlocks
  aligned : flags.aligned = true →
    lengthInBlocks % g.blocksPerSuperpage = 0 ∧ minBlkCount ≤ lengthInBlocks ∧
      lengthInBlocks + 2 * g.blocksPerSuperpage < 2 ^ 32
  delayed : flags.delayed = true → (lengthInBlocks : Int) ≤ fsm.reservedBlocksCount
  rebuild : RebuildOk g o fsm

/-- The longest node, when the first attempt of an aligned request gave no block. -/
theorem fsmGetLongest_got (h : TreesInv g fsm) (hprep : Prepared g o fsm fsm₁) (hmin : 0 < minimal)
    (hfits : minimal + g.blocksPerSuperpage < 2 ^ 32)
    (hopt : optimal = lengthInBlocks + g.blocksPerSuperpage) :
    Got g o fsm delayed lengthInBlocks
      (fsm₁.fsmGetLongest g o delayed lengthInBlocks minimal optimal) := by
  have hsp : 0 < g.blocksPerSuperpage := Nat.two_pow_pos _
  unfold fsmGetLongest
  rw [Nat.mod_eq_of_lt hfits]
  cases hlong : fsm₁.fsmGetLongestNode with
  | none => exact .nospace hprep
  | some node =>
    simp only
    split
    · exact .nospace hprep
    rename_i hroom
    have hround := Nat.div_mul_le_self node.length g.blocksPerSuperpage
    obtain ⟨fsm', -, hfrom, htaken, -, -⟩ := fsmAllocateFromNode_taken o (hprep.trees h).tree
      (longest_of_fsmGetLongestNode hlong).1
      (show 0 < min (node.length / g.blocksPerSuperpage * g.blocksPerSuperpage) optimal by omega)
      le_rfl (by omega)
    rw [hfrom]
    exact fsmTrimAligned_got h hprep htaken (by omega) (by omega) (by omega) (by omega)
      (by omega) delayed

theorem fsmGetAligned_got (h : TreesInv g fsm) (hok : RebuildOk g o fsm) {blockOffset : Nat}
    (hpos : 0 < lengthInBlocks) (hmod : lengthInBlocks % g.blocksPerSuperpage = 0)
    (hmin : minBlkCount ≤ lengthInBlocks)
    (hfits : lengthInBlocks + 2 * g.blocksPerSuperpage < 2 ^ 32) :
    Got g o fsm delayed lengthInBlocks
      (fsm.fsmGetAligned g o delayed blockOffset lengthInBlocks minBlkCount) := by
  have hsp : 0 < g.blocksPerSuperpage := Nat.two_pow_pos _
  have hlen : 0 < lengthInBlocks + g.blocksPerSuperpage := by omega
  have hspec := fsmAllocateSpace_spec (blockOffset % 2 ^ 32) h hok hlen hlen
  unfold fsmGetAligned
  simp only
  rw [if_neg (by omega), Nat.mod_eq_of_lt (show lengthInBlocks + g.blocksPerSuperpage <
    2 ^ 32 by omega), Nat.mod_eq_of_lt (show minBlkCount + g.blocksPerSuperpage < 2 ^ 32 by omega)]
  generalize fsm.fsmAllocateSpace g o (blockOffset % 2 ^ 32) (lengthInBlocks + g.blocksPerSuperpage)
    (lengthInBlocks + g.blocksPerSuperpage) = r at hspec ⊢
  cases hspec with
  | taken hprep htaken hlen' hle hge =>
    have hprep' : Prepared g o fsm _ := hprep.elim (fun h => h ▸ .same) .rebuilt
    simp only [Except.bind]
    split
    · exact fsmTrimAligned_got h hprep' htaken (by omega) hle (by omega) hpos le_rfl delayed
    · rename_i hzero
      rw [not_not] at hzero
      subst hzero
      exact fsmGetLongest_got h (.lost hprep' hlen' htaken) (by omega) (by omega) rfl
  | nospace _ hcases =>
    have hprep' : Prepared g o fsm _ := hcases.elim (fun h => h.1 ▸ .same) .rebuilt
    exact fsmGetLongest_got h hprep' (by omega) (by omega) rfl
  | verifyState hcount => exact .verifyState hcount

/-- **`vdfs4_fsm_get_free_block`**: every result of a request that is in order. -/
theorem vdfs4FsmGetFreeBlock_got (h : TreesInv g fsm) (blockOffset : Nat) {flags : FsmAllocFlags}
    (hok : GetOk g o fsm lengthInBlocks minBlkCount flags) :
    Got g o fsm flags.delayed lengthInBlocks
      (fsm.vdfs4FsmGetFreeBlock g o blockOffset lengthInBlocks minBlkCount flags) := by
  unfold vdfs4FsmGetFreeBlock
  simp only
  generalize (if g.volumeBlocksCount ≤ blockOffset + lengthInBlocks then 0 else blockOffset) = hint
  split
  · exact .nospace .same
  split
  · rename_i haligned
    obtain ⟨hmod, hmin, hfits⟩ := hok.aligned haligned
    exact fsmGetAligned_got h hok.rebuild hok.pos hmod hmin hfits
  have hspec := fsmAllocateSpace_spec (hint % 2 ^ 32) h hok.rebuild hok.pos Nat.one_pos
  generalize fsm.fsmAllocateSpace g o (hint % 2 ^ 32) 1 lengthInBlocks = r at hspec ⊢
  cases hspec with
  | taken hprep htaken hlen hle hge =>
    exact fsmMarkAllocated_got h (hprep.elim (fun h => h ▸ .same) .rebuilt) htaken hlen hle _
  | nospace _ hcases =>
    exact .nospace (hcases.elim (fun h => h.1 ▸ .same) .rebuilt)
  | verifyState hcount => exact .verifyState hcount

end allocate

end Vdfs4
