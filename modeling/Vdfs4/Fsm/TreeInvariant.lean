import Vdfs4.Fsm.Tree

/-!
# The tree of free extents

What the functions on `free_area` and `free_list` do to the **set of tracked blocks**.

* `TreeInv` — the nodes are nonempty and apart, every node is hashed under its order, and
  the counter counts them. Between `fsm_unhash` and `fsm_hash` one node is **loose**.
* `OnlyTree` — a function changes the tree and `untracked_blocks` and nothing else.
* `fsmAllocateFromNode_spec` — an allocation leaves the parts of its node on both sides;
  the right part may be lost to `untracked_blocks`.
* `fsmTouch_cases` — what a merge with the adjacent nodes gives.
-/

namespace Vdfs4

open Option hiding any_eq_true
open Finset hiding mem_cons disjoint_right erase_cons
open RunSet Separated FsmInfo List

/-- The tree of free extents, with the node that is not hashed at the moment. -/
structure TreeInv (fsm : FsmInfo) (loose : Option FsmNode) : Prop where
  /-- nodes are nonempty, disjoint and never adjacent -/
  separated : Separated fsm.freeArea
  /-- the tree is in order -/
  sorted : fsm.freeArea.Pairwise fun a b => a.start ≤ b.start
  /-- a node sits in the list of its order -/
  hashed : ∀ order node, node ∈ fsm.freeList order ↔
    node ∈ fsm.freeArea ∧ loose ≠ some node ∧ fsmOrder node.length = order
  /-- and only once -/
  nodup : ∀ order, (fsm.freeList order).Nodup
  /-- the counter -/
  nodes : fsm.freeAreaNodes = fsm.freeArea.length

/-- Only the tree and `untracked_blocks` are changed. -/
def OnlyTree (fsm fsm' : FsmInfo) : Prop :=
  fsm' = { fsm with
    freeArea := fsm'.freeArea
    freeList := fsm'.freeList
    freeAreaNodes := fsm'.freeAreaNodes
    untrackedBlocks := fsm'.untrackedBlocks }

theorem OnlyTree.refl (fsm : FsmInfo) : OnlyTree fsm fsm := rfl

theorem OnlyTree.trans {fsm fsm' fsm'' : FsmInfo} (h : OnlyTree fsm fsm')
    (h' : OnlyTree fsm' fsm'') : OnlyTree fsm fsm'' := by
  unfold OnlyTree at h h' ⊢
  rw [h', h]

namespace TreeInv

variable {fsm : FsmInfo} {loose : Option FsmNode} {n n' : FsmNode}

/-- The tree does not depend on the counters. -/
theorem addUntracked (h : TreeInv fsm loose) (k : Int) : TreeInv (fsm.addUntracked k) loose :=
  ⟨h.separated, h.sorted, h.hashed, h.nodup, h.nodes⟩

theorem unhash (h : TreeInv fsm none) : TreeInv (fsm.fsmUnhash n) (some n) where
  separated := h.separated
  sorted := h.sorted
  hashed order node := by
    simp only [fsmUnhash, (h.nodup order).mem_erase_iff, h.hashed, ne_eq,
      some.injEq, reduceCtorEq, not_false_eq_true, true_and]
    constructor
    · rintro ⟨hne, hmem, horder⟩
      exact ⟨hmem, Ne.symm hne, horder⟩
    · rintro ⟨hmem, hne, horder⟩
      exact ⟨Ne.symm hne, hmem, horder⟩
  nodup order := (h.nodup order).erase n
  nodes := h.nodes

theorem mem_fsmHash {order : Nat} {node : FsmNode} : node ∈ (fsm.fsmHash n).freeList order ↔
    node ∈ fsm.freeList order ∨ node = n ∧ fsmOrder n.length = order := by
  simp only [fsmHash]
  split
  next horder => simp [horder]
  next horder => simp [Ne.symm horder]

theorem nodup_fsmHash {order : Nat} (h : (fsm.freeList order).Nodup) (hn : n ∉ fsm.freeList order) :
    ((fsm.fsmHash n).freeList order).Nodup := by
  simp only [fsmHash]
  split
  · exact h.append (nodup_singleton n) (disjoint_singleton.mpr hn)
  · exact h

theorem hash (h : TreeInv fsm (some n)) (hn : n ∈ fsm.freeArea) :
    TreeInv (fsm.fsmHash n) none where
  separated := h.separated
  sorted := h.sorted
  hashed order node := by
    rw [mem_fsmHash, h.hashed]
    constructor
    · rintro (⟨hmem, -, ho⟩ | ⟨rfl, ho⟩)
      · exact ⟨hmem, nofun, ho⟩
      · exact ⟨hn, nofun, ho⟩
    · rintro ⟨hmem, -, ho⟩
      by_cases hne : node = n
      · exact .inr ⟨hne, hne ▸ ho⟩
      · exact .inl ⟨hmem, fun heq => hne (some.inj heq).symm, ho⟩
  nodup order := nodup_fsmHash (h.nodup order) fun hmem => ((h.hashed order n).mp hmem).2.1 rfl
  nodes := h.nodes

theorem drop (h : TreeInv fsm (some n)) (hn : n ∈ fsm.freeArea) :
    TreeInv (fsm.fsmDrop n) none where
  separated := ((erase_iff hn).mp h.separated).2.2
  sorted := h.sorted.sublist erase_sublist
  hashed order node := by
    simp only [fsmDrop, h.hashed, h.separated.nodup.mem_erase_iff]
    constructor
    · rintro ⟨hmem, hne, ho⟩
      exact ⟨⟨fun heq => hne (congrArg some heq.symm), hmem⟩, nofun, ho⟩
    · rintro ⟨⟨hne, hmem⟩, -, ho⟩
      exact ⟨hmem, fun heq => hne (some.inj heq).symm, ho⟩
  nodup := h.nodup
  nodes := by
    simp only [fsmDrop, h.nodes, length_erase_of_mem hn]

/-- The nodes of a tree with a changed node. -/
theorem perm_setNode (fsm : FsmInfo) (n n' : FsmNode) :
    (fsm.setNode n n').freeArea.Perm (n' :: fsm.freeArea.erase n) :=
  perm_orderedInsert _ _ _

/-- The nodes of a tree with a new node. -/
theorem perm_insertNode (fsm : FsmInfo) (n : FsmNode) :
    (fsm.insertNode n).freeArea.Perm (n :: fsm.freeArea) :=
  perm_orderedInsert _ _ _

theorem setNode (h : TreeInv fsm (some n)) (hn : n ∈ fsm.freeArea) (hpos : 0 < n'.length)
    (hapart : ∀ m ∈ fsm.freeArea.erase n, n'.Apart m) :
    TreeInv (fsm.setNode n n') (some n') := by
  have hperm : (fsm.setNode n n').freeArea.Perm (n' :: fsm.freeArea.erase n) :=
    perm_setNode fsm n n'
  have herase := ((erase_iff hn).mp h.separated).2.2
  refine ⟨(cons_iff.mpr ⟨hpos, hapart, herase⟩).perm hperm.symm,
    (h.sorted.sublist erase_sublist).orderedInsert _ _, fun order node => ?_, h.nodup, ?_⟩
  · rw [hperm.mem_iff, mem_cons, h.separated.nodup.mem_erase_iff]
    refine (h.hashed order node).trans ?_
    constructor
    · rintro ⟨hmem, hne, ho⟩
      have hne' : node ≠ n := fun heq => hne (congrArg some heq.symm)
      refine ⟨.inr ⟨hne', hmem⟩, fun heq => ?_, ho⟩
      -- a node that was there is apart from the new one
      have hap := hapart node ((h.separated.nodup.mem_erase_iff).mpr ⟨hne', hmem⟩)
      exact hap.ne (some.inj heq)
    · rintro ⟨rfl | ⟨hne, hmem⟩, hne', ho⟩
      · exact absurd rfl hne'
      · exact ⟨hmem, fun heq => hne (some.inj heq).symm, ho⟩
  · have hlen := hperm.length_eq
    rw [length_cons, length_erase_of_mem hn] at hlen
    have hpos' := length_pos_of_mem hn
    have hnodes : (fsm.setNode n n').freeAreaNodes = fsm.freeArea.length := h.nodes
    omega

theorem insertLoose (h : TreeInv fsm none) (hpos : 0 < n.length)
    (hapart : ∀ m ∈ fsm.freeArea, n.Apart m) : TreeInv (fsm.insertNode n) (some n) := by
  have hperm : (fsm.insertNode n).freeArea.Perm (n :: fsm.freeArea) := perm_insertNode fsm n
  refine ⟨(cons_iff.mpr ⟨hpos, hapart, h.separated⟩).perm hperm.symm,
    h.sorted.orderedInsert _ _, fun order node => ?_, h.nodup, ?_⟩
  · rw [hperm.mem_iff, mem_cons]
    refine (h.hashed order node).trans ?_
    constructor
    · rintro ⟨hmem, -, ho⟩
      exact ⟨.inr hmem, fun heq => (hapart node hmem).ne (some.inj heq), ho⟩
    · rintro ⟨rfl | hmem, hne, ho⟩
      · exact absurd rfl hne
      · exact ⟨hmem, nofun, ho⟩
  · have hlen := hperm.length_eq
    rw [length_cons, ← h.nodes] at hlen
    exact hlen.symm

/-- A new node, hashed at once, while another one may be loose. -/
theorem insertHash (h : TreeInv fsm loose) (hpos : 0 < n.length)
    (hapart : ∀ m ∈ fsm.freeArea, n.Apart m) (hloose : loose ≠ some n) :
    TreeInv ((fsm.insertNode n).fsmHash n) loose := by
  have hperm : ((fsm.insertNode n).fsmHash n).freeArea.Perm (n :: fsm.freeArea) :=
    perm_insertNode fsm n
  refine ⟨(cons_iff.mpr ⟨hpos, hapart, h.separated⟩).perm hperm.symm,
    h.sorted.orderedInsert _ _, fun order node => ?_, fun order => ?_, ?_⟩
  · rw [hperm.mem_iff, mem_cons, mem_fsmHash]
    refine (or_congr_left (h.hashed order node)).trans ?_
    constructor
    · rintro (⟨hmem, hne, ho⟩ | ⟨rfl, ho⟩)
      · exact ⟨.inr hmem, hne, ho⟩
      · exact ⟨.inl rfl, hloose, ho⟩
    · rintro ⟨rfl | hmem, hne, ho⟩
      · exact .inr ⟨rfl, ho⟩
      · exact .inl ⟨hmem, hne, ho⟩
  · exact nodup_fsmHash (h.nodup order) fun hmem =>
      (hapart n ((h.hashed order n).mp hmem).1).ne rfl
  · have hlen := hperm.length_eq
    rw [length_cons, ← h.nodes] at hlen
    exact hlen.symm

end TreeInv

/-! ### Allocating from a node -/

/-- What is left of a node when the `length` blocks from `start` on are taken: the part
before, and the part behind unless it is lost. -/
def cutPieces (node : FsmNode) (start length : Nat) (keep : Bool) : List FsmNode :=
  (if node.start < start then [⟨node.start, start - node.start⟩] else []) ++
    if start + length < node.start + node.length ∧ keep = true then
      [⟨start + length, node.start + node.length - (start + length)⟩] else []

section allocate

variable {fsm : FsmInfo} {node : FsmNode} {start length : Nat}

/-- The blocks of the parts, the taken ones and the lost ones are those of the node. -/
theorem size_cutPieces (hlo : node.start ≤ start)
    (hhi : start + length ≤ node.start + node.length) (keep : Bool) :
    size (cutPieces node start length keep) + length +
      (if keep then 0 else node.start + node.length - (start + length)) = node.length := by
  unfold cutPieces
  cases keep <;> simp only [Bool.false_eq_true, and_false, and_true, if_true, if_false] <;>
    split <;> (try split) <;> simp <;> omega

/-- `fsm_allocate_from_node` with a right part that is empty or becomes the node. -/
theorem TreeInv.shrink {node' : FsmNode} (h : TreeInv fsm none) (hn : node ∈ fsm.freeArea)
    (hin : node'.Inside node) :
    OnlyTree fsm ((fsm.fsmUnhash node).fsmShrink node node') ∧
      TreeInv ((fsm.fsmUnhash node).fsmShrink node node') none ∧
      ((fsm.fsmUnhash node).fsmShrink node node').freeArea.Perm
        ((if node'.length ≠ 0 then [node'] else []) ++ fsm.freeArea.erase node) ∧
      ((fsm.fsmUnhash node).fsmShrink node node').untrackedBlocks = fsm.untrackedBlocks := by
  have hu : TreeInv (fsm.fsmUnhash node) (some node) := h.unhash
  have hapart : ∀ m ∈ fsm.freeArea.erase node, node'.Apart m := fun m hm =>
    hin.apart (((erase_iff hn).mp h.separated).2.1 m hm)
  unfold fsmShrink
  split
  · rename_i hlen
    have hset := hu.setNode hn (Nat.pos_of_ne_zero hlen) hapart
    have hperm : ((fsm.fsmUnhash node).setNode node node').freeArea.Perm
        (node' :: fsm.freeArea.erase node) := TreeInv.perm_setNode _ node node'
    exact ⟨rfl, hset.hash (hperm.mem_iff.mpr mem_cons_self), hperm, rfl⟩
  · exact ⟨rfl, hu.drop hn, List.Perm.refl _, rfl⟩

/-- **`fsm_allocate_from_node`** inside a node. -/
theorem fsmAllocateFromNode_spec (o : FsmOracle) (h : TreeInv fsm none)
    (hn : node ∈ fsm.freeArea) (hlen : 0 < length) (hlo : node.start ≤ start)
    (hhi : start + length ≤ node.start + node.length) :
    ∃ fsm' keep, fsm.fsmAllocateFromNode o node start length = .ok fsm' ∧
      OnlyTree fsm fsm' ∧ TreeInv fsm' none ∧
      fsm'.freeArea.Perm (cutPieces node start length keep ++ fsm.freeArea.erase node) ∧
      fsm'.untrackedBlocks = fsm.untrackedBlocks +
        (if keep then 0 else node.start + node.length - (start + length) : Nat) ∧
      (start = node.start → keep = true) := by
  have hmax : fsmMaxLength node start = node.start + node.length - start := by
    unfold fsmMaxLength
    omega
  simp only [fsmAllocateFromNode, hmax]
  rw [if_neg (by omega)]
  by_cases hall : length = node.start + node.length - start
  · -- up to the end of the node
    rw [if_pos hall]
    have hin : (⟨node.start, node.length - length⟩ : FsmNode).Inside node := by
      unfold Run.Inside
      simp only
      omega
    obtain ⟨honly, hinv, hperm, huntracked⟩ := h.shrink hn hin
    refine ⟨_, true, rfl, honly, hinv, ?_, by simpa using huntracked, fun _ => rfl⟩
    · refine hperm.trans (List.Perm.of_eq ?_)
      unfold cutPieces
      rw [if_neg (show ¬ (start + length < node.start + node.length ∧ true = true) by omega),
        append_nil]
      by_cases hlt : node.start < start
      · rw [if_pos hlt, if_pos (by simp only; omega)]
        have : node.length - length = start - node.start := by omega
        rw [this]
      · rw [if_neg hlt, if_neg (by simp only; omega)]
  rw [if_neg hall]
  by_cases hfirst : start = node.start
  · -- from the start of the node
    rw [if_pos hfirst]
    have hin : (⟨node.start + length, node.length - length⟩ : FsmNode).Inside node := by
      unfold Run.Inside
      simp only
      omega
    obtain ⟨honly, hinv, hperm, huntracked⟩ := h.shrink hn hin
    refine ⟨_, true, rfl, honly, hinv, ?_, by simpa using huntracked, fun _ => rfl⟩
    · refine hperm.trans (List.Perm.of_eq ?_)
      unfold cutPieces
      rw [if_pos (show node.length - length ≠ 0 by omega),
        if_neg (show ¬ node.start < start by omega), if_pos ⟨by omega, rfl⟩, hfirst]
      have : node.length - length = node.start + node.length - (node.start + length) := by omega
      rw [this]
      rfl
  rw [if_neg hfirst]
  -- in the middle
  have hhead : (⟨node.start, node.length - (node.start + node.length - start)⟩ : FsmNode) =
      ⟨node.start, start - node.start⟩ := by
    have : node.length - (node.start + node.length - start) = start - node.start := by omega
    rw [this]
  have htail : node.start + node.length - start - length =
      node.start + node.length - (start + length) := by omega
  rw [hhead, htail]
  obtain ⟨-, hapart, -⟩ := (erase_iff hn).mp h.separated
  have hset : TreeInv ((fsm.fsmUnhash node).setNode node ⟨node.start, start - node.start⟩)
      (some ⟨node.start, start - node.start⟩) := by
    refine h.unhash.setNode hn (by simp only; omega) fun m hm => ?_
    refine Run.Inside.apart ?_ (hapart m hm)
    unfold Run.Inside
    simp only
    omega
  have hperm : ((fsm.fsmUnhash node).setNode node ⟨node.start, start - node.start⟩).freeArea.Perm
      (⟨node.start, start - node.start⟩ :: fsm.freeArea.erase node) := TreeInv.perm_setNode _ _ _
  split
  · -- the tail gets a node
    have htailInv := hset.insertHash
      (n := ⟨start + length, node.start + node.length - (start + length)⟩) (by simp only; omega)
      (fun m hm => by
        rcases mem_cons.mp (hperm.mem_iff.mp hm) with rfl | hm
        · right
          simp only
          omega
        · refine Run.Inside.apart ?_ (hapart m hm)
          unfold Run.Inside
          simp only
          omega)
      (fun heq => by
        have := congrArg Run.start (some.inj heq)
        simp only at this
        omega)
    have hperm' := (TreeInv.perm_insertNode
      ((fsm.fsmUnhash node).setNode node ⟨node.start, start - node.start⟩)
      (⟨start + length, node.start + node.length - (start + length)⟩ : FsmNode)).trans
      (hperm.cons _)
    refine ⟨_, true, rfl, rfl, htailInv.hash (hperm'.mem_iff.mpr (by simp)), ?_, ?_,
      fun _ => rfl⟩
    · refine hperm'.trans ?_
      unfold cutPieces
      rw [if_pos (by omega), if_pos ⟨by omega, rfl⟩]
      exact List.Perm.swap _ _ _
    · simp [fsmHash, insertNode, setNode, fsmUnhash]
  · -- the tail is lost
    refine ⟨_, false, rfl, rfl, (hset.addUntracked _).hash (hperm.mem_iff.mpr mem_cons_self),
      ?_, rfl, fun h => absurd h hfirst⟩
    refine hperm.trans (List.Perm.of_eq ?_)
    unfold cutPieces
    rw [if_pos (by omega), if_neg (by simp), append_nil]
    rfl

end allocate

/-! ### Merging with adjacent nodes -/

/-- The blocks of a volume whose block numbers and lengths are 32-bit numbers. -/
def blocks32 : Finset Nat := Finset.range (2 ^ 32 - 1)

theorem stop_lt_of_covered {l : List FsmNode} {n : FsmNode} (hpos : 0 < n.length)
    (hn : n ∈ l) (h : covered l ⊆ blocks32) : n.start + n.length < 2 ^ 32 := by
  have hlast : n.start + n.length - 1 ∈ covered l :=
    mem_covered.mpr ⟨n, hn, by unfold Run.Has; omega⟩
  have := Finset.mem_range.mp (h hlast)
  omega

section merge

variable {l : List FsmNode} {g cur r : FsmNode}

section

variable (hsep : Separated l) (hsorted : l.Pairwise fun a b => a.start ≤ b.start)
  (hclear : Clear g l)

include hsep hsorted hclear

/-- The node before a range is the tree's predecessor of the node behind it. -/
theorem fsmPrev_of_touch (hcur : g.start + g.length = cur.start) (hg : 0 < g.length) (hr : r ∈ l)
    (htouch : r.start + r.length = g.start) : fsmPrev l cur = some r := by
  have hmem : r ∈ l.filter fun n => n.start < cur.start :=
    mem_filter.mpr ⟨hr, by simp only [decide_eq_true_eq]; omega⟩
  refine getLast?_of_pairwise ((hsep.strict hsorted).filter _) hmem fun m hm hrm => ?_
  -- a node between them would lie in the range
  obtain ⟨hml, hlt⟩ := mem_filter.mp hm
  rw [decide_eq_true_eq] at hlt
  have hpos := hsep.pos m hml
  have hgm := hclear m hml
  omega

/-- The node behind a range is the tree's successor of the node before it. -/
theorem fsmNext_of_touch (hmcur : cur ∈ l) (hcur : cur.start + cur.length = g.start)
    (hg : 0 < g.length) (hr : r ∈ l) (htouch : g.start + g.length = r.start) :
    fsmNext l cur = some r := by
  have hmem : r ∈ l.filter fun n => cur.start < n.start :=
    mem_filter.mpr ⟨hr, by simp only [decide_eq_true_eq]; omega⟩
  refine head?_of_pairwise ((hsep.strict hsorted).filter _) hmem fun m hm hmr => ?_
  obtain ⟨hml, hlt⟩ := mem_filter.mp hm
  rw [decide_eq_true_eq] at hlt
  have hcm := hsep.apart_of_mem hmcur hml (by rintro rfl; omega)
  have hgm := hclear m hml
  unfold Run.Apart at hcm
  omega

end

/-- What a merge gives: the node `cur` becomes `cur'`, the range, the old node and the
dropped one together. -/
structure Merged (l : List FsmNode) (g cur cur' : FsmNode) (drop : Option FsmNode) : Prop where
  mem : cur ∈ l
  mem_drop : ∀ d, drop = some d → d ∈ l.erase cur
  separated : Separated (cur' :: (drop.elim l l.erase).erase cur)
  has_iff : ∀ x, cur'.Has x ↔ cur.Has x ∨ g.Has x ∨ ∃ d, drop = some d ∧ d.Has x

section

variable (hsep : Separated l) (hsorted : l.Pairwise fun a b => a.start ≤ b.start)
  (hclear : Clear g l) (hg : 0 < g.length) (hcur : cur ∈ l) (hfits : covered (g :: l) ⊆ blocks32)

include hsep hsorted hclear hg hcur hfits

/-- A merge with the node behind the range. -/
theorem fsmFrontMerge_merged (htouch : g.start + g.length = cur.start) :
    Merged l g cur (fsmFrontMerge l cur g.length).1 (fsmFrontMerge l cur g.length).2 := by
  have hstart : cur.start - g.length = g.start := by omega
  have hp := perm_cons_erase hcur
  have hright := (hsep.perm hp).merge_right (fun m hm => hclear m (hp.mem_iff.mpr hm)) htouch
  have hrest := ((erase_iff hcur).mp hsep).2.2
  -- nothing touches the start of the range
  have hsimple : (∀ r ∈ l, r.start + r.length ≠ g.start) →
      Merged l g cur ⟨g.start, cur.length + g.length⟩ none := by
    intro hno
    refine ⟨hcur, nofun, ?_, fun x => ?_⟩
    · rw [Nat.add_comm]
      exact hrest.insert (by simp only; omega) hright.1
        (fun m hm => hno m (mem_of_mem_erase hm)) hright.2
    · simp only [Run.Has, reduceCtorEq, false_and, exists_false, or_false]
      omega
  have hstop := stop_lt_of_covered (hsep.pos cur hcur) (mem_cons_of_mem g hcur) hfits
  have hlen : (cur.length + g.length) % 2 ^ 32 = cur.length + g.length :=
    Nat.mod_eq_of_lt (by omega)
  unfold fsmFrontMerge
  cases hprev : fsmPrev l cur with
  | none =>
    simp only [hstart, hlen]
    refine hsimple fun r hr heq => ?_
    rw [fsmPrev_of_touch hsep hsorted hclear htouch hg hr heq] at hprev
    cases hprev
  | some prev =>
    simp only [hstart, hlen]
    split
    · rename_i hadj
      have hpl : prev ∈ l := mem_of_mem_filter (mem_of_getLast? hprev)
      have hne : prev ≠ cur := by
        rintro rfl
        have := hsep.pos prev hpl
        omega
      have hpe : prev ∈ l.erase cur := (hsep.nodup.mem_erase_iff).mpr ⟨hne, hpl⟩
      have hps := hsep.pos prev hpl
      refine ⟨hcur, fun d hd => ?_, ?_, fun x => ?_⟩
      · rwa [← some.inj hd]
      · -- first the node behind, then the node before
        have hp' := perm_cons_erase hpe
        obtain ⟨hclear', hleft'⟩ := (hrest.perm hp').merge_left
          (fun m hm => hright.1 m (hp'.mem_iff.mpr hm)) hadj
        have hins := ((erase_iff hpe).mp hrest).2.2.insert
          (g := ⟨prev.start, prev.length + (g.length + cur.length)⟩) (by simp only; omega) hclear'
          hleft' (fun m hm => by
            have := hright.2 m (mem_of_mem_erase hm)
            simp only
            omega)
        have heq : (⟨g.start - prev.length,
            (cur.length + g.length + prev.length) % 2 ^ 32⟩ : FsmNode) =
            ⟨prev.start, prev.length + (g.length + cur.length)⟩ := by
          have h1 : g.start - prev.length = prev.start := by omega
          have h2 : (cur.length + g.length + prev.length) % 2 ^ 32 =
              prev.length + (g.length + cur.length) := by omega
          rw [h1, h2]
        rw [heq, elim_some, erase_comm]
        exact hins
      · simp only [Run.Has, some.injEq, exists_eq_left']
        omega
    · rename_i hadj
      refine hsimple fun r hr heq => hadj ?_
      rw [fsmPrev_of_touch hsep hsorted hclear htouch hg hr heq, some.injEq] at hprev
      rw [← hprev, heq]

/-- A merge with the node before the range. -/
theorem fsmBackMerge_merged (htouch : cur.start + cur.length = g.start) :
    Merged l g cur (fsmBackMerge l cur g.length).1 (fsmBackMerge l cur g.length).2 := by
  have hp := perm_cons_erase hcur
  have hleft := (hsep.perm hp).merge_left (fun m hm => hclear m (hp.mem_iff.mpr hm)) htouch
  have hrest := ((erase_iff hcur).mp hsep).2.2
  have hcpos := hsep.pos cur hcur
  -- nothing touches the end of the range
  have hsimple : (∀ r ∈ l, r.start ≠ g.start + g.length) →
      Merged l g cur ⟨cur.start, cur.length + g.length⟩ none := by
    intro hno
    refine ⟨hcur, nofun, ?_, fun x => ?_⟩
    · refine hrest.insert (by simp only; omega) hleft.1 hleft.2 fun m hm => ?_
      have := hno m (mem_of_mem_erase hm)
      simp only
      omega
    · simp only [Run.Has, reduceCtorEq, false_and, exists_false, or_false]
      omega
  have hstop := stop_lt_of_covered hg mem_cons_self hfits
  have hlen : (cur.length + g.length) % 2 ^ 32 = cur.length + g.length :=
    Nat.mod_eq_of_lt (by omega)
  unfold fsmBackMerge
  cases hnext : fsmNext l cur with
  | none =>
    simp only [hlen]
    refine hsimple fun r hr heq => ?_
    rw [fsmNext_of_touch hsep hsorted hclear hcur htouch hg hr heq.symm] at hnext
    cases hnext
  | some next =>
    simp only [hlen]
    split
    · rename_i hadj
      have hnl : next ∈ l := mem_of_mem_filter (mem_of_head? hnext)
      have hnstop := stop_lt_of_covered (hsep.pos next hnl) (mem_cons_of_mem g hnl) hfits
      have hjoin : (cur.length + g.length + next.length) % 2 ^ 32 =
          cur.length + g.length + next.length := Nat.mod_eq_of_lt (by omega)
      rw [hjoin]
      have hne : next ≠ cur := by
        rintro rfl
        omega
      have hne' : next ∈ l.erase cur := (hsep.nodup.mem_erase_iff).mpr ⟨hne, hnl⟩
      refine ⟨hcur, fun d hd => ?_, ?_, fun x => ?_⟩
      · rwa [← some.inj hd]
      · -- first the node before, then the node behind
        have hp' := perm_cons_erase hne'
        obtain ⟨hclear', hright'⟩ := (hrest.perm hp').merge_right
          (fun m hm => hleft.1 m (hp'.mem_iff.mpr hm)) hadj
        rw [elim_some, erase_comm]
        exact ((erase_iff hne').mp hrest).2.2.insert (by simp only; omega) hclear'
          (fun m hm => hleft.2 m (mem_of_mem_erase hm)) hright'
      · have := hsep.pos next hnl
        simp only [Run.Has, some.injEq, exists_eq_left']
        omega
    · rename_i hadj
      refine hsimple fun r hr heq => hadj ?_
      rw [fsmNext_of_touch hsep hsorted hclear hcur htouch hg hr heq.symm,
        some.injEq] at hnext
      rw [← hnext, heq]
      omega

end

/-- **The search**: the range touches no node, or it is merged. -/
theorem fsmTouch_cases (o : FsmOracle) (hsep : Separated l)
    (hsorted : l.Pairwise fun a b => a.start ≤ b.start) (hclear : Clear g l)
    (hg : 0 < g.length) (hfits : covered (g :: l) ⊆ blocks32) :
    (fsmTouch o l g.start g.length = none ∧ Separated (g :: l)) ∨
      ∃ cur cur' drop, fsmTouch o l g.start g.length = some (cur, cur', drop) ∧
        Merged l g cur cur' drop := by
  have hfront : ∀ {cur}, (l.find? fun cur => g.start + g.length = cur.start) = some cur →
      Merged l g cur (fsmFrontMerge l cur g.length).1 (fsmFrontMerge l cur g.length).2 :=
    fun h => fsmFrontMerge_merged hsep hsorted hclear hg (mem_of_find?_eq_some h) hfits
      (by simpa using find?_some h)
  have hback : ∀ {cur}, (l.find? fun cur => cur.start + cur.length = g.start) = some cur →
      Merged l g cur (fsmBackMerge l cur g.length).1 (fsmBackMerge l cur g.length).2 :=
    fun h => fsmBackMerge_merged hsep hsorted hclear hg (mem_of_find?_eq_some h) hfits
      (by simpa using find?_some h)
  unfold fsmTouch
  cases hf : (l.find? fun cur => g.start + g.length = cur.start) with
  | none =>
    cases hb : (l.find? fun cur => cur.start + cur.length = g.start) with
    | none =>
      refine .inl ⟨rfl, hsep.insert hg hclear (fun r hr => ?_) fun r hr => ?_⟩
      · simpa using find?_eq_none.mp hb r hr
      · have := find?_eq_none.mp hf r hr
        simp only [decide_eq_true_eq] at this
        exact Ne.symm this
    | some cur => exact .inr ⟨cur, _, _, rfl, hback hb⟩
  | some cur =>
    cases hb : (l.find? fun cur => cur.start + cur.length = g.start) with
    | none => exact .inr ⟨cur, _, _, rfl, hfront hf⟩
    | some cur' =>
      split
      · exact .inr ⟨cur, _, _, rfl, hfront hf⟩
      · exact .inr ⟨cur', _, _, rfl, hback hb⟩

/-- A clear range intersects no node. -/
theorem not_any_fsmIntersects (hclear : Clear g l) (hg : 0 < g.length) :
    ¬ (l.any (fsmIntersects · g.start g.length) = true) := by
  rw [any_eq_true]
  rintro ⟨r, hr, hint⟩
  have hc := hclear r hr
  simp only [fsmIntersects, Bool.or_eq_true, Bool.and_eq_true, decide_eq_true_eq] at hint
  omega

end merge

/-! ### Committing and releasing an extent -/

/-- The blocks of a merged tree. -/
theorem Merged.covered_eq {l : List FsmNode} {g cur cur' : FsmNode} {drop : Option FsmNode}
    (h : Merged l g cur cur' drop) (hsep : Separated l) :
    covered (cur' :: (drop.elim l l.erase).erase cur) =
      covered l ∪ Finset.Ico g.start (g.start + g.length) := by
  ext x
  have hmem : ∀ m, m ∈ (drop.elim l l.erase).erase cur ↔
      m ∈ l ∧ m ≠ cur ∧ drop ≠ some m := by
    intro m
    cases drop with
    | none =>
      rw [elim_none, hsep.nodup.mem_erase_iff]
      simp [and_comm]
    | some d =>
      rw [elim_some, (hsep.nodup.erase d).mem_erase_iff, hsep.nodup.mem_erase_iff]
      simp only [ne_eq, some.injEq]
      constructor
      · rintro ⟨h1, h2, h3⟩
        exact ⟨h3, h1, fun heq => h2 heq.symm⟩
      · rintro ⟨h1, h2, h3⟩
        exact ⟨h2, fun heq => h3 heq.symm, h1⟩
  rw [mem_union, mem_covered, mem_covered, mem_Ico]
  constructor
  · rintro ⟨m, hm, hx⟩
    rcases mem_cons.mp hm with rfl | hm
    · rcases (h.has_iff x).mp hx with hx | hx | ⟨d, hd, hx⟩
      · exact .inl ⟨cur, h.mem, hx⟩
      · exact .inr hx
      · exact .inl ⟨d, mem_of_mem_erase (h.mem_drop d hd), hx⟩
    · exact .inl ⟨m, ((hmem m).mp hm).1, hx⟩
  · rintro (⟨m, hm, hx⟩ | hx)
    · by_cases hcur : m = cur
      · rw [hcur] at hx
        exact ⟨cur', mem_cons_self, (h.has_iff x).mpr (.inl hx)⟩
      · by_cases hd : drop = some m
        · exact ⟨cur', mem_cons_self, (h.has_iff x).mpr (.inr (.inr ⟨m, hd, hx⟩))⟩
        · exact ⟨m, mem_cons_of_mem _ ((hmem m).mpr ⟨hm, hcur, hd⟩), hx⟩
    · exact ⟨cur', mem_cons_self, (h.has_iff x).mpr (.inr (.inl hx))⟩

/-- Two nodes may be unhashed in either order. -/
theorem FsmInfo.fsmUnhash_fsmUnhash_fsmDrop (fsm : FsmInfo) (cur d : FsmNode) :
    ((fsm.fsmUnhash cur).fsmUnhash d).fsmDrop d = ((fsm.fsmUnhash d).fsmDrop d).fsmUnhash cur := by
  simp only [fsmUnhash, fsmDrop, erase_comm cur d]

/-- **One round of `fsm_commit_free_space`**: the extent is tracked now, or counted as
untracked. -/
theorem fsmCommitNode_spec (o : FsmOracle) {fsm : FsmInfo} {node : FsmNode}
    (h : TreeInv fsm none) (hpos : 0 < node.length)
    (hdisj : ∀ x, node.Has x → x ∉ covered fsm.freeArea)
    (hfits : covered (node :: fsm.freeArea) ⊆ blocks32) :
    OnlyTree { fsm with freeBlocksCount := fsm.freeBlocksCount + node.length }
        (fsm.fsmCommitNode o node) ∧
      TreeInv (fsm.fsmCommitNode o node) none ∧
      ((covered (fsm.fsmCommitNode o node).freeArea =
            covered fsm.freeArea ∪ Finset.Ico node.start (node.start + node.length) ∧
          (fsm.fsmCommitNode o node).untrackedBlocks = fsm.untrackedBlocks) ∨
        (covered (fsm.fsmCommitNode o node).freeArea = covered fsm.freeArea ∧
          (fsm.fsmCommitNode o node).untrackedBlocks = fsm.untrackedBlocks + node.length)) := by
  have hclear : Clear node fsm.freeArea := h.separated.clear hpos hdisj
  unfold fsmCommitNode
  rw [if_neg (not_any_fsmIntersects hclear hpos)]
  have h1 : TreeInv { fsm with freeBlocksCount := fsm.freeBlocksCount + node.length } none :=
    ⟨h.separated, h.sorted, h.hashed, h.nodup, h.nodes⟩
  rcases fsmTouch_cases o h.separated h.sorted hclear hpos hfits with
    ⟨htouch, hins⟩ | ⟨cur, cur', drop, htouch, hm⟩
  · simp only [htouch]
    split
    · -- a node of its own
      have hapart := (cons_iff.mp hins).2.1
      refine ⟨rfl, h1.insertHash hpos hapart nofun, .inl ⟨?_, rfl⟩⟩
      have hperm := TreeInv.perm_insertNode
        { fsm with freeBlocksCount := fsm.freeBlocksCount + node.length } node
      exact (covered_perm hperm).trans (union_comm _ _)
    · exact ⟨rfl, h1.addUntracked _, .inr ⟨rfl, rfl⟩⟩
  · have hcov := hm.covered_eq h.separated
    cases drop with
    | none =>
      simp only [htouch]
      obtain ⟨hlen, hapart, -⟩ := cons_iff.mp hm.separated
      have hset := (h1.unhash (n := cur)).setNode hm.mem hlen hapart
      have hperm := TreeInv.perm_setNode
        (fsmUnhash { fsm with
          freeBlocksCount := fsm.freeBlocksCount + node.length } cur) cur cur'
      refine ⟨rfl, hset.hash (hperm.mem_iff.mpr mem_cons_self), .inl ⟨?_, rfl⟩⟩
      exact (covered_perm hperm).trans hcov
    | some d =>
      simp only [htouch]
      have hd : d ∈ fsm.freeArea := mem_of_mem_erase (hm.mem_drop d rfl)
      have hcur : cur ∈ fsm.freeArea.erase d := by
        have hne := ((h.separated.nodup.mem_erase_iff).mp (hm.mem_drop d rfl)).1
        exact (h.separated.nodup.mem_erase_iff).mpr ⟨Ne.symm hne, hm.mem⟩
      obtain ⟨hlen, hapart, -⟩ := cons_iff.mp hm.separated
      rw [fsmUnhash_fsmUnhash_fsmDrop]
      have hset := ((h1.unhash.drop hd).unhash (n := cur)).setNode hcur hlen hapart
      have hperm := TreeInv.perm_setNode
        (((fsmUnhash { fsm with
          freeBlocksCount := fsm.freeBlocksCount + node.length } d).fsmDrop d).fsmUnhash cur)
        cur cur'
      refine ⟨rfl, hset.hash (hperm.mem_iff.mpr mem_cons_self), .inl ⟨?_, rfl⟩⟩
      exact (covered_perm hperm).trans hcov

/-- `fsm_commit_free_space` on a list of extents apart from each other and from the tree:
each is tracked or counted as untracked. -/
theorem foldl_fsmCommitNode_spec (o : FsmOracle) {fsm : FsmInfo} {nodes : List FsmNode}
    (h : TreeInv fsm none) (hnodes : Separated nodes)
    (hdisj : ∀ x ∈ covered nodes, x ∉ covered fsm.freeArea)
    (hfits : covered fsm.freeArea ∪ covered nodes ⊆ blocks32) :
    ∃ fsm', nodes.foldl (fsmCommitNode o) fsm = fsm' ∧
      OnlyTree { fsm with freeBlocksCount := fsm.freeBlocksCount + size nodes } fsm' ∧
      TreeInv fsm' none ∧ covered fsm'.freeArea ⊆ covered fsm.freeArea ∪ covered nodes ∧
      (size fsm'.freeArea : Int) + fsm'.untrackedBlocks =
        size fsm.freeArea + fsm.untrackedBlocks + size nodes ∧
      fsm.untrackedBlocks ≤ fsm'.untrackedBlocks := by
  induction nodes generalizing fsm with
  | nil =>
    refine ⟨fsm, rfl, ?_, h, subset_union_left, by simp, le_rfl⟩
    simp [OnlyTree]
  | cons node nodes ih =>
    obtain ⟨hpos, hapart, hrest⟩ := cons_iff.mp hnodes
    have hnode : ∀ x, node.Has x → x ∉ covered fsm.freeArea := fun x hx =>
      hdisj x (mem_covered.mpr ⟨node, mem_cons_self, hx⟩)
    rw [covered_cons] at hfits
    obtain ⟨harea, hnew⟩ := union_subset_iff.mp hfits
    obtain ⟨hhead, htail⟩ := union_subset_iff.mp hnew
    obtain ⟨honly, hinv, hcases⟩ := fsmCommitNode_spec o h hpos hnode
      (covered_cons ▸ union_subset hhead harea)
    have hsub : covered (fsm.fsmCommitNode o node).freeArea ⊆
        covered fsm.freeArea ∪ Finset.Ico node.start (node.start + node.length) := by
      rcases hcases with ⟨hcov, -⟩ | ⟨hcov, -⟩ <;> rw [hcov]
      exact subset_union_left
    have hsize : (size (fsm.fsmCommitNode o node).freeArea : Int) +
        (fsm.fsmCommitNode o node).untrackedBlocks =
        size fsm.freeArea + fsm.untrackedBlocks + node.length := by
      rw [← hinv.separated.card_covered, ← h.separated.card_covered]
      rcases hcases with ⟨hcov, hun⟩ | ⟨hcov, hun⟩ <;> rw [hcov, hun]
      · rw [card_union_of_disjoint, Nat.card_Ico]
        · omega
        · rw [Finset.disjoint_right]
          exact fun x hx => hnode x (mem_Ico.mp hx)
      · omega
    have hun : fsm.untrackedBlocks ≤ (fsm.fsmCommitNode o node).untrackedBlocks := by
      rcases hcases with ⟨-, hun⟩ | ⟨-, hun⟩ <;> rw [hun]
      omega
    -- the remaining extents are apart from the node just added
    have hdisj' : ∀ x ∈ covered nodes, x ∉ covered (fsm.fsmCommitNode o node).freeArea := by
      intro x hx hmem
      obtain ⟨b, hb, hbx⟩ := mem_covered.mp hx
      rcases mem_union.mp (hsub hmem) with hmem | hmem
      · exact hdisj x (mem_covered.mpr ⟨b, mem_cons_of_mem _ hb, hbx⟩) hmem
      · exact (hapart b hb).not_has (mem_Ico.mp hmem) hbx
    obtain ⟨fsm', hfold, honly', hinv', hsub', hsize', hun'⟩ := ih hinv hrest hdisj'
      (union_subset (hsub.trans (union_subset harea hhead)) htail)
    refine ⟨fsm', hfold, ?_, hinv', fun x hx => ?_, ?_, hun.trans hun'⟩
    · unfold OnlyTree at honly honly' ⊢
      rw [honly', honly]
      simp only [size_cons, Int.natCast_add, Int.add_assoc]
    · rcases mem_union.mp (hsub' hx) with hx | hx
      · rcases mem_union.mp (hsub hx) with hx | hx
        · exact mem_union_left _ hx
        · refine mem_union_right _ ?_
          rw [covered_cons]
          exact mem_union_left _ hx
      · refine mem_union_right _ ?_
        rw [covered_cons]
        exact mem_union_right _ hx
    · rw [size_cons]
      omega

/-- A value put in the place of another one. -/
theorem perm_replace {l : List FsmNode} {a : FsmNode} (ha : a ∈ l) (b : FsmNode) :
    (l.replace a b).Perm (b :: l.erase a) := by
  induction l with
  | nil => cases ha
  | cons c l ih =>
    by_cases hc : a = c
    · subst hc
      simp
    · have hmem : a ∈ l := (mem_cons.mp ha).resolve_left hc
      have hbeq : (c == a) = false := by simpa using Ne.symm hc
      have hbeq' : (a == c) = false := by simpa using hc
      rw [replace_cons, hbeq', erase_cons, hbeq]
      exact ((ih hmem).cons c).trans (List.Perm.swap _ _ _)

/-- Only the extents freed at the next commit are changed. -/
def OnlyNext (fsm fsm' : FsmInfo) : Prop :=
  fsm' = { fsm with
    nextFreeList := fsm'.nextFreeList
    nextFreeNodes := fsm'.nextFreeNodes
    nextFreeBlocks := fsm'.nextFreeBlocks
    untrackedNextFree := fsm'.untrackedNextFree }

/-- The extents freed at the next commit. -/
structure NextInv (fsm : FsmInfo) : Prop where
  /-- nodes are nonempty, disjoint and never adjacent -/
  separated : Separated fsm.nextFreeList
  /-- the counters -/
  nodes : fsm.nextFreeNodes = fsm.nextFreeList.length
  blocks : (size fsm.nextFreeList : Int) + fsm.untrackedNextFree = fsm.nextFreeBlocks

/-- **`fsm_add_free_space`** of a range that is not pending: it is pending now, or counted
as untracked when a node of its own could not be allocated. -/
theorem fsmAddFreeSpace_spec (o : FsmOracle) {fsm : FsmInfo} {g : FsmNode} (h : NextInv fsm)
    (hpos : 0 < g.length) (hdisj : ∀ x, g.Has x → x ∉ covered fsm.nextFreeList)
    (hfits : covered (g :: fsm.nextFreeList) ⊆ blocks32) :
    ∃ fsm', fsm.fsmAddFreeSpace o g.start g.length = fsm' ∧ OnlyNext fsm fsm' ∧ NextInv fsm' ∧
      fsm'.nextFreeBlocks = fsm.nextFreeBlocks + g.length ∧
      ((covered fsm'.nextFreeList =
            covered fsm.nextFreeList ∪ Finset.Ico g.start (g.start + g.length) ∧
          fsm'.untrackedNextFree = fsm.untrackedNextFree) ∨
        (o.allocNode g.start = false ∧ fsm'.nextFreeList = fsm.nextFreeList ∧
          fsm'.untrackedNextFree = fsm.untrackedNextFree + g.length)) := by
  have hperm : (treeOrder fsm.nextFreeList).Perm fsm.nextFreeList := perm_insertionSort _ _
  have hsep : Separated (treeOrder fsm.nextFreeList) := h.separated.perm hperm.symm
  have hsorted : (treeOrder fsm.nextFreeList).Pairwise fun a b => a.start ≤ b.start :=
    pairwise_insertionSort _ _
  have hclear : Clear g (treeOrder fsm.nextFreeList) :=
    hsep.clear hpos fun x hx => by
      rw [covered_perm hperm]
      exact hdisj x hx
  -- the new list has the blocks of the range more
  have hblocks : ∀ {l : List FsmNode}, Separated l →
      covered l = covered fsm.nextFreeList ∪ Finset.Ico g.start (g.start + g.length) →
      (size l : Int) + fsm.untrackedNextFree = fsm.nextFreeBlocks + g.length := by
    intro l hl hcov
    rw [← hl.card_covered, hcov, card_union_of_disjoint, Nat.card_Ico,
      h.separated.card_covered, ← h.blocks]
    · omega
    · rw [Finset.disjoint_right]
      exact fun x hx => hdisj x (mem_Ico.mp hx)
  unfold fsmAddFreeSpace
  rw [if_neg (not_any_fsmIntersects hclear hpos)]
  rcases fsmTouch_cases o hsep hsorted hclear hpos (covered_perm (hperm.cons g) ▸ hfits) with
    ⟨htouch, hins⟩ | ⟨cur, cur', drop, htouch, hm⟩
  · rw [htouch]
    simp only
    split
    · have hlist : Separated (fsm.nextFreeList ++ [g]) :=
        hins.perm ((hperm.cons g).trans (perm_append_singleton _ _).symm)
      have hcov : covered (fsm.nextFreeList ++ [g]) =
          covered fsm.nextFreeList ∪ Finset.Ico g.start (g.start + g.length) := by
        rw [covered_perm (perm_append_singleton _ _), covered_cons, union_comm]
      exact ⟨_, rfl, rfl, ⟨hlist, by simp [h.nodes], hblocks hlist hcov⟩, rfl, .inl ⟨hcov, rfl⟩⟩
    · rename_i halloc
      refine ⟨_, rfl, rfl, ⟨h.separated, h.nodes, ?_⟩, rfl,
        .inr ⟨by simpa using halloc, rfl, rfl⟩⟩
      simp only [← h.blocks]
      omega
  · have hcov := hm.covered_eq hsep
    rw [covered_perm hperm] at hcov
    have hcur : cur ∈ fsm.nextFreeList := hperm.mem_iff.mp hm.mem
    cases drop with
    | none =>
      have hlist : (fsm.nextFreeList.replace cur cur').Perm
          (cur' :: (treeOrder fsm.nextFreeList).erase cur) :=
        (perm_replace hcur cur').trans ((hperm.symm.erase cur).cons cur')
      have hsep' := hm.separated.perm hlist.symm
      have hcov' := (covered_perm hlist).trans hcov
      rw [htouch]
      refine ⟨_, rfl, rfl, ⟨hsep', ?_, hblocks hsep' hcov'⟩, rfl, .inl ⟨hcov', rfl⟩⟩
      have hlen := (perm_replace hcur cur').length_eq
      rw [length_cons, length_erase_of_mem hcur] at hlen
      have := length_pos_of_mem hcur
      simp only [h.nodes]
      omega
    | some d =>
      have hdt := hm.mem_drop d rfl
      have hd : d ∈ fsm.nextFreeList := hperm.mem_iff.mp (mem_of_mem_erase hdt)
      have hcd : cur ∈ fsm.nextFreeList.erase d := by
        have hne := ((hsep.nodup.mem_erase_iff).mp hdt).1
        exact (h.separated.nodup.mem_erase_iff).mpr ⟨Ne.symm hne, hcur⟩
      have hlist : ((fsm.nextFreeList.erase d).replace cur cur').Perm
          (cur' :: ((treeOrder fsm.nextFreeList).erase d).erase cur) :=
        (perm_replace hcd cur').trans (((hperm.symm.erase d).erase cur).cons cur')
      have hsep' := hm.separated.perm hlist.symm
      have hcov' := (covered_perm hlist).trans hcov
      rw [htouch]
      refine ⟨_, rfl, rfl, ⟨hsep', ?_, hblocks hsep' hcov'⟩, rfl, .inl ⟨hcov', rfl⟩⟩
      have hlen := (perm_replace hcd cur').length_eq
      rw [length_cons, length_erase_of_mem hcd, length_erase_of_mem hd] at hlen
      have := length_pos_of_mem hcd
      rw [length_erase_of_mem hd] at this
      simp only [h.nodes]
      omega

end Vdfs4
