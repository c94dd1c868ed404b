import Vdfs4.Fsm.Manager
import Vdfs4.Fsm.TreeInvariant

/-!
# Building the tree from the bitmap

`fsm_build_tree` scans the bitmap block by block and appends every piece of free space to
the tree. A piece ends at a set bit **or at the end of a bitmap block**; the next piece is
joined to the node before it, if that one exists.

* `Pieces` — the scan goes through the bitmap from 0 to the end, piece by piece.
* `BuildInv` — what the tree is after the pieces up to a block: its blocks are free, all
  free blocks are tracked or counted, a node **ends** at a set bit, and a node **begins**
  behind a set bit unless a node could not be allocated before.
* `fsmBuildTree_spec` — the invariant at the end of the scan.
-/

namespace Vdfs4

open Nat hiding eq_zero_or_pos
open RunSet Bitmap Finset
open FsmInfo (addUntracked fsmBuildPiece setNode)

/-! ### The scan -/

/-- What a piece is. -/
structure PieceOk (g : FsmGeometry) (data : Bitmap) (p : ScanPiece) : Prop where
  le_freeStart : p.dataStart ≤ p.freeStart
  freeStart_le : p.freeStart ≤ p.stop
  lt_stop : p.dataStart < p.stop
  stop_le : p.stop ≤ g.volumeBlocksCount
  set : ∀ x, p.dataStart ≤ x → x < p.freeStart → data x = true
  clear : ∀ x, p.freeStart ≤ x → x < p.stop → data x = false
  /-- free space up to the end of the volume, a set bit or the end of a bitmap block -/
  stop_cases : p.stop = g.volumeBlocksCount ∨ data p.stop = true ∨ g.bitBlksize ∣ p.stop
  /-- no piece crosses the end of a bitmap block -/
  not_dvd : ∀ x, p.dataStart < x → x < p.stop → ¬ g.bitBlksize ∣ x

/-- Pieces from block `d` to the end of the volume, each where the one before stops. -/
inductive Pieces (g : FsmGeometry) (data : Bitmap) : Nat → List ScanPiece → Prop
  | nil : Pieces g data g.volumeBlocksCount []
  | cons {d : Nat} {p : ScanPiece} {rest : List ScanPiece} : p.dataStart = d →
      PieceOk g data p → Pieces g data p.stop rest → Pieces g data d (p :: rest)

theorem FsmGeometry.bitBlksize_pos (g : FsmGeometry) : 0 < g.bitBlksize := by
  have := g.blockSize_gt
  unfold FsmGeometry.bitBlksize
  omega

/-- One round of the scan inside a bitmap block. -/
theorem scanRound_ok {g : FsmGeometry} (hdvd : g.bitBlksize ∣ blockStart)
    (hlo : blockStart ≤ dataStart)
    (hhi : dataStart < blockStart + min g.bitBlksize (g.volumeBlocksCount - blockStart))
    (size : Nat) (hsize : size = min g.bitBlksize (g.volumeBlocksCount - blockStart))
    (freeStart : Nat)
    (hfree : freeStart = blockStart + findNextZeroBit (fun i => data (blockStart + i)) size
      (dataStart - blockStart))
    (stop : Nat)
    (hstop : stop = blockStart + findNextBit (fun i => data (blockStart + i)) size
      (freeStart - blockStart)) :
    PieceOk g data ⟨dataStart, freeStart, stop⟩ ∧ stop ≤ blockStart + size ∧
      (stop < blockStart + size → data stop = true) := by
  -- the two searches, relative to the start of the block
  obtain ⟨i, hi⟩ : ∃ i, findNextZeroBit (fun i => data (blockStart + i)) size
      (dataStart - blockStart) = i := ⟨_, rfl⟩
  have hi_le : i ≤ size := hi ▸ findNext_le_size _
  have hle_i : dataStart - blockStart ≤ i := hi ▸ le_findNext _ (by omega)
  have hi_set : ∀ x, dataStart - blockStart ≤ x → x < i → data (blockStart + x) = true := by
    intro x hx hxi
    have := findNext_false_of_lt (fun i => !data (blockStart + i)) hx (hi ▸ hxi)
    simpa using this
  rw [hi] at hfree
  obtain ⟨j, hj⟩ : ∃ j, findNextBit (fun i => data (blockStart + i)) size
      (freeStart - blockStart) = j := ⟨_, rfl⟩
  have hfi : freeStart - blockStart = i := by omega
  rw [hfi] at hj
  have hj_le : j ≤ size := hj ▸ findNext_le_size _
  have hle_j : i ≤ j := hj ▸ le_findNext _ hi_le
  have hj_clear : ∀ x, i ≤ x → x < j → data (blockStart + x) = false := fun x hx hxj =>
    findNext_false_of_lt (fun i => data (blockStart + i)) hx (hj ▸ hxj)
  have hj_hit : j < size → data (blockStart + j) = true := by
    intro hlt
    have := findNext_hit (fun i => data (blockStart + i)) (hj.symm ▸ hlt)
    rwa [show findNext (fun i => data (blockStart + i)) size i = j from hj] at this
  rw [hfi, hj] at hstop
  have hlt : dataStart - blockStart < j := by
    by_contra hge
    have hij : i = dataStart - blockStart := by omega
    have hjj : j = dataStart - blockStart := by omega
    have hset := hj_hit (by omega)
    -- the first search hit a clear bit there
    have hclear := findNext_hit (fun i => !data (blockStart + i))
      (show findNext (fun i => !data (blockStart + i)) size (dataStart - blockStart) < size by
        rw [show findNext (fun i => !data (blockStart + i)) size (dataStart - blockStart) = i
          from hi]
        omega)
    rw [show findNext (fun i => !data (blockStart + i)) size (dataStart - blockStart) = i
      from hi, hij, ← hjj, hset] at hclear
    cases hclear
  refine ⟨⟨by simp only; omega, by simp only; omega, by simp only; omega, by simp only; omega,
    fun x h1 h2 => ?_, fun x h1 h2 => ?_, ?_, fun x h1 h2 hx => ?_⟩, by omega, fun hlt' => ?_⟩
  · obtain ⟨k, rfl⟩ : ∃ k, x = blockStart + k := ⟨x - blockStart, by simp only at h1; omega⟩
    exact hi_set k (by simp only at h1; omega) (by simp only at h2; omega)
  · obtain ⟨k, rfl⟩ : ∃ k, x = blockStart + k := ⟨x - blockStart, by simp only at h1; omega⟩
    exact hj_clear k (by simp only at h1; omega) (by simp only at h2; omega)
  · simp only
    rcases lt_or_ge j size with hjs | hjs
    · right; left
      rw [hstop]
      exact hj_hit hjs
    rcases le_total g.bitBlksize (g.volumeBlocksCount - blockStart) with hle | hle
    · right; right
      have : stop = blockStart + g.bitBlksize := by omega
      rw [this]
      exact Nat.dvd_add hdvd (dvd_refl _)
    · left
      omega
  · -- the next multiple is the end of the bitmap block
    simp only at h1 h2
    have := le_of_dvd (by omega) (dvd_sub hx hdvd)
    omega
  · rw [hstop]
    exact hj_hit (by omega)

/-- The scan from inside a bitmap block on. -/
theorem fsmScan_pieces {g : FsmGeometry} {fuel : Nat}
    (hfuel : g.volumeBlocksCount < fuel + dataStart)
    (hstate : (g.bitBlksize ∣ blockStart ∧ blockStart ≤ dataStart ∧
      dataStart < blockStart + min g.bitBlksize (g.volumeBlocksCount - blockStart)) ∨
      (blockStart = g.volumeBlocksCount ∧ dataStart = g.volumeBlocksCount)) :
    Pieces g data dataStart (fsmScan g data fuel blockStart dataStart) := by
  induction fuel generalizing blockStart dataStart with
  | zero =>
    rcases hstate with ⟨-, hlo, hhi⟩ | ⟨-, rfl⟩
    · omega
    · omega
  | succ fuel ih =>
    rw [fsmScan]
    rcases hstate with ⟨hdvd, hlo, hhi⟩ | ⟨rfl, rfl⟩
    · rw [if_pos (by omega)]
      obtain ⟨size, hsize⟩ : ∃ size, size = min g.bitBlksize (g.volumeBlocksCount - blockStart) :=
        ⟨_, rfl⟩
      obtain ⟨freeStart, hfree⟩ : ∃ freeStart, freeStart = blockStart +
          findNextZeroBit (fun i => data (blockStart + i)) size (dataStart - blockStart) :=
        ⟨_, rfl⟩
      obtain ⟨stop, hstop⟩ : ∃ stop, stop = blockStart +
          findNextBit (fun i => data (blockStart + i)) size (freeStart - blockStart) :=
        ⟨_, rfl⟩
      obtain ⟨hok, hle, hhit⟩ := scanRound_ok hdvd hlo hhi size hsize freeStart hfree stop hstop
      have hlt : dataStart < stop := hok.lt_stop
      simp only [← hsize, ← hfree, ← hstop]
      refine Pieces.cons rfl hok (ih (by simp only; omega) ?_)
      simp only
      split
      · -- switch to next bitmap block
        rename_i hend
        rcases lt_or_ge (blockStart + g.bitBlksize) g.volumeBlocksCount with hlt' | hge
        · left
          have hpos := g.bitBlksize_pos
          have hnext : stop = blockStart + g.bitBlksize := by omega
          exact ⟨hnext ▸ Nat.dvd_add hdvd (dvd_refl _), le_rfl, by omega⟩
        · right
          omega
      · left
        exact ⟨hdvd, by omega, by omega⟩
    · rw [if_neg (lt_irrefl _)]
      exact Pieces.nil

/-- **The scan goes through the whole bitmap.** -/
theorem fsmPieces_pieces (g : FsmGeometry) (data : Bitmap) :
    Pieces g data 0 (fsmPieces g data) := by
  refine fsmScan_pieces (by omega) ?_
  rcases Nat.eq_zero_or_pos g.volumeBlocksCount with h | h
  · exact .inr ⟨h.symm, h.symm⟩
  · have := g.bitBlksize_pos
    exact .inl ⟨dvd_zero _, le_rfl, by omega⟩

/-! ### The tree during the scan -/

/-- The clear bits below `d`. -/
def zeroBelow (data : Bitmap) (d : Nat) : Finset Nat :=
  (Finset.range d).filter fun x => !data x

@[simp] theorem mem_zeroBelow {d x : Nat} :
    x ∈ zeroBelow data d ↔ x < d ∧ data x = false := by
  simp [zeroBelow]

/-- The clear bits of one more piece. -/
theorem zeroBelow_piece {g : FsmGeometry} {p : ScanPiece} (h : PieceOk g data p) :
    zeroBelow data p.stop = zeroBelow data p.dataStart ∪ Finset.Ico p.freeStart p.stop ∧
      (zeroBelow data p.stop).card =
        (zeroBelow data p.dataStart).card + (p.stop - p.freeStart) := by
  have hunion : zeroBelow data p.stop =
      zeroBelow data p.dataStart ∪ Finset.Ico p.freeStart p.stop := by
    ext x
    rw [mem_union, mem_zeroBelow, mem_zeroBelow, mem_Ico]
    constructor
    · rintro ⟨hlt, hx⟩
      rcases Nat.lt_or_ge x p.dataStart with hd | hd
      · exact .inl ⟨hd, hx⟩
      · refine .inr ⟨Nat.le_of_not_lt fun hf => ?_, hlt⟩
        rw [h.set x hd hf] at hx
        cases hx
    · rintro (⟨hlt, hx⟩ | ⟨hlo, hlt⟩)
      · have := h.lt_stop
        exact ⟨by omega, hx⟩
      · exact ⟨hlt, h.clear x hlo hlt⟩
  refine ⟨hunion, ?_⟩
  rw [hunion, card_union_of_disjoint, Nat.card_Ico]
  rw [disjoint_left]
  intro x hx hx'
  have h1 := (mem_zeroBelow.mp hx).1
  have h2 := (mem_Ico.mp hx').1
  have h3 := h.le_freeStart
  omega

/-- A piece of the free run that reaches up to `d` begins at `p`. -/
def PieceBefore (g : FsmGeometry) (data : Bitmap) (d p : Nat) : Prop :=
  p < d ∧ (∀ x < d, p ≤ x → data x = false) ∧ (g.bitBlksize ∣ p ∨ data (p - 1) = true)

instance (g : FsmGeometry) (data : Bitmap) (d p : Nat) : Decidable (PieceBefore g data d p) :=
  inferInstanceAs (Decidable (_ ∧ _ ∧ _))

/-- The clear bits up to a clear bit begin at zero or behind a set bit. -/
theorem exists_run_start {data : Bitmap} (a : Nat) (ha : data a = false) :
    ∃ q ≤ a, (∀ x, q ≤ x → x ≤ a → data x = false) ∧ (q = 0 ∨ data (q - 1) = true) := by
  induction a with
  | zero =>
    refine ⟨0, le_refl _, fun x _ hx => ?_, .inl rfl⟩
    obtain rfl : x = 0 := by omega
    exact ha
  | succ a ih =>
    cases hprev : data a with
    | true =>
      refine ⟨a + 1, le_refl _, fun x hx hx' => ?_, .inr hprev⟩
      obtain rfl : x = a + 1 := by omega
      exact ha
    | false =>
      obtain ⟨q, hq, hclear, hfirst⟩ := ih hprev
      refine ⟨q, by omega, fun x hx hx' => ?_, hfirst⟩
      obtain hle | heq := le_or_eq_of_le_succ hx'
      · exact hclear x hx hle
      · rw [heq]
        exact ha

/-- No node could be allocated for the pieces of the free run that reaches up to `d`. -/
def FailedBefore (g : FsmGeometry) (o : FsmOracle) (data : Bitmap) (d : Nat) : Prop :=
  ∀ p, PieceBefore g data d p → o.allocNode p = false

/-- No run of clear bits is longer than a `__u32` can say. -/
def ShortRuns (data : Bitmap) (bound : Nat) : Prop :=
  ∀ a len, a + len ≤ bound → (∀ x, a ≤ x → x < a + len → data x = false) → len < 2 ^ 32

/-- The state and the last node of `fsm_build_tree` when the bits below `d` are done. -/
structure BuildInv (g : FsmGeometry) (o : FsmOracle) (base : FsmInfo) (d : Nat)
    (s : FsmInfo × Option FsmNode) : Prop where
  frame : OnlyTree { base with freeBlocksCount := s.1.freeBlocksCount } s.1
  tree : TreeInv s.1 s.2
  nodes_le : s.1.freeAreaNodes ≤ fsmMaxFreeNodes
  /-- the last node is the rightmost one -/
  last_none : s.2 = none → s.1.freeArea = []
  last_some : ∀ n, s.2 = some n → n ∈ s.1.freeArea ∧
    ∀ m ∈ s.1.freeArea, m = n ∨ m.start + m.length < n.start
  /-- tracked blocks are free -/
  zero : covered s.1.freeArea ⊆ zeroBelow base.data d
  /-- every free block is tracked or counted -/
  free_eq : s.1.freeBlocksCount = (zeroBelow base.data d).card
  size_eq : (size s.1.freeArea : Int) + s.1.untrackedBlocks = (zeroBelow base.data d).card
  untracked_nonneg : 0 ≤ s.1.untrackedBlocks
  /-- a node ends at a set bit -/
  stop_set : ∀ n ∈ s.1.freeArea, n.start + n.length < d → base.data (n.start + n.length) = true
  /-- a node begins behind a set bit, or in a bitmap block behind a failed allocation -/
  start_cases : ∀ n ∈ s.1.freeArea, n.start = 0 ∨ base.data (n.start - 1) = true ∨
    (g.bitBlksize ∣ n.start ∧ FailedBefore g o base.data n.start ∧ o.allocNode n.start = true)
  pos_cases : d = g.volumeBlocksCount ∨ base.data d = true ∨ g.bitBlksize ∣ d
  /-- free space that ends at `d` is tracked unless a node could not be had -/
  gap : d = 0 ∨ base.data (d - 1) = true ∨ (∃ n ∈ s.1.freeArea, n.start + n.length = d) ∨
    fsmMaxFreeNodes ≤ s.1.freeAreaNodes ∨ FailedBefore g o base.data d
  /-- without failures the tree has the first free blocks -/
  first : (∀ p, o.allocNode p = true) → ∀ x ∈ zeroBelow base.data d, x ∉ covered s.1.freeArea →
    fsmMaxFreeNodes ≤ s.1.freeAreaNodes ∧ ∀ y ∈ covered s.1.freeArea, y < x

namespace BuildInv

variable {g : FsmGeometry} {o : FsmOracle} {base : FsmInfo} {d : Nat}
  {s : FsmInfo × Option FsmNode} {p : ScanPiece} {data : Bitmap} {n : FsmNode}

/-- A node ends at or before the bits that are done. -/
theorem stop_le (h : BuildInv g o base d s) (hn : n ∈ s.1.freeArea) :
    n.start + n.length ≤ d := by
  have hpos := h.tree.separated.pos n hn
  have hmem : n.start + n.length - 1 ∈ covered s.1.freeArea :=
    mem_covered.mpr ⟨n, hn, by unfold Run.Has; omega⟩
  have := (mem_zeroBelow.mp (h.zero hmem)).1
  omega

/-- Only the last node can be joined with the next piece. -/
theorem eq_last (h : BuildInv g o base d s) (hn : n ∈ s.1.freeArea)
    (hstop : n.start + n.length = d) : s.2 = some n := by
  rcases hs : s.2 with _ | last
  · rw [h.last_none hs] at hn
    cases hn
  · obtain ⟨hlast, hright⟩ := h.last_some last hs
    rcases hright n hn with rfl | hlt
    · rfl
    · have := h.stop_le hlast
      omega

section

variable (h : BuildInv g o base p.dataStart s) (hp : PieceOk g base.data p)

include h hp

/-- A piece without free space. -/
theorem skip (hnone : p.freeStart = p.stop) : BuildInv g o base p.stop s := by
  obtain ⟨hunion, hcard⟩ := zeroBelow_piece hp
  have hzero : zeroBelow base.data p.stop = zeroBelow base.data p.dataStart := by
    rw [hunion, hnone, Finset.Ico_self, union_empty]
  have hlt := hp.lt_stop
  refine ⟨h.frame, h.tree, h.nodes_le, h.last_none, h.last_some, ?_, ?_, ?_, h.untracked_nonneg,
    fun n hn hstop => ?_, h.start_cases, hp.stop_cases, ?_, ?_⟩
  · rw [hzero]
    exact h.zero
  · rw [hzero]
    exact h.free_eq
  · rw [hzero]
    exact h.size_eq
  · rcases lt_or_ge (n.start + n.length) p.dataStart with hd | hd
    · exact h.stop_set n hn hd
    · exact hp.set _ hd (hnone ▸ hstop)
  · right; left
    exact hp.set _ (by omega) (by omega)
  · rw [hzero]
    exact h.first

/-- The free space of a piece lies behind the tracked blocks. -/
theorem disjoint_piece :
    Disjoint (covered s.1.freeArea) (Finset.Ico p.freeStart p.stop) := by
  rw [disjoint_left]
  intro x hx hx'
  have h1 := (mem_zeroBelow.mp (h.zero hx)).1
  have h2 := (mem_Ico.mp hx').1
  have h3 := hp.le_freeStart
  omega

/-- A piece that is tracked: the parts of the invariant about the set of blocks. -/
theorem track {fsm : FsmInfo} {loose : Option FsmNode} (htree : TreeInv fsm loose)
    (hcov : covered fsm.freeArea = covered s.1.freeArea ∪ Finset.Ico p.freeStart p.stop)
    (hun : fsm.untrackedBlocks = s.1.untrackedBlocks) :
    covered fsm.freeArea ⊆ zeroBelow base.data p.stop ∧
      (size fsm.freeArea : Int) + fsm.untrackedBlocks = (zeroBelow base.data p.stop).card ∧
      0 ≤ fsm.untrackedBlocks := by
  obtain ⟨hunion, hcard⟩ := zeroBelow_piece hp
  have hsize := h.size_eq
  refine ⟨?_, ?_, hun ▸ h.untracked_nonneg⟩
  · rw [hcov, hunion]
    exact union_subset_union_left h.zero
  · rw [← htree.separated.card_covered, hcov, card_union_of_disjoint (h.disjoint_piece hp),
      card_Ico, h.tree.separated.card_covered, hcard, hun]
    push_cast
    omega

/-- A piece that is joined to the last node. -/
theorem join
    (hlt : p.freeStart < p.stop) (hlast : s.2 = some n) (hadj : n.start + n.length = p.freeStart)
    {k : Int} (hk : k = s.1.freeBlocksCount + (p.stop - p.freeStart : Nat)) :
    BuildInv g o base p.stop
      (setNode { s.1 with freeBlocksCount := k } n
        ⟨n.start, n.length + (p.stop - p.freeStart)⟩,
        some ⟨n.start, n.length + (p.stop - p.freeStart)⟩) := by
  obtain ⟨hn, hright⟩ := h.last_some n hlast
  have hle := h.stop_le hn
  have hge := hp.le_freeStart
  have hnpos := h.tree.separated.pos n hn
  have htree : TreeInv { s.1 with freeBlocksCount := k } (some n) := by
    have ht := h.tree
    rw [hlast] at ht
    exact ⟨ht.separated, ht.sorted, ht.hashed, ht.nodup, ht.nodes⟩
  have hapart : ∀ m ∈ s.1.freeArea.erase n,
      (⟨n.start, n.length + (p.stop - p.freeStart)⟩ : FsmNode).Apart m := by
    intro m hm
    obtain ⟨hne, hm⟩ := (h.tree.separated.nodup.mem_erase_iff).mp hm
    exact .inr ((hright m hm).resolve_left hne)
  have hset := htree.setNode hn
    (show 0 < (⟨n.start, n.length + (p.stop - p.freeStart)⟩ : FsmNode).length by
      simp only; omega) hapart
  have hperm := TreeInv.perm_setNode { s.1 with freeBlocksCount := k } n
    ⟨n.start, n.length + (p.stop - p.freeStart)⟩
  have hmerged : Merged s.1.freeArea ⟨p.freeStart, p.stop - p.freeStart⟩ n
      ⟨n.start, n.length + (p.stop - p.freeStart)⟩ none := by
    refine ⟨hn, by simp, hset.separated.perm hperm, fun x => ?_⟩
    simp only [Run.Has, reduceCtorEq, false_and, exists_false, or_false]
    omega
  have hcov := (covered_perm hperm).trans (hmerged.covered_eq h.tree.separated)
  rw [show p.freeStart + (p.stop - p.freeStart) = p.stop by omega] at hcov
  obtain ⟨hzero, hsize, hun⟩ := h.track hp hset hcov rfl
  obtain ⟨hunion, hcard⟩ := zeroBelow_piece hp
  have hmem : ∀ m, m ∈ (setNode { s.1 with freeBlocksCount := k } n
      ⟨n.start, n.length + (p.stop - p.freeStart)⟩).freeArea ↔
      m = ⟨n.start, n.length + (p.stop - p.freeStart)⟩ ∨ m ∈ s.1.freeArea.erase n :=
    fun m => hperm.mem_iff.trans List.mem_cons
  refine ⟨?_, hset, h.nodes_le, by simp, ?_, hzero, ?_, hsize, hun, fun m hm hstop => ?_,
    fun m hm => ?_, hp.stop_cases, ?_, fun hall x hx hx' => ?_⟩
  · have hframe := h.frame
    unfold OnlyTree at hframe ⊢
    simp only [setNode]
    rw [hframe]
  · intro m hm
    obtain rfl := Option.some.inj hm
    refine ⟨(hmem _).mpr (.inl rfl), fun m hm => ?_⟩
    rcases (hmem m).mp hm with rfl | hm
    · exact .inl rfl
    · obtain ⟨hne, hm⟩ := (h.tree.separated.nodup.mem_erase_iff).mp hm
      exact .inr ((hright m hm).resolve_left hne)
  · show k = _
    rw [hk, h.free_eq, hcard]
    push_cast
    rfl
  · rcases (hmem m).mp hm with rfl | hm
    · simp only at hstop
      omega
    · have hm' := List.mem_of_mem_erase hm
      refine h.stop_set m hm' ?_
      obtain ⟨hne, -⟩ := (h.tree.separated.nodup.mem_erase_iff).mp hm
      have := (hright m hm').resolve_left hne
      omega
  · rcases (hmem m).mp hm with rfl | hm
    · exact h.start_cases n hn
    · exact h.start_cases m (List.mem_of_mem_erase hm)
  · right; right; left
    exact ⟨_, (hmem _).mpr (.inl rfl), by simp only; omega⟩
  · -- the node ends where the piece begins, so every free block before is tracked
    rw [hcov] at hx'
    rw [hunion] at hx
    rcases mem_union.mp hx with hx | hx
    · have hnot : x ∉ covered s.1.freeArea := fun hc => hx' (mem_union_left _ hc)
      have hend : n.start + n.length - 1 ∈ covered s.1.freeArea :=
        mem_covered.mpr ⟨n, hn, by unfold Run.Has; omega⟩
      have h1 := (h.first hall x hx hnot).2 _ hend
      have h2 := (mem_zeroBelow.mp hx).1
      omega
    · exact absurd (mem_union_right _ hx) hx'

/-- A piece that gets a node of its own. -/
theorem append
    (hlt : p.freeStart < p.stop) (hnot : ∀ n, s.2 = some n → n.start + n.length ≠ p.freeStart)
    (fsm : FsmInfo) (htree : TreeInv fsm none) (harea : fsm.freeArea = s.1.freeArea)
    (hnodes : fsm.freeAreaNodes < fsmMaxFreeNodes) (halloc : o.allocNode p.freeStart = true)
    (hframe : OnlyTree { base with freeBlocksCount := fsm.freeBlocksCount } fsm)
    (hun : fsm.untrackedBlocks = s.1.untrackedBlocks)
    (hk : fsm.freeBlocksCount = s.1.freeBlocksCount + (p.stop - p.freeStart : Nat)) :
    BuildInv g o base p.stop (fsm.insertNode ⟨p.freeStart, p.stop - p.freeStart⟩,
      some ⟨p.freeStart, p.stop - p.freeStart⟩) := by
  have hge := hp.le_freeStart
  have hbefore : ∀ m ∈ s.1.freeArea, m.start + m.length < p.freeStart := by
    intro m hm
    have hle := h.stop_le hm
    rcases lt_or_ge (m.start + m.length) p.freeStart with hlt | hge'
    · exact hlt
    · have hstop : m.start + m.length = p.dataStart := by omega
      exact absurd (by omega) (hnot m (h.eq_last hm hstop))
  have hapart : ∀ m ∈ fsm.freeArea, (⟨p.freeStart, p.stop - p.freeStart⟩ : FsmNode).Apart m := by
    rw [harea]
    exact fun m hm => .inr (hbefore m hm)
  have hset := htree.insertLoose
    (show 0 < (⟨p.freeStart, p.stop - p.freeStart⟩ : FsmNode).length by simp only; omega) hapart
  have hperm := TreeInv.perm_insertNode fsm ⟨p.freeStart, p.stop - p.freeStart⟩
  rw [harea] at hperm
  have hcov := covered_perm hperm
  rw [covered_cons, union_comm,
    show p.freeStart + (p.stop - p.freeStart) = p.stop by omega] at hcov
  obtain ⟨hzero, hsize, hnonneg⟩ := h.track hp hset hcov hun
  obtain ⟨hunion, hcard⟩ := zeroBelow_piece hp
  have hmem : ∀ m, m ∈ (fsm.insertNode ⟨p.freeStart, p.stop - p.freeStart⟩).freeArea ↔
      m = ⟨p.freeStart, p.stop - p.freeStart⟩ ∨ m ∈ s.1.freeArea :=
    fun m => hperm.mem_iff.trans List.mem_cons
  have hold : fsm.freeAreaNodes = s.1.freeAreaNodes := by
    rw [htree.nodes, harea, h.tree.nodes]
  refine ⟨?_, hset, hnodes, nofun, ?_, hzero, ?_, hsize, hnonneg, fun m hm hstop => ?_,
    fun m hm => ?_, hp.stop_cases, ?_, fun hall x hx hx' => ?_⟩
  · unfold OnlyTree at hframe ⊢
    simp only [FsmInfo.insertNode]
    rw [hframe]
  · intro m hm
    obtain rfl := Option.some.inj hm
    refine ⟨(hmem _).mpr (.inl rfl), fun m hm => ?_⟩
    exact ((hmem m).mp hm).imp_right (hbefore m)
  · show fsm.freeBlocksCount = _
    rw [hk, h.free_eq, hcard]
    push_cast
    rfl
  · rcases (hmem m).mp hm with rfl | hm
    · simp only at hstop
      omega
    · have hb := hbefore m hm
      rcases lt_or_ge (m.start + m.length) p.dataStart with hd | hd
      · exact h.stop_set m hm hd
      · exact hp.set _ hd hb
  · rcases (hmem m).mp hm with rfl | hm
    · -- the new node begins behind a set bit of the piece, or where the piece begins
      simp only
      rcases lt_or_ge p.dataStart p.freeStart with hd | hd
      · right; left
        exact hp.set _ (by omega) (by omega)
      have heq : p.freeStart = p.dataStart := by omega
      have hclear : base.data p.dataStart = false := hp.clear _ (by omega) (by omega)
      have hlt' := hp.stop_le
      rw [heq]
      rcases h.gap with hz | hz | ⟨n, hn, hstop⟩ | hmax | hfail
      · exact .inl hz
      · exact .inr (.inl hz)
      · have := hbefore n hn
        omega
      · omega
      · refine .inr (.inr ⟨?_, hfail, heq ▸ halloc⟩)
        rcases h.pos_cases with hv | hset' | hdvd
        · have := hp.lt_stop
          omega
        · rw [hclear] at hset'
          cases hset'
        · exact hdvd
    · exact h.start_cases m hm
  · right; right; left
    exact ⟨_, (hmem _).mpr (.inl rfl), by simp only; omega⟩
  · rw [hcov] at hx'
    rw [hunion] at hx
    rcases mem_union.mp hx with hx | hx
    · have hnot' : x ∉ covered s.1.freeArea := fun hc => hx' (mem_union_left _ hc)
      have := (h.first hall x hx hnot').1
      omega
    · exact absurd (mem_union_right _ hx) hx'

/-- A piece that is counted as untracked. -/
theorem lose
    (hlt : p.freeStart < p.stop) (hnot : ∀ n, s.2 = some n → n.start + n.length ≠ p.freeStart)
    (hno : ¬ (s.1.freeAreaNodes < fsmMaxFreeNodes ∧ o.allocNode p.freeStart = true)) {k : Int}
    (hk : k = s.1.freeBlocksCount + (p.stop - p.freeStart : Nat)) :
    BuildInv g o base p.stop
      (addUntracked { s.1 with freeBlocksCount := k } (p.stop - p.freeStart : Nat),
        s.2) := by
  have ht := h.tree
  obtain ⟨hunion, hcard⟩ := zeroBelow_piece hp
  have hge := hp.le_freeStart
  have hnonneg := h.untracked_nonneg
  have hsize := h.size_eq
  refine ⟨?_, ⟨ht.separated, ht.sorted, ht.hashed, ht.nodup, ht.nodes⟩, h.nodes_le, h.last_none,
    h.last_some, ?_, ?_, ?_, ?_, fun n hn hstop => ?_, h.start_cases, hp.stop_cases, ?_,
    fun hall x hx hx' => ?_⟩
  · have hframe := h.frame
    unfold OnlyTree at hframe ⊢
    simp only [addUntracked]
    rw [hframe]
  · rw [hunion]
    exact h.zero.trans subset_union_left
  · show k = _
    rw [hk, h.free_eq, hcard]
    push_cast
    rfl
  · simp only [addUntracked]
    rw [hcard]
    push_cast
    omega
  · simp only [addUntracked]
    omega
  · rcases lt_or_ge (n.start + n.length) p.dataStart with hd | hd
    · exact h.stop_set n hn hd
    · have hle := h.stop_le hn
      have hstop' : n.start + n.length = p.dataStart := by omega
      have hne := hnot n (h.eq_last hn hstop')
      exact hp.set _ hd (by omega)
  · by_cases hn : s.1.freeAreaNodes < fsmMaxFreeNodes
    · right; right; right; right
      rintro q ⟨hq, hzero, hpiece⟩
      have hfail : o.allocNode p.freeStart = false := by
        by_contra ha
        exact hno ⟨hn, by simpa using ha⟩
      rcases lt_trichotomy q p.freeStart with hlt' | rfl | hgt
      · -- a piece before this one: the free run goes on from there
        have hd : p.dataStart = p.freeStart := by
          by_contra hne
          have := hp.set (p.freeStart - 1) (by omega) (by omega)
          rw [hzero _ (by omega) (by omega)] at this
          cases this
        rcases h.gap with hz | hz | ⟨n, hn', hstop⟩ | hmax | hfailed
        · omega
        · rw [hzero _ (by omega) (by omega)] at hz
          cases hz
        · exact absurd (by omega) (hnot n (h.eq_last hn' hstop))
        · omega
        · exact hfailed q ⟨by omega, fun x hx hle => hzero x (by omega) hle, hpiece⟩
      · exact hfail
      · -- no piece begins inside this one
        rcases hpiece with hdvd | hset
        · exact absurd hdvd (hp.not_dvd q (by omega) hq)
        · rw [hp.clear _ (by omega) (by omega)] at hset
          cases hset
    · right; right; right; left
      exact Nat.le_of_not_lt hn
  · have hmax : fsmMaxFreeNodes ≤ s.1.freeAreaNodes := by
      by_contra hlt'
      exact hno ⟨Nat.lt_of_not_le hlt', hall _⟩
    refine ⟨hmax, fun y hy => ?_⟩
    rw [hunion] at hx
    rcases mem_union.mp hx with hx | hx
    · exact (h.first hall x hx hx').2 y hy
    · have h1 := (mem_zeroBelow.mp (h.zero hy)).1
      have h2 := (mem_Ico.mp hx).1
      omega

end

/-- **One round of `fsm_build_tree`.** -/
theorem piece (hshort : ShortRuns base.data g.volumeBlocksCount) (h : BuildInv g o base d s)
    (hd : p.dataStart = d) (hp : PieceOk g base.data p) :
    BuildInv g o base p.stop (fsmBuildPiece o s p) := by
  subst hd
  unfold fsmBuildPiece
  split
  · rename_i hlt
    have hstop := hp.stop_le
    have hlen : (p.stop - p.freeStart) % 2 ^ 32 = p.stop - p.freeStart :=
      mod_eq_of_lt (hshort p.freeStart _ (by omega) fun x hx hx' => hp.clear x hx (by omega))
    obtain ⟨fsm, last⟩ := s
    have hframe : ∀ k : Int, OnlyTree { base with freeBlocksCount := k }
        { fsm with freeBlocksCount := k } := by
      intro k
      have hf := h.frame
      unfold OnlyTree at hf ⊢
      simp only at hf ⊢
      rw [hf]
    unfold FsmInfo.fsmAppendFreeSpace
    rw [hlen]
    cases last with
    | none =>
      have ht := h.tree
      simp only
      split
      · rename_i hcond
        exact h.append hp hlt nofun
          { fsm with freeBlocksCount := fsm.freeBlocksCount + (p.stop - p.freeStart : Nat) }
          ⟨ht.separated, ht.sorted, ht.hashed, ht.nodup, ht.nodes⟩ rfl hcond.1 hcond.2 (hframe _)
          rfl rfl
      · rename_i hcond
        exact h.lose hp hlt nofun hcond rfl
    | some n =>
      simp only
      split
      · rename_i hadj
        -- node and piece together are a run of clear bits
        have hjoined : (n.length + (p.stop - p.freeStart)) % 2 ^ 32 =
            n.length + (p.stop - p.freeStart) := by
          refine mod_eq_of_lt (hshort n.start _ (by omega) fun x hx hx' => ?_)
          obtain hlt | hge := lt_or_ge x p.freeStart
          · exact (mem_zeroBelow.mp (h.zero (mem_covered.mpr
              ⟨n, (h.last_some n rfl).1, by unfold Run.Has; omega⟩))).2
          · exact hp.clear x hge (by omega)
        rw [hjoined]
        exact h.join hp hlt rfl hadj rfl
      rename_i hadj
      have hnot : ∀ m, some n = some m → m.start + m.length ≠ p.freeStart := fun m hm => by
        rw [← Option.some.inj hm]
        exact hadj
      split
      · rename_i hcond
        -- the last node is hashed now
        have ht := h.tree
        have ht' : TreeInv { fsm with freeBlocksCount := fsm.freeBlocksCount +
            (p.stop - p.freeStart : Nat) } (some n) :=
          ⟨ht.separated, ht.sorted, ht.hashed, ht.nodup, ht.nodes⟩
        exact h.append hp hlt hnot _ (ht'.hash (h.last_some n rfl).1) rfl hcond.1
          hcond.2 ((hframe _).trans rfl) rfl rfl
      · rename_i hcond
        exact h.lose hp hlt hnot hcond rfl
  · rename_i hlt
    have := hp.freeStart_le
    exact h.skip hp (by omega)

/-- All rounds of `fsm_build_tree`. -/
theorem foldl {pieces : List ScanPiece} (hshort : ShortRuns base.data g.volumeBlocksCount)
    (hpieces : Pieces g base.data d pieces) (h : BuildInv g o base d s) :
    BuildInv g o base g.volumeBlocksCount (pieces.foldl (fsmBuildPiece o) s) := by
  induction hpieces generalizing s with
  | nil => exact h
  | cons hd hp _ ih => exact ih (h.piece hshort hd hp)

end BuildInv

/-- The tree that `fsm_build_tree` builds from the bitmap. -/
structure Built (g : FsmGeometry) (o : FsmOracle) (data : Bitmap) (fsm : FsmInfo) : Prop where
  tree : TreeInv fsm none
  nodes_le : fsm.freeAreaNodes ≤ fsmMaxFreeNodes
  zero : covered fsm.freeArea ⊆ zeroBelow data g.volumeBlocksCount
  free_eq : fsm.freeBlocksCount = (zeroBelow data g.volumeBlocksCount).card
  size_eq : (size fsm.freeArea : Int) + fsm.untrackedBlocks =
    (zeroBelow data g.volumeBlocksCount).card
  untracked_nonneg : 0 ≤ fsm.untrackedBlocks
  stop_set : ∀ n ∈ fsm.freeArea, n.start + n.length < g.volumeBlocksCount →
    data (n.start + n.length) = true
  start_cases : ∀ n ∈ fsm.freeArea, n.start = 0 ∨ data (n.start - 1) = true ∨
    (g.bitBlksize ∣ n.start ∧ FailedBefore g o data n.start ∧ o.allocNode n.start = true)
  first : (∀ p, o.allocNode p = true) → ∀ x ∈ zeroBelow data g.volumeBlocksCount,
    x ∉ covered fsm.freeArea →
      fsmMaxFreeNodes ≤ fsm.freeAreaNodes ∧ ∀ y ∈ covered fsm.freeArea, y < x

section

variable (g : FsmGeometry) (o : FsmOracle) (base : FsmInfo) (harea : base.freeArea = [])
  (hlist : base.freeList = fun _ => []) (hnodes : base.freeAreaNodes = 0)
  (hun : base.untrackedBlocks = 0) (hfree : base.freeBlocksCount = 0)

include g o base harea hlist hnodes hun hfree

/-- The state of `fsm_build_tree` before the first piece. -/
theorem BuildInv.start : BuildInv g o base 0 (base, none) := by
  have htree : TreeInv base none := by
    refine ⟨by rw [harea]; exact Separated.nil, by rw [harea]; exact .nil, fun order node => ?_,
      fun order => by rw [hlist]; exact List.nodup_nil, by rw [hnodes, harea]; rfl⟩
    rw [hlist, harea]
    simp
  refine ⟨rfl, htree, by rw [hnodes]; exact zero_le _, fun _ => harea, nofun, ?_, ?_, ?_,
    by rw [hun], ?_, ?_, .inr (.inr (dvd_zero _)), .inl rfl, ?_⟩
  · simp [harea]
  · simp [hfree, zeroBelow]
  · simp [harea, hun, zeroBelow]
  · simp [harea]
  · simp [harea]
  · intro _ x hx
    simp at hx

/-- **`fsm_build_tree`** from an empty tree. -/
theorem fsmBuildTree_spec (hshort : ShortRuns base.data g.volumeBlocksCount) :
    Built g o base.data (base.fsmBuildTree g o) ∧
      OnlyTree { base with freeBlocksCount := (base.fsmBuildTree g o).freeBlocksCount }
        (base.fsmBuildTree g o) := by
  have hstart := BuildInv.start g o base harea hlist hnodes hun hfree
  have hend := hstart.foldl hshort (fsmPieces_pieces g base.data)
  unfold FsmInfo.fsmBuildTree
  revert hend
  generalize (fsmPieces g base.data).foldl (fsmBuildPiece o) (base, none) = s
  obtain ⟨fsm, last⟩ := s
  intro h
  cases last with
  | none =>
    exact ⟨⟨h.tree, h.nodes_le, h.zero, h.free_eq, h.size_eq, h.untracked_nonneg, h.stop_set,
      h.start_cases, h.first⟩, h.frame⟩
  | some n =>
    exact ⟨⟨h.tree.hash (h.last_some n rfl).1, h.nodes_le, h.zero, h.free_eq, h.size_eq,
      h.untracked_nonneg, h.stop_set, h.start_cases, h.first⟩, h.frame.trans rfl⟩

end

end Vdfs4
