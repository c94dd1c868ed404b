import Vdfs4.Fsm.Accounting
import Vdfs4.Fsm.BitmapPages

/-!
# The tree of free extents is the set of maximal free runs

`fsm_build_tree` reads the bitmap as it lies in memory, block by block, and builds the tree of free
extents from left to right. The length of a node is a `__u32`.

* `logicalBits` — the bitmap without the magic and the checksum of its blocks;
* `buildLoop`, `fsmBuildTreeRaw` — the function, over the **memory**;
* `buildLoop_eq` — its loop **ends**, and does what the scan of the logical bits does;
* `MaximalRun`, `BuildsRuns` — one node for each maximal run of clear bits;
* `free_tree_maximal_runs_iff` — this is what is built **exactly** if no maximal run has `2 ^ 32`
  blocks or more.
-/

namespace Vdfs4

open Nat hiding eq_zero_or_pos
open RunSet FsmInfo Bitmap List

/-! ### The function -/

/-- The bits of the bitmap blocks, without magic and checksum. -/
def logicalBits (blockSize : Nat) (raw : Bitmap) : Bitmap :=
  fun x => raw (bitPlace fsmBmpMagicLen blockSize x)

namespace FsmInfo

/-- The loop of `fsm_build_tree`. The first bit of the current bitmap block is at byte `block`; the
loop is given up after `fuel` rounds. -/
def buildLoop (g : FsmGeometry) (o : FsmOracle) (raw : Bitmap) : Nat → Nat → Nat → Nat → Nat →
    FsmInfo × Option FsmNode → Option (FsmInfo × Option FsmNode)
  | 0, _, _, _, _, _ => none
  | fuel + 1, block, blockSize, blockStart, dataStart, s =>
    if blockStart < g.volumeBlocksCount then
      -- cut size of last bitmap block
      let blockSize := min blockSize (g.volumeBlocksCount - blockStart)
      let bits : Bitmap := fun i => raw (8 * block + i)
      let freeStart := blockStart + bits.findNextZeroBit blockSize (dataStart - blockStart)
      let stop := blockStart + bits.findNextBit blockSize (freeStart - blockStart)
      let s := fsmBuildPiece o s ⟨dataStart, freeStart, stop⟩
      -- switch to next bitmap block
      if stop = blockStart + blockSize then
        buildLoop g o raw fuel (block + g.blockSize) blockSize (blockStart + blockSize) stop s
      else buildLoop g o raw fuel block blockSize blockStart stop s
    else some s

/-- `fsm_build_tree` over the memory of the bitmap. -/
def fsmBuildTreeRaw (g : FsmGeometry) (o : FsmOracle) (raw : Bitmap) (fsm : FsmInfo) :
    Option FsmInfo :=
  match buildLoop g o raw (g.volumeBlocksCount + 1) fsmBmpMagicLen g.bitBlksize 0 0 (fsm, none) with
  | none => none
  | some (fsm, none) => some fsm
  | some (fsm, some last) => some (fsm.fsmHash last)

end FsmInfo

/-! ### What it should build -/

/-- A run of clear bits below `bound` that cannot be made longer. -/
structure MaximalRun (data : Bitmap) (bound : Nat) (r : Run) : Prop where
  pos : 0 < r.length
  stop_le : r.start + r.length ≤ bound
  clear : ∀ x, r.Has x → data x = false
  first : r.start = 0 ∨ data (r.start - 1) = true
  last : r.start + r.length = bound ∨ data (r.start + r.length) = true

/-- At most as many maximal runs as the tree may have nodes. -/
def FewRuns (data : Bitmap) (bound : Nat) : Prop :=
  ∀ l : List Run, l.Nodup → (∀ r ∈ l, MaximalRun data bound r) → l.length ≤ fsmMaxFreeNodes

/-- One node for each maximal run, in order, and their blocks are counted. -/
structure BuildsRuns (g : FsmGeometry) (data : Bitmap) (fsm fsm' : FsmInfo) : Prop where
  sorted : fsm'.freeArea.Pairwise fun a b => a.start + a.length < b.start
  mem_iff : ∀ r, r ∈ fsm'.freeArea ↔ MaximalRun data g.volumeBlocksCount r
  counted : fsm'.freeBlocksCount =
    fsm.freeBlocksCount + (zeroBelow data g.volumeBlocksCount).card

/-! ### The loop and the scan of the logical bits -/

theorem FsmGeometry.blockBits_eq (g : FsmGeometry) :
    blockBits fsmBmpMagicLen g.blockSize = g.bitBlksize := by
  rw [blockBits, FsmGeometry.bitBlksize, mul_comm]
  rfl

/-- The bits of bitmap block `k`. -/
theorem logicalBits_block (g : FsmGeometry) (raw : Bitmap) {k i : Nat} (hi : i < g.bitBlksize) :
    logicalBits g.blockSize raw (k * g.bitBlksize + i) =
      raw (8 * (fsmBmpMagicLen + k * g.blockSize) + i) := by
  have hdiv : (k * g.bitBlksize + i) / g.bitBlksize = k := by
    rw [mul_comm, mul_add_div g.bitBlksize_pos, div_eq_of_lt hi, add_zero]
  have hmod : (k * g.bitBlksize + i) % g.bitBlksize = i := by
    rw [mul_comm, mul_add_mod, mod_eq_of_lt hi]
  rw [logicalBits, bitPlace, g.blockBits_eq, hdiv, hmod, add_comm fsmBmpMagicLen]

/-- **The loop ends**, after the pieces of the scan. -/
theorem buildLoop_eq (g : FsmGeometry) (o : FsmOracle) (raw : Bitmap)
    {fuel block blockSize blockStart dataStart : Nat} (s : FsmInfo × Option FsmNode)
    (hfuel : g.volumeBlocksCount < fuel + dataStart)
    (hstate : (∃ k, blockStart = k * g.bitBlksize ∧ block = fsmBmpMagicLen + k * g.blockSize ∧
        min blockSize (g.volumeBlocksCount - blockStart) =
          min g.bitBlksize (g.volumeBlocksCount - blockStart) ∧
        blockStart ≤ dataStart ∧
        dataStart < blockStart + min g.bitBlksize (g.volumeBlocksCount - blockStart)) ∨
      (blockStart = g.volumeBlocksCount ∧ dataStart = g.volumeBlocksCount)) :
    buildLoop g o raw fuel block blockSize blockStart dataStart s =
      some ((fsmScan g (logicalBits g.blockSize raw) fuel blockStart dataStart).foldl
        (fsmBuildPiece o) s) := by
  induction fuel generalizing block blockSize blockStart dataStart s with
  | zero =>
    obtain ⟨k, -, -, -, hlo, hhi⟩ | ⟨-, hdata⟩ := hstate
    · omega
    · omega
  | succ fuel ih =>
    obtain ⟨k, hstart, hblock, hmin, hlo, hhi⟩ | ⟨hstart, hdata⟩ := hstate
    · have hin : blockStart < g.volumeBlocksCount := by omega
      rw [buildLoop, fsmScan, if_pos hin, if_pos hin, hmin]
      -- the bits in memory are the logical ones
      have hbits : ∀ i, i < min g.bitBlksize (g.volumeBlocksCount - blockStart) →
          raw (8 * block + i) = logicalBits g.blockSize raw (blockStart + i) := by
        intro i hi
        rw [hstart, logicalBits_block g raw (by omega), hblock]
      have hfree : findNextZeroBit (fun i => raw (8 * block + i))
          (min g.bitBlksize (g.volumeBlocksCount - blockStart)) (dataStart - blockStart) =
          findNextZeroBit (fun i => logicalBits g.blockSize raw (blockStart + i))
          (min g.bitBlksize (g.volumeBlocksCount - blockStart)) (dataStart - blockStart) := by
        apply findNext_congr
        intro i hi
        exact congrArg not (hbits i hi)
      have hnext : ∀ n, findNextBit (fun i => raw (8 * block + i))
          (min g.bitBlksize (g.volumeBlocksCount - blockStart)) n =
          findNextBit (fun i => logicalBits g.blockSize raw (blockStart + i))
          (min g.bitBlksize (g.volumeBlocksCount - blockStart)) n :=
        fun n => findNext_congr hbits
      simp only [hfree, hnext, foldl_cons]
      obtain ⟨size, hsize⟩ : ∃ size, size = min g.bitBlksize (g.volumeBlocksCount - blockStart) :=
        ⟨_, rfl⟩
      obtain ⟨freeStart, hfreeStart⟩ : ∃ freeStart, freeStart = blockStart +
          findNextZeroBit (fun i => logicalBits g.blockSize raw (blockStart + i)) size
            (dataStart - blockStart) := ⟨_, rfl⟩
      obtain ⟨stop, hstop⟩ : ∃ stop, stop = blockStart +
          findNextBit (fun i => logicalBits g.blockSize raw (blockStart + i)) size
            (freeStart - blockStart) := ⟨_, rfl⟩
      obtain ⟨hok, hle, -⟩ := scanRound_ok (hstart ▸ dvd_mul_left _ k) hlo hhi size hsize
        freeStart hfreeStart stop hstop
      have hlt : dataStart < stop := hok.lt_stop
      simp only [← hsize, ← hfreeStart, ← hstop]
      split
      next hend =>
        -- switch to next bitmap block
        rw [← hend]
        apply ih _ (by omega)
        obtain hmore | hdone := lt_or_ge (blockStart + g.bitBlksize) g.volumeBlocksCount
        · left
          have hpos := g.bitBlksize_pos
          refine ⟨k + 1, ?_, ?_, by omega, le_refl _, by omega⟩
          · rw [succ_mul]
            omega
          · rw [succ_mul]
            omega
        · right
          omega
      next hend =>
        apply ih _ (by omega)
        left
        exact ⟨k, hstart, hblock, by omega, by omega, by omega⟩
    · rw [buildLoop, fsmScan, if_neg (by omega), if_neg (by omega)]
      rfl

/-- The last node is hashed. -/
def hashLast (s : FsmInfo × Option FsmNode) : FsmInfo :=
  match s.2 with
  | none => s.1
  | some last => s.1.fsmHash last

/-- `fsm_build_tree` returns, and its result comes from the pieces of the logical bits. -/
theorem fsmBuildTreeRaw_eq (g : FsmGeometry) (o : FsmOracle) (raw : Bitmap) (fsm : FsmInfo) :
    fsm.fsmBuildTreeRaw g o raw =
      some (hashLast ((fsmPieces g (logicalBits g.blockSize raw)).foldl
        (fsmBuildPiece o) (fsm, none))) := by
  have hloop : buildLoop g o raw (g.volumeBlocksCount + 1) fsmBmpMagicLen g.bitBlksize 0 0
      (fsm, none) = some ((fsmPieces g (logicalBits g.blockSize raw)).foldl
        (fsmBuildPiece o) (fsm, none)) := by
    apply buildLoop_eq g o raw (fsm, none) (by omega)
    obtain hzero | hpos := Nat.eq_zero_or_pos g.volumeBlocksCount
    · exact .inr ⟨hzero.symm, hzero.symm⟩
    · have := g.bitBlksize_pos
      exact .inl ⟨0, by simp, by simp, by simp, le_refl _, by omega⟩
  rw [fsmBuildTreeRaw, hloop]
  generalize (fsmPieces g (logicalBits g.blockSize raw)).foldl (fsmBuildPiece o)
    (fsm, none) = s
  obtain ⟨fsm', last⟩ := s
  cases last with
  | none => rfl
  | some last => rfl

/-! ### Maximal runs -/

namespace MaximalRun

variable {data : Bitmap} {bound x : Nat} {r r' : Run} {s s' : FsmInfo × Option FsmNode}
  {g : FsmGeometry} {o : FsmOracle} {fsm base : FsmInfo}

/-- Clear bits lie in a maximal run. -/
theorem exists_of_clear {a len : Nat} (hlen : 0 < len) (hbound : a + len ≤ bound)
    (hclear : ∀ x, a ≤ x → x < a + len → data x = false) :
    ∃ r, MaximalRun data bound r ∧ len ≤ r.length := by
  obtain ⟨q, hq, hbefore, hfirst⟩ := exists_run_start a (hclear a (le_refl a) (by omega))
  have hge : a + len ≤ findNext data bound (a + len) := le_findNext _ hbound
  have hle : findNext data bound (a + len) ≤ bound := findNext_le_size _
  refine ⟨⟨q, findNext data bound (a + len) - q⟩, ⟨?_, ?_, fun x hx => ?_, hfirst, ?_⟩, ?_⟩
  · simp only
    omega
  · simp only
    omega
  · unfold Run.Has at hx
    simp only at hx
    -- before the bits, among them, or behind them
    obtain hle | hgt := lt_or_ge a x
    · obtain hlt | hge' := lt_or_ge x (a + len)
      · exact hclear x (by omega) hlt
      · have hbelow : x < findNext data bound (a + len) := by omega
        exact findNext_false_of_lt data hge' hbelow
    · exact hbefore x hx.1 hgt
  · rw [show q + (findNext data bound (a + len) - q) = findNext data bound (a + len)
      by omega]
    obtain heq | hlt := hle.eq_or_lt
    · exact .inl heq
    · exact .inr (findNext_hit data hlt)
  · simp only
    omega

/-- With short maximal runs every run of clear bits is short. -/
theorem shortRuns (h : ∀ r, MaximalRun data bound r → r.length < 2 ^ 32) :
    ShortRuns data bound := by
  intro a len hbound hclear
  obtain rfl | hlen := Nat.eq_zero_or_pos len
  · decide
  · obtain ⟨r, hr, hle⟩ := exists_of_clear hlen hbound hclear
    exact lt_of_le_of_lt hle (h r hr)

section

variable (h : MaximalRun data bound r) (h' : MaximalRun data bound r') (hx : r.Has x)
  (hx' : r'.Has x)

include h h' hx hx'

/-- A maximal run does not begin inside another one. -/
theorem start_le : r'.start ≤ r.start := by
  by_contra hlt
  unfold Run.Has at hx hx'
  obtain hzero | hset := h'.first
  · omega
  · have hclear := h.clear (r'.start - 1) (by unfold Run.Has; omega)
    rw [hset] at hclear
    cases hclear

/-- A maximal run does not end inside another one. -/
theorem stop_ge : r.start + r.length ≤ r'.start + r'.length := by
  by_contra hlt
  unfold Run.Has at hx hx'
  have hbound := h.stop_le
  obtain hend | hset := h'.last
  · omega
  · have hclear := h.clear (r'.start + r'.length) (by unfold Run.Has; omega)
    rw [hset] at hclear
    cases hclear

/-- Maximal runs with a common bit are the same. -/
theorem eq_of_has : r = r' := by
  have h1 := h.start_le h' hx hx'
  have h2 := h'.start_le h hx' hx
  have h3 := h.stop_ge h' hx hx'
  have h4 := h'.stop_ge h hx' hx
  obtain ⟨start, length⟩ := r
  obtain ⟨start', length'⟩ := r'
  simp only at h1 h2 h3 h4
  obtain rfl : start = start' := by omega
  obtain rfl : length = length' := by omega
  rfl

end

/-- The run has its own first bit. -/
theorem has_start (h : MaximalRun data bound r) : r.Has r.start := by
  have := h.pos
  unfold Run.Has
  omega

end MaximalRun

/-! ### The nodes of the finished tree -/

/-- A node of the finished tree is a maximal run, if every node could be had. -/
theorem Built.maximalRun {data : Bitmap} (h : Built g o data fsm)
    (halloc : ∀ p, o.allocNode p = true) {n : FsmNode}
    (hn : n ∈ fsm.freeArea) : MaximalRun data g.volumeBlocksCount n := by
  have hpos := h.tree.separated.pos n hn
  have hzero : ∀ x, n.Has x → x < g.volumeBlocksCount ∧ data x = false := fun x hx =>
    mem_zeroBelow.mp (h.zero (mem_covered.mpr ⟨n, hn, hx⟩))
  have hend := (hzero (n.start + n.length - 1) (by unfold Run.Has; omega)).1
  refine ⟨hpos, by omega, fun x hx => (hzero x hx).2, ?_, ?_⟩
  · obtain hz | hset | ⟨-, hfailed, -⟩ := h.start_cases n hn
    · exact .inl hz
    · exact .inr hset
    · -- free space in front of the node would have got a node as well
      cases hprev : data (n.start - 1) with
      | true => exact .inr rfl
      | false =>
        obtain hz | hnz := Nat.eq_zero_or_pos n.start
        · exact .inl hz
        · obtain ⟨q, hq, hclear, hfirst⟩ := exists_run_start _ hprev
          have hnone := hfailed q ⟨by omega, fun x hx hx' => hclear x hx' (by omega),
            hfirst.imp_left fun hzero => by rw [hzero]; exact dvd_zero _⟩
          rw [halloc q] at hnone
          cases hnone
  · obtain hlt | hge := lt_or_ge (n.start + n.length) g.volumeBlocksCount
    · exact .inr (h.stop_set n hn hlt)
    · exact .inl (by omega)

/-- Every maximal run is a node, if there are not too many. -/
theorem Built.mem_of_maximalRun {data : Bitmap} (h : Built g o data fsm)
    (halloc : ∀ p, o.allocNode p = true) (hfew : FewRuns data g.volumeBlocksCount) {r : Run}
    (hr : MaximalRun data g.volumeBlocksCount r) : r ∈ fsm.freeArea := by
  have hpos := hr.pos
  have hstop := hr.stop_le
  have hmem : r.start ∈ zeroBelow data g.volumeBlocksCount :=
    mem_zeroBelow.mpr ⟨by omega, hr.clear _ hr.has_start⟩
  by_cases hcov : r.start ∈ covered fsm.freeArea
  · obtain ⟨n, hn, hx⟩ := mem_covered.mp hcov
    rw [hr.eq_of_has (h.maximalRun halloc hn) hr.has_start hx]
    exact hn
  -- the run would be one too many
  have hnot : r ∉ fsm.freeArea := fun hr' => hcov (mem_covered.mpr ⟨r, hr', hr.has_start⟩)
  have hmany := (h.first halloc _ hmem hcov).1
  have hlen := hfew (r :: fsm.freeArea) (nodup_cons.mpr ⟨hnot, h.tree.separated.nodup⟩) (by
    intro n hn
    obtain rfl | hn := mem_cons.mp hn
    · exact hr
    · exact h.maximalRun halloc hn)
  rw [length_cons, ← h.tree.nodes] at hlen
  omega

theorem TreeInv.in_order {loose : Option FsmNode} (h : TreeInv fsm loose) :
    fsm.freeArea.Pairwise fun a b => a.start + a.length < b.start := by
  refine (h.sorted.and h.separated.apart).imp_of_mem fun ha hb hab => ?_
  have hpos := h.separated.pos _ hb
  obtain ⟨hle, hlt | hgt⟩ := hab
  · exact hlt
  · omega

/-! ### The tree with 32-bit lengths -/

/-- Every node has a length that a `__u32` can say. -/
theorem foldl_fsmBuildPiece_length (o : FsmOracle) (pieces : List ScanPiece)
    (s : FsmInfo × Option FsmNode) (h : ∀ n ∈ s.1.freeArea, n.length < 2 ^ 32) :
    ∀ n ∈ (pieces.foldl (fsmBuildPiece o) s).1.freeArea, n.length < 2 ^ 32 := by
  induction pieces generalizing s with
  | nil => exact h
  | cons p pieces ih =>
    apply ih
    obtain ⟨fsm, last⟩ := s
    have hmod : ∀ k : Nat, k % 2 ^ 32 < 2 ^ 32 := fun k => mod_lt k (by decide)
    unfold fsmBuildPiece fsmAppendFreeSpace
    intro n hn
    cases last with
    | none =>
      simp only at hn
      split at hn
      · split at hn
        · obtain rfl | hn := (mem_orderedInsert _).mp hn
          · exact hmod _
          · exact h n hn
        · exact h n hn
      · exact h n hn
    | some last =>
      simp only at hn
      split at hn
      · split at hn
        · obtain rfl | hn := (mem_orderedInsert _).mp hn
          · exact hmod _
          · exact h n (mem_of_mem_erase hn)
        · split at hn
          · obtain rfl | hn := (mem_orderedInsert _).mp hn
            · exact hmod _
            · exact h n hn
          · exact h n hn
      · exact h n hn

/-! ### The rest of the state -/

/-- Two states with the same nodes, and with `free_blocks_count` apart by `c`. -/
structure Alike (c : Int) (s s' : FsmInfo × Option FsmNode) : Prop where
  area : s'.1.freeArea = s.1.freeArea
  nodes : s'.1.freeAreaNodes = s.1.freeAreaNodes
  count : s'.1.freeBlocksCount = s.1.freeBlocksCount + c
  last : s'.2 = s.2

/-- What a piece does to the tree does not depend on the rest. -/
theorem Alike.piece {c : Int} (o : FsmOracle) (h : Alike c s s')
    (p : ScanPiece) : Alike c (fsmBuildPiece o s p) (fsmBuildPiece o s' p) := by
  obtain ⟨fsm, last⟩ := s
  obtain ⟨fsm', last'⟩ := s'
  obtain ⟨harea, hnodes, hcount, hlast⟩ := h
  simp only at harea hnodes hcount hlast
  subst hlast
  unfold fsmBuildPiece fsmAppendFreeSpace
  simp only [hnodes]
  split
  · cases last' with
    | none =>
      simp only
      split
      · exact ⟨by simp only [insertNode, harea], rfl,
          by simp only [insertNode, hcount]; omega, rfl⟩
      · exact ⟨harea, rfl, by simp only [addUntracked, hcount]; omega, rfl⟩
    | some n =>
      simp only
      split
      · exact ⟨by simp only [setNode, harea], rfl,
          by simp only [setNode, hcount]; omega, rfl⟩
      · split
        · exact ⟨by simp only [insertNode, fsmHash, harea],
            rfl, by simp only [insertNode, fsmHash, hcount]; omega, rfl⟩
        · exact ⟨harea, rfl, by simp only [addUntracked, hcount]; omega, rfl⟩
  · exact ⟨harea, hnodes, hcount, rfl⟩

theorem Alike.foldl {c : Int} (o : FsmOracle) (pieces : List ScanPiece) (h : Alike c s s') :
    Alike c (pieces.foldl (fsmBuildPiece o) s)
      (pieces.foldl (fsmBuildPiece o) s') := by
  induction pieces generalizing s s' with
  | nil => exact h
  | cons p pieces ih => exact ih (h.piece o p)

@[simp] theorem hashLast_freeArea (s : FsmInfo × Option FsmNode) :
    (hashLast s).freeArea = s.1.freeArea := by
  obtain ⟨fsm, last⟩ := s
  cases last <;> rfl

@[simp] theorem hashLast_freeBlocksCount (s : FsmInfo × Option FsmNode) :
    (hashLast s).freeBlocksCount = s.1.freeBlocksCount := by
  obtain ⟨fsm, last⟩ := s
  cases last <;> rfl

/-- The state of `fsm_build_tree` with nothing counted yet. -/
def uncounted (fsm : FsmInfo) (data : Bitmap) : FsmInfo :=
  { fsm.fsmInitTree with freeBlocksCount := 0, untrackedBlocks := 0, data := data }

/-- With short runs the tree of the maximal runs is built. -/
theorem buildsRuns {data : Bitmap} (fsm : FsmInfo) (halloc : ∀ p, o.allocNode p = true)
    (hfew : FewRuns data g.volumeBlocksCount)
    (hshort : ∀ r, MaximalRun data g.volumeBlocksCount r → r.length < 2 ^ 32) :
    BuildsRuns g data fsm.fsmInitTree
      (hashLast ((fsmPieces g data).foldl (fsmBuildPiece o) (fsm.fsmInitTree, none))) := by
  have halike : Alike fsm.freeBlocksCount (uncounted fsm data, none) (fsm.fsmInitTree, none) :=
    ⟨rfl, rfl, (Int.zero_add _).symm, rfl⟩
  have hfold := halike.foldl o (fsmPieces g data)
  have hbuilt := (fsmBuildTree_spec g o (uncounted fsm data) rfl rfl rfl rfl rfl
    (MaximalRun.shortRuns hshort)).1
  have htree : fsmBuildTree g o (uncounted fsm data) =
      hashLast ((fsmPieces g data).foldl (fsmBuildPiece o) (uncounted fsm data, none)) := rfl
  have harea : (hashLast ((fsmPieces g data).foldl (fsmBuildPiece o)
      (fsm.fsmInitTree, none))).freeArea = (fsmBuildTree g o (uncounted fsm data)).freeArea := by
    rw [htree, hashLast_freeArea, hashLast_freeArea, hfold.area]
  refine ⟨?_, fun r => ?_, ?_⟩
  · rw [harea]
    exact hbuilt.tree.in_order
  · rw [harea]
    exact ⟨fun hr => hbuilt.maximalRun halloc hr, fun hr => hbuilt.mem_of_maximalRun halloc hfew hr⟩
  · have hcount := hbuilt.free_eq
    rw [htree, hashLast_freeBlocksCount] at hcount
    rw [hashLast_freeBlocksCount, hfold.count, hcount, Int.add_comm]
    rfl

/-! ### The theorem -/

/-- **The free tree is the set of maximal free runs, if they are short.** For every content of the
bitmap, every volume and every count of free blocks before, with every node allocated and at most as
many runs as the tree may have nodes, `fsm_build_tree` ends; and it builds one node for each maximal
run of clear logical bits and counts them exactly if each run has fewer than `2 ^ 32` blocks. -/
theorem free_tree_maximal_runs_iff (g : FsmGeometry) (o : FsmOracle) (raw : Bitmap) (fsm : FsmInfo)
    (halloc : ∀ p, o.allocNode p = true)
    (hfew : FewRuns (logicalBits g.blockSize raw) g.volumeBlocksCount) :
    ∃ fsm', fsm.fsmInitTree.fsmBuildTreeRaw g o raw = some fsm' ∧
      (BuildsRuns g (logicalBits g.blockSize raw) fsm.fsmInitTree fsm' ↔
        ∀ r, MaximalRun (logicalBits g.blockSize raw) g.volumeBlocksCount r →
        r.length < 2 ^ 32) := by
  refine ⟨_, fsmBuildTreeRaw_eq g o raw fsm.fsmInitTree, ?_⟩
  constructor
  · intro hbuilds r hr
    have hmem := (hbuilds.mem_iff r).mpr hr
    rw [hashLast_freeArea] at hmem
    exact foldl_fsmBuildPiece_length o _ (fsm.fsmInitTree, none) (by simp [fsmInitTree])
      r hmem
  · intro hshort
    exact buildsRuns fsm halloc hfew hshort

/-- A small volume has few runs. -/
theorem fewRuns_of_small {data : Bitmap} {bound : Nat} (h : bound ≤ fsmMaxFreeNodes) :
    FewRuns data bound := by
  intro l hnodup hmax
  have hstarts : (l.map Run.start).Nodup := by
    refine hnodup.map_on fun r hr r' hr' heq => ?_
    refine (hmax r hr).eq_of_has (hmax r' hr') (hmax r hr).has_start ?_
    rw [heq]
    exact (hmax r' hr').has_start
  have hsub : l.map Run.start ⊆ range bound := by
    intro x hx
    obtain ⟨r, hr, rfl⟩ := mem_map.mp hx
    have hpos := (hmax r hr).pos
    have hstop := (hmax r hr).stop_le
    exact mem_range.mpr (by omega)
  have hlen := (hstarts.subperm hsub).length_le
  rw [length_map, length_range] at hlen
  exact hlen.trans h

/-- Blocks of 4096 bytes. -/
def plainGeometry (volumeBlocksCount : Nat) : FsmGeometry where
  blockSize := 4096
  volumeBlocksCount := volumeBlocksCount
  logBlocksInSuperpage := 2
  logEraseBlockSizeInBlocks := 10
  configDebug := false
  blockSize_gt := FsmGeometry.page_gt
  logEraseBlockSize_le := by decide

/-- The memory of the bitmap of `boundaryGeometry`: blocks 3 and 4 are free, and ten blocks across
the end of the first bitmap block. -/
def twoRunsRaw : Bitmap := fun p =>
  !(p = 99 || p = 100 || (4056 ≤ p && p < 4064) || p = 4192 || p = 4193)

theorem twoRuns_built :
    ∃ fsm', (blank zero []).fsmInitTree.fsmBuildTreeRaw boundaryGeometry .allSucceed twoRunsRaw =
        some fsm' ∧
      BuildsRuns boundaryGeometry (logicalBits 512 twoRunsRaw) (blank zero []).fsmInitTree fsm' ∧
      fsm'.freeArea = [⟨3, 2⟩, ⟨3960, 10⟩] := by
  have hrun : ((blank zero []).fsmInitTree.fsmBuildTreeRaw boundaryGeometry .allSucceed
      twoRunsRaw).map (·.freeArea) = some [⟨3, 2⟩, ⟨3960, 10⟩] := by decide +kernel
  obtain ⟨fsm', hbuild, hiff⟩ := free_tree_maximal_runs_iff boundaryGeometry .allSucceed twoRunsRaw
    (blank zero []) (fun _ => rfl) (fewRuns_of_small (by decide))
  refine ⟨fsm', hbuild, hiff.mpr fun r hr => ?_, ?_⟩
  · have hstop : r.start + r.length ≤ 3973 := hr.stop_le
    omega
  · rw [hbuild] at hrun
    exact Option.some.inj hrun

/-- A volume of `2 ^ 32` free blocks: they are one run, and the tree has no node for it. -/
theorem longest_run_not_built :
    MaximalRun (logicalBits 4096 zero) (2 ^ 32) ⟨0, 2 ^ 32⟩ ∧
      ∃ fsm', (blank zero []).fsmInitTree.fsmBuildTreeRaw (plainGeometry (2 ^ 32))
          .allSucceed zero = some fsm' ∧ ⟨0, 2 ^ 32⟩ ∉ fsm'.freeArea := by
  refine ⟨⟨by decide, by decide, fun _ _ => rfl, .inl rfl, .inl (by decide)⟩, _,
    fsmBuildTreeRaw_eq _ _ _ _, fun hmem => ?_⟩
  rw [hashLast_freeArea] at hmem
  have hlt := foldl_fsmBuildPiece_length .allSucceed _
    ((blank zero []).fsmInitTree, none) (by simp [fsmInitTree]) _ hmem
  simp at hlt

end Vdfs4
