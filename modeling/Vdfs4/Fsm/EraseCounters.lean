import Mathlib.Data.List.GetD
import Vdfs4.Fsm.Build

/-!
# The erase block counters

For every erase block the free space manager counts the blocks in use. A block that becomes
empty is marked with a **magic number** until the next commit, when it is discarded.

* `EraseInv` — every counter is the number of set bits of its erase block, or the magic
  number for an empty one.
* `fsmIncEraseBlocksCounters_ok`, `fsmDecEraseBlocksCounters_ok` — marking clear bits and
  releasing set ones never meets the assertion on the counters.
* `fsmInitEraseBlocksCounters_ok` — the counters of a mounted volume.
-/

namespace Vdfs4

open Bitmap List

variable {g : FsmGeometry} {data data' : Bitmap} {counters : List Nat} {x num block length : Nat}

/-- The blocks in use of an erase block. -/
def usedBlocks (g : FsmGeometry) (data : Bitmap) (num : Nat) : Finset Nat :=
  (Finset.range g.volumeBlocksCount).filter fun x => x / g.eraseBlockSizeInBlocks = num && data x

theorem mem_usedBlocks : x ∈ usedBlocks g data num ↔
    x < g.volumeBlocksCount ∧ x / g.eraseBlockSizeInBlocks = num ∧ data x = true := by
  simp [usedBlocks]

theorem FsmGeometry.eraseBlockSizeInBlocks_pos (g : FsmGeometry) : 0 < g.eraseBlockSizeInBlocks :=
  Nat.two_pow_pos _

/-- The magic number is no count. -/
theorem FsmGeometry.eraseBlockSizeInBlocks_lt (g : FsmGeometry) :
    g.eraseBlockSizeInBlocks < delayedDiscardMagic := by
  have : g.eraseBlockSizeInBlocks ≤ 2 ^ 31 :=
    Nat.pow_le_pow_right (by omega) g.logEraseBlockSize_le
  have hmagic : 2 ^ 31 < delayedDiscardMagic := by decide
  omega

/-- No more blocks than an erase block has. -/
theorem card_usedBlocks_le (g : FsmGeometry) (data : Bitmap) (num : Nat) :
    (usedBlocks g data num).card ≤ g.eraseBlockSizeInBlocks := by
  have hsub : usedBlocks g data num ⊆ Finset.Ico (num * g.eraseBlockSizeInBlocks)
      (num * g.eraseBlockSizeInBlocks + g.eraseBlockSizeInBlocks) := by
    intro x hx
    obtain ⟨-, rfl, -⟩ := mem_usedBlocks.mp hx
    have := Nat.div_add_mod' x g.eraseBlockSizeInBlocks
    have := Nat.mod_lt x g.eraseBlockSizeInBlocks_pos
    exact Finset.mem_Ico.mpr ⟨by omega, by omega⟩
  simpa using Finset.card_le_card hsub

/-- The counters of a bitmap. -/
structure EraseInv (g : FsmGeometry) (data : Bitmap) (counters : List Nat) : Prop where
  length : counters.length = g.volumeBlocksCount / g.eraseBlockSizeInBlocks + 1
  /-- a counter counts, or marks an empty erase block -/
  count : ∀ num < counters.length, counters.getD num 0 = (usedBlocks g data num).card ∨
    (counters.getD num 0 = delayedDiscardMagic ∧ (usedBlocks g data num).card = 0)

/-- A count is that of an erase block, or marks it as empty. -/
def Counts (g : FsmGeometry) (data : Bitmap) (num count : Nat) : Prop :=
  count = (usedBlocks g data num).card ∨
    (count = delayedDiscardMagic ∧ (usedBlocks g data num).card = 0)

namespace EraseInv

/-- Only the bits of the volume count. -/
theorem congr (h : EraseInv g data counters)
    (heq : ∀ x < g.volumeBlocksCount, data' x = data x) : EraseInv g data' counters := by
  have hused : ∀ num, usedBlocks g data' num = usedBlocks g data num := by
    intro num
    ext x
    rw [mem_usedBlocks, mem_usedBlocks]
    constructor
    · rintro ⟨hx, hnum, hset⟩
      exact ⟨hx, hnum, heq x hx ▸ hset⟩
    · rintro ⟨hx, hnum, hset⟩
      exact ⟨hx, hnum, (heq x hx).trans hset⟩
  refine ⟨h.length, fun num hnum => ?_⟩
  rw [hused]
  exact h.count num hnum

/-- The counter of a block is in the table. -/
theorem div_lt_length (h : EraseInv g data counters) (hx : x < g.volumeBlocksCount) :
    x / g.eraseBlockSizeInBlocks < counters.length := by
  have := Nat.div_le_div_right (c := g.eraseBlockSizeInBlocks) hx.le
  have := h.length
  omega

/-- One counter changes with the bit of one of its blocks. -/
theorem set {count : Nat} (h : EraseInv g data counters)
    (hothers : ∀ num', num' ≠ num → usedBlocks g data' num' = usedBlocks g data num')
    (hcount : Counts g data' num count) :
    EraseInv g data' (counters.set num count) := by
  refine ⟨by rw [length_set]; exact h.length, fun num' hnum' => ?_⟩
  rw [length_set] at hnum'
  by_cases heq : num' = num
  · subst heq
    rw [getD_eq_getElem _ _ (by rwa [length_set]), getElem_set_self]
    exact hcount
  · have hget : (counters.set num count).getD num' 0 = counters.getD num' 0 := by
      simp only [getD_eq_getElem?_getD, getElem?_set_ne (Ne.symm heq)]
    rw [hget, hothers num' heq]
    exact h.count num' hnum'

end EraseInv

/-- A bit changes the blocks in use of its own erase block only. -/
theorem usedBlocks_of_ne (hbits : ∀ y, y ≠ x → data' y = data y)
    (hnum : num ≠ x / g.eraseBlockSizeInBlocks) :
    usedBlocks g data' num = usedBlocks g data num := by
  ext y
  rw [mem_usedBlocks, mem_usedBlocks]
  by_cases hy : y = x
  · subst hy
    constructor
    · rintro ⟨-, h, -⟩
      exact absurd h.symm hnum
    · rintro ⟨-, h, -⟩
      exact absurd h.symm hnum
  · rw [hbits y hy]

/-- A bit that is set is one block more. -/
theorem card_usedBlocks_set (hx : x < g.volumeBlocksCount) (hclear : data x = false) :
    (usedBlocks g (data.setRange x 1) (x / g.eraseBlockSizeInBlocks)).card =
      (usedBlocks g data (x / g.eraseBlockSizeInBlocks)).card + 1 := by
  have hinsert : usedBlocks g (data.setRange x 1) (x / g.eraseBlockSizeInBlocks) =
      insert x (usedBlocks g data (x / g.eraseBlockSizeInBlocks)) := by
    ext y
    rw [Finset.mem_insert, mem_usedBlocks, mem_usedBlocks, setRange_eq_true]
    constructor
    · rintro ⟨hy, hnum, hset | hset⟩
      · exact .inl (by omega)
      · exact .inr ⟨hy, hnum, hset⟩
    · rintro (rfl | ⟨hy, hnum, hset⟩)
      · exact ⟨hx, rfl, .inl ⟨le_rfl, by omega⟩⟩
      · exact ⟨hy, hnum, .inr hset⟩
  rw [hinsert, Finset.card_insert_of_notMem]
  rw [mem_usedBlocks, hclear]
  rintro ⟨-, -, h⟩
  cases h

/-- A bit that is cleared is one block less. -/
theorem card_usedBlocks_clear (hx : x < g.volumeBlocksCount) (hset : data x = true) :
    (usedBlocks g (data.clearRange x 1) (x / g.eraseBlockSizeInBlocks)).card + 1 =
      (usedBlocks g data (x / g.eraseBlockSizeInBlocks)).card := by
  have herase : usedBlocks g (data.clearRange x 1) (x / g.eraseBlockSizeInBlocks) =
      (usedBlocks g data (x / g.eraseBlockSizeInBlocks)).erase x := by
    ext y
    rw [Finset.mem_erase, mem_usedBlocks, mem_usedBlocks, clearRange_eq_true]
    constructor
    · rintro ⟨hy, hnum, hout, hset'⟩
      exact ⟨by omega, hy, hnum, hset'⟩
    · rintro ⟨hne, hy, hnum, hset'⟩
      exact ⟨hy, hnum, by omega, hset'⟩
  rw [herase]
  exact Finset.card_erase_add_one (mem_usedBlocks.mpr ⟨hx, rfl, hset⟩)

/-! ### Counting ranges -/

/-- **A loop that counts a range**, one block after another, keeps the counters right: each round
stores a right count for the one bit it changes to `v`. -/
theorem EraseInv.countRange {v : Bool} {loop : List Nat → Nat → Nat → Except FsmBug (List Nat)}
    (hzero : ∀ counters block, loop counters block 0 = .ok counters)
    (hround : ∀ {data counters block} length, EraseInv g data counters →
      block < g.volumeBlocksCount → data block = !v → ∃ count,
        loop counters block (length + 1) =
          loop (counters.set (block / g.eraseBlockSizeInBlocks) count) (block + 1) length ∧
        Counts g (fun x => if block ≤ x ∧ x < block + 1 then v else data x)
          (block / g.eraseBlockSizeInBlocks) count)
    (h : EraseInv g data counters) (hvolume : block + length ≤ g.volumeBlocksCount)
    (hold : ∀ x, block ≤ x → x < block + length → data x = !v) :
    ∃ counters', loop counters block length = .ok counters' ∧
      EraseInv g (fun x => if block ≤ x ∧ x < block + length then v else data x) counters' := by
  induction length generalizing block data counters with
  | zero =>
    refine ⟨counters, hzero _ _, h.congr fun x _ => ?_⟩
    rw [if_neg (by omega)]
  | succ length ih =>
    obtain ⟨count, hloop, hcount⟩ := hround length h (by omega) (hold block le_rfl (by omega))
    have hset := h.set (fun num' hne => usedBlocks_of_ne (fun y hy => if_neg (by omega)) hne) hcount
    obtain ⟨counters', hok, hinv⟩ :=
      ih hset (show block + 1 + length ≤ _ by omega) fun x h1 h2 => by
      rw [if_neg (by omega)]
      exact hold x (by omega) (by omega)
    refine ⟨counters', hloop.trans hok, hinv.congr fun x _ => ?_⟩
    split <;> split <;> (try split) <;> first | rfl | omega

/-- **`fsm_inc_erase_blocks_counters`** on a range of clear bits. -/
theorem fsmIncEraseBlocksCounters_ok (h : EraseInv g data counters)
    (hvolume : block + length ≤ g.volumeBlocksCount)
    (hclear : ∀ x, block ≤ x → x < block + length → data x = false) :
    ∃ counters', fsmIncEraseBlocksCounters g counters block length = .ok counters' ∧
      EraseInv g (data.setRange block length) counters' := by
  refine EraseInv.countRange (v := true) (fun _ _ => rfl) ?_ h hvolume hclear
  intro data counters block length h hblock hclear
  have hcard := card_usedBlocks_set hblock hclear
  have hmax := card_usedBlocks_le g (data.setRange block 1) (block / g.eraseBlockSizeInBlocks)
  have hmagic := g.eraseBlockSizeInBlocks_lt
  have hcases := h.count _ (h.div_lt_length hblock)
  rw [fsmIncEraseBlocksCounters]
  simp only [show block >>> g.logEraseBlockSizeInBlocks = block / g.eraseBlockSizeInBlocks from
    Nat.shiftRight_eq_div_pow _ _]
  split
  · exact ⟨1, rfl, .inl (show 1 = (usedBlocks g (data.setRange block 1) _).card by omega)⟩
  · rename_i hnot
    have hcount := hcases.resolve_right fun h => hnot h.1
    rw [if_neg (by omega)]
    exact ⟨_, rfl, .inl (show _ = (usedBlocks g (data.setRange block 1) _).card by omega)⟩

/-- The only assertion of `fsm_inc_erase_blocks_counters`. -/
theorem eq_of_fsmIncEraseBlocksCounters_error {bug : FsmBug}
    (h : fsmIncEraseBlocksCounters g counters block length = .error bug) :
    bug = .eraseBlocksCounter := by
  induction length generalizing block counters with
  | zero => cases h
  | succ length ih =>
    rw [fsmIncEraseBlocksCounters] at h
    split at h
    · exact ih h
    · split at h
      · cases h
        rfl
      · exact ih h

/-- **`fsm_dec_erase_blocks_counters`** on a range of set bits. -/
theorem fsmDecEraseBlocksCounters_ok (h : EraseInv g data counters)
    (hvolume : block + length ≤ g.volumeBlocksCount)
    (hset : ∀ x, block ≤ x → x < block + length → data x = true) :
    ∃ counters', fsmDecEraseBlocksCounters g counters block length = .ok counters' ∧
      EraseInv g (data.clearRange block length) counters' := by
  refine EraseInv.countRange (v := false) (fun _ _ => rfl) ?_ h hvolume hset
  intro data counters block length h hblock hset
  have hcard := card_usedBlocks_clear hblock hset
  have hmax := card_usedBlocks_le g data (block / g.eraseBlockSizeInBlocks)
  -- a used block is counted, so the counter is no magic number
  have hcount := (h.count _ (h.div_lt_length hblock)).resolve_right fun h => by omega
  rw [fsmDecEraseBlocksCounters]
  simp only [show block >>> g.logEraseBlockSizeInBlocks = block / g.eraseBlockSizeInBlocks from
    Nat.shiftRight_eq_div_pow _ _]
  rw [if_neg (show counters.getD (block / g.eraseBlockSizeInBlocks) 0 ≠ 0 by omega)]
  split
  · exact ⟨_, rfl, .inr ⟨rfl, show (usedBlocks g (data.clearRange block 1) _).card = 0 by omega⟩⟩
  · rw [if_neg (by omega)]
    exact ⟨_, rfl, .inl (show _ = (usedBlocks g (data.clearRange block 1) _).card by omega)⟩

/-- **`fsm_delayed_discard`.** -/
theorem EraseInv.fsmDelayedDiscard (h : EraseInv g data counters) :
    EraseInv g data (fsmDelayedDiscard counters) := by
  refine ⟨by rw [Vdfs4.fsmDelayedDiscard, length_map]; exact h.length, fun num hnum => .inl ?_⟩
  rw [Vdfs4.fsmDelayedDiscard, length_map] at hnum
  have hget : (Vdfs4.fsmDelayedDiscard counters).getD num 0 =
      if counters.getD num 0 = delayedDiscardMagic then 0 else counters.getD num 0 := by
    rw [Vdfs4.fsmDelayedDiscard, getD_eq_getElem _ _ (by rwa [length_map]),
      getElem_map, getD_eq_getElem _ _ hnum]
  rw [hget]
  rcases h.count num hnum with hcount | ⟨hmagic, hempty⟩
  · have := card_usedBlocks_le g data num
    have := g.eraseBlockSizeInBlocks_lt
    rw [if_neg (by omega), hcount]
  · rw [if_pos hmagic, hempty]

/-! ### Mounting -/

/-- The bits below `d`. -/
def bitsBelow (data : Bitmap) (d : Nat) : Bitmap := fun x => decide (x < d) && data x

/-- The counters during the scan. -/
theorem foldlM_fsmIncEraseBlocksCounters_ok {d : Nat} {pieces : List ScanPiece}
    (hpieces : Pieces g data d pieces) (h : EraseInv g (bitsBelow data d) counters) :
    ∃ counters', pieces.foldlM (fun counters piece => fsmIncEraseBlocksCounters g counters
        piece.dataStart (piece.freeStart - piece.dataStart)) counters = .ok counters' ∧
      EraseInv g (bitsBelow data g.volumeBlocksCount) counters' := by
  induction hpieces generalizing counters with
  | nil => exact ⟨counters, rfl, h⟩
  | @cons d p rest hd hp _ ih =>
    subst hd
    have hle := hp.le_freeStart
    have hle' := hp.freeStart_le
    have hvol := hp.stop_le
    obtain ⟨counters1, hok, hinv⟩ := fsmIncEraseBlocksCounters_ok h
      (show p.dataStart + (p.freeStart - p.dataStart) ≤ g.volumeBlocksCount by omega)
      (fun x h1 _ => by simp [bitsBelow]; omega)
    -- the set bits of the piece are new, its clear bits change nothing
    have hbits : ∀ x < g.volumeBlocksCount, bitsBelow data p.stop x =
        (bitsBelow data p.dataStart).setRange p.dataStart (p.freeStart - p.dataStart) x := by
      intro x _
      simp only [bitsBelow, setRange]
      split
      · rename_i hx
        rw [hp.set x hx.1 (by omega)]
        simp
        omega
      rename_i hx
      rcases Nat.lt_or_ge x p.dataStart with hlt | hge
      · simp only [show x < p.stop by omega, hlt]
      · rcases Nat.lt_or_ge x p.stop with hlt' | hge'
        · rw [hp.clear x (by omega) hlt']
          simp
        · simp only [show ¬ x < p.stop by omega, show ¬ x < p.dataStart by omega]
    obtain ⟨counters', hfold, hinv'⟩ := ih (hinv.congr hbits)
    refine ⟨counters', ?_, hinv'⟩
    rw [foldlM_cons, hok]
    exact hfold

/-- **`fsm_init_erase_blocks_counters`.** -/
theorem fsmInitEraseBlocksCounters_ok (g : FsmGeometry) (data : Bitmap) :
    ∃ counters, fsmInitEraseBlocksCounters g data = .ok counters ∧ EraseInv g data counters := by
  have hstart : EraseInv g (bitsBelow data 0)
      (replicate (g.volumeBlocksCount / g.eraseBlockSizeInBlocks + 1) 0) := by
    refine ⟨length_replicate, fun num hnum => .inl ?_⟩
    have hempty : usedBlocks g (bitsBelow data 0) num = ∅ := by
      ext x
      simp [mem_usedBlocks, bitsBelow]
    rw [hempty, getD_eq_getElem _ _ hnum, getElem_replicate, Finset.card_empty]
  obtain ⟨counters, hok, hinv⟩ :=
    foldlM_fsmIncEraseBlocksCounters_ok (fsmPieces_pieces g data) hstart
  refine ⟨counters, hok, hinv.congr fun x hx => ?_⟩
  simp [bitsBelow, hx]

end Vdfs4
