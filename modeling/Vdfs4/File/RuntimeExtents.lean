import Vdfs4.Snapshot.Table

/-!
# Runtime extents

The **delayed blocks** of an inode, those written but not yet placed on the volume, are kept
as a linked list of runtime extents. Here are the functions on the list,
`vdfs4_runtime_extent_add`, `vdfs4_runtime_extent_del`, `vdfs4_truncate_runtime_blocks` and
`vdfs4_runtime_extent_exists`, and what each does to the set of delayed blocks.

* `Delayed` — the set of blocks a list stands for.
* `Ascending` — the entries are **sorted and do not touch**; `vdfs4_runtime_extent_add`
  relies on it.
* `Inner` — a block with a neighbour on either side in its entry. To take it out of the list
  the entry is split, and the upper part is linked **before** the lower one.

A block count is not truncated to 32 bits: every delayed block is a reserved block of the
volume.
-/

namespace Vdfs4

open List Except

/-- `vdfs4_runtime_extent_info`. -/
structure RuntimeExtent where
  iblock : Nat
  allocHint : Nat
  blockCount : Nat
deriving DecidableEq, Repr

/-- `vdfs4_runtime_extent_exists`. -/
def vdfs4RuntimeExtentExists (iblock : Nat) (list : List RuntimeExtent) : Bool :=
  list.any fun entry => entry.iblock ≤ iblock && iblock < entry.iblock + entry.blockCount

/-- `vdfs4_runtime_extent_count`. -/
def vdfs4RuntimeExtentCount (list : List RuntimeExtent) : Nat :=
  (list.map RuntimeExtent.blockCount).sum

/-- `vdfs4_runtime_extent_add`; `kzalloc` says whether the allocation of an entry succeeds. -/
def vdfs4RuntimeExtentAdd (iblock allocHint : Nat) (kzalloc : Bool) :
    List RuntimeExtent → Except Errno (List RuntimeExtent)
  | [] => if kzalloc then .ok [⟨iblock, allocHint, 1⟩] else .error .enomem
  | entry :: rest =>
    if entry.iblock + entry.blockCount = iblock then
      -- new block is aligned to the existent block at the end
      let entry := { entry with blockCount := entry.blockCount + 1 }
      match rest with
      | [] => .ok [entry]
      | next :: rest =>
        -- join with next extent if needed
        if entry.iblock + entry.blockCount = next.iblock then
          .ok ({ next with
            iblock := entry.iblock
            blockCount := next.blockCount + entry.blockCount } :: rest)
        else .ok (entry :: next :: rest)
    else if entry.iblock = iblock + 1 then
      -- new block is aligned to the existent block at the begining
      .ok ({ entry with
        iblock := entry.iblock - 1
        blockCount := entry.blockCount + 1 } :: rest)
    else if entry.iblock ≤ iblock ∧ iblock < entry.iblock + entry.blockCount then .error .eexist
    else if iblock < entry.iblock then
      if kzalloc then .ok (⟨iblock, allocHint, 1⟩ :: entry :: rest) else .error .enomem
    else (vdfs4RuntimeExtentAdd iblock allocHint kzalloc rest).map (entry :: ·)

/-- `vdfs4_runtime_extent_del`. -/
def vdfs4RuntimeExtentDel (iblock : Nat) (kzalloc : Bool) :
    List RuntimeExtent → Except Errno (List RuntimeExtent)
  | [] => .error .einval
  | entry :: rest =>
    if entry.iblock = iblock then
      -- begining of chunk
      if entry.blockCount - 1 = 0 then .ok rest
      else .ok ({ entry with
        iblock := entry.iblock + 1
        blockCount := entry.blockCount - 1 } :: rest)
    else if entry.iblock + entry.blockCount = iblock + 1 then
      -- delete from end
      .ok ({ entry with blockCount := entry.blockCount - 1 } :: rest)
    else if entry.iblock ≤ iblock ∧ iblock < entry.iblock + entry.blockCount then
      -- middle of chunk; `list_add_tail` links the new entry before this one
      if kzalloc then
        let new : RuntimeExtent := ⟨iblock + 1, 0, entry.iblock + entry.blockCount - (iblock + 1)⟩
        .ok (new :: { entry with blockCount := entry.blockCount - (new.blockCount + 1) } :: rest)
      else .error .enomem
    else (vdfs4RuntimeExtentDel iblock kzalloc rest).map (entry :: ·)

/-- `vdfs4_truncate_runtime_blocks`: the list and the total of freed blocks. -/
def vdfs4TruncateRuntimeBlocks (newSizeIblocks : Nat) :
    List RuntimeExtent → List RuntimeExtent × Nat
  | [] => ([], 0)
  | entry :: rest =>
    let (rest, total) := vdfs4TruncateRuntimeBlocks newSizeIblocks rest
    if newSizeIblocks ≤ entry.iblock then
      -- entire chunck should be truncated
      (rest, total + entry.blockCount)
    else if newSizeIblocks ≤ entry.iblock + entry.blockCount then
      -- new size inside the chunk
      let truncSize := newSizeIblocks - entry.iblock
      ({ entry with blockCount := truncSize } :: rest, total + (entry.blockCount - truncSize))
    else (entry :: rest, total)

/-! ### Sets of delayed blocks -/

/-- `x` is a delayed block of the list. -/
def Delayed (l : List RuntimeExtent) (x : Nat) : Prop :=
  ∃ e ∈ l, e.iblock ≤ x ∧ x < e.iblock + e.blockCount

/-- No entry is empty. -/
def Filled (l : List RuntimeExtent) : Prop := ∀ e ∈ l, 0 < e.blockCount

/-- The entries are sorted and do not touch. -/
def Ascending (l : List RuntimeExtent) : Prop :=
  l.Pairwise fun a b => a.iblock + a.blockCount < b.iblock

/-- `x` has a neighbour on either side in its entry. -/
def Inner (l : List RuntimeExtent) (x : Nat) : Prop :=
  ∃ e ∈ l, e.iblock < x ∧ x + 1 < e.iblock + e.blockCount

instance (l : List RuntimeExtent) (x : Nat) : Decidable (Inner l x) :=
  inferInstanceAs (Decidable (∃ e ∈ l, _))

section lists

variable {l l' rest : List RuntimeExtent} {entry : RuntimeExtent} {iblock allocHint x count : Nat}
  {kzalloc : Bool}

theorem exists_iff_delayed : vdfs4RuntimeExtentExists x l = true ↔ Delayed l x := by
  simp [vdfs4RuntimeExtentExists, Delayed]

@[simp] theorem delayed_nil : ¬ Delayed [] x := by
  rintro ⟨e, he, -⟩
  cases he

@[simp] theorem delayed_cons : Delayed (entry :: rest) x ↔
    (entry.iblock ≤ x ∧ x < entry.iblock + entry.blockCount) ∨ Delayed rest x :=
  exists_mem_cons_iff ..

@[simp] theorem vdfs4RuntimeExtentCount_nil : vdfs4RuntimeExtentCount [] = 0 := rfl

@[simp] theorem vdfs4RuntimeExtentCount_cons :
    vdfs4RuntimeExtentCount (entry :: rest) = entry.blockCount + vdfs4RuntimeExtentCount rest :=
  rfl

@[simp] theorem filled_nil : Filled [] := fun _ h => absurd h not_mem_nil

@[simp] theorem filled_cons : Filled (entry :: rest) ↔ 0 < entry.blockCount ∧ Filled rest :=
  forall_mem_cons

@[simp] theorem ascending_cons : Ascending (entry :: rest) ↔
    (∀ e ∈ rest, entry.iblock + entry.blockCount < e.iblock) ∧ Ascending rest :=
  pairwise_cons

/-- An entry of a list without empty entries starts at a delayed block. -/
theorem Filled.delayed_iblock (h : Filled l) {e : RuntimeExtent} (he : e ∈ l) :
    Delayed l e.iblock :=
  ⟨e, he, Nat.le_refl _, Nat.lt_add_of_pos_right (h e he)⟩

/-- The delayed blocks behind the first entry do not touch it. -/
theorem lt_of_delayed (h : Ascending (entry :: rest)) (hx : Delayed rest x) :
    entry.iblock + entry.blockCount < x := by
  obtain ⟨e, he, hle, -⟩ := hx
  exact Nat.lt_of_lt_of_le ((ascending_cons.mp h).1 e he) hle

/-- An entry before a list all of whose delayed blocks are behind it. -/
theorem Ascending.cons (hl : Ascending l) (hfilled : Filled l)
    (hbehind : ∀ x, Delayed l x → entry.iblock + entry.blockCount < x) : Ascending (entry :: l) :=
  ascending_cons.mpr ⟨fun _ he => hbehind _ (hfilled.delayed_iblock he), hl⟩

/-- An entry may be exchanged for one that ends no later. -/
theorem Ascending.head {entry' : RuntimeExtent} (h : Ascending (entry :: rest))
    (hend : entry'.iblock + entry'.blockCount ≤ entry.iblock + entry.blockCount) :
    Ascending (entry' :: rest) :=
  ascending_cons.mpr
    ⟨fun e he => Nat.lt_of_le_of_lt hend ((ascending_cons.mp h).1 e he), (ascending_cons.mp h).2⟩

/-- A block outside of the first entry that is not behind its end is not delayed. -/
theorem Ascending.not_delayed (h : Ascending (entry :: rest))
    (hle : x ≤ entry.iblock + entry.blockCount)
    (hout : ¬ (entry.iblock ≤ x ∧ x < entry.iblock + entry.blockCount)) :
    ¬ Delayed (entry :: rest) x := fun hx =>
  Nat.not_lt.mpr hle (lt_of_delayed h ((delayed_cons.mp hx).resolve_left hout))

/-- A change of the rest of the list. -/
theorem map_cons_eq_ok {res : Except Errno (List RuntimeExtent)} :
    res.map (entry :: ·) = .ok l ↔ ∃ rest, res = .ok rest ∧ entry :: rest = l := by
  cases res <;> simp [Except.map]

theorem map_cons_eq_error {res : Except Errno (List RuntimeExtent)} {e : Errno} :
    res.map (entry :: ·) = .error e ↔ res = .error e := by
  cases res <;> simp [Except.map]

/-! ### Adding a block -/

/-- A block is added, whatever the order of the list. -/
theorem vdfs4RuntimeExtentAdd_filled (hfilled : Filled l)
    (h : vdfs4RuntimeExtentAdd iblock allocHint kzalloc l = .ok l') :
    Filled l' ∧ vdfs4RuntimeExtentCount l' = vdfs4RuntimeExtentCount l + 1 := by
  induction l generalizing l' with
  | nil =>
    simp only [vdfs4RuntimeExtentAdd] at h
    split at h
    · obtain rfl := ok.inj h
      simp
    · cases h
  | cons entry rest ih =>
    obtain ⟨hpos, hrest⟩ := filled_cons.mp hfilled
    simp only [vdfs4RuntimeExtentAdd] at h
    split at h
    · split at h
      · obtain rfl := ok.inj h
        simp
      rename_i next rest
      obtain ⟨-, hrest'⟩ := filled_cons.mp hrest
      split at h <;> obtain rfl := ok.inj h
      · simp only [filled_cons, vdfs4RuntimeExtentCount_cons]
        exact ⟨⟨by omega, hrest'⟩, by omega⟩
      · simp only [filled_cons, vdfs4RuntimeExtentCount_cons]
        exact ⟨⟨by omega, filled_cons.mp hrest⟩, by omega⟩
    split at h
    · obtain rfl := ok.inj h
      simp only [filled_cons, vdfs4RuntimeExtentCount_cons]
      exact ⟨⟨by omega, hrest⟩, by omega⟩
    split at h
    · cases h
    split at h
    · split at h
      · obtain rfl := ok.inj h
        simp only [filled_cons, vdfs4RuntimeExtentCount_cons]
        exact ⟨⟨by omega, hpos, hrest⟩, by omega⟩
      · cases h
    · obtain ⟨rest', hadd, rfl⟩ := map_cons_eq_ok.mp h
      obtain ⟨hfilled', hcount⟩ := ih hrest hadd
      simp only [filled_cons, vdfs4RuntimeExtentCount_cons]
      exact ⟨⟨hpos, hfilled'⟩, by omega⟩

/-- **A block is added to a sorted list**: it was not delayed, and it is now. -/
theorem vdfs4RuntimeExtentAdd_ascending (hfilled : Filled l) (hasc : Ascending l)
    (h : vdfs4RuntimeExtentAdd iblock allocHint kzalloc l = .ok l') :
    Ascending l' ∧ ¬ Delayed l iblock ∧ ∀ x, Delayed l' x ↔ Delayed l x ∨ x = iblock := by
  induction l generalizing l' with
  | nil =>
    simp only [vdfs4RuntimeExtentAdd] at h
    split at h
    · obtain rfl := ok.inj h
      refine ⟨pairwise_singleton .., delayed_nil, fun x => ?_⟩
      simp only [delayed_cons, delayed_nil, or_false, false_or]
      omega
    · cases h
  | cons entry rest ih =>
    obtain ⟨hpos, hrest⟩ := filled_cons.mp hfilled
    obtain ⟨hbehind, hasc'⟩ := ascending_cons.mp hasc
    simp only [vdfs4RuntimeExtentAdd] at h
    split at h
    · -- behind this entry
      rename_i hend
      have hnot : ¬ Delayed (entry :: rest) iblock := hasc.not_delayed (by omega) (by omega)
      split at h
      · obtain rfl := ok.inj h
        refine ⟨pairwise_singleton .., hnot, fun x => ?_⟩
        simp only [delayed_cons, delayed_nil, or_false]
        omega
      rename_i next rest
      obtain ⟨hbehind', hasc''⟩ := ascending_cons.mp hasc'
      have hnext := hbehind next mem_cons_self
      have hnextpos := (filled_cons.mp hrest).1
      split at h <;> obtain rfl := ok.inj h
      · -- and before the next one
        rename_i hjoin
        refine ⟨ascending_cons.mpr ⟨fun e he => ?_, hasc''⟩, hnot, fun x => ?_⟩
        · have := hbehind' e he
          simp only at hjoin ⊢
          omega
        · simp only [delayed_cons] at hjoin ⊢
          grind
      · rename_i hjoin
        refine ⟨ascending_cons.mpr ⟨fun e he => ?_, hasc'⟩, hnot, fun x => ?_⟩
        · simp only
          rcases mem_cons.mp he with rfl | he
          · omega
          · have := hbehind' e he
            omega
        · simp only [delayed_cons]
          grind
    rename_i hend
    split at h
    · -- just before this entry
      rename_i hbegin
      obtain rfl := ok.inj h
      refine ⟨hasc.head (by simp only; omega), hasc.not_delayed (by omega) (by omega), fun x => ?_⟩
      simp only [delayed_cons]
      grind
    rename_i hbegin
    split at h
    · cases h
    rename_i hinside
    split at h
    · -- a new entry before this one
      rename_i hbefore
      split at h
      · obtain rfl := ok.inj h
        refine ⟨ascending_cons.mpr ⟨fun e he => ?_, hasc⟩, hasc.not_delayed (by omega) hinside,
          fun x => ?_⟩
        · simp only
          rcases mem_cons.mp he with rfl | he
          · omega
          · have := hbehind e he
            omega
        · simp only [delayed_cons]
          grind
      · cases h
    · -- further on
      rename_i hbefore
      obtain ⟨rest', hadd, rfl⟩ := map_cons_eq_ok.mp h
      obtain ⟨hasc1, hnot, hiff⟩ := ih hrest hasc' hadd
      refine ⟨hasc1.cons (vdfs4RuntimeExtentAdd_filled hrest hadd).1 fun x hx => ?_,
        fun hx => (delayed_cons.mp hx).elim hinside hnot, fun x => ?_⟩
      · rcases (hiff x).mp hx with hx | rfl
        · exact lt_of_delayed hasc hx
        · omega
      · rw [delayed_cons, delayed_cons, hiff x, or_assoc]

/-! ### Deleting a block -/

/-- A block is deleted, whatever the order of the list. -/
theorem vdfs4RuntimeExtentDel_filled (hfilled : Filled l)
    (h : vdfs4RuntimeExtentDel iblock kzalloc l = .ok l') :
    Filled l' ∧ vdfs4RuntimeExtentCount l' + 1 = vdfs4RuntimeExtentCount l := by
  induction l generalizing l' with
  | nil => cases h
  | cons entry rest ih =>
    obtain ⟨hpos, hrest⟩ := filled_cons.mp hfilled
    simp only [vdfs4RuntimeExtentDel] at h
    split at h
    · split at h <;> obtain rfl := ok.inj h
      · rw [vdfs4RuntimeExtentCount_cons]
        exact ⟨hrest, by omega⟩
      · simp only [filled_cons, vdfs4RuntimeExtentCount_cons]
        exact ⟨⟨by omega, hrest⟩, by omega⟩
    split at h
    · obtain rfl := ok.inj h
      simp only [filled_cons, vdfs4RuntimeExtentCount_cons]
      exact ⟨⟨by omega, hrest⟩, by omega⟩
    split at h
    · split at h
      · obtain rfl := ok.inj h
        simp only [filled_cons, vdfs4RuntimeExtentCount_cons]
        exact ⟨⟨by omega, by omega, hrest⟩, by omega⟩
      · cases h
    · obtain ⟨rest', hdel, rfl⟩ := map_cons_eq_ok.mp h
      obtain ⟨hfilled', hcount⟩ := ih hrest hdel
      simp only [filled_cons, vdfs4RuntimeExtentCount_cons]
      exact ⟨⟨hpos, hfilled'⟩, by omega⟩

/-- **A block that is not an inner one is deleted from a sorted list.** -/
theorem vdfs4RuntimeExtentDel_ascending (hfilled : Filled l) (hasc : Ascending l)
    (hinner : ¬ Inner l iblock) (h : vdfs4RuntimeExtentDel iblock kzalloc l = .ok l') :
    Ascending l' ∧ ∀ x, Delayed l' x ↔ Delayed l x ∧ x ≠ iblock := by
  induction l generalizing l' with
  | nil => cases h
  | cons entry rest ih =>
    obtain ⟨hpos, hrest⟩ := filled_cons.mp hfilled
    obtain ⟨hbehind, hasc'⟩ := ascending_cons.mp hasc
    have hfar : ∀ x, Delayed rest x → entry.iblock + entry.blockCount < x := fun x hx =>
      lt_of_delayed hasc hx
    simp only [vdfs4RuntimeExtentDel] at h
    split at h
    · -- the first block of this entry
      rename_i hbegin
      split at h <;> obtain rfl := ok.inj h
      · refine ⟨hasc', fun x => ?_⟩
        rw [delayed_cons]
        constructor
        · intro hx
          have := hfar x hx
          exact ⟨.inr hx, by omega⟩
        · rintro ⟨hx | hx, hne⟩
          · omega
          · exact hx
      · refine ⟨hasc.head (by simp only; omega), fun x => ?_⟩
        have := hfar x
        simp only [delayed_cons]
        grind
    rename_i hbegin
    split at h
    · -- the last block of this entry
      obtain rfl := ok.inj h
      refine ⟨hasc.head (by simp only; omega), fun x => ?_⟩
      have := hfar x
      simp only [delayed_cons]
      grind
    rename_i hend
    split at h
    · -- an inner block
      rename_i hinside
      exact absurd ⟨entry, mem_cons_self, by omega, by omega⟩ hinner
    -- further on
    rename_i hinside
    obtain ⟨rest', hdel, rfl⟩ := map_cons_eq_ok.mp h
    obtain ⟨hasc1, hiff⟩ := ih hrest hasc'
      (fun ⟨e, he, hx⟩ => hinner ⟨e, mem_cons_of_mem _ he, hx⟩) hdel
    refine ⟨hasc1.cons (vdfs4RuntimeExtentDel_filled hrest hdel).1 fun x hx =>
      hfar x ((hiff x).mp hx).1, fun x => ?_⟩
    rw [delayed_cons, delayed_cons, hiff x]
    grind

/-- The deletion of a delayed block that is not an inner one needs no memory. -/
theorem vdfs4RuntimeExtentDel_ok (kzalloc : Bool) (hx : Delayed l iblock)
    (hinner : ¬ Inner l iblock) : ∃ l', vdfs4RuntimeExtentDel iblock kzalloc l = .ok l' := by
  induction l with
  | nil => exact absurd hx delayed_nil
  | cons entry rest ih =>
    simp only [vdfs4RuntimeExtentDel]
    split
    · split <;> exact ⟨_, rfl⟩
    split
    · exact ⟨_, rfl⟩
    split
    · exact absurd ⟨entry, mem_cons_self, by omega, by omega⟩ hinner
    · rename_i hinside
      obtain ⟨rest', hdel⟩ := ih ((delayed_cons.mp hx).resolve_left hinside)
        fun ⟨e, he, hx⟩ => hinner ⟨e, mem_cons_of_mem _ he, hx⟩
      rw [hdel]
      exact ⟨_, rfl⟩

/-! ### Truncating and taking from the front -/

/-- Truncation to `n`: the freed blocks are counted. -/
theorem vdfs4TruncateRuntimeBlocks_filled (n : Nat) (hfilled : Filled l) :
    Filled (vdfs4TruncateRuntimeBlocks n l).1 ∧
      vdfs4RuntimeExtentCount (vdfs4TruncateRuntimeBlocks n l).1 +
        (vdfs4TruncateRuntimeBlocks n l).2 = vdfs4RuntimeExtentCount l := by
  induction l with
  | nil => exact ⟨filled_nil, rfl⟩
  | cons entry rest ih =>
    obtain ⟨hpos, hrest⟩ := filled_cons.mp hfilled
    obtain ⟨hfilled', hcount⟩ := ih hrest
    simp only [vdfs4TruncateRuntimeBlocks]
    split
    · simp only [vdfs4RuntimeExtentCount_cons]
      exact ⟨hfilled', by omega⟩
    split
    · simp only [filled_cons, vdfs4RuntimeExtentCount_cons]
      exact ⟨⟨by omega, hfilled'⟩, by omega⟩
    · simp only [filled_cons, vdfs4RuntimeExtentCount_cons]
      exact ⟨⟨hpos, hfilled'⟩, by omega⟩

/-- Truncation to `n` keeps the delayed blocks before `n`, whatever the order of the list. -/
theorem delayed_vdfs4TruncateRuntimeBlocks (n : Nat) :
    Delayed (vdfs4TruncateRuntimeBlocks n l).1 x ↔ Delayed l x ∧ x < n := by
  induction l with
  | nil => simp [vdfs4TruncateRuntimeBlocks]
  | cons entry rest ih =>
    simp only [vdfs4TruncateRuntimeBlocks]
    split
    · rw [ih, delayed_cons]
      grind
    split
    · simp only [delayed_cons, ih]
      grind
    · simp only [delayed_cons, ih]
      grind

/-- A truncated list is still sorted. -/
theorem vdfs4TruncateRuntimeBlocks_ascending (n : Nat) (hfilled : Filled l) (hasc : Ascending l) :
    Ascending (vdfs4TruncateRuntimeBlocks n l).1 := by
  induction l with
  | nil => exact .nil
  | cons entry rest ih =>
    obtain ⟨-, hrest⟩ := filled_cons.mp hfilled
    have hasc1 := ih hrest (ascending_cons.mp hasc).2
    have hfilled1 := (vdfs4TruncateRuntimeBlocks_filled n hrest).1
    have hfar : ∀ x, Delayed (vdfs4TruncateRuntimeBlocks n rest).1 x →
        entry.iblock + entry.blockCount < x := fun x hx =>
      lt_of_delayed hasc ((delayed_vdfs4TruncateRuntimeBlocks n).mp hx).1
    simp only [vdfs4TruncateRuntimeBlocks]
    split
    · exact hasc1
    split
    · refine hasc1.cons hfilled1 fun x hx => ?_
      have := hfar x hx
      simp only
      omega
    · exact hasc1.cons hfilled1 hfar

/-- The first `count` blocks of the first entry are taken: `vdfs4_allocate_space` has mapped
them. -/
def takeFront (entry : RuntimeExtent) (rest : List RuntimeExtent) (count : Nat) :
    List RuntimeExtent :=
  if entry.blockCount - count ≠ 0 then
    { entry with
      iblock := entry.iblock + count
      blockCount := entry.blockCount - count } :: rest
  else rest

theorem takeFront_filled (hfilled : Filled (entry :: rest)) (hle : count ≤ entry.blockCount) :
    Filled (takeFront entry rest count) ∧
      vdfs4RuntimeExtentCount (takeFront entry rest count) + count =
        vdfs4RuntimeExtentCount (entry :: rest) := by
  obtain ⟨-, hrest⟩ := filled_cons.mp hfilled
  unfold takeFront
  split
  · simp only [filled_cons, vdfs4RuntimeExtentCount_cons]
    exact ⟨⟨by omega, hrest⟩, by omega⟩
  · rw [vdfs4RuntimeExtentCount_cons]
    exact ⟨hrest, by omega⟩

theorem takeFront_ascending (hasc : Ascending (entry :: rest)) (hle : count ≤ entry.blockCount) :
    Ascending (takeFront entry rest count) ∧
      ∀ x, Delayed (takeFront entry rest count) x ↔
        Delayed (entry :: rest) x ∧ ¬ (entry.iblock ≤ x ∧ x < entry.iblock + count) := by
  have hfar : ∀ x, Delayed rest x → entry.iblock + entry.blockCount < x := fun x hx =>
    lt_of_delayed hasc hx
  unfold takeFront
  split
  · refine ⟨hasc.head (by simp only; omega), fun x => ?_⟩
    have := hfar x
    simp only [delayed_cons]
    grind
  · refine ⟨(ascending_cons.mp hasc).2, fun x => ?_⟩
    have := hfar x
    simp only [delayed_cons]
    grind

end lists

end Vdfs4
