import Mathlib.Data.List.TakeWhile
import Vdfs4.File.ForkSlots

/-!
# Used slots and overflow records are one list

What `insert_extent` and `vdfs4_truncate_blocks` do to the block map of a file, said with
the finite map `Nat → Option Nat` from logical to physical blocks.

* `ExtentList` — an ordered list of extents that **is** a finite map; what an insertion, a
  continuation, a removal from the back and a cut do to it.
* `MapInv` — the invariant: used slots and overflow records are one such list.
* `insertExtent_mapInv` — an insertion of an unmapped range succeeds and maps it.
* `Truncates`, `vdfs4TruncateBlockMap_spec` — a truncation gives back ranges behind the
  new size and nothing else.
-/

namespace Vdfs4

open Nat hiding zero
open List hiding lookup tail head
open ExtentMap Ordered BlockMap ExtentInfo Extent ForkInfo

/-! ### The invariant -/

/-- The specification of an insertion: the range is mapped now. -/
def mapExtent (M : Nat → Option Nat) (e : ExtentInfo) : Nat → Option Nat :=
  fun x => if e.Covers x then some (e.phys x) else M x

/-- The specification of a freed range: it is not mapped any more. -/
def unmapExtent (M : Nat → Option Nat) (e : ExtentInfo) : Nat → Option Nat :=
  fun x => if e.Covers x then none else M x

/-- An ordered list of extents that is the finite map `M`. -/
structure ExtentList (l : List ExtentInfo) (M : Nat → Option Nat) : Prop where
  ordered : Ordered l
  /-- an extent has a first block -/
  first_ne : ∀ e ∈ l, e.firstBlock ≠ 0
  /-- the list is the map -/
  lookup_eq : ∀ x, lookup l x = M x

namespace ExtentList

variable {l l₁ l₂ freed : List ExtentInfo} {M : Nat → Option Nat} {c e : ExtentInfo} {n : Nat}

/-- One extent more between the two parts of the list. -/
theorem insert (h : ExtentList (l₁ ++ l₂) M) (hpos : 0 < e.blockCount) (hfirst : e.firstBlock ≠ 0)
    (h1 : ∀ a ∈ l₁, a.stop ≤ e.iblock) (h2 : ∀ b ∈ l₂, e.stop ≤ b.iblock) :
    ExtentList (l₁ ++ e :: l₂) (mapExtent M e) := by
  have hord : Ordered (l₁ ++ e :: l₂) := h.ordered.insert hpos h1 h2
  have hmem : ∀ b, b ∈ l₁ ++ e :: l₂ ↔ b = e ∨ b ∈ l₁ ++ l₂ := by
    intro b
    simp only [List.mem_append, List.mem_cons]
    tauto
  refine ⟨hord, fun b hb => ?_, fun x => ?_⟩
  · rcases (hmem b).mp hb with rfl | hb
    · exact hfirst
    · exact h.first_ne b hb
  · rw [hord.lookup_insert h.ordered hmem, h.lookup_eq, mapExtent]

/-- Two extents that continue each other become one. -/
theorem join (h : ExtentList (l₁ ++ c :: e :: l₂) M) (hlog : c.stop = e.iblock)
    (hphys : c.firstBlock + c.blockCount = e.firstBlock) :
    ExtentList (l₁ ++ { c with blockCount := c.blockCount + e.blockCount } :: l₂) M where
  ordered := h.ordered.join hlog
  first_ne b hb := by
    have hc := h.first_ne c (by simp)
    have hl : ∀ a ∈ l₁ ++ l₂, a.firstBlock ≠ 0 := by
      intro a ha
      refine h.first_ne a ?_
      rcases List.mem_append.mp ha with ha | ha <;> simp [ha]
    rcases List.mem_append.mp hb with hb | hb
    · exact hl b (List.mem_append_left _ hb)
    · rcases List.mem_cons.mp hb with rfl | hb
      · exact hc
      · exact hl b (List.mem_append_right _ hb)
  lookup_eq x := by rw [h.ordered.lookup_join hlog hphys, h.lookup_eq]

/-- The last extent is given back. -/
theorem dropLast (h : ExtentList (l ++ [c]) M) : ExtentList l (unmapExtent M c) where
  ordered := (append_iff.mp h.ordered).1
  first_ne b hb := h.first_ne b (List.mem_append_left _ hb)
  lookup_eq x := by
    rw [h.ordered.lookup_front, unmapExtent, h.lookup_eq]
    simp

/-- An extent is the part before a block of it and the part from it on. -/
theorem splitLast (h : ExtentList (l ++ [c]) M) (hlo : c.iblock < n) (hhi : n < c.stop) :
    ExtentList ((l ++ [c.head n]) ++ [c.tail n]) M := by
  unfold stop at hhi
  have hord : Ordered ((l ++ [c.head n]) ++ [c.tail n]) := by
    obtain ⟨hl, -, hbehind⟩ := append_iff.mp h.ordered
    refine append_iff.mpr ⟨append_iff.mpr ⟨hl, ?_, fun a ha b hb => ?_⟩, ?_,
      fun a ha b hb => ?_⟩
    · exact cons_iff.mpr ⟨by simp only [head]; omega, by simp, nil⟩
    · rw [List.mem_singleton.mp hb]
      exact hbehind a ha c List.mem_cons_self
    · exact cons_iff.mpr ⟨by simp only [tail]; omega, by simp, nil⟩
    · rw [List.mem_singleton.mp hb]
      rcases List.mem_append.mp ha with ha | ha
      · have := hbehind a ha c List.mem_cons_self
        simp only [tail]
        omega
      · rw [List.mem_singleton.mp ha]
        simp only [stop, head, tail]
        omega
  refine ⟨hord, fun b hb => ?_, fun x => ?_⟩
  · have hc := h.first_ne c (by simp)
    simp only [List.append_assoc, List.mem_append, List.mem_singleton] at hb
    rcases hb with hb | rfl | rfl
    · exact h.first_ne b (List.mem_append_left _ hb)
    · exact hc
    · simp only [tail]
      omega
  · rw [← h.lookup_eq x]
    refine hord.lookup_congr h.ordered fun p => ?_
    simp only [List.append_assoc, List.mem_append, List.mem_singleton, or_and_right, exists_or,
      exists_eq_left]
    refine or_congr_right ?_
    simp only [Extent.Covers, phys, head, tail]
    constructor
    · rintro (⟨hx, hp⟩ | ⟨hx, hp⟩) <;> omega
    · rintro ⟨hx, hp⟩
      rcases lt_or_ge x n with hxn | hxn <;> omega

/-- The last extent is cut: its part from `n` on is given back. -/
theorem cutLast (h : ExtentList (l ++ [c]) M) (hlo : c.iblock < n) (hhi : n < c.stop) :
    ExtentList (l ++ [c.head n]) (unmapExtent M (c.tail n)) :=
  (h.splitLast hlo hhi).dropLast

/-- An unmapped range has the extents before it and the extents behind it. -/
theorem stop_le_of_le (h : ExtentList l M) (hpos : 0 < e.blockCount)
    (hfresh : ∀ x, e.Covers x → M x = none) (hc : c ∈ l) (hle : c.iblock ≤ e.iblock) :
    c.stop ≤ e.iblock :=
  stop_le_of_fresh (fun x hx => (h.lookup_eq x).trans (hfresh x hx)) hpos hc hle

theorem stop_le_of_lt (h : ExtentList l M) (hfresh : ∀ x, e.Covers x → M x = none) (hc : c ∈ l)
    (hlt : e.iblock < c.iblock) : e.stop ≤ c.iblock :=
  h.ordered.stop_le_iblock_of_fresh (fun x hx => (h.lookup_eq x).trans (hfresh x hx)) hc hlt

end ExtentList

/-- Used slots and overflow records are **one** ordered list of extents, which is the
finite map `M`. -/
structure MapInv (m : BlockMap) (used : List ExtentInfo) (M : Nat → Option Nat) : Prop where
  slots : SlotsRep m.fork used
  /-- slots and records together are the map -/
  list : ExtentList (used ++ m.exttree) M
  /-- the overflow tree is used behind a full fork only -/
  full : m.exttree ≠ [] → used.length = extentsCountInFork
  /-- the block counter has not wrapped -/
  total_eq : m.fork.totalBlockCount = total (used ++ m.exttree)
  total_lt : total (used ++ m.exttree) < 2 ^ 32

theorem mapInv_empty : MapInv empty [] fun _ => none where
  slots := ⟨rfl, rfl⟩
  list := ⟨nil, fun _ he => absurd he List.not_mem_nil, fun _ => rfl⟩
  full h := absurd rfl h
  total_eq := rfl
  total_lt := by decide

/-! ### Insertion -/

/-- What `insert_extent` is called with: an extent from the free space manager, for a
range that is not mapped. -/
structure Unmapped (M : Nat → Option Nat) (e : ExtentInfo) : Prop where
  pos : 0 < e.blockCount
  first_ne : e.firstBlock ≠ 0
  fresh : ∀ x, e.Covers x → M x = none

/-- … in a file whose blocks fit in the counter. -/
structure Insertable (m : BlockMap) (M : Nat → Option Nat) (e : ExtentInfo) : Prop extends
    Unmapped M e where
  fits : m.fork.totalBlockCount + e.blockCount < 2 ^ 32

section insertion

variable {m : BlockMap} {used used' a b : List ExtentInfo} {M : Nat → Option Nat}
  {e : ExtentInfo} {fork : ForkInfo} {tree : List ExtentInfo}

/-- The end of every insertion: the slots and records hold the list with `e` in it. -/
theorem MapInv.insert (hinv : MapInv m used M) (hins : Insertable m M e)
    (hslots : SlotsRep fork used') (hcount : fork.totalBlockCount = m.fork.totalBlockCount)
    (hlist : ExtentList (used' ++ tree) (mapExtent M e))
    (htotal : total (used' ++ tree) = total (used ++ m.exttree) + e.blockCount)
    (hfull : tree ≠ [] → used'.length = extentsCountInFork) :
    MapInv ⟨fork.addBlocks e.blockCount, tree⟩ used' (mapExtent M e) := by
  have hfits := hins.fits
  have htot := hinv.total_eq
  refine ⟨⟨hslots.extents, hslots.usedExtents⟩, hlist, hfull, ?_, ?_⟩
  · simp only [addBlocks]
    rw [hcount, u32Add, mod_eq_of_lt hfits, htotal, htot]
  · show total (used' ++ tree) < 2 ^ 32
    omega

/-- The records before and behind a range, in the tree's own insertion. -/
theorem exttree_insert_split (hord : Ordered tree) (hpos : 0 < e.blockCount)
    (hfresh : ∀ x, e.Covers x → lookup tree x = none) :
    ∃ t1 t2, tree = t1 ++ t2 ∧ vdfs4ExtreeInsertExtent tree e none = .ok (t1 ++ e :: t2) ∧
      (∀ c ∈ t1, c.stop ≤ e.iblock) ∧ ∀ c ∈ t2, e.stop ≤ c.iblock := by
  have hne : ∀ r ∈ tree, r.iblock ≠ e.iblock := by
    intro r hr heq
    have hstop := stop_le_of_fresh hfresh hpos hr (le_of_eq heq)
    have hr' := hord.pos r hr
    unfold stop at hstop
    omega
  refine ⟨tree.takeWhile (·.iblock < e.iblock), tree.dropWhile (·.iblock < e.iblock),
    takeWhile_append_dropWhile.symm, ?_, fun c hc => ?_, fun c hc => ?_⟩
  · simp only [vdfs4ExtreeInsertExtent]
    rw [if_neg]
    rintro ⟨r, hr, heq⟩
    exact hne r hr heq
  · have hlt : c.iblock < e.iblock := by simpa using mem_takeWhile_imp hc
    exact stop_le_of_fresh hfresh hpos (( takeWhile_prefix _).subset hc)
      (le_of_lt hlt)
  · have hmem : c ∈ tree := (dropWhile_suffix _).subset hc
    refine hord.stop_le_iblock_of_fresh hfresh hmem ?_
    -- the first record that is dropped starts behind, and so do the others
    have hdrop : Ordered (tree.dropWhile (·.iblock < e.iblock)) :=
      hord.of_sublist (dropWhile_suffix _).sublist
    cases hd : tree.dropWhile (·.iblock < e.iblock) with
    | nil =>
      rw [hd] at hc
      cases hc
    | cons d rest =>
      have hhead : ¬ d.iblock < e.iblock := by
        have hnot := head_dropWhile_not (fun r : ExtentInfo => decide (r.iblock < e.iblock))
          (show tree.dropWhile _ ≠ [] by rw [hd]; exact cons_ne_nil _ _)
        simpa [hd] using hnot
      have hd' := hne d ((dropWhile_suffix _).subset (by rw [hd]; exact mem_cons_self))
      rw [hd] at hc hdrop
      rcases mem_cons.mp hc with rfl | hc
      · omega
      · have hle := (cons_iff.mp hdrop).2.1 c hc
        unfold stop at hle
        omega

/-- Pushing the last used slot in front of the records. -/
theorem exttree_insert_front {last : ExtentInfo} (hord : Ordered (last :: tree)) :
    vdfs4ExtreeInsertExtent tree last none = .ok (last :: tree) := by
  obtain ⟨hpos, hbehind, -⟩ := cons_iff.mp hord
  have hlt : ∀ r ∈ tree, last.iblock < r.iblock := by
    intro r hr
    have := hbehind r hr
    unfold stop at this
    omega
  simp only [vdfs4ExtreeInsertExtent]
  rw [if_neg]
  · cases tree with
    | nil => rfl
    | cons r rest =>
      have hr := hlt r mem_cons_self
      have hn : ¬ r.iblock < last.iblock := by omega
      simp [hn]
  · rintro ⟨r, hr, heq⟩
    have := hlt r hr
    omega

/-- `insert_in_fork:` behind the used slots `a` and before the used slots `b`. -/
theorem insertInFork_mapInv (hinv : MapInv m (a ++ b) M) (hins : Insertable m M e)
    (ha : ∀ c ∈ a, c.stop ≤ e.iblock) (hb : ∀ c ∈ b, e.stop ≤ c.iblock) (hne : a ++ b ≠ []) :
    ∃ m' used', insertInFork m e a.length none = .ok m' ∧ MapInv m' used' (mapExtent M e) := by
  have hlen := hinv.slots.length_le
  rw [List.length_append] at hlen
  rcases b with _ | ⟨c, b⟩
  · rw [List.append_nil] at hinv
    by_cases hfull : a.length = extentsCountInFork
    · -- 2. behind a full fork
      have hord := (append_iff.mp hinv.list.ordered).2.1
      have hfresh : ∀ x, e.Covers x → lookup m.exttree x = none := by
        intro x hx
        have hnone := (hinv.list.lookup_eq x).trans (hins.fresh x hx)
        rw [lookup_eq_none_iff] at hnone ⊢
        exact fun r hr => hnone r (mem_append_right _ hr)
      obtain ⟨t1, t2, htree, hok, h1, h2⟩ := exttree_insert_split hord hins.pos hfresh
      refine ⟨⟨m.fork.addBlocks e.blockCount, t1 ++ e :: t2⟩, a, ?_, ?_⟩
      · rw [insertInFork, if_neg (by omega), if_pos hfull, hok]
      have hl := hinv.list
      rw [htree, ← append_assoc] at hl
      refine hinv.insert hins hinv.slots rfl ?_ ?_ fun _ => hfull
      · rw [← append_assoc]
        refine hl.insert hins.pos hins.first_ne (fun d hd => ?_) h2
        rcases mem_append.mp hd with hd | hd
        · exact ha d hd
        · exact h1 d hd
      · rw [htree]
        simp only [total_append, total_cons]
        omega
    · -- 1. a blank slot
      have hlt : a.length < extentsCountInFork := by simp at hlen; omega
      have htree : m.exttree = [] := by
        by_contra htree
        exact hfull (hinv.full htree)
      refine ⟨_, a ++ [e], by
        rw [insertInFork, if_pos ⟨hlt, by rw [hinv.slots.slot_eq_zero le_rfl]; rfl⟩], ?_⟩
      have hl := hinv.list
      rw [htree, append_nil] at hl
      refine hinv.insert hins (hinv.slots.push hlt) rfl ?_ ?_ fun h => absurd htree h
      · rw [htree, append_nil]
        rw [← append_nil a] at hl
        exact hl.insert hins.pos hins.first_ne ha hb
      · rw [htree]
        simp
  · -- there is a used slot at the place
    have hslot : m.fork.slot a.length = c := hinv.slots.slot_append
    have hc : c.firstBlock ≠ 0 := hinv.list.first_ne c (by simp)
    simp only [length_cons] at hlen
    have hl : ExtentList (a ++ e :: (c :: b ++ m.exttree)) (mapExtent M e) := by
      have hlist := hinv.list
      rw [append_assoc] at hlist
      refine hlist.insert hins.pos hins.first_ne ha fun d hd => ?_
      rcases mem_append.mp hd with hd | hd
      · exact hb d hd
      · have hcd := (append_iff.mp hinv.list.ordered).2.2 c (by simp) d hd
        have hce := hb c mem_cons_self
        unfold stop at hcd hce ⊢
        omega
    by_cases hfull : m.fork.usedExtents = extentsCountInFork
    · -- 3a. the rightmost extent goes to the tree
      obtain ⟨b', last, hcb⟩ : ∃ b' last, c :: b = b' ++ [last] :=
        ⟨_, _, (dropLast_append_getLast (cons_ne_nil c b)).symm⟩
      have hslots := hinv.slots
      have hused := hinv.slots.usedExtents
      rw [hcb] at hslots hl hused
      have hlast : m.fork.slot (extentsCountInFork - 1) = last := by
        rw [← hfull, hused, ← append_assoc, length_append, length_singleton,
          Nat.add_sub_cancel]
        rw [← append_assoc] at hslots
        exact hslots.slot_append
      have hfront : Ordered (last :: m.exttree) := by
        have hl' := hl.ordered
        rw [append_assoc, singleton_append, ← cons_append, ← append_assoc] at hl'
        exact (append_iff.mp hl').2.1
      refine ⟨_, a ++ e :: b', by
        rw [insertInFork, if_neg (by rw [hslot]; exact fun h => hc h.2), if_neg (by omega),
          if_pos hfull, hlast, exttree_insert_front hfront], ?_⟩
      refine hinv.insert hins (hslots.insertFull hfull)
        (totalBlockCount_shiftRight _ _ _) ?_ ?_ fun _ => ?_
      · simpa using hl
      · rw [hcb]
        simp only [total_append, total_cons, total_nil]
        omega
      · rw [hfull] at hused
        simp only [length_append, length_cons, length_nil] at hused ⊢
        omega
    · -- 3b. shift to the right
      have hlt : (a ++ c :: b).length < extentsCountInFork := by
        have := hinv.slots.length_le
        rw [hinv.slots.usedExtents] at hfull
        omega
      have htree : m.exttree = [] := by
        by_contra htree
        exact absurd (hinv.full htree) (by omega)
      refine ⟨_, a ++ e :: c :: b, by
        rw [insertInFork, if_neg (by rw [hslot]; exact fun h => hc h.2), if_neg (by omega),
          if_neg hfull], ?_⟩
      refine hinv.insert hins (hinv.slots.insert hlt)
        (totalBlockCount_shiftRight _ _ _) ?_ ?_ fun h => absurd htree h
      · simpa using hl
      · simp only [total_append, total_cons]
        omega

/-- The used slots up to the place of a new extent, and those behind it. -/
theorem split_findIdx (hinv : MapInv m used M) (hins : Insertable m M e) :
    ∃ a b, used = a ++ b ∧ used.findIdx (e.iblock < ·.iblock) = a.length ∧
      (∀ c ∈ a, c.iblock ≤ e.iblock) ∧ (∀ c ∈ a, c.stop ≤ e.iblock) ∧
      ∀ c ∈ b, e.stop ≤ c.iblock := by
  have hle : used.findIdx (e.iblock < ·.iblock) ≤ used.length := List.findIdx_le_length
  have hbefore : ∀ c ∈ used.take (used.findIdx (e.iblock < ·.iblock)), c.iblock ≤ e.iblock := by
    intro c hc
    obtain ⟨i, hi, rfl⟩ := List.mem_take_iff_getElem.mp hc
    have hlt : i < used.findIdx (e.iblock < ·.iblock) := by omega
    simpa using List.not_of_lt_findIdx hlt
  refine ⟨used.take _, used.drop _, (List.take_append_drop _ _).symm,
    (List.length_take_of_le hle).symm, hbefore, fun c hc => ?_, fun c hc => ?_⟩
  · exact hinv.list.stop_le_of_le hins.pos hins.fresh
      (List.mem_append_left _ (List.mem_of_mem_take hc)) (hbefore c hc)
  refine hinv.list.stop_le_of_lt hins.fresh
    (List.mem_append_left _ (List.mem_of_mem_drop hc)) ?_
  rcases lt_or_ge (used.findIdx (e.iblock < ·.iblock)) used.length with hlt | hge
  · -- the first slot behind the place, then those behind it
    have hhead := List.findIdx_getElem
      (p := fun c : ExtentInfo => decide (e.iblock < c.iblock)) (w := hlt)
    have hord : Ordered (used.drop (used.findIdx (e.iblock < ·.iblock))) :=
      hinv.list.ordered.of_sublist
        ((List.drop_sublist _ _).trans (List.sublist_append_left _ _))
    rw [List.drop_eq_getElem_cons hlt] at hc hord
    rw [decide_eq_true_eq] at hhead
    rcases List.mem_cons.mp hc with rfl | hc
    · exact hhead
    · have := (cons_iff.mp hord).2.1 c hc
      unfold stop at this
      omega
  · rw [drop_eq_nil_of_le hge] at hc
    cases hc

/-- The extent is a continuation of the used slot before its place. -/
theorem MapInv.extend {c : ExtentInfo} (hinv : MapInv m (a ++ c :: b) M)
    (hins : Insertable m M e) (hlog : c.iblock + c.blockCount = e.iblock)
    (hphys : c.firstBlock + c.blockCount = e.firstBlock) :
    MapInv ⟨(m.fork.setSlot a.length
        { c with blockCount := u32Add c.blockCount e.blockCount }).addBlocks e.blockCount,
        m.exttree⟩
      (a ++ { c with blockCount := c.blockCount + e.blockCount } :: b) (mapExtent M e) := by
  have hfits := hins.fits
  have htot := hinv.total_eq
  have hcount : u32Add c.blockCount e.blockCount = c.blockCount + e.blockCount := by
    simp only [total_append, total_cons] at htot
    rw [u32Add, mod_eq_of_lt (by omega)]
  rw [hcount]
  refine hinv.insert hins hinv.slots.setSlot rfl ?_ ?_ fun h => ?_
  · have hl := hinv.list
    rw [List.append_assoc, List.cons_append, List.append_cons] at hl
    rw [List.append_assoc, List.cons_append]
    refine ExtentList.join (c := c) ?_ hlog hphys
    rw [append_cons]
    refine hl.insert hins.pos hins.first_ne (fun d hd => ?_) fun d hd => ?_
    · rw [← hlog]
      rcases mem_append.mp hd with hd | hd
      · have hle := (append_iff.mp hl.ordered).1
        have := (append_iff.mp hle).2.2 d hd c mem_cons_self
        omega
      · rw [mem_singleton.mp hd]
        rfl
    · have hmem : d ∈ (a ++ c :: b) ++ m.exttree := by
        rcases mem_append.mp hd with hd | hd <;> simp [hd]
      refine hinv.list.stop_le_of_lt hins.fresh hmem ?_
      have hcd := (append_iff.mp hl.ordered).2.2 c (by simp) d hd
      have hne : d.iblock ≠ e.iblock := by
        intro heq
        have hstop := hinv.list.stop_le_of_le hins.pos hins.fresh hmem (le_of_eq heq)
        have := hinv.list.ordered.pos d hmem
        unfold stop at hstop
        omega
      unfold stop at hcd
      omega
  · simp only [total_append, total_cons]
    omega
  · have := hinv.full h
    simpa using this

/-- **`insert_extent` of an unmapped range succeeds and maps it.** -/
theorem insertExtent_mapInv (hinv : MapInv m used M) (hins : Insertable m M e) :
    ∃ m' used', insertExtent m e none none = .ok m' ∧ MapInv m' used' (mapExtent M e) := by
  rcases used with _ | ⟨c, used⟩
  · have htree : m.exttree = [] := by
      by_contra htree
      exact absurd (hinv.full htree) (by decide)
    refine ⟨_, [e], by
      rw [insertExtent, if_pos (show m.fork.usedExtents = 0 from hinv.slots.usedExtents)], ?_⟩
    have hslots : SlotsRep (setSlot { m.fork with
        usedExtents := m.fork.usedExtents + 1 } 0 e) [e] :=
      ⟨(hinv.slots.push (by decide)).extents, (hinv.slots.push (by decide)).usedExtents⟩
    refine hinv.insert hins hslots rfl ?_ ?_ fun h => absurd htree h
    · have hl := hinv.list
      rw [htree] at hl ⊢
      have hl' : ExtentList ([] ++ []) M := hl
      exact hl'.insert hins.pos hins.first_ne
        (fun _ h => absurd h not_mem_nil) fun _ h => absurd h not_mem_nil
    · rw [htree]
      simp
  · have hused : m.fork.usedExtents ≠ 0 := by
      rw [hinv.slots.usedExtents]
      exact succ_ne_zero _
    have hslot : m.fork.slot 0 = c := hinv.slots.slot_eq_getElem (succ_pos _)
    simp only [insertExtent, if_neg hused, hslot, hinv.slots.take_usedExtents]
    by_cases hfirst : e.iblock < c.iblock
    · rw [if_pos hfirst]
      refine insertInFork_mapInv (a := []) hinv hins (fun _ h => absurd h not_mem_nil)
        (fun d hd => ?_) (cons_ne_nil _ _)
      have hord := (append_iff.mp hinv.list.ordered).1
      refine hinv.list.stop_le_of_lt hins.fresh (mem_append_left _ hd) ?_
      rcases mem_cons.mp hd with rfl | hd
      · exact hfirst
      · have := (cons_iff.mp hord).2.1 d hd
        unfold stop at this
        omega
    · rw [if_neg hfirst]
      obtain ⟨a, b, hab, hidx, -, ha, hb⟩ := split_findIdx hinv hins
      rw [hidx]
      rcases eq_nil_or_concat a with rfl | ⟨a, d, rfl⟩
      · -- the place is not before the first slot
        have hc : c ∈ b := by
          rw [nil_append] at hab
          rw [← hab]
          exact mem_cons_self
        have := hb c hc
        have := hins.pos
        unfold stop at *
        omega
      · rw [hab] at hinv
        rw [concat_eq_append] at *
        have hd : m.fork.slot ((a ++ [d]).length - 1) = d := by
          rw [append_assoc] at hinv
          rw [length_append, length_singleton, Nat.add_sub_cancel]
          exact hinv.slots.slot_append
        simp only [hd]
        split
        · rename_i hcont
          rw [append_assoc] at hinv
          rw [length_append, length_singleton, Nat.add_sub_cancel]
          exact ⟨_, _, rfl, hinv.extend hins hcont.1 hcont.2⟩
        · exact insertInFork_mapInv hinv hins ha hb (by simp)

end insertion

/-! ### Truncation -/

/-- What is left of the map when the ranges `freed` are given back. -/
def unmapAll (M : Nat → Option Nat) (freed : List ExtentInfo) : Nat → Option Nat :=
  freed.foldl unmapExtent M

/-- A block in no freed range keeps its place. -/
theorem unmapAll_of_not_covers {M : Nat → Option Nat} {x : Nat}
    (h : ∀ e ∈ freed, ¬ e.Covers x) : unmapAll M freed x = M x := by
  induction freed generalizing M with
  | nil => rfl
  | cons e freed ih =>
    have he : unmapExtent M e x = M x := if_neg (h e mem_cons_self)
    exact (ih fun b hb => h b (mem_cons_of_mem _ hb)).trans he

section truncation

variable {m : BlockMap} {used l : List ExtentInfo} {M : Nat → Option Nat} {c r : ExtentInfo}
  {n : Nat}

/-- Giving blocks back does not wrap the counter. -/
theorem u32Sub_eq {a b : Nat} (ha : a < 2 ^ 32) (hb : b ≤ a) : u32Sub a b = a - b := by
  unfold u32Sub
  omega

/-- The slots do not depend on the counter. -/
theorem SlotsRep.subBlocks (h : SlotsRep m.fork used) (k : Nat) :
    SlotsRep (m.subBlocks k).fork used :=
  ⟨h.extents, h.usedExtents⟩

/-- The last record is given back. -/
theorem MapInv.dropRecord (hinv : MapInv m used M) (htree : m.exttree = l ++ [c]) :
    MapInv { m.subBlocks c.blockCount with exttree := l } used (unmapExtent M c) := by
  have hlist := hinv.list
  have htot := hinv.total_eq
  have hlt := hinv.total_lt
  rw [htree, ← List.append_assoc] at hlist htot hlt
  simp only [total_append, total_cons, total_nil] at htot hlt
  refine ⟨hinv.slots.subBlocks _, hlist.dropLast, fun _ => ?_, ?_, ?_⟩
  · exact hinv.full (by rw [htree]; simp)
  · simp only [subBlocks, total_append]
    rw [u32Sub_eq (by omega) (by omega)]
    omega
  · simp only [total_append]
    omega

theorem MapInv.cutRecord (hinv : MapInv m used M) (htree : m.exttree = l ++ [c])
    (hlo : c.iblock < n) (hhi : n < c.stop) :
    MapInv { m.subBlocks (c.tail n).blockCount with exttree := l ++ [c.head n] } used
      (unmapExtent M (c.tail n)) := by
  have hlist := hinv.list
  have htot := hinv.total_eq
  have hlt := hinv.total_lt
  rw [htree, ← List.append_assoc] at hlist htot hlt
  simp only [total_append, total_cons, total_nil] at htot hlt
  have hlist' := hlist.cutLast hlo hhi
  rw [List.append_assoc] at hlist'
  unfold stop at hhi
  refine ⟨hinv.slots.subBlocks _, hlist', fun _ => ?_, ?_, ?_⟩
  · exact hinv.full (by rw [htree]; simp)
  · simp only [subBlocks, total_append, total_cons, total_nil, tail,
      head]
    rw [u32Sub_eq (by omega) (by omega)]
    omega
  · simp only [total_append, total_cons, total_nil, head]
    omega

/-- The last used slot of a file without records is given back. -/
theorem MapInv.dropSlot (hinv : MapInv m (l ++ [c]) M) (htree : m.exttree = []) :
    MapInv { m.subBlocks c.blockCount with
        fork := setSlot { (m.subBlocks c.blockCount).fork with
          usedExtents := (m.subBlocks c.blockCount).fork.usedExtents - 1 } l.length zero } l
      (unmapExtent M c) := by
  have hlist := hinv.list
  have htot := hinv.total_eq
  have hlt := hinv.total_lt
  rw [htree, List.append_nil] at hlist htot hlt
  simp only [total_append, total_cons, total_nil] at htot hlt
  refine ⟨(hinv.slots.subBlocks _).pop, ?_, fun h => absurd htree h, ?_, ?_⟩
  · show ExtentList (l ++ m.exttree) _
    rw [htree, List.append_nil]
    exact hlist.dropLast
  · simp only [subBlocks, setSlot, htree, List.append_nil]
    rw [u32Sub_eq (by omega) (by omega)]
    omega
  · simp only [subBlocks, htree, List.append_nil]
    omega

/-- The last used slot of a file without records is cut. -/
theorem MapInv.cutSlot (hinv : MapInv m (l ++ [c]) M) (htree : m.exttree = [])
    (hlo : c.iblock < n) (hhi : n < c.stop) :
    MapInv { m.subBlocks (c.tail n).blockCount with
        fork := (m.subBlocks (c.tail n).blockCount).fork.setSlot l.length (c.head n) }
      (l ++ [c.head n]) (unmapExtent M (c.tail n)) := by
  have hlist := hinv.list
  have htot := hinv.total_eq
  have hlt := hinv.total_lt
  rw [htree, List.append_nil] at hlist htot hlt
  simp only [total_append, total_cons, total_nil] at htot hlt
  have hlist' := hlist.cutLast hlo hhi
  unfold stop at hhi
  refine ⟨(hinv.slots.subBlocks _).setSlot, ?_, fun h => absurd htree h, ?_, ?_⟩
  · show ExtentList (l ++ [c.head n] ++ m.exttree) _
    rw [htree, List.append_nil]
    exact hlist'
  · simp only [subBlocks, setSlot, htree, List.append_nil, total_append,
      total_cons, total_nil, tail, head]
    rw [u32Sub_eq (by omega) (by omega)]
    omega
  · simp only [subBlocks, htree, List.append_nil, total_append, total_cons, total_nil,
      head]
    omega

/-- The search for the last record reaches every record that has to go. -/
def TreeInReach (m : BlockMap) (newSize : Nat) : Prop :=
  ∀ r ∈ m.exttree, r.iblock ≤ iblockMaxNumber ∨ r.stop ≤ newSize

instance (m : BlockMap) (newSize : Nat) : Decidable (TreeInReach m newSize) :=
  inferInstanceAs (Decidable (∀ r ∈ m.exttree, _))

/-- The search for the last record finds it, or a record that stays. -/
theorem exttreeFind_last (hord : Ordered (l ++ [c]))
    (hreach : ∀ r ∈ l ++ [c], r.iblock ≤ iblockMaxNumber ∨ r.stop ≤ n) :
    exttreeFind (l ++ [c]) iblockMaxNumber = some c ∨ ∀ r ∈ l ++ [c], r.stop ≤ n := by
  obtain ⟨-, -, hbehind⟩ := append_iff.mp hord
  rcases hreach c (by simp) with hc | hc
  · left
    unfold exttreeFind
    rw [filter_append, filter_singleton, decide_eq_true hc, cond_true,
      getLast?_concat]
  right
  intro r hr
  rcases mem_append.mp hr with hr | hr
  · have hle := hbehind r hr c mem_cons_self
    unfold stop at hc hle ⊢
    omega
  · rwa [mem_singleton.mp hr]

/-- The records' logical blocks tell them apart. -/
theorem iblock_ne_of_mem (hord : Ordered (l ++ [c])) (hr : r ∈ l) : r.iblock ≠ c.iblock := by
  have hle := (append_iff.mp hord).2.2 r hr c mem_cons_self
  have hpos := hord.pos r (mem_append_left _ hr)
  unfold stop at hle
  omega

/-- What a truncation to `n` does: it gives back ranges behind `n` and nothing else, and
when it ends without an error nothing behind `n` is left among `rest`. -/
structure Truncates (n : Nat) (M : Nat → Option Nat) (used freed : List ExtentInfo)
    (t : Truncated) (rest : List ExtentInfo) : Prop where
  inv : MapInv t.map used (unmapAll M freed)
  behind : ∀ e ∈ freed, n ≤ e.iblock
  done : t.error = none → ∀ e ∈ rest, e.stop ≤ n

theorem Truncates.stay {l : List ExtentInfo} {error : Option Errno} (hinv : MapInv m used M)
    (hdone : error = none → ∀ e ∈ l, e.stop ≤ n) : Truncates n M used [] ⟨m, freed, error⟩ l :=
  ⟨hinv, fun _ h => absurd h List.not_mem_nil, hdone⟩

/-- One range is given back before. -/
theorem Truncates.cons {l : List ExtentInfo} {t : Truncated}
    (h : Truncates n (unmapExtent M c) used freed t l) (hc : n ≤ c.iblock) :
    Truncates n M used (c :: freed) t l := by
  refine ⟨h.inv, fun e he => ?_, h.done⟩
  rcases List.mem_cons.mp he with rfl | he
  · exact hc
  · exact h.behind e he

section

variable (putError : Nat → Option Errno)

include putError

/-- The loop of `truncate_exttree`, when no removal fails. -/
theorem truncateExttreeLoop_spec (fuel : Nat) (m : BlockMap)
    (M : Nat → Option Nat) (freed : List ExtentInfo) (hfuel : m.exttree.length < fuel)
    (hinv : MapInv m used M) (hreach : TreeInReach m n) :
    ∃ freed' t, truncateExttreeLoop n putError fuel [] m freed = t ∧ t.freed = freed ++ freed' ∧
      Truncates n M used freed' t t.map.exttree := by
  induction fuel generalizing m M freed with
  | zero => omega
  | succ fuel ih =>
    rw [truncateExttreeLoop]
    have hord := (append_iff.mp hinv.list.ordered).2.1
    rcases List.eq_nil_or_concat m.exttree with htree | ⟨l, c, htree⟩
    · rw [htree, show exttreeFind [] iblockMaxNumber = none from rfl]
      refine ⟨[], _, rfl, (List.append_nil _).symm, Truncates.stay hinv fun _ e he => ?_⟩
      rw [htree] at he
      cases he
    rw [List.concat_eq_append] at htree
    rw [htree] at hord
    rcases exttreeFind_last hord (by rw [← htree]; exact hreach) with hfind | hall
    · -- the search finds the last record
      rw [htree, hfind]
      by_cases hle : n ≤ c.iblock
      · simp only [if_pos hle]
        rcases putError c.iblock with _ | err
        · have hl : (l ++ [c]).filter (·.iblock ≠ c.iblock) = l := by
            rw [filter_append, filter_eq_self.mpr fun r hr => by
              simpa using iblock_ne_of_mem hord hr]
            simp
          have hlen : l.length < fuel := by
            rw [htree, length_append, length_singleton] at hfuel
            omega
          obtain ⟨freed', t, ht, hfreed, hspec⟩ := ih
            { m.subBlocks c.blockCount with exttree := l } (unmapExtent M c) (freed ++ [c]) hlen
            (hinv.dropRecord htree) fun r hr => hreach r (by rw [htree]; simp [hr])
          refine ⟨c :: freed', t, ?_, ?_, hspec.cons hle⟩
          · rw [← ht]
            simp only [subBlocks, htree, hl, tail_nil]
          · rw [hfreed, append_assoc, singleton_append]
        · exact ⟨[], _, rfl, (append_nil _).symm, Truncates.stay hinv fun h =>
            absurd h (Option.some_ne_none err)⟩
      · simp only [if_neg hle]
        by_cases hlt : n < c.iblock + c.blockCount
        · simp only [if_pos hlt]
          rcases putError n with _ | err
          · have hl : (l ++ [c]).map (fun x => if x.iblock = c.iblock then c.head n else x) =
                l ++ [c.head n] := by
              rw [map_append, map_congr_left fun r hr =>
                if_neg (iblock_ne_of_mem hord hr), map_id']
              simp
            refine ⟨[c.tail n], _, rfl, rfl, ?_, ?_, fun _ e he => ?_⟩
            · have hcut := hinv.cutRecord htree (Nat.lt_of_not_le hle) hlt
              simp only [subBlocks, htree, hl] at hcut ⊢
              exact hcut
            · intro e he
              rw [mem_singleton.mp he]
              exact le_rfl
            · simp only [subBlocks, htree, hl] at he
              rcases List.mem_append.mp he with he | he
              · have := (append_iff.mp hord).2.2 e he c List.mem_cons_self
                omega
              · rw [List.mem_singleton.mp he]
                simp only [stop, head]
                omega
          · exact ⟨[], _, rfl, (List.append_nil _).symm, Truncates.stay hinv fun h =>
              absurd h (Option.some_ne_none err)⟩
        · simp only [if_neg hlt]
          refine ⟨[], _, rfl, (List.append_nil _).symm, Truncates.stay hinv fun _ e he => ?_⟩
          rw [htree] at he
          rcases List.mem_append.mp he with he | he
          · have := (append_iff.mp hord).2.2 e he c List.mem_cons_self
            omega
          · rw [List.mem_singleton.mp he]
            exact Nat.le_of_not_lt hlt
    · -- every record stays
      rw [← htree] at hall
      have hstay : Truncates n M used [] ⟨m, freed, none⟩ m.exttree :=
        Truncates.stay hinv fun _ => hall
      cases hfind : exttreeFind m.exttree iblockMaxNumber with
      | none => exact ⟨[], _, rfl, (append_nil _).symm, hstay⟩
      | some r =>
        have hr : r ∈ m.exttree :=
          mem_of_mem_filter (mem_of_getLast? hfind)
        have hstop := hall r hr
        have hpos := hinv.list.ordered.pos r (mem_append_right _ hr)
        unfold stop at hstop
        simp only [if_neg (show ¬ n ≤ r.iblock by omega),
          if_neg (show ¬ n < r.iblock + r.blockCount by omega)]
        exact ⟨[], _, rfl, (append_nil _).symm, hstay⟩

/-- The slot loop of `truncate_fork` on a file without records: it stops with an error,
with all slots blank, or at a slot that begins before the new size. -/
theorem truncateForkLoop_spec (m : BlockMap)
    (used : List ExtentInfo) (M : Nat → Option Nat) (freed : List ExtentInfo)
    (hinv : MapInv m used M) (htree : m.exttree = []) :
    ∃ freed' used' t i, truncateForkLoop n putError used.length m freed = (t, i) ∧
      t.freed = freed ++ freed' ∧ t.map.exttree = [] ∧ Truncates n M used' freed' t [] ∧
      (t.error = none → (used' = [] ∧ i = 0) ∨
        ∃ l c, used' = l ++ [c] ∧ i = l.length ∧ c.iblock < n) := by
  induction hlen : used.length generalizing m used M freed with
  | zero =>
    have hnil := List.length_eq_zero_iff.mp hlen
    exact ⟨[], used, _, _, rfl, (List.append_nil _).symm, htree,
      Truncates.stay hinv fun _ _ h => absurd h List.not_mem_nil, fun _ => .inl ⟨hnil, rfl⟩⟩
  | succ i ih =>
    obtain ⟨l, c, rfl⟩ : ∃ l c, used = l ++ [c] := by
      rcases List.eq_nil_or_concat used with rfl | ⟨l, c, rfl⟩
      · cases hlen
      · exact ⟨l, c, List.concat_eq_append⟩
    rw [List.length_append, List.length_singleton, add_right_cancel_iff] at hlen
    have hslot : m.fork.slot i = c := by
      rw [← hlen]
      exact hinv.slots.slot_append
    simp only [truncateForkLoop, hslot]
    by_cases hle : n ≤ c.iblock
    · simp only [if_pos hle]
      rcases putError c.iblock with _ | err
      · obtain ⟨freed', used', t, j, ht, hfreed, htree', hspec, hend⟩ := ih _ l
          (unmapExtent M c) (freed ++ [c]) (hinv.dropSlot htree) htree hlen
        rw [hlen] at ht
        refine ⟨c :: freed', used', t, j, ht, ?_, htree', hspec.cons hle, hend⟩
        rw [hfreed, append_assoc, singleton_append]
      · exact ⟨[], l ++ [c], _, _, rfl, (append_nil _).symm, htree,
          Truncates.stay hinv fun _ _ h => absurd h not_mem_nil,
          fun h => absurd h (Option.some_ne_none err)⟩
    · simp only [if_neg hle]
      exact ⟨[], l ++ [c], _, _, rfl, (append_nil _).symm, htree,
        Truncates.stay hinv fun _ _ h => absurd h List.not_mem_nil,
        fun _ => .inr ⟨l, c, rfl, hlen.symm, Nat.lt_of_not_le hle⟩⟩

/-- **`truncate_fork`**, when no record reaches behind the new size. -/
theorem truncateFork_spec (hinv : MapInv m used M) (hrest : ∀ r ∈ m.exttree, r.stop ≤ n) :
    ∃ used' t, truncateFork m n putError = t ∧
      Truncates n M used' t.freed t (used' ++ t.map.exttree) := by
  have hused := hinv.slots.usedExtents
  rcases List.eq_nil_or_concat used with rfl | ⟨l, c, rfl⟩
  · refine ⟨[], _, if_pos (.inl hused), Truncates.stay hinv fun _ => hrest⟩
  rw [List.concat_eq_append] at hinv hused
  have hlast : m.fork.slot (m.fork.usedExtents - 1) = c := by
    rw [hused, List.length_append, List.length_singleton, Nat.add_sub_cancel]
    exact hinv.slots.slot_append
  have hbefore : ∀ {l : List ExtentInfo} {d : ExtentInfo}, Ordered (l ++ [d]) → d.iblock ≤ n →
      ∀ e ∈ l, e.stop ≤ n := fun hord hd e he =>
    ((append_iff.mp hord).2.2 e he _ List.mem_cons_self).trans hd
  have hord := (append_iff.mp hinv.list.ordered).1
  by_cases hstop : c.stop ≤ n
  · refine ⟨l ++ [c], _, if_pos (.inr (by rw [hlast]; exact hstop)),
      Truncates.stay hinv fun _ e he => ?_⟩
    rcases mem_append.mp he with he | he
    · rcases mem_append.mp he with he | he
      · refine hbefore hord ?_ e he
        unfold stop at hstop
        omega
      · rwa [mem_singleton.mp he]
    · exact hrest e he
  -- a record would begin behind the last slot
  have htree : m.exttree = [] := by
    refine eq_nil_iff_forall_not_mem.mpr fun r hr => hstop ?_
    have hle := (append_iff.mp hinv.list.ordered).2.2 c (by simp) r hr
    have hr' := hrest r hr
    unfold stop at hle hr' ⊢
    omega
  have hcond : ¬ (m.fork.usedExtents = 0 ∨ c.iblock + c.blockCount ≤ n) := by
    rw [hused, length_append, length_singleton]
    rintro (h | h)
    · omega
    · exact hstop h
  obtain ⟨freed, used', t, i, hloop, hfreed, htree', hspec, hend⟩ :=
    truncateForkLoop_spec (n := n) putError m (l ++ [c]) M [] hinv htree
  rw [nil_append] at hfreed
  rw [← hused] at hloop
  simp only [truncateFork, hlast, if_neg hcond, hloop]
  cases herr : t.error with
  | some err =>
    refine ⟨used', t, rfl, ?_⟩
    rw [hfreed]
    exact ⟨hspec.inv, hspec.behind, fun h => by rw [herr] at h; cases h⟩
  | none =>
    rcases hend herr with ⟨rfl, rfl⟩ | ⟨l', d, rfl, rfl, hd⟩
    · -- all slots are blank now
      have hslot : t.map.fork.slot 0 = zero := hspec.inv.slots.slot_eq_zero le_rfl
      refine ⟨[], t, by rw [hslot]; rfl, ?_⟩
      rw [hfreed]
      refine ⟨hspec.inv, hspec.behind, fun _ e he => ?_⟩
      rw [htree'] at he
      cases he
    · have hslot : t.map.fork.slot l'.length = d := hspec.inv.slots.slot_append
      have hord' := (append_iff.mp hspec.inv.list.ordered).1
      rw [hslot]
      by_cases hcut : n < d.iblock + d.blockCount
      · simp only [if_pos hcut]
        rcases putError n with _ | err
        · refine ⟨l' ++ [d.head n], _, rfl, ?_, fun e he => ?_, fun _ e he => ?_⟩
          · have hinv' := hspec.inv.cutSlot htree' hd hcut
            rw [hfreed, unmapAll, foldl_append]
            exact hinv'
          · rw [hfreed] at he
            rcases mem_append.mp he with he | he
            · exact hspec.behind e he
            · rw [mem_singleton.mp he]
              exact le_rfl
          · simp only [subBlocks, htree', List.append_nil] at he
            rcases List.mem_append.mp he with he | he
            · exact hbefore hord' (le_of_lt hd) e he
            · rw [List.mem_singleton.mp he]
              simp only [stop, head]
              omega
        · refine ⟨l' ++ [d], _, rfl, ?_⟩
          simp only [hfreed]
          exact ⟨hspec.inv, hspec.behind, fun h => absurd h (Option.some_ne_none err)⟩
      · simp only [if_neg hcut]
        refine ⟨l' ++ [d], t, rfl, ?_⟩
        rw [hfreed]
        refine ⟨hspec.inv, hspec.behind, fun _ e he => ?_⟩
        rw [htree', List.append_nil] at he
        rcases List.mem_append.mp he with he | he
        · exact hbefore hord' (le_of_lt hd) e he
        · rw [List.mem_singleton.mp he]
          exact Nat.le_of_not_lt hcut

/-- **`vdfs4_truncate_blocks`**, when the search for the last record reaches the records and
no removal fails. -/
theorem vdfs4TruncateBlockMap_spec (hinv : MapInv m used M) (hreach : TreeInReach m n) :
    ∃ used' t, vdfs4TruncateBlockMap m n putError [] = t ∧
      Truncates n M used' t.freed t (used' ++ t.map.exttree) := by
  unfold vdfs4TruncateBlockMap
  by_cases hfull : m.fork.usedExtents = extentsCountInFork
  · simp only [if_pos hfull]
    obtain ⟨freed, t, ht, hfreed, hspec⟩ :=
      truncateExttreeLoop_spec putError _ m M [] (lt_succ_self _) hinv hreach
    rw [List.nil_append] at hfreed
    simp only [truncateExttree, List.length_nil, add_zero, ht]
    cases herr : t.error with
    | some err =>
      refine ⟨used, t, rfl, ?_⟩
      rw [hfreed]
      exact ⟨hspec.inv, hspec.behind, fun h => by rw [herr] at h; cases h⟩
    | none =>
      obtain ⟨used', t', ht', hspec'⟩ :=
        truncateFork_spec putError hspec.inv (hspec.done herr)
      simp only [ht']
      refine ⟨used', _, rfl, ?_, fun e he => ?_, hspec'.done⟩
      · rw [hfreed, unmapAll, foldl_append]
        exact hspec'.inv
      · rw [hfreed] at he
        rcases mem_append.mp he with he | he
        · exact hspec.behind e he
        · exact hspec'.behind e he
  · rw [if_neg hfull]
    refine truncateFork_spec putError hinv fun r hr => ?_
    -- a fork that is not full has no records
    refine absurd (hinv.full fun h => ?_) (by rwa [← hinv.slots.usedExtents])
    rw [h] at hr
    cases hr

end

end truncation

end Vdfs4
