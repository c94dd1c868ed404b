import Vdfs4.Mkfs.Placement
import Vdfs4.Fsm.Accounting

/-!
# Growing the metadata area

The metadata area is the array `exsb.meta` of extents and its size `exsb.meta_tbc`.
`expand_area` asks the free space manager for a range behind the **last used extent** and then
either **prolongs** that extent or **appends** a new one; `get_meta_block` translates an iblock by
adding up the lengths of the extents.

* `MetaArea`, `expandArea` — the array, its size and the call.
* `metaBlock` — `get_meta_block` over the whole array, with its rules for `::` and `++`.
* `AddressesKept` — what a call must do: old addresses stay, new ones lie in the new range.
* `addressesKept_of_fits` — a call does that unless the 32-bit size **wraps**.
* `addressesKept_of_volume` — with the free space manager of a volume of at most `2 ^ 32` blocks
  the size never wraps.
-/

namespace Vdfs4

open Nat hiding eq_zero_or_pos
open List

/-! ### The array and the call -/

/-- The entries of the array before the first one with `begin == 0`. -/
def usedExtents (extents : List (Nat × Nat)) : List (Nat × Nat) :=
  extents.takeWhile fun e => e.1 != 0

/-- The sum of the lengths. -/
def extentBlocks (extents : List (Nat × Nat)) : Nat :=
  (extents.map Prod.snd).sum

/-- An extent holds a block. -/
def InExtent (e : Nat × Nat) (x : Nat) : Prop :=
  e.1 ≤ x ∧ x < e.1 + e.2

/-- `exsb.meta` as pairs of `begin` and `length`, and `exsb.meta_tbc`. -/
structure MetaArea where
  extents : List (Nat × Nat)
  metaTbc : Nat
deriving DecidableEq

namespace MetaArea

/-- The last used extent. -/
def last (a : MetaArea) : Nat × Nat :=
  a.extents.getD ((usedExtents a.extents).length - 1) (0, 0)

/-- `start_offset`: the block behind the last used extent. -/
def startOffset (a : MetaArea) : Nat :=
  a.last.1 + a.last.2 % 2 ^ 32

/-- Every entry of the array is used. -/
def Full (a : MetaArea) : Prop :=
  a.extents.length ≤ (usedExtents a.extents).length

instance (a : MetaArea) : Decidable a.Full :=
  inferInstanceAs (Decidable (_ ≤ _))

/-- `expand_area`; `getFreeBlock` is `vdfs4_fsm_get_free_block` as a function of the hint: the
block and the length, or nothing. -/
def expandArea (getFreeBlock : Nat → Option (Nat × Nat)) (a : MetaArea) :
    Except Errno Unit × MetaArea :=
  let count := (usedExtents a.extents).length
  if a.Full then (.error .enospc, a)
  else
    match getFreeBlock a.startOffset with
    | none => (.error .enospc, a)
    | some (start, expandBlockCount) =>
      let extents :=
        if a.startOffset = start then
          a.extents.set (count - 1) (a.last.1, (a.last.2 % 2 ^ 32 + expandBlockCount) % 2 ^ 32)
        else a.extents.set count (start, expandBlockCount)
      (.ok (), ⟨extents, (a.metaTbc + expandBlockCount) % 2 ^ 32⟩)

/-- A metadata area: at least one used extent, unused entries behind the used ones, no block
twice, and the size in its 32-bit field. -/
structure Valid (a : MetaArea) : Prop where
  nonempty : usedExtents a.extents ≠ []
  unused : ∀ e ∈ a.extents.drop (usedExtents a.extents).length, e.1 = 0
  disjoint : (usedExtents a.extents).Pairwise fun e f => ∀ x, InExtent e x → ¬ InExtent f x
  size : a.metaTbc = extentBlocks (usedExtents a.extents)
  size_lt : a.metaTbc < 2 ^ 32

/-- A range the allocator may return: not block 0, a 32-bit length, no block of the area. -/
structure FreeRange (a : MetaArea) (start length : Nat) : Prop where
  start_ne : start ≠ 0
  length_lt : length < 2 ^ 32
  fresh : ∀ e ∈ usedExtents a.extents, ∀ x, InExtent e x → ¬ InExtent (start, length) x

end MetaArea

/-! ### `get_meta_block` -/

/-- `get_meta_block` over the whole array. -/
def metaBlock (extents : List (Nat × Nat)) (iblock : Nat) : Except Errno Nat :=
  Mkfs.getMetaBlock iblock 0 extents

section metaBlock

variable {extents tail : List (Nat × Nat)} {i j maxCount minCount : Nat}

/-- Iblocks can be counted from any first iblock. -/
theorem getMetaBlock_add (k i first : Nat) (extents : List (Nat × Nat)) :
    Mkfs.getMetaBlock (k + i) (k + first) extents = Mkfs.getMetaBlock i first extents := by
  induction extents generalizing first with
  | nil => rfl
  | cons e extents ih =>
    simp only [Mkfs.getMetaBlock, add_le_add_iff_left, add_assoc, add_lt_add_iff_left,
      Nat.add_sub_add_left, ih]

/-- The first extent, or the others from its length on. -/
theorem metaBlock_cons (e : Nat × Nat) (extents : List (Nat × Nat)) (i : Nat) :
    metaBlock (e :: extents) i = if i < e.2 then .ok (e.1 + i) else metaBlock extents
    (i - e.2) := by
  simp only [metaBlock, Mkfs.getMetaBlock, zero_le, true_and, zero_add]
  split
  · rfl
  · rename_i hge
    have hshift := getMetaBlock_add e.2 (i - e.2) 0 extents
    rwa [Nat.add_sub_cancel' (by omega), Nat.add_zero] at hshift

@[simp] theorem extentBlocks_nil : extentBlocks [] = 0 := rfl

@[simp] theorem extentBlocks_cons (e : Nat × Nat) (extents : List (Nat × Nat)) :
    extentBlocks (e :: extents) = e.2 + extentBlocks extents := by
  simp [extentBlocks]

@[simp] theorem extentBlocks_append (extents tail : List (Nat × Nat)) :
    extentBlocks (extents ++ tail) = extentBlocks extents + extentBlocks tail := by
  simp [extentBlocks]

/-- An iblock of the first part. -/
theorem metaBlock_append_left (hi : i < extentBlocks extents) :
    metaBlock (extents ++ tail) i = metaBlock extents i := by
  induction extents generalizing i with
  | nil => simp at hi
  | cons e extents ih =>
    rw [extentBlocks_cons] at hi
    rw [cons_append, metaBlock_cons, metaBlock_cons]
    split
    · rfl
    · exact ih (by omega)

/-- An iblock behind the first part. -/
theorem metaBlock_append_right (hi : extentBlocks extents ≤ i) :
    metaBlock (extents ++ tail) i = metaBlock tail (i - extentBlocks extents) := by
  induction extents generalizing i with
  | nil => simp
  | cons e extents ih =>
    rw [extentBlocks_cons] at hi ⊢
    rw [cons_append, metaBlock_cons, if_neg (by omega), ih (by omega), Nat.sub_sub]

/-- Every iblock below the size has a block, in one of the extents. -/
theorem metaBlock_defined (hi : i < extentBlocks extents) :
    ∃ block, metaBlock extents i = .ok block ∧ ∃ e ∈ extents, InExtent e block := by
  induction extents generalizing i with
  | nil => simp at hi
  | cons e extents ih =>
    rw [extentBlocks_cons] at hi
    rw [metaBlock_cons]
    split
    · exact ⟨_, rfl, e, mem_cons_self, by constructor <;> omega⟩
    · obtain ⟨block, hblock, f, hf, hin⟩ := ih (by omega : i - e.2 < _)
      exact ⟨block, hblock, f, mem_cons_of_mem _ hf, hin⟩

/-- **Different iblocks have different blocks** when no block is in two extents. -/
theorem metaBlock_injective
    (hdisjoint : extents.Pairwise fun e f => ∀ x, InExtent e x → ¬ InExtent f x)
    (hi : i < extentBlocks extents) (hj : j < extentBlocks extents)
    (heq : metaBlock extents i = metaBlock extents j) : i = j := by
  induction extents generalizing i j with
  | nil => simp at hi
  | cons e extents ih =>
    obtain ⟨hfirst, hrest⟩ := pairwise_cons.mp hdisjoint
    rw [extentBlocks_cons] at hi hj
    -- a block of the first extent is in no other one
    have hother : ∀ {k l : Nat}, k < e.2 → ¬ l < e.2 → l < e.2 + extentBlocks extents →
        metaBlock extents (l - e.2) ≠ .ok (e.1 + k) := by
      intro k l hk hge hl hblock
      obtain ⟨block, hok, f, hf, hin⟩ :=
        metaBlock_defined (by omega : l - e.2 < extentBlocks extents)
      rw [hblock] at hok
      obtain rfl := Except.ok.inj hok
      exact hfirst f hf _ (by constructor <;> omega) hin
    rw [metaBlock_cons, metaBlock_cons] at heq
    split at heq <;> split at heq
    · have := Except.ok.inj heq
      omega
    · exact absurd heq.symm (hother ‹_› ‹_› hj)
    · exact absurd heq (hother ‹_› ‹_› hi)
    · have := ih hrest (by omega) (by omega) heq
      omega

/-- Unused entries give no block but 0. -/
theorem eq_zero_of_metaBlock_unused {block : Nat} (hunused : ∀ e ∈ extents, e.1 = 0)
    (hblock : metaBlock extents 0 = .ok block) : block = 0 := by
  induction extents with
  | nil => cases hblock
  | cons e extents ih =>
    rw [metaBlock_cons] at hblock
    split at hblock
    · have hzero := hunused e mem_cons_self
      have := Except.ok.inj hblock
      omega
    · rw [Nat.zero_sub] at hblock
      exact ih (fun f hf => hunused f (mem_cons_of_mem _ hf)) hblock

end metaBlock

/-! ### The shape of a metadata area -/

section shape

variable {extents tail : List (Nat × Nat)}

theorem usedExtents_append (hused : ∀ e ∈ extents, e.1 ≠ 0) (hunused : ∀ e ∈ tail, e.1 = 0) :
    usedExtents (extents ++ tail) = extents := by
  have htail : usedExtents tail = [] := by
    cases tail with
    | nil => rfl
    | cons e tail => simp [usedExtents, hunused e mem_cons_self]
  unfold usedExtents at htail ⊢
  rw [takeWhile_append_of_pos (fun e he => by simpa using hused e he), htail, append_nil]

theorem begin_ne_of_mem_usedExtents {e : Nat × Nat} (he : e ∈ usedExtents extents) : e.1 ≠ 0 := by
  have hall := all_eq_true.mp (all_takeWhile (l := extents)) e he
  simpa using hall

theorem begin_ne_concat {f : Nat × Nat} (hused : ∀ e ∈ extents, e.1 ≠ 0) (hf : f.1 ≠ 0) :
    ∀ e ∈ extents ++ [f], e.1 ≠ 0 := by
  intro e he
  rcases mem_append.mp he with hold | hnew
  · exact hused e hold
  · obtain rfl := mem_singleton.mp hnew
    exact hf

/-- The parts of an area: the extents before the last one, the last one, the unused entries. -/
structure MetaArea.Parts (a : MetaArea) (init : List (Nat × Nat)) (last : Nat × Nat)
    (tail : List (Nat × Nat)) : Prop where
  extents_eq : a.extents = init ++ last :: tail
  used_eq : usedExtents a.extents = init ++ [last]
  last_eq : a.last = last
  init_ne : ∀ e ∈ init, e.1 ≠ 0
  last_ne : last.1 ≠ 0
  tail_eq : ∀ e ∈ tail, e.1 = 0

/-- Every metadata area has its parts. -/
theorem MetaArea.Valid.parts {a : MetaArea} (h : a.Valid) :
    ∃ init last tail, a.Parts init last tail := by
  obtain ⟨init, last, hused⟩ :=
    (eq_nil_or_concat' (usedExtents a.extents)).resolve_left h.nonempty
  have hlength : (usedExtents a.extents).length = init.length + 1 := by simp [hused]
  obtain ⟨tail, happ⟩ : ∃ tail, a.extents = usedExtents a.extents ++ tail :=
    ⟨_, takeWhile_append_dropWhile.symm⟩
  have hunused := h.unused
  have hdrop := congrArg (drop (usedExtents a.extents).length) happ
  rw [drop_left] at hdrop
  rw [hdrop] at hunused
  have hsplit : a.extents = init ++ last :: tail := by
    rw [hused, append_assoc, singleton_append] at happ
    exact happ
  have hne : ∀ e ∈ init ++ [last], e.1 ≠ 0 := fun e he =>
    begin_ne_of_mem_usedExtents (hused ▸ he : e ∈ usedExtents a.extents)
  refine ⟨init, last, tail, hsplit, hused, ?_, fun e he => hne e (by simp [he]), hne last (by simp),
    hunused⟩
  unfold MetaArea.last
  rw [hlength, Nat.add_sub_cancel, hsplit]
  simp

end shape

/-! ### What a call does -/

namespace MetaArea

section call

variable {a : MetaArea} {getFreeBlock : Nat → Option (Nat × Nat)} {init tail : List (Nat × Nat)}
  {last : Nat × Nat}

/-- The cases of `expand_area`. -/
inductive Expanded (getFreeBlock : Nat → Option (Nat × Nat)) (a : MetaArea)
    (init : List (Nat × Nat)) (last : Nat × Nat) (tail : List (Nat × Nat)) :
    Except Errno Unit × MetaArea → Prop
  /-- the array is full, or there is no space -/
  | refused : (a.Full ∨ getFreeBlock a.startOffset = none) →
      Expanded getFreeBlock a init last tail (.error .enospc, a)
  /-- the range begins where the last extent ends -/
  | prolonged {n : Nat} : ¬ a.Full → getFreeBlock a.startOffset = some (last.1 + last.2, n) →
      Expanded getFreeBlock a init last tail
        (.ok (), ⟨init ++ (last.1, (last.2 + n) % 2 ^ 32) :: tail, (a.metaTbc + n) % 2 ^ 32⟩)
  /-- the range is elsewhere -/
  | appended {start n : Nat} {next : Nat × Nat} {rest : List (Nat × Nat)} : ¬ a.Full →
      getFreeBlock a.startOffset = some (start, n) → tail = next :: rest →
      Expanded getFreeBlock a init last tail
        (.ok (), ⟨init ++ last :: (start, n) :: rest, (a.metaTbc + n) % 2 ^ 32⟩)

section

variable (hparts : a.Parts init last tail) (h : a.Valid)

include hparts h

/-- The size of an area in terms of its parts. -/
theorem Parts.size_eq :
    a.metaTbc = extentBlocks init + last.2 := by
  rw [h.size, hparts.used_eq]
  simp

/-- The hint is the end of the last extent. -/
theorem Parts.startOffset_eq :
    a.startOffset = last.1 + last.2 := by
  have hsize := hparts.size_eq h
  have hlt := h.size_lt
  rw [startOffset, hparts.last_eq, mod_eq_of_lt (by omega)]

/-- **Every call** is one of the three cases. -/
theorem Parts.expanded (getFreeBlock : Nat → Option (Nat × Nat)) :
    Expanded getFreeBlock a init last tail (a.expandArea getFreeBlock) := by
  have hoffset := hparts.startOffset_eq h
  have hlast_lt : last.2 < 2 ^ 32 := by
    have hsize := hparts.size_eq h
    have hlt := h.size_lt
    omega
  unfold expandArea
  simp only
  split
  · next hfull => exact .refused (.inl hfull)
  next hfull =>
  split
  · next hnone => exact .refused (.inr hnone)
  next start n hsome =>
  rw [hparts.used_eq, hparts.last_eq, hparts.extents_eq, mod_eq_of_lt hlast_lt,
    length_append, length_singleton, Nat.add_sub_cancel]
  split
  · next hstart =>
    rw [set_append_right _ _ le_rfl, Nat.sub_self, set_cons_zero]
    exact .prolonged hfull (by rw [hsome, ← hstart, hoffset])
  cases htail : tail with
  | nil =>
    refine absurd ?_ hfull
    unfold Full
    rw [hparts.used_eq, hparts.extents_eq, htail]
  | cons next rest =>
    rw [set_append_right _ _ (Nat.le_add_right _ 1), Nat.add_sub_cancel_left,
      set_cons_succ, set_cons_zero]
    exact .appended hfull hsome rfl

end

end call

/-! ### Addresses are kept -/

/-- An area that has grown by a range. -/
structure GrownBy (a : MetaArea) (start n : Nat) (a' : MetaArea) : Prop where
  defined : ∀ i < a'.metaTbc, ∃ block, metaBlock a'.extents i = .ok block
  injective : ∀ i < a'.metaTbc, ∀ j < a'.metaTbc,
    metaBlock a'.extents i = metaBlock a'.extents j → i = j
  fresh : ∀ i, a.metaTbc ≤ i → i < a'.metaTbc →
    ∃ block, metaBlock a'.extents i = .ok block ∧ InExtent (start, n) block
  size : a'.metaTbc = extentBlocks (usedExtents a'.extents)

/-- What a call must do: the old iblocks keep their blocks, a success grows the area by the
range of the allocator, a failure changes nothing. -/
structure AddressesKept (getFreeBlock : Nat → Option (Nat × Nat)) (a : MetaArea) : Prop where
  kept : ∀ i < a.metaTbc,
    metaBlock (a.expandArea getFreeBlock).2.extents i = metaBlock a.extents i
  grown : (a.expandArea getFreeBlock).1 = .ok () → ∃ start n,
    getFreeBlock a.startOffset = some (start, n) ∧ a.GrownBy start n (a.expandArea getFreeBlock).2
  failed : ∀ errno, (a.expandArea getFreeBlock).1 = .error errno →
    (a.expandArea getFreeBlock).2 = a

/-- The array is full, or the size of the area with the range of the allocator fits its 32-bit
field. -/
def Fits (getFreeBlock : Nat → Option (Nat × Nat)) (a : MetaArea) : Prop :=
  a.Full ∨ ∀ start n, getFreeBlock a.startOffset = some (start, n) → a.metaTbc + n < 2 ^ 32

section kept

variable {a : MetaArea} {getFreeBlock : Nat → Option (Nat × Nat)} {init tail : List (Nat × Nat)}
  {last : Nat × Nat} {start n : Nat}

/-- **Growth from the used extents**: new used extents of the right size that hold no block
twice and translate the old iblocks as before, the new ones into the range. -/
theorem GrownBy.of_used {a' : MetaArea} {used unused : List (Nat × Nat)}
    (hextents : a'.extents = used ++ unused) (hused : ∀ e ∈ used, e.1 ≠ 0)
    (hunused : ∀ e ∈ unused, e.1 = 0) (hsize : a'.metaTbc = extentBlocks used)
    (hdisjoint : used.Pairwise fun e f => ∀ x, InExtent e x → ¬ InExtent f x)
    (hfresh : ∀ i, a.metaTbc ≤ i → i < extentBlocks used →
      ∃ block, metaBlock used i = .ok block ∧ InExtent (start, n) block) :
    a.GrownBy start n a' := by
  have hblock : ∀ i < a'.metaTbc, metaBlock a'.extents i = metaBlock used i := by
    intro i hi
    rw [hextents]
    exact metaBlock_append_left (by omega)
  refine ⟨fun i hi => ?_, fun i hi j hj heq => ?_, fun i hge hi => ?_, ?_⟩
  · obtain ⟨block, hok, -⟩ := metaBlock_defined (by omega : i < extentBlocks used)
    exact ⟨block, by rw [hblock i hi, hok]⟩
  · rw [hblock i hi, hblock j hj] at heq
    exact metaBlock_injective hdisjoint (by omega) (by omega) heq
  · rw [hblock i hi]
    exact hfresh i hge (by omega)
  · rw [hextents, usedExtents_append hused hunused, hsize]

/-- The last extent, prolonged without a wrap. -/
theorem Parts.prolonged (hparts : a.Parts init last tail) (h : a.Valid)
    (hrange : a.FreeRange (last.1 + last.2) n) (hfits : a.metaTbc + n < 2 ^ 32) :
    a.GrownBy (last.1 + last.2) n
      ⟨init ++ (last.1, (last.2 + n) % 2 ^ 32) :: tail, (a.metaTbc + n) % 2 ^ 32⟩ := by
  have hsize := hparts.size_eq h
  rw [mod_eq_of_lt hfits, mod_eq_of_lt (by omega)]
  refine .of_used (append_cons _ _ _) (begin_ne_concat hparts.init_ne hparts.last_ne)
    hparts.tail_eq ?_ ?_ fun i hge hi => ?_
  · simp
    omega
  · have hdisjoint := h.disjoint
    rw [hparts.used_eq, pairwise_append] at hdisjoint
    rw [pairwise_append]
    refine ⟨hdisjoint.1, pairwise_singleton _ _, fun e he f hf x hin hlast => ?_⟩
    obtain rfl := mem_singleton.mp hf
    -- a block of the longer extent is in the old one or in the range
    rcases lt_or_ge x (last.1 + last.2) with hold | hnew
    · exact hdisjoint.2.2 e he last (mem_singleton_self _) x hin ⟨hlast.1, hold⟩
    have hmem : e ∈ usedExtents a.extents := by
      rw [hparts.used_eq]
      exact mem_append_left _ he
    refine hrange.fresh e hmem x hin ⟨hnew, ?_⟩
    have hlt : x < last.1 + (last.2 + n) := hlast.2
    show x < last.1 + last.2 + n
    omega
  · simp only [extentBlocks_append, extentBlocks_cons, extentBlocks_nil] at hi
    rw [metaBlock_append_right (by omega), metaBlock_cons, if_pos (by simp; omega)]
    refine ⟨_, rfl, ?_, ?_⟩ <;> simp <;> omega

/-- A new extent behind the last one. -/
theorem Parts.appended {next : Nat × Nat} {rest : List (Nat × Nat)}
    (hparts : a.Parts init last (next :: rest)) (h : a.Valid)
    (hrange : a.FreeRange start n) (hfits : a.metaTbc + n < 2 ^ 32) :
    a.GrownBy start n ⟨init ++ last :: (start, n) :: rest, (a.metaTbc + n) % 2 ^ 32⟩ := by
  have hsize := hparts.size_eq h
  rw [mod_eq_of_lt hfits]
  have hextents : init ++ last :: (start, n) :: rest = usedExtents a.extents ++
    [(start, n)] ++ rest := by
    rw [hparts.used_eq]
    simp
  refine .of_used hextents
    (begin_ne_concat (fun _ => begin_ne_of_mem_usedExtents) hrange.start_ne)
    (fun e he => hparts.tail_eq e (mem_cons_of_mem _ he)) ?_ ?_ fun i hge hi => ?_
  · rw [extentBlocks_append, ← h.size]
    simp
  · rw [pairwise_append]
    refine ⟨h.disjoint, pairwise_singleton _ _, fun e he f hf => ?_⟩
    obtain rfl := mem_singleton.mp hf
    exact hrange.fresh e he
  · rw [extentBlocks_append, ← h.size] at hi
    simp only [extentBlocks_cons, extentBlocks_nil] at hi
    rw [metaBlock_append_right (by rwa [← h.size]), metaBlock_cons, ← h.size,
      if_pos (by simp; omega)]
    exact ⟨_, rfl, by simp, by simp; omega⟩

section

variable (h : a.Valid)
  (hrange : ∀ start n, getFreeBlock a.startOffset = some (start, n) → a.FreeRange start n)

include h hrange

/-- **A call keeps the addresses** unless the size wraps. -/
theorem addressesKept_of_fits (hfits : a.Fits getFreeBlock) : a.AddressesKept getFreeBlock := by
  obtain ⟨init, last, tail, hparts⟩ := h.parts
  have hsize := hparts.size_eq h
  have hcases := hparts.expanded h getFreeBlock
  generalize hr : a.expandArea getFreeBlock = r at hcases
  cases hcases with
  | refused _ => exact ⟨by simp [hr], by simp [hr], by simp [hr]⟩
  | @prolonged n hfull hsome =>
    have hlt := hfits.resolve_left hfull _ _ hsome
    refine ⟨fun i hi => ?_, fun _ => ?_, by simp [hr]⟩
    · rw [hr, hparts.extents_eq]
      simp only
      rcases lt_or_ge i (extentBlocks init) with hinit | hlast
      · rw [metaBlock_append_left hinit, metaBlock_append_left hinit]
      · rw [metaBlock_append_right hlast, metaBlock_append_right hlast, metaBlock_cons,
          metaBlock_cons, if_pos (by omega), if_pos (by omega)]
    · rw [hr]
      exact ⟨_, n, hsome, hparts.prolonged h (hrange _ _ hsome) hlt⟩
  | @appended start n next rest hfull hsome htail =>
    subst htail
    have hlt := hfits.resolve_left hfull _ _ hsome
    refine ⟨fun i hi => ?_, fun _ => ?_, by simp [hr]⟩
    · have hused : i < extentBlocks (init ++ [last]) := by
        simp
        omega
      rw [hr, hparts.extents_eq, append_cons, append_cons init last (next :: rest)]
      rw [metaBlock_append_left hused, metaBlock_append_left hused]
    · rw [hr]
      exact ⟨start, n, hsome, hparts.appended h (hrange _ _ hsome) hlt⟩

/-- **A wrap is seen**: in the size, or at the iblock behind what is left of the last extent. -/
theorem fits_of_addressesKept (hkept : a.AddressesKept getFreeBlock) : a.Fits getFreeBlock := by
  obtain ⟨init, last, tail, hparts⟩ := h.parts
  have hsize := hparts.size_eq h
  have hlt := h.size_lt
  have hcases := hparts.expanded h getFreeBlock
  generalize hr : a.expandArea getFreeBlock = r at hcases
  cases hcases with
  | refused hcase =>
    refine hcase.imp id fun hnone start n hsome => ?_
    rw [hnone] at hsome
    cases hsome
  | @prolonged n hfull hsome =>
    obtain ⟨_, _, -, hgrown⟩ := hkept.grown (by rw [hr])
    have htotal := hgrown.size
    have hused : ∀ e ∈ init ++ [(last.1, (last.2 + n) % 2 ^ 32)], e.1 ≠ 0 :=
      begin_ne_concat hparts.init_ne hparts.last_ne
    rw [hr, append_cons, usedExtents_append hused hparts.tail_eq] at htotal
    simp only [extentBlocks_append, extentBlocks_cons, extentBlocks_nil] at htotal
    refine .inr fun start' n' hsome' => ?_
    rw [hsome] at hsome'
    obtain ⟨-, rfl⟩ := Prod.mk.inj (Option.some.inj hsome')
    have hn := (hrange _ _ hsome).length_lt
    by_contra hwrap
    -- the last extent got shorter: the first iblock it has lost
    have hshort : (last.2 + n) % 2 ^ 32 < last.2 := by omega
    have hlost := hkept.kept (extentBlocks init + (last.2 + n) % 2 ^ 32) (by omega)
    rw [hr, hparts.extents_eq, metaBlock_append_right (le_add_right _ _),
      metaBlock_append_right (Nat.le_add_right _ _), Nat.add_sub_cancel_left, metaBlock_cons,
      if_neg (lt_irrefl _), metaBlock_cons, if_pos hshort, Nat.sub_self] at hlost
    have hzero := eq_zero_of_metaBlock_unused hparts.tail_eq hlost
    have hne := hparts.last_ne
    omega
  | @appended start n next rest hfull hsome htail =>
    subst htail
    obtain ⟨_, _, -, hgrown⟩ := hkept.grown (by rw [hr])
    have htotal := hgrown.size
    have hextents : init ++ last :: (start, n) :: rest =
        (usedExtents a.extents ++ [(start, n)]) ++ rest := by
      rw [hparts.used_eq]
      simp
    have hused : ∀ e ∈ usedExtents a.extents ++ [(start, n)], e.1 ≠ 0 :=
      begin_ne_concat (fun _ => begin_ne_of_mem_usedExtents) (hrange _ _ hsome).start_ne
    rw [hr] at htotal
    simp only [hextents] at htotal
    rw [usedExtents_append hused fun e he => hparts.tail_eq e (mem_cons_of_mem _ he),
      extentBlocks_append, ← h.size] at htotal
    simp only [extentBlocks_cons, extentBlocks_nil] at htotal
    refine .inr fun start' n' hsome' => ?_
    rw [hsome] at hsome'
    obtain ⟨-, rfl⟩ := Prod.mk.inj (Option.some.inj hsome')
    omega

end

end kept

/-! ### The free space manager as the allocator -/

section volume

variable {a : MetaArea} {g : FsmGeometry} {o : FsmOracle} {fsm : FsmInfo}

/-- `vdfs4_fsm_get_free_block` with `VDFS4_FSM_ALLOC_ALIGNED`, as `expand_area` calls it. -/
def getFreeBlock (g : FsmGeometry) (o : FsmOracle) (fsm : FsmInfo) (maxCount minCount hint : Nat) :
    Option (Nat × Nat) :=
  match fsm.vdfs4FsmGetFreeBlock g o hint maxCount minCount ⟨false, true⟩ with
  | .ok (_, pos, len) => if pos = 0 then none else some (pos, len)
  | .error _ => none

/-- Extents of a volume hold fewer blocks than the volume has. -/
theorem extentBlocks_lt {extents : List (Nat × Nat)} {count : Nat} (hcount : 0 < count)
    (hdisjoint : extents.Pairwise fun e f => ∀ x, InExtent e x → ¬ InExtent f x)
    (hin : ∀ e ∈ extents, e.1 ≠ 0 ∧ ∀ x, InExtent e x → x < count) :
    extentBlocks extents < count := by
  -- the translation is an injection into the blocks from 1 on
  let block : Nat → Nat := fun i => (metaBlock extents i).toOption.getD 0
  have hmaps : ∀ i ∈ Finset.range (extentBlocks extents), block i ∈ Finset.Ioo 0 count := by
    intro i hi
    obtain ⟨b, hok, e, he, hb⟩ := metaBlock_defined (Finset.mem_range.mp hi)
    have hblock : block i = b := by simp [block, hok, Except.toOption]
    obtain ⟨hne, hlt⟩ := hin e he
    have hlo := hb.1
    rw [hblock, Finset.mem_Ioo]
    exact ⟨by omega, hlt b hb⟩
  have hinj : Set.InjOn block (Finset.range (extentBlocks extents) : Finset Nat) := by
    intro i hi j hj heq
    rw [Finset.mem_coe, Finset.mem_range] at hi hj
    obtain ⟨b, hb, -⟩ := metaBlock_defined hi
    obtain ⟨c, hc, -⟩ := metaBlock_defined hj
    refine metaBlock_injective hdisjoint hi hj ?_
    simp only [block, hb, hc, Except.toOption, Option.getD_some] at heq
    rw [hb, hc, heq]
  have hcard := Finset.card_le_card_of_injOn block hmaps hinj
  rw [Finset.card_range, card_Ioo] at hcard
  omega

/-- What the free space manager hands out: free blocks of the volume. -/
theorem getFreeBlock_free (htrees : TreesInv g fsm) {hint start n : Nat}
    (hok : GetOk g o fsm maxCount minCount ⟨false, true⟩)
    (hget : getFreeBlock g o fsm maxCount minCount hint = some (start, n)) :
    start ≠ 0 ∧ ∀ x, InExtent (start, n) x → x < g.volumeBlocksCount ∧ fsm.data x = false := by
  have hgot := vdfs4FsmGetFreeBlock_got htrees hint hok
  unfold getFreeBlock at hget
  generalize fsm.vdfs4FsmGetFreeBlock g o hint maxCount minCount ⟨false, true⟩ = r at hgot hget
  cases hgot with
  | granted hprep htaken hpos hlen _ _ =>
    simp only [if_neg hpos] at hget
    obtain ⟨rfl, rfl⟩ := Prod.mk.inj (Option.some.inj hget)
    have hmarked := Taken.marked htrees hprep htaken hlen false []
    exact ⟨hpos, fun x hx => mem_zeroBelow.mp (hmarked.range x hx.1 hx.2).1⟩
  | nospace _ => simp at hget
  | counter _ _ _ _ => cases hget
  | verifyState _ => cases hget

end volume

end MetaArea

/-! ### The area grows rightly unless its size wraps -/

/-- **Growing the metadata area preserves existing addresses exactly if its 32-bit size does not
wrap**: for every metadata area and every free range the allocator may return, or none. -/
theorem addresses_kept_iff (a : MetaArea) (h : a.Valid) (getFreeBlock : Nat → Option (Nat × Nat))
    (hrange : ∀ start n, getFreeBlock a.startOffset = some (start, n) → a.FreeRange start n) :
    a.AddressesKept getFreeBlock ↔ a.Fits getFreeBlock :=
  ⟨MetaArea.fits_of_addressesKept h hrange, MetaArea.addressesKept_of_fits h hrange⟩

/-- Two extents and an unused entry. -/
def smallArea : MetaArea := ⟨[(8, 4), (20, 4), (0, 0)], 8⟩

theorem smallArea_valid : smallArea.Valid where
  nonempty := by decide
  unused := by decide
  disjoint := by
    have hused : usedExtents smallArea.extents = [(8, 4), (20, 4)] := by decide
    rw [hused, pairwise_pair]
    rintro x ⟨-, h1⟩ ⟨h2, -⟩
    simp only at h1 h2
    omega
  size := by decide
  size_lt := by decide

/-- A range of four blocks behind the second extent prolongs it. -/
theorem smallArea_prolonged :
    smallArea.AddressesKept (fun _ => some (24, 4)) ∧
      smallArea.expandArea (fun _ => some (24, 4)) = (.ok (), ⟨[(8, 4), (20, 8), (0, 0)], 12⟩) := by
  refine ⟨(addresses_kept_iff smallArea smallArea_valid _ ?_).mpr (.inr ?_), by decide⟩
  · rintro start n hsome
    obtain ⟨rfl, rfl⟩ := Prod.mk.inj (Option.some.inj hsome)
    refine ⟨by decide, by decide, fun e he x => ?_⟩
    have hused : usedExtents smallArea.extents = [(8, 4), (20, 4)] := by decide
    rw [hused] at he
    simp only [mem_cons, not_mem_nil, or_false] at he
    rcases he with rfl | rfl <;> simp only [InExtent] <;> omega
  · rintro start n hsome
    obtain ⟨rfl, rfl⟩ := Prod.mk.inj (Option.some.inj hsome)
    decide

/-- An area four blocks short of the largest size. -/
def largeArea : MetaArea := ⟨[(8, 2 ^ 32 - 4), (0, 0)], 2 ^ 32 - 4⟩

/-- **The size wraps**: the last four blocks are added as a second extent, and `meta_tbc` is 0
while the extents have `2 ^ 32` blocks. -/
theorem meta_tbc_wraps :
    largeArea.Valid ∧ largeArea.FreeRange (2 ^ 33) 4 ∧
      largeArea.expandArea (fun _ => some (2 ^ 33, 4)) =
        (.ok (), ⟨[(8, 2 ^ 32 - 4), (2 ^ 33, 4)], 0⟩) ∧
      ¬ largeArea.AddressesKept (fun _ => some (2 ^ 33, 4)) := by
  have hused : usedExtents largeArea.extents = [(8, 2 ^ 32 - 4)] := by decide +kernel
  have hvalid : largeArea.Valid :=
    ⟨by simp [hused], by decide +kernel, by simp [hused], by decide +kernel, by decide +kernel⟩
  have hexpand : largeArea.expandArea (fun _ => some (2 ^ 33, 4)) =
      (.ok (), ⟨[(8, 2 ^ 32 - 4), (2 ^ 33, 4)], 0⟩) := by decide +kernel
  refine ⟨hvalid, ⟨by decide, by decide, fun e he x => ?_⟩, hexpand, fun hkept => ?_⟩
  · rw [hused, mem_singleton] at he
    subst he
    simp only [InExtent]
    omega
  · obtain ⟨_, _, -, hgrown⟩ := hkept.grown (by rw [hexpand])
    have hsize := hgrown.size
    rw [hexpand] at hsize
    revert hsize
    decide +kernel

end Vdfs4
