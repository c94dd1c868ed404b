import Mathlib.Data.List.GetD
import Vdfs4.File.BlockMap

/-!
# The slots of a fork

The nine extent slots of a fork are its used slots, then blank ones.

* `SlotsRep` — the **used slots as a list**; reading, writing, taking and blanking a slot.
* `extents_shiftRight_setSlot` — the shift loop of `insert_extent` and the store after it
  together insert a slot.
-/

namespace Vdfs4

open List ForkInfo

/-! ### Used slots and blank slots -/

/-- The slots of the fork are `used`, then blank ones. -/
structure SlotsRep (fork : ForkInfo) (used : List ExtentInfo) : Prop where
  extents : fork.extents =
    used ++ List.replicate (extentsCountInFork - used.length) ExtentInfo.zero
  usedExtents : fork.usedExtents = used.length

namespace SlotsRep

variable {fork : ForkInfo} {used : List ExtentInfo} {e : ExtentInfo} {i : Nat}

theorem length_le (h : SlotsRep fork used) : used.length ≤ extentsCountInFork := by
  have hlen := fork.length_extents
  rw [h.extents, length_append, length_replicate] at hlen
  omega

theorem take_usedExtents (h : SlotsRep fork used) :
    fork.extents.take fork.usedExtents = used := by
  rw [h.extents, h.usedExtents, take_left]

theorem slot_eq_getElem (h : SlotsRep fork used) (hi : i < used.length) :
    fork.slot i = used[i] := by
  unfold slot
  rw [h.extents, getD_append _ _ _ _ hi, getD_eq_getElem _ _ hi]

theorem slot_eq_zero (h : SlotsRep fork used) (hi : used.length ≤ i) :
    fork.slot i = ExtentInfo.zero := by
  unfold slot
  rw [h.extents, getD_append_right _ _ _ _ hi]
  by_cases hlt : i - used.length < extentsCountInFork - used.length
  · rw [getD_eq_getElem _ _ (by rwa [length_replicate]), getElem_replicate]
  · rw [getD_eq_default]
    rw [length_replicate]
    omega

/-- The slot in front of a split of the used slots. -/
theorem slot_append {a b : List ExtentInfo} (h : SlotsRep fork (a ++ e :: b)) :
    fork.slot a.length = e := by
  rw [h.slot_eq_getElem (by simp)]
  simp

theorem setSlot {a b : List ExtentInfo} {e' : ExtentInfo} (h : SlotsRep fork (a ++ e :: b)) :
    SlotsRep (fork.setSlot a.length e') (a ++ e' :: b) where
  extents := by
    have hset : ((a ++ e :: b) ++ replicate (extentsCountInFork - (a ++ e :: b).length)
        ExtentInfo.zero).set a.length e' = (a ++ e' :: b) ++
        replicate (extentsCountInFork - (a ++ e :: b).length) ExtentInfo.zero := by
      rw [append_assoc, set_append_right _ _ le_rfl, Nat.sub_self]
      simp
    simp only [ForkInfo.setSlot]
    rw [h.extents, hset]
    simp
  usedExtents := by
    simp only [ForkInfo.setSlot, h.usedExtents]
    simp

/-- Using the first blank slot. -/
theorem push (h : SlotsRep fork used) (hlt : used.length < extentsCountInFork) :
    SlotsRep { fork.setSlot used.length e with usedExtents := fork.usedExtents + 1 }
      (used ++ [e]) where
  extents := by
    obtain ⟨k, hk⟩ : ∃ k, extentsCountInFork - used.length = k + 1 :=
      ⟨extentsCountInFork - used.length - 1, by omega⟩
    have hk' : extentsCountInFork - (used ++ [e]).length = k := by
      rw [length_append, length_singleton]
      omega
    simp only [ForkInfo.setSlot]
    rw [h.extents, hk, hk', set_append_right _ _ le_rfl, Nat.sub_self, replicate_succ,
      set_cons_zero, append_assoc, singleton_append]
  usedExtents := by
    simp only [h.usedExtents, length_append, length_singleton]

/-- Blanking the last used slot. -/
theorem pop (h : SlotsRep fork (used ++ [e])) :
    SlotsRep (ForkInfo.setSlot { fork with usedExtents := fork.usedExtents - 1 } used.length
      ExtentInfo.zero) used where
  extents := by
    have hle := h.length_le
    rw [length_append, length_singleton] at hle
    obtain ⟨k, hk⟩ : ∃ k, extentsCountInFork - used.length = k + 1 :=
      ⟨extentsCountInFork - used.length - 1, by omega⟩
    have hk' : extentsCountInFork - (used ++ [e]).length = k := by
      rw [length_append, length_singleton]
      omega
    simp only [ForkInfo.setSlot]
    rw [h.extents, hk, hk', append_assoc, set_append_right _ _ le_rfl, Nat.sub_self,
      singleton_append, set_cons_zero, replicate_succ]
  usedExtents := by
    simp only [ForkInfo.setSlot, h.usedExtents, length_append, length_singleton,
      Nat.add_sub_cancel]

end SlotsRep

/-- The shift loop, slot by slot. -/
theorem getElem?_shiftRight (pos : Nat) (count : Nat) (fork : ForkInfo)
    (hcount : count < extentsCountInFork) (k : Nat) :
    (fork.shiftRight pos count).extents[k]? =
      if pos < k ∧ k ≤ count then fork.extents[k - 1]? else fork.extents[k]? := by
  induction count generalizing fork with
  | zero =>
    rw [shiftRight, if_neg]
    omega
  | succ count ih =>
    rw [shiftRight]
    split
    · rename_i hpos
      -- the slot just written is not read again
      rw [ih _ (by omega)]
      have hlen := fork.length_extents
      have hslot : fork.extents[count]? = some (fork.slot count) := by
        unfold slot
        rw [getD_eq_getElem _ _ (by omega), getElem?_eq_getElem (by omega)]
      simp only [setSlot, getElem?_set]
      by_cases h1 : pos < k ∧ k ≤ count
      · rw [if_pos h1, if_neg (by omega), if_pos ⟨h1.1, by omega⟩]
      · rw [if_neg h1]
        by_cases h2 : count + 1 = k
        · subst h2
          rw [if_pos rfl, if_pos (by omega), if_pos ⟨hpos, le_rfl⟩, Nat.add_sub_cancel, hslot]
        · rw [if_neg h2, if_neg (by omega)]
    · rename_i hpos
      rw [if_neg (by omega)]

/-- **The shift and the store together insert**: the slots up to `count` are moved one
to the right from `pos` on, and the one that was at `count` is gone. -/
theorem extents_shiftRight_setSlot {pos count : Nat} {fork : ForkInfo} {e : ExtentInfo}
    (hpos : pos ≤ count) (hcount : count < extentsCountInFork) :
    ((fork.shiftRight pos count).setSlot pos e).extents =
      fork.extents.take pos ++ e :: (fork.extents.drop pos).take (count - pos) ++
        fork.extents.drop (count + 1) := by
  have hlen := fork.length_extents
  refine ext_getElem? fun k => ?_
  simp only [setSlot, getElem?_set]
  have hlen' : (fork.shiftRight pos count).extents.length = extentsCountInFork :=
    length_extents _
  rcases Nat.lt_trichotomy k pos with hk | hk | hk
  · rw [if_neg (by omega), getElem?_shiftRight _ _ _ hcount, if_neg (by omega),
      append_assoc, getElem?_append_left (by rw [length_take]; omega),
      getElem?_take_of_lt hk]
  · subst hk
    rw [if_pos rfl, if_pos (by omega), append_assoc,
      getElem?_append_right (by rw [length_take]; omega), length_take]
    simp [Nat.min_eq_left (show k ≤ fork.extents.length by omega)]
  · rw [if_neg (by omega), getElem?_shiftRight _ _ _ hcount]
    by_cases hk' : k ≤ count
    · rw [if_pos ⟨hk, hk'⟩, append_assoc,
        getElem?_append_right (by rw [length_take]; omega), length_take,
        Nat.min_eq_left (by omega)]
      obtain ⟨j, rfl⟩ : ∃ j, k = pos + j + 1 := ⟨k - pos - 1, by omega⟩
      rw [show pos + j + 1 - pos = j + 1 by omega, cons_append, getElem?_cons_succ,
        getElem?_append_left (by rw [length_take, length_drop]; omega),
        getElem?_take_of_lt (by omega), getElem?_drop]
      congr 1
    · rw [if_neg (by omega), getElem?_append_right
        (by simp only [length_append, length_take, length_cons,
          length_drop]; omega)]
      simp only [length_append, length_take, length_cons, length_drop,
        getElem?_drop]
      congr 1
      omega

@[simp] theorem ForkInfo.usedExtents_shiftRight (pos count : Nat) (fork : ForkInfo) :
    (fork.shiftRight pos count).usedExtents = fork.usedExtents := by
  induction count generalizing fork with
  | zero => rfl
  | succ count ih =>
    rw [shiftRight]
    split
    · rw [ih]
      rfl
    · rfl

@[simp] theorem ForkInfo.totalBlockCount_shiftRight (pos count : Nat) (fork : ForkInfo) :
    (fork.shiftRight pos count).totalBlockCount = fork.totalBlockCount := by
  induction count generalizing fork with
  | zero => rfl
  | succ count ih =>
    rw [shiftRight]
    split
    · rw [ih]
      rfl
    · rfl

/-- A slot more in the middle of a fork that is not full. -/
theorem SlotsRep.insert {fork : ForkInfo} {a b : List ExtentInfo} {e : ExtentInfo}
    (h : SlotsRep fork (a ++ b)) (hlt : (a ++ b).length < extentsCountInFork) :
    SlotsRep ((shiftRight a.length fork.usedExtents
      { fork with usedExtents := fork.usedExtents + 1 }).setSlot a.length e) (a ++ e :: b) where
  extents := by
    have hused := h.usedExtents
    rw [length_append] at hused hlt
    rw [extents_shiftRight_setSlot (by omega) (by omega)]
    simp only [h.extents, hused]
    rw [append_assoc a b, take_left, drop_left,
      show a.length + b.length - a.length = b.length by omega, take_left,
      ← append_assoc a b, ← length_append, ← drop_drop, drop_left,
      drop_replicate]
    congr 2
    simp only [length_append, length_cons]
    omega
  usedExtents := by
    simp only [ForkInfo.setSlot, ForkInfo.usedExtents_shiftRight, h.usedExtents,
      length_append, length_cons]
    omega

/-- A slot more in the middle of a full fork: the last one is pushed out. -/
theorem SlotsRep.insertFull {fork : ForkInfo} {a b : List ExtentInfo} {e last : ExtentInfo}
    (h : SlotsRep fork (a ++ (b ++ [last]))) (hfull : fork.usedExtents = extentsCountInFork) :
    SlotsRep ((fork.shiftRight a.length (fork.usedExtents - 1)).setSlot a.length e)
      (a ++ e :: b) where
  extents := by
    have hused := h.usedExtents
    simp only [length_append, length_singleton] at hused
    have hrep : extentsCountInFork - (a ++ (b ++ [last])).length = 0 := by
      simp only [length_append, length_singleton]
      omega
    have hrep' : extentsCountInFork - (a ++ e :: b).length = 0 := by
      simp only [length_append, length_cons]
      omega
    have hextents := h.extents
    rw [hrep, replicate_zero, append_nil] at hextents
    rw [extents_shiftRight_setSlot (by omega) (by rw [hfull]; decide), hextents, take_left,
      drop_left, show fork.usedExtents - 1 - a.length = b.length by omega, take_left,
      drop_eq_nil_of_le, hrep', replicate_zero]
    simp only [length_append, length_singleton]
    omega
  usedExtents := by
    have hused := h.usedExtents
    simp only [ForkInfo.setSlot, ForkInfo.usedExtents_shiftRight, length_append,
      length_cons, length_nil] at hused ⊢
    omega

end Vdfs4
