import Mathlib.Data.Set.Card

/-!
# Bitmaps and bit searches

The part of the kernel's bitmap library that file systems lean on, over an
arbitrary bitmap:

* `Bitmap` — a bitmap read **bit by bit**; a bit past the end reads as clear, so
  that growing a bitmap is growing its size only.
* `setRange` / `clearRange` — `bitmap_set` and `bitmap_clear`.
* `findNextBit` / `findNextZeroBit` — the first bit at or after `start` that is
  set (clear), and `size` when there is none.
* `findNextZeroArea` — `bitmap_find_next_zero_area`: the first aligned run of
  `nr` clear bits, and a value **above** `size` when there is none.
-/

/-- A bitmap, as the function that reads one bit. -/
def Bitmap : Type := Nat → Bool

namespace Bitmap

open List Nat

variable {b : Bitmap} {size start pos mask n nr i fuel : Nat}

/-- The bitmap with every bit clear. -/
def zero : Bitmap := fun _ => false

/-- `bitmap_set`: set the `n` bits from `pos` on. -/
def setRange (b : Bitmap) (pos n : Nat) : Bitmap :=
  fun i => if pos ≤ i ∧ i < pos + n then true else b i

/-- `bitmap_clear`: clear the `n` bits from `pos` on. -/
def clearRange (b : Bitmap) (pos n : Nat) : Bitmap :=
  fun i => if pos ≤ i ∧ i < pos + n then false else b i

/-- Some of the `n` bits from `pos` on is set. -/
def anySet (b : Bitmap) (pos n : Nat) : Bool := (List.range' pos n).any fun i => b i

/-- All of the `n` bits from `pos` on are set. -/
def allSet (b : Bitmap) (pos n : Nat) : Bool := (List.range' pos n).all fun i => b i

theorem anySet_eq_false :
    b.anySet pos n = false ↔ ∀ i, pos ≤ i → i < pos + n → b i = false := by
  simp [anySet, and_imp]

theorem allSet_eq_true :
    b.allSet pos n = true ↔ ∀ i, pos ≤ i → i < pos + n → b i = true := by
  simp [allSet, and_imp]

/-- Whether the bits from `p` up to `d` are clear, for a function. -/
def decidableClear (f : Nat → Bool) (d p : Nat) : Decidable (∀ x < d, p ≤ x → f x = false) :=
  inferInstance

instance (b : Bitmap) (d p : Nat) : Decidable (∀ x < d, p ≤ x → b x = false) :=
  decidableClear b d p

@[simp] theorem zero_apply (i : Nat) : zero i = false := rfl

theorem setRange_eq_true :
    b.setRange pos n i = true ↔ (pos ≤ i ∧ i < pos + n) ∨ b i = true := by
  by_cases h : pos ≤ i ∧ i < pos + n <;> simp only [setRange, h] <;> simp

theorem clearRange_eq_true :
    b.clearRange pos n i = true ↔ ¬ (pos ≤ i ∧ i < pos + n) ∧ b i = true := by
  by_cases h : pos ≤ i ∧ i < pos + n <;> simp only [clearRange, h] <;> simp

/-! ### Searching for one bit -/

/-- The first position in `[start, size)` where `p` holds, `size` if none. -/
def findNext (p : Nat → Bool) (size start : Nat) : Nat :=
  ((List.range' start (size - start)).find? p).getD size

/-- `find_next_bit`. -/
def findNextBit (b : Bitmap) (size start : Nat) : Nat := findNext b size start

/-- `find_next_zero_bit`. -/
def findNextZeroBit (b : Bitmap) (size start : Nat) : Nat :=
  findNext (fun i => !b i) size start

section

variable (p : Nat → Bool)

include p

/-- What a search returns: either a hit, the first one, or `size` with no hit in
the whole range. -/
theorem findNext_spec (size start : Nat) :
    (start ≤ findNext p size start ∧ findNext p size start < size ∧
      p (findNext p size start) = true ∧
      ∀ i, start ≤ i → i < findNext p size start → p i = false) ∨
    (findNext p size start = size ∧ ∀ i, start ≤ i → i < size → p i = false) := by
  unfold findNext
  cases hf : (range' start (size - start)).find? p with
  | none =>
    right
    refine ⟨rfl, fun i hs hi => ?_⟩
    have := find?_eq_none.mp hf i (mem_range'_1.mpr (by omega))
    simpa using this
  | some k =>
    left
    have hk := mem_range'_1.mp (mem_of_find?_eq_some hf)
    obtain ⟨hp, as, bs, happ, has⟩ := find?_eq_some_iff_append.mp hf
    refine ⟨by simpa using hk.1, by simp only [Option.getD_some]; omega, hp, fun i hs hi => ?_⟩
    -- the positions before the hit are exactly the searched ones below it
    have hmem : i ∈ as ++ k :: bs := by
      rw [← happ, mem_range'_1]
      simp only [Option.getD_some] at hi
      omega
    have hsorted : List.Pairwise (· < ·) (as ++ k :: bs) := by
      rw [← happ]
      exact pairwise_lt_range'
    simp only [Option.getD_some] at hi
    rcases mem_append.mp hmem with h | h
    · simpa using has i h
    · rcases mem_cons.mp h with rfl | h
      · omega
      · have := (pairwise_cons.mp (pairwise_append.mp hsorted).2.1).1 i h
        omega

theorem findNext_le_size :
    findNext p size start ≤ size := by
  rcases findNext_spec p size start with ⟨-, h, -⟩ | ⟨h, -⟩ <;> omega

theorem le_findNext (h : start ≤ size) :
    start ≤ findNext p size start := by
  rcases findNext_spec p size start with ⟨h', -⟩ | ⟨h', -⟩ <;> omega

/-- Below the result nothing satisfies the predicate, hit or no hit. -/
theorem findNext_false_of_lt (hs : start ≤ i) (hi : i < findNext p size start) : p i = false := by
  rcases findNext_spec p size start with ⟨-, -, -, h⟩ | ⟨h', h⟩
  · exact h i hs hi
  · exact h i hs (by omega)

theorem findNext_hit (h : findNext p size start < size) : p (findNext p size start) = true := by
  rcases findNext_spec p size start with ⟨-, -, h', -⟩ | ⟨h', -⟩
  · exact h'
  · omega

/-- The search determined by its specification: a first hit is the result. -/
theorem findNext_eq_of_first {k : Nat} (hs : start ≤ k) (hk : k < size)
    (hp : p k = true) (hf : ∀ i, start ≤ i → i < k → p i = false) :
    findNext p size start = k := by
  rcases findNext_spec p size start with ⟨h1, h2, h3, h4⟩ | ⟨h1, h2⟩
  · rcases lt_trichotomy (findNext p size start) k with h | h | h
    · simp [hf _ h1 h] at h3
    · exact h
    · simp [h4 k hs h] at hp
  · simp [h2 k hs hk] at hp

/-- No hit means `size`. -/
theorem findNext_eq_size
    (hf : ∀ i, start ≤ i → i < size → p i = false) : findNext p size start = size := by
  rcases findNext_spec p size start with ⟨h1, h2, h3, -⟩ | ⟨h, -⟩
  · simp [hf _ h1 h2] at h3
  · exact h

end

/-- A search depends on the positions below `size` only. -/
theorem findNext_congr {p q : Nat → Bool} (h : ∀ i, i < size → p i = q i) :
    findNext p size start = findNext q size start := by
  rcases findNext_spec q size start with ⟨hle, hlt, hhit, hfirst⟩ | ⟨heq, hnone⟩
  · apply findNext_eq_of_first p hle hlt
    · rw [h _ hlt, hhit]
    · intro i hi hi'
      rw [h i (by omega)]
      exact hfirst i hi hi'
  · rw [heq]
    apply findNext_eq_size p
    intro i hi hi'
    rw [h i hi']
    exact hnone i hi hi'

/-! ### Searching for an aligned clear area -/

/-- `__ALIGN_MASK`: round `x` up to a multiple of `mask + 1` (a power of two). -/
def alignMask (x mask : Nat) : Nat := (x + mask) / (mask + 1) * (mask + 1)

theorem le_alignMask (x mask : Nat) : x ≤ alignMask x mask := by
  have := div_add_mod (x + mask) (mask + 1)
  have : (x + mask) % (mask + 1) < mask + 1 := mod_lt _ (succ_pos mask)
  unfold alignMask
  rw [mul_comm]
  omega

theorem dvd_alignMask (x mask : Nat) : (mask + 1) ∣ alignMask x mask :=
  dvd_mul_left _ _

/-- Rounding up gives the least multiple at or above `x`. -/
theorem alignMask_le_of_dvd {x y : Nat} (hxy : x ≤ y) (hd : (mask + 1) ∣ y) :
    alignMask x mask ≤ y := by
  obtain ⟨q, rfl⟩ := hd
  have hq : (x + mask) / (mask + 1) ≤ q := by
    refine Nat.lt_succ_iff.mp ((Nat.div_lt_iff_lt_mul (Nat.succ_pos mask)).mpr ?_)
    have : (mask + 1) * q = q * (mask + 1) := mul_comm _ _
    have : (q + 1) * (mask + 1) = q * (mask + 1) + (mask + 1) := succ_mul q (mask + 1)
    show x + mask < (q + 1) * (mask + 1)
    omega
  calc (x + mask) / (mask + 1) * (mask + 1) ≤ q * (mask + 1) := mul_le_mul_right _ hq
    _ = (mask + 1) * q := mul_comm _ _

/-- The `again:` loop of `bitmap_find_next_zero_area`. Each round moves `start`
strictly up, so `fuel` above `size - start` is never used up. -/
def findNextZeroAreaLoop (b : Bitmap) (size nr mask : Nat) : Nat → Nat → Nat
  | 0, _ => size + nr
  | fuel + 1, start =>
    let index := alignMask (findNextZeroBit b size start) mask
    if size < index + nr then index + nr
    else
      let i := findNextBit b (index + nr) index
      if i < index + nr then findNextZeroAreaLoop b size nr mask fuel (i + 1) else index

/-- `bitmap_find_next_zero_area`: a value above `size` says there is no area. -/
def findNextZeroArea (b : Bitmap) (size start nr mask : Nat) : Nat :=
  findNextZeroAreaLoop b size nr mask (size + 1) start

/-- `pos` begins an aligned clear area of `nr` bits inside the bitmap. -/
structure IsZeroArea (b : Bitmap) (size nr mask pos : Nat) : Prop where
  /-- the area ends inside the bitmap -/
  le_size : pos + nr ≤ size
  /-- the area is aligned -/
  dvd : (mask + 1) ∣ pos
  /-- all its bits are clear -/
  clear : ∀ i, pos ≤ i → i < pos + nr → b i = false

theorem findNextZeroAreaLoop_isZeroArea (hnr : 0 < nr)
    (h : findNextZeroAreaLoop b size nr mask fuel start ≤ size) :
    IsZeroArea b size nr mask (findNextZeroAreaLoop b size nr mask fuel start) := by
  induction fuel generalizing start with
  | zero => simp only [findNextZeroAreaLoop] at h; omega
  | succ fuel ih =>
    simp only [findNextZeroAreaLoop] at h ⊢
    split at h
    · omega
    rename_i hfit
    rw [if_neg hfit]
    split at h
    · rename_i hi
      rw [if_pos hi]
      exact ih h
    · rename_i hi
      rw [if_neg hi]
      refine ⟨by omega, dvd_alignMask _ _, fun i hs hlt => ?_⟩
      exact findNext_false_of_lt b hs (Nat.lt_of_lt_of_le hlt (Nat.le_of_not_lt hi))

/-- **The search is sound**: a result inside the bitmap begins a clear area. -/
theorem findNextZeroArea_isZeroArea (hnr : 0 < nr)
    (h : findNextZeroArea b size start nr mask ≤ size) :
    IsZeroArea b size nr mask (findNextZeroArea b size start nr mask) :=
  findNextZeroAreaLoop_isZeroArea hnr h

theorem findNextZeroAreaLoop_complete (hnr : 0 < nr) (ha : IsZeroArea b size nr mask pos)
    (hfuel : size < fuel + start)
    (hs : start ≤ pos) : findNextZeroAreaLoop b size nr mask fuel start ≤ pos := by
  induction fuel generalizing start with
  | zero => have := ha.le_size; omega
  | succ fuel ih =>
    have hle := ha.le_size
    -- the search never skips `pos`: the first clear bit is at or before it
    have hz : findNextZeroBit b size start ≤ pos := by
      by_contra hc
      have := findNext_false_of_lt (fun i => !b i) hs (Nat.lt_of_not_le hc)
      simp [ha.clear pos (le_refl _) (by omega)] at this
    have hidx : alignMask (findNextZeroBit b size start) mask ≤ pos :=
      alignMask_le_of_dvd hz ha.dvd
    simp only [findNextZeroAreaLoop]
    rw [if_neg (by omega)]
    split
    · -- a set bit inside the candidate lies before `pos`
      rename_i hi
      set index := alignMask (findNextZeroBit b size start) mask with hindex
      have hge : index ≤ findNextBit b (index + nr) index := le_findNext b (by omega)
      have hset : b (findNextBit b (index + nr) index) = true := findNext_hit b hi
      have hstart : start ≤ index :=
        le_trans (le_findNext _ (by omega)) (le_alignMask _ _)
      refine ih (by omega) ?_
      by_contra hc
      have := ha.clear (findNextBit b (index + nr) index) (by omega) (by omega)
      simp [this] at hset
    · exact hidx

/-- **The search is complete**: started at or below an area, it ends at or
before it. -/
theorem findNextZeroArea_complete (hnr : 0 < nr) (ha : IsZeroArea b size nr mask pos)
    (hs : start ≤ pos) :
    findNextZeroArea b size start nr mask ≤ pos :=
  findNextZeroAreaLoop_complete hnr ha (by omega) hs

end Bitmap
