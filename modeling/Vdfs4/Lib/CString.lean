import Mathlib.Data.Set.Card
import Mathlib.Data.List.Lex
import Mathlib.Data.Prod.Lex

/-!
# Names as C strings

A name is a **byte string without a zero byte**. Kernel code orders names by comparing their
common length byte by byte and then the lengths, either as they are (`memcmp`) or with the
letter case folded (`strncasecmp`).

* `CString` — the bytes, with the proof that none is zero;
* `firstDiff fold` — the difference of the first two bytes that differ after folding, which
  both library functions compute on names;
* `memcmp_eq_zero_iff` — equal strings;
* `compareLengths_lt_iff`, `compareLengths_eq_iff` — such a comparison decides the
  **lexicographic order** of the folded names.
-/

/-- A byte string without a zero byte. -/
@[ext] structure CString where
  bytes : List UInt8
  nulFree : 0 ∉ bytes
deriving DecidableEq

namespace CString

open List

/-- `strlen`. -/
def length (s : CString) : Nat := s.bytes.length

/-- The empty string. -/
def empty : CString := ⟨[], List.not_mem_nil⟩

/-- The characters the kernel's table marks as upper case: the letters, and those of the
upper half of Latin-1. -/
def isUpper (c : UInt8) : Bool :=
  (65 ≤ c && c ≤ 90) || (192 ≤ c && c ≤ 222 && c != 215)

/-- `tolower` of the kernel. -/
def toLower (c : UInt8) : UInt8 := if isUpper c then c + 32 else c

/-- The difference of the first bytes that differ after folding, among the first `n`. -/
def firstDiff (fold : UInt8 → UInt8) : List UInt8 → List UInt8 → Nat → Int
  | a :: as, b :: bs, n + 1 =>
    if fold a = fold b then firstDiff fold as bs n else (fold a).toNat - (fold b).toNat
  | _, _, _ => 0

/-- `memcmp`. -/
def memcmp (a b : List UInt8) (n : Nat) : Int := firstDiff id a b n

/-- `strncasecmp` of the kernel: it stops at a zero byte and folds only bytes that differ. -/
def strncasecmp : List UInt8 → List UInt8 → Nat → Int
  | a :: as, b :: bs, n + 1 =>
    if a = 0 ∨ b = 0 then a.toNat - b.toNat
    else if a = b then strncasecmp as bs n
    else if toLower a ≠ toLower b then (toLower a).toNat - (toLower b).toNat
    else strncasecmp as bs n
  | _, _, _ => 0

/-- On strings without a zero byte `strncasecmp` is the comparison of the folded bytes. -/
theorem strncasecmp_eq_firstDiff {a b : List UInt8} (ha : 0 ∉ a) (hb : 0 ∉ b) (n : Nat) :
    strncasecmp a b n = firstDiff toLower a b n := by
  induction a generalizing b n with
  | nil => simp [strncasecmp, firstDiff]
  | cons x a ih =>
    cases b with
    | nil => simp [strncasecmp, firstDiff]
    | cons y b =>
      cases n with
      | zero => simp [strncasecmp, firstDiff]
      | succ n =>
        have hx : ¬ (x = 0 ∨ y = 0) := by
          rintro (rfl | rfl)
          · exact ha mem_cons_self
          · exact hb mem_cons_self
        have hrest : strncasecmp a b n = firstDiff toLower a b n :=
          ih (fun h => ha (mem_cons_of_mem _ h)) (fun h => hb (mem_cons_of_mem _ h)) n
        rw [strncasecmp, firstDiff, if_neg hx, hrest]
        by_cases hxy : x = y
        · rw [if_pos hxy, if_pos (congrArg toLower hxy)]
        · rw [if_neg hxy]
          by_cases hl : toLower x = toLower y
          · rw [if_neg (not_not.mpr hl), if_pos hl]
          · rw [if_pos hl, if_neg hl]

/-- The folded bytes as numbers; names are ordered by them. -/
def codes (fold : UInt8 → UInt8) (l : List UInt8) : List Nat := l.map fun c => (fold c).toNat

@[simp] theorem codes_nil (fold : UInt8 → UInt8) : codes fold [] = [] := rfl

@[simp] theorem codes_cons (fold : UInt8 → UInt8) (a : UInt8) (l : List UInt8) :
    codes fold (a :: l) = (fold a).toNat :: codes fold l := rfl

theorem codes_id_injective {a b : List UInt8} (h : codes id a = codes id b) : a = b :=
  map_injective_iff.mpr (fun _ _ hxy => UInt8.toNat_inj.mp hxy) h

/-- Compare the common length with `cmpN`, then the lengths. -/
def compareLengths (cmpN : List UInt8 → List UInt8 → Nat → Int) (a b : List UInt8) : Int :=
  let ret := cmpN a b (min a.length b.length)
  if ret ≠ 0 then ret else (a.length : Int) - b.length

theorem compareLengths_cons (fold : UInt8 → UInt8) (x y : UInt8) (a b : List UInt8) :
    compareLengths (firstDiff fold) (x :: a) (y :: b) =
      if fold x = fold y then compareLengths (firstDiff fold) a b
      else (fold x).toNat - (fold y).toNat := by
  have hmin : min (x :: a).length (y :: b).length = min a.length b.length + 1 := by
    simp only [length_cons]
    omega
  have hlen : ((x :: a).length : Int) - (y :: b).length = (a.length : Int) - b.length := by
    simp only [length_cons]
    omega
  rw [compareLengths, compareLengths, hmin, hlen, firstDiff]
  by_cases hxy : fold x = fold y
  · simp only [if_pos hxy]
  · have hne : ((fold x).toNat : Int) - (fold y).toNat ≠ 0 := by
      intro h
      exact hxy (UInt8.toNat_inj.mp (by omega))
    rw [if_neg hxy, if_pos hne, if_neg hxy]

/-- **A negative result is the lexicographic order** of the folded names. -/
theorem compareLengths_lt_iff (fold : UInt8 → UInt8) (a b : List UInt8) :
    compareLengths (firstDiff fold) a b < 0 ↔ codes fold a < codes fold b := by
  induction a generalizing b with
  | nil =>
    cases b with
    | nil => simp [compareLengths, firstDiff]
    | cons y b =>
      refine iff_of_true ?_ (nil_lt_cons _ _)
      simp only [compareLengths, firstDiff, ne_eq, not_true_eq_false, if_false, length_nil,
        length_cons]
      omega
  | cons x a ih =>
    cases b with
    | nil =>
      refine iff_of_false ?_ (not_lt_nil _)
      simp only [compareLengths, firstDiff, ne_eq, not_true_eq_false, if_false, length_nil,
        length_cons]
      omega
    | cons y b =>
      rw [compareLengths_cons, codes_cons, codes_cons, cons_lt_cons_iff]
      by_cases hxy : fold x = fold y
      · rw [if_pos hxy, hxy, ih]
        simp
      · have hne : (fold x).toNat ≠ (fold y).toNat := fun h => hxy (UInt8.toNat_inj.mp h)
        rw [if_neg hxy]
        omega

theorem compareLengths_eq_iff (fold : UInt8 → UInt8) (a b : List UInt8) :
    compareLengths (firstDiff fold) a b = 0 ↔ codes fold a = codes fold b := by
  induction a generalizing b with
  | nil =>
    cases b with
    | nil => simp [compareLengths, firstDiff]
    | cons y b => simp [compareLengths, firstDiff]; omega
  | cons x a ih =>
    cases b with
    | nil => simp [compareLengths, firstDiff]; omega
    | cons y b =>
      rw [compareLengths_cons, codes_cons, codes_cons, cons_eq_cons]
      by_cases hxy : fold x = fold y
      · rw [if_pos hxy, hxy, ih]
        simp
      · have hne : (fold x).toNat ≠ (fold y).toNat := fun h => hxy (UInt8.toNat_inj.mp h)
        rw [if_neg hxy]
        omega

/-- `memcmp` over the length of both strings. -/
theorem memcmp_eq_zero_iff {a b : List UInt8} (hlen : a.length = b.length) :
    memcmp a b a.length = 0 ↔ a = b := by
  have hcmp := compareLengths_eq_iff id a b
  rw [compareLengths, hlen, min_self, ← hlen, Int.sub_self] at hcmp
  rw [memcmp]
  constructor
  · intro hzero
    exact codes_id_injective (hcmp.mp (by simp [hzero]))
  · rintro rfl
    by_contra hne
    have hzero := hcmp.mpr rfl
    rw [if_pos hne] at hzero
    exact hne hzero

end CString
