import Mathlib.Data.Set.Card

/-!
# Records appended to a file

Records are appended one after another, each behind a **gap** that depends on the length of the
file so far. The place of a record is the length of the file before it, plus its gap.

* `snoc_split` — induction over a list that grows at its end.
* `Rule` — the gaps, the records and what fills a gap; `Rule.appendAll` — the file.
* `Rule.start` — the place of a record, from the records before it.
* `Rule.slice_start` — the record **is found at its place**.
* `Rule.start_after` — a record lies behind every earlier one.
-/

namespace Appending

open List

variable {α β : Type*} {l before : List α}

/-- The ways to split a list with one more element: at this element, or in front of it. -/
theorem snoc_split {done after : List α} {x y : α} (h : done ++ [x] = before ++ y :: after) :
    (after = [] ∧ before = done ∧ y = x) ∨
      ∃ after', after = after' ++ [x] ∧ done = before ++ y :: after' := by
  obtain rfl | ⟨after', z, rfl⟩ := eq_nil_or_concat after
  · obtain ⟨hdone, hx⟩ := append_inj' h rfl
    exact .inl ⟨rfl, hdone.symm, (singleton_inj.mp hx).symm⟩
  · rw [concat_eq_append, ← cons_append, ← append_assoc] at h
    obtain ⟨hdone, hx⟩ := append_inj' h rfl
    rw [singleton_inj.mp hx]
    exact .inr ⟨after', concat_eq_append, hdone⟩

/-- A list without duplicates is split at an element in one way. -/
theorem before_unique {before' after after' : List α} {x : α} (hnodup : l.Nodup)
    (h : l = before ++ x :: after) (h' : l = before' ++ x :: after') : before = before' := by
  rw [h'] at hnodup
  rw [nodup_middle, nodup_cons, mem_append, not_or] at hnodup
  exact ((append_cons_inj_of_notMem hnodup.1.1 hnodup.1.2).mp (h'.symm.trans h)).1.symm

/-- How records are appended to a file. -/
structure Rule (α β : Type*) where
  /-- the gap in front of a record, by the length of the file -/
  gap : Nat → α → Nat
  record : α → List β
  /-- what a gap is filled with -/
  fill : β

namespace Rule

variable (r : Rule α β)

/-- One record is appended. -/
def append (file : List β) (x : α) : List β :=
  file ++ (List.replicate (r.gap file.length x) r.fill ++ r.record x)

/-- The records are appended in their order. -/
def appendAll (file : List β) (l : List α) : List β := l.foldl r.append file

/-- The place of a record behind the records `before`. -/
def start (before : List α) (x : α) : Nat :=
  (r.appendAll [] before).length + r.gap (r.appendAll [] before).length x

section

variable (file : List β)

include file

@[simp] theorem appendAll_nil : r.appendAll file [] = file := rfl

theorem appendAll_append (l l' : List α) :
    r.appendAll file (l ++ l') = r.appendAll (r.appendAll file l) l' :=
  foldl_append

theorem appendAll_snoc (l : List α) (x : α) :
    r.appendAll file (l ++ [x]) = r.append (r.appendAll file l) x :=
  r.appendAll_append file l [x]

theorem length_append (x : α) :
    (r.append file x).length = file.length + r.gap file.length x + (r.record x).length := by
  simp [append, Nat.add_assoc]

/-- Appending leaves the file in front. -/
theorem exists_appendAll_eq (l : List α) :
    ∃ rest, r.appendAll file l = file ++ rest := by
  induction l generalizing file with
  | nil => exact ⟨[], (append_nil file).symm⟩
  | cons x l ih =>
    obtain ⟨rest, hrest⟩ := ih (r.append file x)
    refine ⟨replicate (r.gap file.length x) r.fill ++ r.record x ++ rest, ?_⟩
    rw [appendAll, foldl_cons, ← appendAll, hrest, append, append_assoc]

/-- The length of records without gaps. -/
theorem length_appendAll_of_gap_eq_zero (h : ∀ x ∈ l, ∀ off, r.gap off x = 0) :
    (r.appendAll file l).length = file.length + (l.map fun x => (r.record x).length).sum := by
  induction l generalizing file with
  | nil => rfl
  | cons x l ih =>
    have hx := h x mem_cons_self file.length
    have hrest := ih (r.append file x) fun y hy => h y (mem_cons_of_mem _ hy)
    rw [length_append, hx] at hrest
    rw [map_cons, sum_cons, appendAll, foldl_cons, ← appendAll, hrest]
    omega

end

/-- The end of a record is the length of the file up to it. -/
theorem length_appendAll_snoc (r : Rule α β) (before : List α) (x : α) :
    (r.appendAll [] (before ++ [x])).length = r.start before x + (r.record x).length := by
  rw [appendAll_snoc, length_append, start]

/-- The file in front of a record, the record and the rest. -/
theorem appendAll_split (r : Rule α β) (before after : List α) (x : α) :
    ∃ front rest, r.appendAll [] (before ++ x :: after) = front ++ (r.record x ++ rest) ∧
      front.length = r.start before x := by
  obtain ⟨rest, hrest⟩ := r.exists_appendAll_eq (r.appendAll [] (before ++ [x])) after
  refine ⟨r.appendAll [] before ++
    replicate (r.gap (r.appendAll [] before).length x) r.fill, rest, ?_, ?_⟩
  · rw [append_cons, appendAll_append, hrest, appendAll_snoc, append]
    simp only [append_assoc]
  · simp [start]

/-- **A record is found at its place.** -/
theorem slice_start (r : Rule α β) (before after : List α) (x : α) :
    ((r.appendAll [] (before ++ x :: after)).drop (r.start before x)).take (r.record x).length =
      r.record x := by
  obtain ⟨front, rest, hfile, hfront⟩ := r.appendAll_split before after x
  rw [hfile, ← hfront, drop_left, take_left]

/-- A record ends in the file. -/
theorem start_add_le (r : Rule α β) (before after : List α) (x : α) :
    r.start before x + (r.record x).length ≤ (r.appendAll [] (before ++ x :: after)).length := by
  obtain ⟨front, rest, hfile, hfront⟩ := r.appendAll_split before after x
  rw [hfile, ← hfront]
  simp only [List.length_append]
  omega

/-- A record lies **behind every earlier one**. -/
theorem start_after (r : Rule α β) (before mid : List α) (x y : α) :
    r.start before x + (r.record x).length ≤ r.start (before ++ x :: mid) y :=
  Nat.le_trans (r.start_add_le before mid x) (Nat.le_add_right _ _)

end Rule

end Appending
