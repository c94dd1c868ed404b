import Mathlib.Data.Set.Card
import Mathlib.Data.Prod.Lex

/-!
# Ordered maps with cursors

The leaves of a search tree, read from left to right, are a list of entries in the order of
a **comparison function** `cmp : κ → κ → Int` (negative, zero or positive, like `strcmp`).

* `seek` — a **cursor** at the greatest entry not above a key: that entry and the entries
  after it, so that `next` moves the cursor by one;
* `place`, `remove`, `modify` — insertion under a new key, removal and change of a value;
* `RankedBy cmp rank` — `cmp` decides the order of a **rank** in some linear order; every
  lemma is about ranks and none opens `cmp`.
-/

namespace OrderedMap

open List Option

variable {κ ν : Type*} {l l' : List (κ × ν)} {k : κ} {e : κ × ν} {v : ν}

/-- An entry and the entries after it. -/
abbrev Cursor (κ ν : Type*) := (κ × ν) × List (κ × ν)

/-- A cursor at the greatest entry whose key is not above `k`. -/
def seek (cmp : κ → κ → Int) (k : κ) : List (κ × ν) → Option (Cursor κ ν)
  | [] => none
  | e :: l => if 0 < cmp e.1 k then none else (seek cmp k l).or (some (e, l))

/-- The next entry; `none` at the end. -/
def next : Cursor κ ν → Option (Cursor κ ν)
  | (_, []) => none
  | (_, e :: l) => some (e, l)

/-- Insert a new entry; `none` when its key is taken. -/
def place (cmp : κ → κ → Int) (k : κ) (v : ν) : List (κ × ν) → Option (List (κ × ν))
  | [] => some [(k, v)]
  | e :: l =>
    if cmp e.1 k = 0 then none
    else if 0 < cmp e.1 k then some ((k, v) :: e :: l)
    else (place cmp k v l).map (e :: ·)

/-- Remove the entry of a key; `none` when there is none. -/
def remove (cmp : κ → κ → Int) (k : κ) : List (κ × ν) → Option (List (κ × ν))
  | [] => none
  | e :: l => if cmp k e.1 = 0 then some l else (remove cmp k l).map (e :: ·)

/-- Change the value stored under a key. -/
def modify (cmp : κ → κ → Int) (k : κ) (f : ν → ν) (l : List (κ × ν)) : List (κ × ν) :=
  l.map fun e => if cmp e.1 k = 0 then (e.1, f e.2) else e

variable {ι : Type*} [LinearOrder ι] {cmp : κ → κ → Int} {rank : κ → ι}

/-- The comparison function decides the order of the ranks. -/
structure RankedBy (cmp : κ → κ → Int) (rank : κ → ι) : Prop where
  neg_iff : ∀ a b, cmp a b < 0 ↔ rank a < rank b
  pos_iff : ∀ a b, 0 < cmp a b ↔ rank b < rank a

theorem RankedBy.eq_zero_iff (hr : RankedBy cmp rank) (a b : κ) :
    cmp a b = 0 ↔ rank a = rank b := by
  have hneg := hr.neg_iff a b
  have hpos := hr.pos_iff a b
  rcases lt_trichotomy (rank a) (rank b) with h | h | h
  · exact iff_of_false (hneg.mpr h).ne h.ne
  · have h1 := mt hneg.mp (h ▸ lt_irrefl _)
    have h2 := mt hpos.mp (h ▸ lt_irrefl _)
    exact iff_of_true (by omega) h
  · exact iff_of_false (hpos.mpr h).ne' h.ne'

theorem RankedBy.of_neg_of_zero (hneg : ∀ a b, cmp a b < 0 ↔ rank a < rank b)
    (hzero : ∀ a b, cmp a b = 0 ↔ rank a = rank b) : RankedBy cmp rank := by
  refine ⟨hneg, fun a b => ?_⟩
  rw [← not_iff_not, not_lt, not_lt, le_iff_lt_or_eq, le_iff_lt_or_eq, hneg, hzero]

/-- Compare with one function, and with another one where it finds no difference. -/
theorem RankedBy.andThen {ι' : Type*} [LinearOrder ι'] {cmp' : κ → κ → Int} {rank' : κ → ι'}
    (h : RankedBy cmp rank) (h' : RankedBy cmp' rank') :
    RankedBy (fun a b => if cmp a b ≠ 0 then cmp a b else cmp' a b)
      fun a => toLex (rank a, rank' a) := by
  refine .of_neg_of_zero (fun a b => ?_) fun a b => ?_
  · rw [Prod.Lex.toLex_lt_toLex, ← h.neg_iff, ← h.eq_zero_iff, ← h'.neg_iff]
    split <;> omega
  · rw [toLex_inj, Prod.mk.injEq, ← h.eq_zero_iff, ← h'.eq_zero_iff]
    split <;> omega

/-- Compare two numbers first. -/
theorem RankedBy.byNat (f : κ → ℕ) (h : RankedBy cmp rank) :
    RankedBy (fun a b => if f a < f b then -1 else if f b < f a then 1 else cmp a b)
      fun a => toLex (f a, rank a) := by
  refine .of_neg_of_zero (fun a b => ?_) fun a b => ?_
  · rw [Prod.Lex.toLex_lt_toLex, ← h.neg_iff]
    split <;> [skip; split] <;> omega
  · rw [toLex_inj, Prod.mk.injEq, ← h.eq_zero_iff]
    split <;> [skip; split] <;> omega

theorem RankedBy.nat (f : κ → ℕ) :
    RankedBy (fun a b => if f a < f b then -1 else if f b < f a then 1 else 0) f := by
  refine .of_neg_of_zero (fun a b => ?_) fun a b => ?_ <;> split <;>
    [skip; split; skip; split] <;> omega

/-- The entries stand in strictly rising order. -/
def Sorted (rank : κ → ι) (l : List (κ × ν)) : Prop :=
  l.Pairwise fun a b => rank a.1 < rank b.1

theorem Sorted.cons_iff :
    Sorted rank (e :: l) ↔ (∀ x ∈ l, rank e.1 < rank x.1) ∧ Sorted rank l :=
  pairwise_cons

theorem Sorted.append_iff {l1 l2 : List (κ × ν)} :
    Sorted rank (l1 ++ l2) ↔
      Sorted rank l1 ∧ Sorted rank l2 ∧ ∀ a ∈ l1, ∀ b ∈ l2, rank a.1 < rank b.1 :=
  pairwise_append

theorem Sorted.eq_of_rank (hl : Sorted rank l) {a b : κ × ν} (ha : a ∈ l) (hb : b ∈ l)
    (h : rank a.1 = rank b.1) : a = b := by
  induction l with
  | nil => cases ha
  | cons e l ih =>
    obtain ⟨he, hl'⟩ := Sorted.cons_iff.mp hl
    rcases mem_cons.mp ha with hae | hae <;> rcases mem_cons.mp hb with hbe | hbe
    · rw [hae, hbe]
    · exact absurd h (hae ▸ he b hbe).ne
    · exact absurd h (hbe ▸ he a hae).ne'
    · exact ih hl' hae hbe

/-- A sorted list is given by its entries. -/
theorem Sorted.ext (hl : Sorted rank l) (hl' : Sorted rank l')
    (h : ∀ x, x ∈ l ↔ x ∈ l') : l = l' := by
  have hirr : ∀ {m : List (κ × ν)}, Sorted rank m → m.Nodup := fun hm =>
    hm.imp fun hlt heq => hlt.ne (congrArg (fun e => rank e.1) heq)
  refine List.Perm.eq_of_pairwise (fun a b _ _ hab hba => absurd hab hba.asymm) hl hl' ?_
  exact (perm_ext_iff_of_nodup (hirr hl) (hirr hl')).mpr h

/-! ### Cursors -/

/-- The cursor of a key that stands between two entries, or at one. -/
theorem seek_at (hr : RankedBy cmp rank) {lo hi : List (κ × ν)} (hlo : ∀ x ∈ lo, rank x.1 ≤ rank k)
    (he : rank e.1 ≤ rank k)
    (hhi : ∀ x ∈ hi, rank k < rank x.1) : seek cmp k (lo ++ e :: hi) = some (e, hi) := by
  induction lo with
  | nil =>
    have hnone : seek cmp k hi = none := by
      cases hi with
      | nil => rfl
      | cons a hi =>
        rw [seek, if_pos ((hr.pos_iff _ _).mpr (hhi a mem_cons_self))]
    rw [nil_append, seek, if_neg (mt (hr.pos_iff _ _).mp he.not_gt), hnone, none_or]
  | cons a lo ih =>
    have ha : ¬ 0 < cmp a.1 k :=
      mt (hr.pos_iff _ _).mp (hlo a mem_cons_self).not_gt
    rw [cons_append, seek, if_neg ha, ih fun x hx => hlo x (mem_cons_of_mem _ hx),
      some_or]

theorem seek_eq_none (hr : RankedBy cmp rank)
    (h : ∀ x ∈ l, rank k < rank x.1) : seek cmp k l = none := by
  cases l with
  | nil => rfl
  | cons a l => rw [seek, if_pos ((hr.pos_iff _ _).mpr (h a mem_cons_self))]

/-- Every key stands below a sorted list or right behind one of its entries. -/
theorem Sorted.split (hl : Sorted rank l) (k : κ) :
    (∀ x ∈ l, rank k < rank x.1) ∨
      ∃ lo e hi, l = lo ++ e :: hi ∧ rank e.1 ≤ rank k ∧ ∀ x ∈ hi, rank k < rank x.1 := by
  induction l with
  | nil => exact .inl fun x hx => absurd hx not_mem_nil
  | cons a l ih =>
    obtain ⟨ha, hl'⟩ := Sorted.cons_iff.mp hl
    by_cases hak : rank a.1 ≤ rank k
    · right
      rcases ih hl' with habove | ⟨lo, e, hi, rfl, he, hhi⟩
      · exact ⟨[], a, l, rfl, hak, habove⟩
      · exact ⟨a :: lo, e, hi, rfl, he, hhi⟩
    · left
      intro x hx
      rcases mem_cons.mp hx with rfl | hx
      · exact not_le.mp hak
      · exact (not_le.mp hak).trans (ha x hx)

/-- What a cursor is, in a sorted list. -/
theorem Sorted.seek_spec (hr : RankedBy cmp rank) (hl : Sorted rank l) (k : κ) :
    (seek cmp k l = none ∧ ∀ x ∈ l, rank k < rank x.1) ∨
      ∃ lo e hi, l = lo ++ e :: hi ∧ seek cmp k l = some (e, hi) ∧ rank e.1 ≤ rank k ∧
        ∀ x ∈ hi, rank k < rank x.1 := by
  rcases hl.split k with habove | ⟨lo, e, hi, rfl, he, hhi⟩
  · exact .inl ⟨seek_eq_none hr habove, habove⟩
  · have hlo : ∀ x ∈ lo, rank x.1 ≤ rank k := fun x hx =>
      ((Sorted.append_iff.mp hl).2.2 x hx e mem_cons_self).le.trans he
    exact .inr ⟨lo, e, hi, rfl, seek_at hr hlo he hhi, he, hhi⟩

/-! ### Insertion -/

/-- An insertion is refused when the key is taken. -/
theorem Sorted.place_eq_none_iff (hr : RankedBy cmp rank) (hl : Sorted rank l) (k : κ) (v : ν) :
    place cmp k v l = none ↔ ∃ e ∈ l, rank e.1 = rank k := by
  induction l with
  | nil => simp [place]
  | cons a l ih =>
    obtain ⟨ha, hl'⟩ := Sorted.cons_iff.mp hl
    rw [place]
    split
    · rename_i h0
      simp [(hr.eq_zero_iff _ _).mp h0]
    rename_i h0
    have hne : rank a.1 ≠ rank k := mt (hr.eq_zero_iff _ _).mpr h0
    split
    · -- the key stands before the first entry
      rename_i hpos
      have hka : rank k < rank a.1 := (hr.pos_iff _ _).mp hpos
      simp only [reduceCtorEq, false_iff, not_exists, not_and]
      intro x hx
      rcases mem_cons.mp hx with rfl | hx
      · exact hne
      · exact (hka.trans (ha x hx)).ne'
    · rw [map_eq_none_iff, ih hl']
      simp [hne]

/-- The list after an insertion: the new entry and the old ones. -/
theorem mem_place (h : place cmp k v l = some l') (x : κ × ν) : x ∈ l' ↔ x = (k, v) ∨ x ∈ l := by
  induction l generalizing l' with
  | nil =>
    obtain rfl := some.inj h
    simp
  | cons a l ih =>
    rw [place] at h
    split at h
    · cases h
    split at h
    · obtain rfl := some.inj h
      simp
    · obtain ⟨t, ht, rfl⟩ := map_eq_some_iff.mp h
      rw [mem_cons, ih ht, mem_cons]
      tauto

theorem Sorted.place (hr : RankedBy cmp rank) (hl : Sorted rank l)
    (h : place cmp k v l = some l') : Sorted rank l' := by
  induction l generalizing l' with
  | nil =>
    obtain rfl := some.inj h
    exact pairwise_singleton _ _
  | cons a l ih =>
    obtain ⟨ha, hl'⟩ := Sorted.cons_iff.mp hl
    rw [OrderedMap.place] at h
    split at h
    · cases h
    rename_i h0
    split at h
    · rename_i hpos
      obtain rfl := some.inj h
      have hka : rank k < rank a.1 := (hr.pos_iff _ _).mp hpos
      refine Sorted.cons_iff.mpr ⟨fun x hx => ?_, hl⟩
      rcases mem_cons.mp hx with rfl | hx
      · exact hka
      · exact hka.trans (ha x hx)
    · rename_i hpos
      obtain ⟨t, ht, rfl⟩ := map_eq_some_iff.mp h
      have hak : rank a.1 < rank k := lt_of_le_of_ne
        (not_lt.mp (mt (hr.pos_iff _ _).mpr hpos)) (mt (hr.eq_zero_iff _ _).mpr h0)
      refine Sorted.cons_iff.mpr ⟨fun x hx => ?_, ih hl' ht⟩
      rcases (mem_place ht x).mp hx with rfl | hx
      · exact hak
      · exact ha x hx

/-! ### Removal -/

/-- A removal fails when the key is not there. -/
theorem remove_eq_none_iff (hr : RankedBy cmp rank) (l : List (κ × ν)) (k : κ) :
    remove cmp k l = none ↔ ∀ e ∈ l, rank e.1 ≠ rank k := by
  induction l with
  | nil => simp [remove]
  | cons a l ih =>
    rw [remove]
    split
    · rename_i h0
      simp [(hr.eq_zero_iff _ _).mp h0]
    · rename_i h0
      have hne : rank a.1 ≠ rank k := fun h => h0 ((hr.eq_zero_iff _ _).mpr h.symm)
      rw [map_eq_none_iff, ih]
      simp [hne]

/-- The list after a removal: the entries of other keys. -/
theorem Sorted.mem_remove (hr : RankedBy cmp rank) (hl : Sorted rank l)
    (h : remove cmp k l = some l') (x : κ × ν) :
    x ∈ l' ↔ x ∈ l ∧ rank x.1 ≠ rank k := by
  induction l generalizing l' with
  | nil => cases h
  | cons a l ih =>
    obtain ⟨ha, hl'⟩ := Sorted.cons_iff.mp hl
    rw [remove] at h
    split at h
    · rename_i h0
      obtain rfl := some.inj h
      have hk : rank k = rank a.1 := (hr.eq_zero_iff _ _).mp h0
      rw [mem_cons, hk]
      constructor
      · intro hx
        exact ⟨.inr hx, (ha x hx).ne'⟩
      · rintro ⟨rfl | hx, hne⟩
        · exact absurd rfl hne
        · exact hx
    · rename_i h0
      obtain ⟨t, ht, rfl⟩ := map_eq_some_iff.mp h
      have hne : rank a.1 ≠ rank k := fun h => h0 ((hr.eq_zero_iff _ _).mpr h.symm)
      rw [mem_cons, ih hl' ht, mem_cons]
      constructor
      · rintro (rfl | ⟨hx, hxk⟩)
        · exact ⟨.inl rfl, hne⟩
        · exact ⟨.inr hx, hxk⟩
      · rintro ⟨rfl | hx, hxk⟩
        · exact .inl rfl
        · exact .inr ⟨hx, hxk⟩

theorem remove_sublist (h : remove cmp k l = some l') :
    l'.Sublist l := by
  induction l generalizing l' with
  | nil => cases h
  | cons a l ih =>
    rw [remove] at h
    split at h
    · obtain rfl := some.inj h
      exact sublist_cons_self _ _
    · obtain ⟨t, ht, rfl⟩ := map_eq_some_iff.mp h
      exact (ih ht).cons_cons a

theorem length_remove (h : remove cmp k l = some l') :
    l'.length + 1 = l.length := by
  induction l generalizing l' with
  | nil => cases h
  | cons a l ih =>
    rw [OrderedMap.remove] at h
    split at h
    · obtain rfl := some.inj h
      rfl
    · obtain ⟨t, ht, rfl⟩ := map_eq_some_iff.mp h
      rw [length_cons, length_cons, ih ht]

theorem Sorted.remove (hl : Sorted rank l) (h : remove cmp k l = some l') : Sorted rank l' :=
  List.Pairwise.sublist (remove_sublist h) hl

/-! ### Change of a value -/

theorem mem_modify (hr : RankedBy cmp rank) {f : ν → ν} (x : κ × ν) :
    x ∈ modify cmp k f l ↔
      (x ∈ l ∧ rank x.1 ≠ rank k) ∨ ∃ e ∈ l, rank e.1 = rank k ∧ x = (e.1, f e.2) := by
  simp only [modify, List.mem_map]
  constructor
  · rintro ⟨e, he, rfl⟩
    split
    · rename_i h0
      exact .inr ⟨e, he, (hr.eq_zero_iff _ _).mp h0, rfl⟩
    · rename_i h0
      exact .inl ⟨he, mt (hr.eq_zero_iff _ _).mpr h0⟩
  · rintro (⟨hx, hne⟩ | ⟨e, he, hk, rfl⟩)
    · exact ⟨x, hx, if_neg (mt (hr.eq_zero_iff _ _).mp hne)⟩
    · exact ⟨e, he, if_pos ((hr.eq_zero_iff _ _).mpr hk)⟩

/-- Keys of one rank name the same entry. -/
theorem modify_congr (hr : RankedBy cmp rank) {k' : κ} (hk : rank k = rank k') (f : ν → ν)
    (l : List (κ × ν)) : modify cmp k f l = modify cmp k' f l := by
  refine map_congr_left fun e _ => ?_
  have hiff : cmp e.1 k = 0 ↔ cmp e.1 k' = 0 := by rw [hr.eq_zero_iff, hr.eq_zero_iff, hk]
  exact if_congr hiff rfl rfl

theorem Sorted.modify (hl : Sorted rank l) (k : κ) (f : ν → ν) :
    Sorted rank (modify cmp k f l) := by
  refine List.Pairwise.map _ (fun a b hab => ?_) hl
  have hfst : ∀ e : κ × ν, (if cmp e.1 k = 0 then (e.1, f e.2) else e).1 = e.1 := by
    intro e
    split <;> rfl
  rwa [hfst, hfst]

end OrderedMap
