import Mathlib.Data.Set.Card
import Mathlib.Order.Interval.Finset.Nat

/-!
# Lists of extents as finite maps

An **extent** maps a run of logical blocks to a run of physical blocks. A list of
extents that is ordered and free of overlaps is a finite map from logical to physical
blocks:

* `lookup` — the physical block of a logical block.
* `Ordered` — nonempty extents, each behind the one before.
* `Ordered.lookup_eq_some_iff` — lookups by **membership**: everything about a changed
  list then follows from which extents it has.
* `Ordered.ncard_mapped` — the number of mapped blocks is the sum of the lengths.
-/

/-- A run of `blockCount` logical blocks from `iblock` on, placed from the physical block
`firstBlock` on. -/
@[ext]
structure Extent where
  firstBlock : Nat
  iblock : Nat
  blockCount : Nat
deriving DecidableEq, Repr, Inhabited

namespace Extent

/-- Logical block `x` lies in the extent. -/
def Covers (e : Extent) (x : Nat) : Prop := e.iblock ≤ x ∧ x < e.iblock + e.blockCount

instance (e : Extent) (x : Nat) : Decidable (e.Covers x) :=
  inferInstanceAs (Decidable (_ ∧ _))

/-- The physical block of logical block `x`. -/
def phys (e : Extent) (x : Nat) : Nat := e.firstBlock + (x - e.iblock)

/-- The logical block behind the extent. -/
def stop (e : Extent) : Nat := e.iblock + e.blockCount

end Extent

namespace ExtentMap

open Extent

variable {l l' l₁ l₂ : List Extent} {a e e' : Extent} {x p : Nat}

/-- The physical block the first covering extent gives. -/
def lookup (l : List Extent) (x : Nat) : Option Nat :=
  (l.find? fun e => decide (e.Covers x)).map fun e => e.phys x

/-- The blocks of all extents together. -/
def total (l : List Extent) : Nat := (l.map Extent.blockCount).sum

@[simp] theorem total_nil : total [] = 0 := rfl

@[simp] theorem total_cons : total (e :: l) = e.blockCount + total l := rfl

@[simp] theorem total_append : total (l₁ ++ l₂) = total l₁ + total l₂ := by
  simp [total]

/-- Nonempty extents, each behind the one before. -/
structure Ordered (l : List Extent) : Prop where
  /-- no extent is empty -/
  pos : ∀ e ∈ l, 0 < e.blockCount
  /-- each extent starts at or behind the end of the ones before -/
  sorted : l.Pairwise fun a b => a.stop ≤ b.iblock

theorem Ordered.nil : Ordered [] := ⟨fun _ h => absurd h List.not_mem_nil, List.Pairwise.nil⟩

theorem Ordered.append_iff :
    Ordered (l₁ ++ l₂) ↔ Ordered l₁ ∧ Ordered l₂ ∧ ∀ a ∈ l₁, ∀ b ∈ l₂, a.stop ≤ b.iblock := by
  constructor
  · rintro ⟨hpos, hsorted⟩
    obtain ⟨h1, h2, h12⟩ := List.pairwise_append.mp hsorted
    exact ⟨⟨fun e he => hpos e (List.mem_append_left _ he), h1⟩,
      ⟨fun e he => hpos e (List.mem_append_right _ he), h2⟩, h12⟩
  · rintro ⟨h1, h2, h12⟩
    refine ⟨fun e he => ?_, List.pairwise_append.mpr ⟨h1.sorted, h2.sorted, h12⟩⟩
    rcases List.mem_append.mp he with he | he
    · exact h1.pos e he
    · exact h2.pos e he

theorem Ordered.cons_iff :
    Ordered (e :: l) ↔ 0 < e.blockCount ∧ (∀ b ∈ l, e.stop ≤ b.iblock) ∧ Ordered l := by
  constructor
  · rintro ⟨hpos, hsorted⟩
    obtain ⟨h1, h2⟩ := List.pairwise_cons.mp hsorted
    exact ⟨hpos e List.mem_cons_self, h1, fun b hb => hpos b (List.mem_cons_of_mem _ hb), h2⟩
  · rintro ⟨h1, h2, h3⟩
    refine ⟨fun b hb => ?_, List.pairwise_cons.mpr ⟨h2, h3.sorted⟩⟩
    rcases List.mem_cons.mp hb with rfl | hb
    · exact h1
    · exact h3.pos b hb

theorem Ordered.of_sublist (h : Ordered l) (hs : l'.Sublist l) : Ordered l' :=
  ⟨fun e he => h.pos e (hs.subset he), h.sorted.sublist hs⟩

/-- **No overlap**: one extent covers a block. -/
theorem Ordered.eq_of_covers (h : Ordered l) (he : e ∈ l) (he' : e' ∈ l)
    (hx : e.Covers x) (hx' : e'.Covers x) : e = e' := by
  induction l with
  | nil => cases he
  | cons a l ih =>
    obtain ⟨-, hbehind, hl⟩ := Ordered.cons_iff.mp h
    unfold Extent.Covers at hx hx'
    rcases List.mem_cons.mp he with heq | hel <;> rcases List.mem_cons.mp he' with heq' | hel'
    · rw [heq, heq']
    · have := hbehind e' hel'
      rw [← heq, Extent.stop] at this
      omega
    · have := hbehind e hel
      rw [← heq', Extent.stop] at this
      omega
    · exact ih hl hel hel'

/-- **Lookups by membership.** -/
theorem Ordered.lookup_eq_some_iff (h : Ordered l) :
    lookup l x = some p ↔ ∃ e ∈ l, e.Covers x ∧ e.phys x = p := by
  unfold lookup
  rw [Option.map_eq_some_iff]
  constructor
  · rintro ⟨e, he, hp⟩
    exact ⟨e, List.mem_of_find?_eq_some he, by simpa using List.find?_some he, hp⟩
  rintro ⟨e, he, hx, hp⟩
  obtain ⟨e', he'⟩ : ∃ e', (l.find? fun e => decide (e.Covers x)) = some e' := by
    rw [← Option.isSome_iff_exists, List.find?_isSome]
    exact ⟨e, he, by simpa using hx⟩
  have hmem := List.mem_of_find?_eq_some he'
  have hcov : e'.Covers x := by simpa using List.find?_some he'
  obtain rfl := h.eq_of_covers he hmem hx hcov
  exact ⟨e, he', hp⟩

theorem lookup_eq_none_iff : lookup l x = none ↔ ∀ e ∈ l, ¬ e.Covers x := by
  unfold lookup
  simp [List.find?_eq_none]

theorem Ordered.lookup_of_mem (h : Ordered l) (he : e ∈ l) (hx : e.Covers x) :
    lookup l x = some (e.phys x) :=
  h.lookup_eq_some_iff.mpr ⟨e, he, hx, rfl⟩

/-- Two ordered lists whose extents cover the same blocks with the same places are the
same map. -/
theorem Ordered.lookup_congr (h : Ordered l) (h' : Ordered l')
    (hiff : ∀ p, (∃ e ∈ l, e.Covers x ∧ e.phys x = p) ↔ ∃ e ∈ l', e.Covers x ∧ e.phys x = p) :
    lookup l x = lookup l' x := by
  refine Option.ext fun p => ?_
  rw [h.lookup_eq_some_iff, h'.lookup_eq_some_iff]
  exact hiff p

theorem Ordered.lookup_insert (h' : Ordered l') (h : Ordered l)
    (hmem : ∀ b, b ∈ l' ↔ b = e ∨ b ∈ l) :
    lookup l' x = if e.Covers x then some (e.phys x) else lookup l x := by
  split
  · rename_i hx
    exact h'.lookup_of_mem ((hmem e).mpr (.inl rfl)) hx
  rename_i hx
  refine h'.lookup_congr h fun p => ⟨?_, ?_⟩
  · rintro ⟨b, hb, hbx, hp⟩
    rcases (hmem b).mp hb with rfl | hb
    · exact absurd hbx hx
    · exact ⟨b, hb, hbx, hp⟩
  · rintro ⟨b, hb, hbx, hp⟩
    exact ⟨b, (hmem b).mpr (.inr hb), hbx, hp⟩

/-- An unmapped range lies behind every extent that starts at or before it. -/
theorem Ordered.stop_le_of_fresh (hfresh : ∀ x, e.Covers x → lookup l x = none)
    (he : 0 < e.blockCount) (ha : a ∈ l) (hle : a.iblock ≤ e.iblock) : a.stop ≤ e.iblock := by
  by_contra hlt
  have hnone := hfresh e.iblock ⟨le_rfl, by omega⟩
  exact lookup_eq_none_iff.mp hnone a ha ⟨hle, Nat.lt_of_not_le hlt⟩

/-- An unmapped range lies before every extent that starts behind its start. -/
theorem Ordered.stop_le_iblock_of_fresh (h : Ordered l)
    (hfresh : ∀ x, e.Covers x → lookup l x = none) (ha : a ∈ l) (hlt : e.iblock < a.iblock) :
    e.stop ≤ a.iblock := by
  by_contra hover
  have hpos := h.pos a ha
  have hnone := hfresh a.iblock ⟨Nat.le_of_lt hlt, Nat.lt_of_not_le hover⟩
  exact lookup_eq_none_iff.mp hnone a ha ⟨le_rfl, by omega⟩

/-- A range between the two parts of an ordered list. -/
theorem Ordered.insert (h : Ordered (l₁ ++ l₂)) (he : 0 < e.blockCount)
    (h1 : ∀ a ∈ l₁, a.stop ≤ e.iblock) (h2 : ∀ b ∈ l₂, e.stop ≤ b.iblock) :
    Ordered (l₁ ++ e :: l₂) := by
  obtain ⟨ho1, ho2, ho12⟩ := Ordered.append_iff.mp h
  refine Ordered.append_iff.mpr ⟨ho1, Ordered.cons_iff.mpr ⟨he, h2, ho2⟩, fun a ha b hb => ?_⟩
  rcases List.mem_cons.mp hb with rfl | hb
  · exact h1 a ha
  · exact ho12 a ha b hb

/-- Joining an extent with the one that continues it keeps the order. -/
theorem Ordered.join (h : Ordered (l₁ ++ a :: e :: l₂)) (hlog : a.stop = e.iblock) :
    Ordered (l₁ ++ { a with blockCount := a.blockCount + e.blockCount } :: l₂) := by
  obtain ⟨h1, hae, hbefore⟩ := Ordered.append_iff.mp h
  obtain ⟨hapos, -, he⟩ := Ordered.cons_iff.mp hae
  obtain ⟨-, hbehind, h2⟩ := Ordered.cons_iff.mp he
  refine Ordered.append_iff.mpr ⟨h1, Ordered.cons_iff.mpr ⟨by simp only; omega, ?_, h2⟩, ?_⟩
  · intro b hb
    have hle := hbehind b hb
    unfold Extent.stop at hlog hle ⊢
    simp only
    omega
  · intro b hb c hc
    rcases List.mem_cons.mp hc with rfl | hc
    · exact hbefore b hb a List.mem_cons_self
    · exact hbefore b hb c (by simp [hc])

/-- Joining two extents that continue each other keeps the map. -/
theorem Ordered.lookup_join (h : Ordered (l₁ ++ a :: e :: l₂)) (hlog : a.stop = e.iblock)
    (hphys : a.firstBlock + a.blockCount = e.firstBlock) :
    lookup (l₁ ++ { a with blockCount := a.blockCount + e.blockCount } :: l₂) x =
      lookup (l₁ ++ a :: e :: l₂) x := by
  refine (h.join hlog).lookup_congr h fun p => ?_
  unfold Extent.stop at hlog
  simp only [List.mem_append, List.mem_cons, or_and_right, exists_or, exists_eq_left]
  refine or_congr_right ?_
  rw [← or_assoc]
  refine or_congr_left ?_
  simp only [Extent.Covers, Extent.phys]
  constructor
  · rintro ⟨hx, hp⟩
    rcases Nat.lt_or_ge x e.iblock with hxe | hxe <;> omega
  · rintro (⟨hx, hp⟩ | ⟨hx, hp⟩) <;> omega

/-- The front of an ordered list is the map without the blocks of the rest. -/
theorem Ordered.lookup_front (h : Ordered (l₁ ++ l₂)) :
    lookup l₁ x = if ∃ e ∈ l₂, e.Covers x then none else lookup (l₁ ++ l₂) x := by
  have h1 := (Ordered.append_iff.mp h).1
  split
  · rename_i hx
    obtain ⟨e, he, hex⟩ := hx
    rw [lookup_eq_none_iff]
    intro b hb hbx
    have hle := (Ordered.append_iff.mp h).2.2 b hb e he
    unfold Extent.Covers at hex hbx
    unfold Extent.stop at hle
    omega
  · rename_i hx
    refine h1.lookup_congr h fun p => ⟨?_, ?_⟩
    · rintro ⟨b, hb, hbx, hp⟩
      exact ⟨b, List.mem_append_left _ hb, hbx, hp⟩
    · rintro ⟨b, hb, hbx, hp⟩
      rcases List.mem_append.mp hb with hb | hb
      · exact ⟨b, hb, hbx, hp⟩
      · exact absurd ⟨b, hb, hbx⟩ hx

/-! ### Counting -/

/-- The blocks an ordered list maps are as many as its extents have. -/
theorem Ordered.ncard_mapped (h : Ordered l) :
    {x | (lookup l x).isSome = true}.Finite ∧
      {x | (lookup l x).isSome = true}.ncard = total l := by
  induction l with
  | nil =>
    have hempty : {x | (lookup [] x).isSome = true} = ∅ := by
      ext x
      simp [lookup]
    rw [hempty]
    exact ⟨Set.finite_empty, Set.ncard_empty _⟩
  | cons e l ih =>
    obtain ⟨-, hbehind, hl⟩ := Ordered.cons_iff.mp h
    obtain ⟨hfin, hcard⟩ := ih hl
    have hsplit : {x | (lookup (e :: l) x).isSome = true} =
        Set.Ico e.iblock (e.iblock + e.blockCount) ∪ {x | (lookup l x).isSome = true} := by
      ext x
      simp only [Set.mem_ofPred_eq, Set.mem_union, Set.mem_Ico]
      rw [h.lookup_insert hl fun b => List.mem_cons]
      by_cases hx : e.Covers x
      · simp only [hx, if_true, Option.isSome_some, true_iff]
        exact .inl hx
      · rw [if_neg hx]
        exact ⟨.inr, fun hor => hor.resolve_left hx⟩
    have hdisj : Disjoint (Set.Ico e.iblock (e.iblock + e.blockCount))
        {x | (lookup l x).isSome = true} := by
      rw [Set.disjoint_left]
      intro x hx hsome
      obtain ⟨p, hp⟩ := Option.isSome_iff_exists.mp hsome
      obtain ⟨b, hb, hbx, -⟩ := hl.lookup_eq_some_iff.mp hp
      have hle := hbehind b hb
      unfold Extent.Covers at hbx
      unfold Extent.stop at hle
      simp only [Set.mem_Ico] at hx
      omega
    have hIco : (Set.Ico e.iblock (e.iblock + e.blockCount)).ncard = e.blockCount := by
      rw [← Finset.coe_Ico, Set.ncard_coe_finset, Nat.card_Ico]
      omega
    rw [hsplit]
    refine ⟨(Set.finite_Ico _ _).union hfin, ?_⟩
    rw [Set.ncard_union_eq hdisj (Set.finite_Ico _ _) hfin, hIco, hcard, total_cons]

end ExtentMap
