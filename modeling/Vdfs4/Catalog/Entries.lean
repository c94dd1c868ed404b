import Vdfs4.Catalog.Volume

/-!
# The entries of a catalog

What the users of a volume see of its catalog is the **set of entries**: directory, name and
inode of every live record. Sizes of directories and link counts of inodes are **counts over this
set**.

* `entries`, `sizeOf`, `linksOf` — the set and the two counts;
* `EntryPlaced`, `EntryRemoved` — what a call of `vdfs4_cattree_place_record` or
  `vdfs4_cattree_remove` that succeeds does to the records, with the back link where the type has
  one;
* `place_cases`, `remove_cases` — and what one that fails leaves: nothing new, and at most a
  **missing back link**;
* `entries_of_placed`, `entries_of_removed` — the effect on the set.
-/

namespace Vdfs4

open OrderedMap Finset

/-! ### The set of entries -/

/-- A live record of a directory; a body stands under its own number and is none. -/
def IsEntry (x : CattreeKey × CatalogRecord) : Prop :=
  x.2.Live ∧ x.1.objectId ≠ x.1.parentId

instance (x : CattreeKey × CatalogRecord) : Decidable (IsEntry x) :=
  inferInstanceAs (Decidable (_ ∧ _))

/-- The entries, as the comparison function tells them apart. -/
def entries (comp : Comparison) (c : Catalog) : Finset Comparison.Rank :=
  ((c.filter fun x => decide (IsEntry x)).map fun x => comp.rank x.1).toFinset

/-- The number of entries of a directory. -/
def sizeOf (E : Finset Comparison.Rank) (dir : Nat) : Nat :=
  (E.filter fun r => (ofLex r).1 = dir).card

/-- The number of entries of an inode. -/
def linksOf (E : Finset Comparison.Rank) (ino : Nat) : Nat :=
  (E.filter fun r => (ofLex (ofLex r).2).2 = ino).card

variable {comp : Comparison} {c c' : Catalog} {k : CattreeKey} {r : CatalogRecord}
  {x : CattreeKey × CatalogRecord} {g : CatalogRecord → CatalogRecord}

@[simp] theorem rank_parent (k : CattreeKey) : (ofLex (comp.rank k)).1 = k.parentId := rfl

@[simp] theorem rank_object (k : CattreeKey) : (ofLex (ofLex (comp.rank k)).2).2 = k.objectId := rfl

theorem mem_entries {ρ : Comparison.Rank} :
    ρ ∈ entries comp c ↔ ∃ x ∈ c, IsEntry x ∧ comp.rank x.1 = ρ := by
  simp [entries, and_assoc]

theorem mem_entries_of_mem (hx : x ∈ c) (he : IsEntry x) : comp.rank x.1 ∈ entries comp c :=
  mem_entries.mpr ⟨x, hx, he, rfl⟩

/-- The entries depend on the live records only. -/
theorem entries_congr (h : ∀ x, IsEntry x → (x ∈ c' ↔ x ∈ c)) :
    entries comp c' = entries comp c := by
  ext ρ
  rw [mem_entries, mem_entries]
  constructor
  · rintro ⟨x, hx, he, hrank⟩
    exact ⟨x, (h x he).mp hx, he, hrank⟩
  · rintro ⟨x, hx, he, hrank⟩
    exact ⟨x, (h x he).mpr hx, he, hrank⟩

theorem not_isEntry_of_ilink (h : x.2.recordType = .ilink) : ¬ IsEntry x := fun he => he.1.1 h

theorem isEntry_of_hlink (h : x.2.recordType = .hlink) (hne : x.1.objectId ≠ x.1.parentId) :
    IsEntry x :=
  ⟨⟨by simp [h], by rw [CatalogRecord.isOrphan, h]⟩, hne⟩

/-! ### Counts -/

variable {E : Finset Comparison.Rank} {ρ : Comparison.Rank}

theorem sizeOf_insert (h : ρ ∉ E) (dir : Nat) :
    sizeOf (insert ρ E) dir = sizeOf E dir + if (ofLex ρ).1 = dir then 1 else 0 := by
  rw [sizeOf, filter_insert]
  split
  · rw [card_insert_of_notMem (by simp [h]), sizeOf]
  · rfl

theorem sizeOf_erase (h : ρ ∈ E) (dir : Nat) :
    sizeOf (E.erase ρ) dir + (if (ofLex ρ).1 = dir then 1 else 0) = sizeOf E dir := by
  conv_rhs => rw [← insert_erase h]
  exact (sizeOf_insert (notMem_erase ρ E) dir).symm

theorem linksOf_insert (h : ρ ∉ E) (ino : Nat) :
    linksOf (insert ρ E) ino = linksOf E ino + if (ofLex (ofLex ρ).2).2 = ino then 1 else 0 := by
  rw [linksOf, filter_insert]
  split
  · rw [card_insert_of_notMem (by simp [h]), linksOf]
  · rfl

theorem linksOf_erase (h : ρ ∈ E) (ino : Nat) :
    linksOf (E.erase ρ) ino + (if (ofLex (ofLex ρ).2).2 = ino then 1 else 0) = linksOf E ino := by
  conv_rhs => rw [← insert_erase h]
  exact (linksOf_insert (notMem_erase ρ E) ino).symm

theorem linksOf_eq_zero_iff (ino : Nat) :
    linksOf E ino = 0 ↔ ∀ ρ ∈ E, (ofLex (ofLex ρ).2).2 ≠ ino := by
  rw [linksOf, card_eq_zero, filter_eq_empty_iff]

theorem sizeOf_eq_zero_iff (dir : Nat) : sizeOf E dir = 0 ↔ ∀ ρ ∈ E, (ofLex ρ).1 ≠ dir := by
  rw [sizeOf, card_eq_zero, filter_eq_empty_iff]

/-! ### Placement and removal of entries -/

/-- A record was placed, with its back link unless it is a hard link reference. -/
structure EntryPlaced (comp : Comparison) (c c' : Catalog) (k : CattreeKey) (r : CatalogRecord) :
    Prop where
  ordered : c'.Ordered comp
  fresh : ∀ x ∈ c, comp.rank x.1 ≠ comp.rank k
  fresh_ilink : r.recordType ≠ .hlink → ∀ x ∈ c, comp.rank x.1 ≠ comp.rank k.ilinkKey
  mem_iff : ∀ x, x ∈ c' ↔ x = (k, r) ∨
    r.recordType ≠ .hlink ∧ x = (k.ilinkKey, CatalogRecord.blank .ilink) ∨ x ∈ c

/-- A record was removed, with its back link unless it is a hard link reference. -/
structure EntryRemoved (comp : Comparison) (c c' : Catalog) (k : CattreeKey) (t : RecordType) :
    Prop where
  ordered : c'.Ordered comp
  present : ∃ x ∈ c, comp.rank x.1 = comp.rank k
  mem_iff : ∀ x, x ∈ c' ↔ x ∈ c ∧ comp.rank x.1 ≠ comp.rank k ∧
    (t ≠ .hlink → comp.rank x.1 ≠ comp.rank k.ilinkKey)

/-- What a removal that fails leaves: all records, but a back link may be gone. -/
structure LostIlink (comp : Comparison) (c c' : Catalog) (k : CattreeKey) : Prop where
  ordered : c'.Ordered comp
  sub : ∀ x ∈ c', x ∈ c
  keep : ∀ x ∈ c, x ∈ c' ∨ comp.rank x.1 = comp.rank k.ilinkKey

theorem LostIlink.refl (hc : c.Ordered comp) (k : CattreeKey) : LostIlink comp c c k :=
  ⟨hc, fun _ hx => hx, fun _ hx => .inl hx⟩

/-- The undoing of a refused placement does not fail. -/
def PlaceFaults.Clean (f : PlaceFaults) : Prop := f.ilink ≠ none ∨ f.insert ≠ none → f.undo = {}

instance (f : PlaceFaults) : Decidable f.Clean := inferInstanceAs (Decidable (_ → _))

/-- Both keys of a record are free. -/
def Free (comp : Comparison) (c : Catalog) (k : CattreeKey) : Prop :=
  ∀ x ∈ c, comp.rank x.1 ≠ comp.rank k ∧ comp.rank x.1 ≠ comp.rank k.ilinkKey

variable {o p : Nat} {n : CString} {t : RecordType}

/-- **A placement under free keys** is done, or refused with nothing changed. -/
theorem place_cases (hc : c.Ordered comp) {f : PlaceFaults} (hf : f.Clean) (hop : o ≠ p)
    (hfree : Free comp c ⟨p, n, o⟩) :
    (∃ e, vdfs4CattreePlaceRecord comp f c o p n t = (some e, c) ∧
        (f.ilink ≠ none ∨ f.insert ≠ none)) ∨
      ∃ c', vdfs4CattreePlaceRecord comp f c o p n t = (none, c') ∧
        EntryPlaced comp c c' ⟨p, n, o⟩ (.blank t) := by
  by_cases ht : t = .hlink
  · subst ht
    rcases placeRecord_single hc f n (show ¬ (o ≠ p ∧ RecordType.hlink ≠ .hlink) by simp) with
      ⟨c', heq, hi⟩ | ⟨e, c', heq, hwhy, rfl | he⟩
    · refine .inr ⟨c', heq, hi.ordered, hi.fresh, fun h => absurd rfl h, fun x => ?_⟩
      rw [hi.mem_iff]
      simp [CatalogRecord.blank]
    · refine .inl ⟨e, heq, .inr (hwhy.resolve_right ?_)⟩
      rintro ⟨x, hx, hrank⟩
      exact (hfree x hx).1 hrank
    · obtain ⟨x, hx, hrank⟩ := he.present
      exact absurd hrank (hfree x hx).2
  · rcases placeRecord_linked hc f n hop ht with
      ⟨e, heq, hwhy⟩ | ⟨e, c1, -, -, hundo, hwhy⟩ | ⟨c1, c2, heq, hi1, hi2⟩
    · refine .inl ⟨e, heq, ?_⟩
      rcases hwhy with h | h | ⟨x, hx, h | h⟩
      · exact .inl h
      · exact .inr h
      · exact absurd h (hfree x hx).2
      · exact absurd h (hfree x hx).1
    · -- the insertion was refused, and then the undoing does not fail
      rw [hf (.inr (hwhy.resolve_right fun ⟨x, hx, hrank⟩ => (hfree x hx).1 hrank))] at hundo
      rcases hundo with h | h
      · cases h
      · exact absurd rfl h
    · refine .inr ⟨c2, heq, hi2.ordered, fun x hx => (hfree x hx).1, fun _ x hx => (hfree x hx).2,
        fun x => ?_⟩
      rw [hi2.mem_iff, hi1.mem_iff]
      simp [CatalogRecord.blank, ht, CattreeKey.ilinkKey]

/-- **A removal** is done, or it fails and at most the back link is gone. -/
theorem remove_cases (hc : c.Ordered comp) (f : RemoveFaults) (hop : o ≠ p) (ht : t ≠ .ilink)
    (hpresent : ∃ x ∈ c, comp.rank x.1 = comp.rank ⟨p, n, o⟩) :
    (∃ e c', vdfs4CattreeRemove comp f c o p n t = (some e, c') ∧ LostIlink comp c c' ⟨p, n, o⟩ ∧
        (t = .hlink → c' = c) ∧ (f ≠ {} ∨ t ≠ .hlink ∧
          ∀ x ∈ c, comp.rank x.1 ≠ comp.rank (CattreeKey.ilinkKey ⟨p, n, o⟩))) ∨
      ∃ c', vdfs4CattreeRemove comp f c o p n t = (none, c') ∧ EntryRemoved comp c c'
      ⟨p, n, o⟩ t := by
  by_cases hlink : t = .hlink
  · rcases cattreeRemove_single hc f n
      (show ¬ (o ≠ p ∧ t ≠ .hlink ∧ t ≠ .ilink) by simp [hlink]) with
      ⟨e, heq, hwhy⟩ | ⟨c', heq, he⟩
    · refine .inl ⟨e, c, heq, .refl hc _, fun _ => rfl, .inl ?_⟩
      rintro rfl
      obtain ⟨x, hx, hrank⟩ := hpresent
      rcases hwhy with h | h | h
      · cases h
      · exact h rfl
      · exact h x hx hrank
    · refine .inr ⟨c', heq, he.ordered, he.present, fun x => ?_⟩
      rw [he.mem_iff]
      simp [hlink]
  · rcases cattreeRemove_linked hc f n hop ⟨hlink, ht⟩ with
      ⟨e, heq, hwhy⟩ | ⟨e, c1, heq, he, hwhy⟩ | ⟨c1, c2, heq, he1, he2⟩
    · refine .inl ⟨e, c, heq, .refl hc _, fun _ => rfl, ?_⟩
      rcases hwhy with h | h | h
      · exact .inl fun hf => by rw [hf] at h; cases h
      · exact .inl fun hf => by rw [hf] at h; exact h rfl
      · exact .inr ⟨hlink, h⟩
    · refine .inl ⟨e, c1, heq, ⟨he.ordered, fun x hx => ((he.mem_iff x).mp hx).1, fun x hx => ?_⟩,
        fun h => absurd h hlink, .inl fun hf => ?_⟩
      · by_cases hrank : comp.rank x.1 = comp.rank ⟨o, n, p⟩
        · exact .inr hrank
        · exact .inl ((he.mem_iff x).mpr ⟨hx, hrank⟩)
      obtain ⟨x, hx, hrank⟩ := hpresent
      rcases hwhy with h | h
      · rw [hf] at h
        exact h rfl
      · refine h x ((he.mem_iff x).mpr ⟨hx, fun heq => hop ?_⟩) hrank
        exact (Comparison.rank_eq_iff.mp (heq.symm.trans hrank)).1
    · refine .inr ⟨c2, heq, he2.ordered, hpresent, fun x => ?_⟩
      rw [he2.mem_iff, he1.mem_iff]
      simp only [hlink, ne_eq, not_false_eq_true, true_implies]
      exact ⟨fun ⟨⟨h1, h2⟩, h3⟩ => ⟨h1, h3, h2⟩, fun ⟨h1, h3, h2⟩ => ⟨⟨h1, h2⟩, h3⟩⟩

/-! ### Effects on the entries -/

theorem EntryPlaced.fill (h : EntryPlaced comp c c' k r) (hkey : k.objectId ≠ k.parentId)
    (hg : (g r).recordType = r.recordType) :
    EntryPlaced comp c (modify comp.compFn k g c') k (g r) := by
  have hne : comp.rank k.ilinkKey ≠ comp.rank k := fun heq => hkey (Comparison.rank_eq_iff.mp heq).1
  refine ⟨Sorted.modify h.ordered k g, h.fresh, fun ht => h.fresh_ilink (hg ▸ ht), fun x => ?_⟩
  rw [mem_modify comp.rankedBy, hg]
  simp only [h.mem_iff]
  constructor
  · rintro (⟨rfl | ⟨ht, rfl⟩ | hx, hrank⟩ | ⟨e, rfl | ⟨-, rfl⟩ | he, hrank, rfl⟩)
    · exact absurd rfl hrank
    · exact .inr (.inl ⟨ht, rfl⟩)
    · exact .inr (.inr hx)
    · exact .inl rfl
    · exact absurd hrank hne
    · exact absurd hrank (h.fresh e he)
  · rintro (rfl | ⟨ht, rfl⟩ | hx)
    · exact .inr ⟨(k, r), .inl rfl, rfl, rfl⟩
    · exact .inl ⟨.inr (.inl ⟨ht, rfl⟩), hne⟩
    · exact .inl ⟨.inr (.inr hx), h.fresh x hx⟩

theorem EntryPlaced.notMem (h : EntryPlaced comp c c' k r) : comp.rank k ∉ entries comp c := by
  intro hmem
  obtain ⟨x, hx, -, hrank⟩ := mem_entries.mp hmem
  exact h.fresh x hx hrank

theorem entries_of_placed (h : EntryPlaced comp c c' k r) (he : IsEntry (k, r)) :
    entries comp c' = insert (comp.rank k) (entries comp c) := by
  ext ρ
  rw [mem_insert, mem_entries, mem_entries]
  constructor
  · rintro ⟨x, hx, hxe, rfl⟩
    rcases (h.mem_iff x).mp hx with rfl | ⟨-, rfl⟩ | hx
    · exact .inl rfl
    · exact absurd hxe (not_isEntry_of_ilink rfl)
    · exact .inr ⟨x, hx, hxe, rfl⟩
  · rintro (rfl | ⟨x, hx, hxe, rfl⟩)
    · exact ⟨(k, r), (h.mem_iff _).mpr (.inl rfl), he, rfl⟩
    · exact ⟨x, (h.mem_iff x).mpr (.inr (.inr hx)), hxe, rfl⟩

theorem entries_of_removed (h : EntryRemoved comp c c' k t)
    (hlink : t ≠ .hlink → comp.rank k.ilinkKey ∉ entries comp c) :
    entries comp c' = (entries comp c).erase (comp.rank k) := by
  ext ρ
  rw [mem_erase, mem_entries, mem_entries]
  constructor
  · rintro ⟨x, hx, hxe, rfl⟩
    obtain ⟨hxc, hrank, -⟩ := (h.mem_iff x).mp hx
    exact ⟨hrank, x, hxc, hxe, rfl⟩
  · rintro ⟨hrank, x, hx, hxe, rfl⟩
    refine ⟨x, (h.mem_iff x).mpr ⟨hx, hrank, fun ht heq => hlink ht ?_⟩, hxe, rfl⟩
    rw [← heq]
    exact mem_entries_of_mem hx hxe

theorem entries_of_lost (h : LostIlink comp c c' k)
    (hlink : comp.rank k.ilinkKey ∉ entries comp c) : entries comp c' = entries comp c := by
  refine entries_congr fun x hxe => ⟨h.sub x, fun hx => ?_⟩
  refine (h.keep x hx).resolve_right fun heq => hlink ?_
  rw [← heq]
  exact mem_entries_of_mem hx hxe

/-- A change of a value that keeps an entry an entry. -/
theorem entries_modify
    (hg : ∀ e ∈ c, comp.rank e.1 = comp.rank k → (IsEntry (e.1, g e.2) ↔ IsEntry e)) :
    entries comp (modify comp.compFn k g c) = entries comp c := by
  ext ρ
  rw [mem_entries, mem_entries]
  constructor
  · rintro ⟨x, hx, he, rfl⟩
    rcases (mem_modify comp.rankedBy x).mp hx with ⟨hx, -⟩ | ⟨e, hec, hrank, rfl⟩
    · exact ⟨x, hx, he, rfl⟩
    · exact ⟨e, hec, (hg e hec hrank).mp he, rfl⟩
  · rintro ⟨x, hx, he, rfl⟩
    by_cases hrank : comp.rank x.1 = comp.rank k
    · exact ⟨(x.1, g x.2), (mem_modify comp.rankedBy _).mpr (.inr ⟨x, hx, hrank, rfl⟩),
        (hg x hx hrank).mpr he, rfl⟩
    · exact ⟨x, (mem_modify comp.rankedBy x).mpr (.inl ⟨hx, hrank⟩), he, rfl⟩

/-- A change of a value that makes an entry none. -/
theorem entries_modify_erase (hg : ∀ e ∈ c, comp.rank e.1 = comp.rank k → ¬ IsEntry (e.1, g e.2)) :
    entries comp (modify comp.compFn k g c) = (entries comp c).erase (comp.rank k) := by
  ext ρ
  rw [mem_erase, mem_entries, mem_entries]
  constructor
  · rintro ⟨x, hx, he, rfl⟩
    rcases (mem_modify comp.rankedBy x).mp hx with ⟨hx, hrank⟩ | ⟨e, hec, hrank, rfl⟩
    · exact ⟨hrank, x, hx, he, rfl⟩
    · exact absurd he (hg e hec hrank)
  · rintro ⟨hrank, x, hx, he, rfl⟩
    exact ⟨x, (mem_modify comp.rankedBy x).mpr (.inl ⟨hx, hrank⟩), he, rfl⟩

end Vdfs4
