import Vdfs4.Catalog.Transitions

/-!
# Two entries exchanged

`vdfs4_cross_rename` gives two inodes the entries of each other. Both new entries are placed before
the two old ones go, so four entries stand side by side on the way.

* `Exchangeable` — what the callers of the operation guarantee;
* `Consistent.exchanged` — what it does when it gets through.
-/

namespace Vdfs4

open Comparison CatalogRecord

variable {comp : Comparison} {v v' : Volume} {x : CattreeKey × CatalogRecord} {o₁ o₂ d₁ d₂ : Nat}
  {n₁ n₂ : CString} {i₁ i₂ j₁ j₂ : CatalogInode} {r₁ r₂ : CatalogRecord} {t₁ t₂ : RecordType}

/-- Two different inodes with entries in live directories, which are neither in the inodes
exchanged nor the same entry. -/
structure Exchangeable (comp : Comparison) (v : Volume) (o₁ d₁ : Nat) (n₁ : CString) (o₂ d₂ : Nat)
    (n₂ : CString) : Prop where
  ne : o₁ ≠ o₂
  old : comp.rank ⟨d₁, n₁, o₁⟩ ∈ entries comp v.catalog
  dir : LiveDir v d₁
  ne_dir : o₁ ≠ d₂
  inside : ∀ dd, v.inodes d₂ = some dd → dd.parentId ≠ o₁
  new : comp.rank ⟨d₂, n₂, o₁⟩ ∉ entries comp v.catalog

section

variable (h : Consistent comp v) (h₁ : Exchangeable comp v o₁ d₁ n₁ o₂ d₂ n₂)

include h h₁

/-- The records that stand under the keys of the first entry are the first inode's. -/
theorem Consistent.owner_of_exchange (h2 : Exchangeable comp v o₂ d₂ n₂ o₁ d₁ n₁)
    (hi1 : v.inodes o₁ = some i₁) (hr1 : FitsMove i₁ r₁)
    (hx : x = (⟨d₁, n₁, o₂⟩, r₂) ∨ x = (⟨o₂, n₁, d₁⟩, blank .ilink) ∨
      x = (⟨d₂, n₂, o₁⟩, r₁) ∨ x = (⟨o₁, n₂, d₂⟩, blank .ilink) ∨ x ∈ v.catalog) :
    (comp.rank x.1 = comp.rank ⟨d₁, n₁, o₁⟩ → owner x = o₁) ∧
      (r₁.recordType ≠ .hlink → comp.rank x.1 = comp.rank (CattreeKey.ilinkKey ⟨d₁, n₁, o₁⟩) →
        owner x = o₁) := by
  have hod := (h.exists_of_entry h₁.old).1
  rcases hx with rfl | rfl | rfl | rfl | hx
  · refine ⟨fun hrank => absurd (rank_eq_iff.mp hrank).2.2 h₁.ne.symm, fun _ hrank => ?_⟩
    exact absurd (rank_eq_iff.mp hrank).1.symm hod
  · refine ⟨fun hrank => absurd (rank_eq_iff.mp hrank).1 h2.ne_dir, fun _ hrank => ?_⟩
    exact absurd (rank_eq_iff.mp hrank).1 h₁.ne.symm
  · exact ⟨fun _ => owner_of_ne hr1.ne_ilink, fun _ _ => owner_of_ne hr1.ne_ilink⟩
  · exact ⟨fun _ => owner_ilink rfl, fun _ _ => owner_ilink rfl⟩
  · refine ⟨fun hrank => (h.owner_of_entry h₁.old hx hrank).1, fun hn hrank => ?_⟩
    have hs : i₁.hardLink = false := Bool.eq_false_iff.mpr (mt hr1.hlink_iff.mpr hn)
    exact (h.ilink_of_entry h₁.old hi1 hs hx hrank).1

/-- The key of the back link of the first entry is no entry on the way. -/
theorem Consistent.ilinkKey_exchange (hi1 : v.inodes o₁ = some i₁) (hs : i₁.hardLink = false) :
    comp.rank (CattreeKey.ilinkKey ⟨d₁, n₁, o₁⟩) ∉
      insert (comp.rank ⟨d₁, n₁, o₂⟩)
      (insert (comp.rank ⟨d₂, n₂, o₁⟩) (entries comp v.catalog)) := by
  obtain ⟨hod, i', hi', -, -, hkey⟩ := h.exists_of_entry h₁.old
  obtain rfl : i' = i₁ := Option.mem_unique hi' hi1
  rw [Finset.mem_insert, Finset.mem_insert]
  rintro (heq | heq | hmem)
  · exact hod (rank_eq_iff.mp heq).1
  · exact h₁.ne_dir (rank_eq_iff.mp heq).1
  · rw [rank_ilinkKey_inj.mpr (hkey hs).symm] at hmem
    exact h.ilinkKey_notMem hi1 hs hmem

end

/-- The catalog after both entries are placed and both old ones are removed. -/
structure ExchangedRecords (comp : Comparison) (c c' : Catalog) (o₁ d₁ : Nat) (n₁ : CString)
    (o₂ d₂ : Nat) (n₂ : CString) (r₁ r₂ : CatalogRecord) : Prop where
  records : ∃ c₁ c₂ c₃, EntryPlaced comp c c₁ ⟨d₂, n₂, o₁⟩ r₁ ∧
    EntryPlaced comp c₁ c₂ ⟨d₁, n₁, o₂⟩ r₂ ∧ EntryRemoved comp c₂ c₃ ⟨d₁, n₁, o₁⟩ r₁.recordType ∧
    EntryRemoved comp c₃ c' ⟨d₂, n₂, o₂⟩ r₂.recordType

/-- The number of links stays when two entries are exchanged. -/
theorem linksOf_exchanged {E : Finset Comparison.Rank} {ρ1 ρ2 σ1 σ2 : Comparison.Rank}
    (h₁ : ρ1 ∈ E) (h2 : ρ2 ∈ E) (hne : ρ1 ≠ ρ2) (hn1 : σ1 ∉ E) (hn2 : σ2 ∉ insert σ1 E)
    (ho1 : (ofLex (ofLex ρ1).2).2 = (ofLex (ofLex σ1).2).2)
    (ho2 : (ofLex (ofLex ρ2).2).2 = (ofLex (ofLex σ2).2).2) (o : Nat) :
    linksOf (((insert σ2 (insert σ1 E)).erase ρ1).erase ρ2) o = linksOf E o := by
  have hmem1 : ρ1 ∈ insert σ2 (insert σ1 E) := by simp [h₁]
  have hmem2 : ρ2 ∈ (insert σ2 (insert σ1 E)).erase ρ1 := by simp [h2, hne.symm]
  have herase1 := linksOf_erase hmem1 o
  have herase2 := linksOf_erase hmem2 o
  rw [linksOf_insert hn2, linksOf_insert hn1, ho1] at herase1
  rw [ho2] at herase2
  omega

/-- **Two exchanged entries.** -/
theorem Consistent.exchanged (h : Consistent comp v) (h₁ : Exchangeable comp v o₁ d₁ n₁ o₂ d₂ n₂)
    (h2 : Exchangeable comp v o₂ d₂ n₂ o₁ d₁ n₁) (hi1 : v.inodes o₁ = some i₁)
    (hi2 : v.inodes o₂ = some i₂) (hr1 : FitsMove i₁ r₁) (hr2 : FitsMove i₂ r₂)
    (hrecords : ExchangedRecords comp v.catalog v'.catalog o₁ d₁ n₁ o₂ d₂ n₂ r₁ r₂)
    (ht1 : i₁.hardLink = false → t₁ = .folder ∨ t₁ = .file)
    (ht2 : i₂.hardLink = false → t₂ = .folder ∨ t₂ = .file) (hself1 : v'.inodes o₁ = some j₁)
    (hself2 : v'.inodes o₂ = some j₂) (hj1 : j₁.sizeless = (i₁.movedTo d₂ n₂ t₁).sizeless)
    (hj2 : j₂.sizeless = (i₂.movedTo d₁ n₁ t₂).sizeless)
    (halike : AlikeBut v v' fun m => m = o₁ ∨ m = o₂) (hlist : v'.orphanInodes = v.orphanInodes) :
    Consistent comp v' ∧ entries comp v'.catalog =
      ((insert (comp.rank ⟨d₁, n₁, o₂⟩) (insert (comp.rank ⟨d₂, n₂, o₁⟩)
        (entries comp v.catalog))).erase (comp.rank ⟨d₁, n₁, o₁⟩)).erase
        (comp.rank ⟨d₂, n₂, o₂⟩) := by
  obtain ⟨c1, c2, c3, hp1, hp2, hm1, hm2⟩ := hrecords.records
  have hs1 : r₁.recordType ≠ .hlink → i₁.hardLink = false := fun hn =>
    Bool.eq_false_iff.mpr (mt hr1.hlink_iff.mpr hn)
  have hs2 : r₂.recordType ≠ .hlink → i₂.hardLink = false := fun hn =>
    Bool.eq_false_iff.mpr (mt hr2.hlink_iff.mpr hn)
  -- the entries, step by step
  have he1 := entries_of_placed hp1 (hr1.isEntry h₁.ne_dir)
  have he2 := entries_of_placed hp2 (hr2.isEntry h2.ne_dir)
  rw [he1] at he2
  have he3 := entries_of_removed hm1 fun hn => by
    rw [he2]
    exact h.ilinkKey_exchange h₁ hi1 (hs1 hn)
  have he4 := entries_of_removed hm2 fun hn hmem => by
    rw [he3, he2, Finset.insert_comm] at hmem
    exact h.ilinkKey_exchange h2 hi2 (hs2 hn) (Finset.mem_of_mem_erase hmem)
  rw [he3, he2] at he4
  have hlinks : ∀ o, linksOf (entries comp v'.catalog) o = linksOf (entries comp v.catalog) o := by
    intro o
    have hnew2 := hp2.notMem
    rw [he1] at hnew2
    rw [he4]
    refine linksOf_exchanged h₁.old h2.old (fun heq => ?_) h₁.new hnew2 rfl rfl o
    exact h₁.ne (rank_eq_iff.mp heq).2.2
  -- whose records stand under the keys that are removed
  have hsub : ∀ x ∈ c2, x = (⟨d₁, n₁, o₂⟩, r₂) ∨ x = (⟨o₂, n₁, d₁⟩, blank .ilink) ∨
      x = (⟨d₂, n₂, o₁⟩, r₁) ∨ x = (⟨o₁, n₂, d₂⟩, blank .ilink) ∨ x ∈ v.catalog := by
    intro x hx
    rcases (hp2.mem_iff x).mp hx with heq | ⟨-, heq⟩ | hx
    · exact .inl heq
    · exact .inr (.inl heq)
    · rcases (hp1.mem_iff x).mp hx with heq | ⟨-, heq⟩ | hx
      · exact .inr (.inr (.inl heq))
      · exact .inr (.inr (.inr (.inl heq)))
      · exact .inr (.inr (.inr (.inr hx)))
  have hof1 := fun x hx => h.owner_of_exchange h₁ h2 hi1 hr1 (hsub x hx)
  have hof2 : ∀ x ∈ c3, (comp.rank x.1 = comp.rank ⟨d₂, n₂, o₂⟩ → owner x = o₂) ∧
      (r₂.recordType ≠ .hlink → comp.rank x.1 = comp.rank (CattreeKey.ilinkKey ⟨d₂, n₂, o₂⟩) →
        owner x = o₂) := by
    intro x hx
    refine h.owner_of_exchange h2 h₁ hi2 hr2 (?_ : x = (⟨d₂, n₂, o₁⟩, r₁) ∨ _)
    rcases hsub x ((hm1.mem_iff x).mp hx).1 with heq | heq | heq | heq | hx
    · exact .inr (.inr (.inl heq))
    · exact .inr (.inr (.inr (.inl heq)))
    · exact .inl heq
    · exact .inr (.inl heq)
    · exact .inr (.inr (.inr (.inr hx)))
  have hother1 : ∀ x, owner x ≠ o₁ → (x ∈ c1 ↔ x ∈ v.catalog) ∧ (x ∈ c3 ↔ x ∈ c2) := fun x hx =>
    ⟨hp1.mem_iff_of_owner hr1.ne_ilink hx, hm1.mem_iff_of_owner (fun y hy => (hof1 y hy).1)
      (fun hn y hy => (hof1 y hy).2 hn) hx⟩
  have hother2 : ∀ x, owner x ≠ o₂ → (x ∈ c2 ↔ x ∈ c1) ∧ (x ∈ v'.catalog ↔ x ∈ c3) := fun x hx =>
    ⟨hp2.mem_iff_of_owner hr2.ne_ilink hx, hm2.mem_iff_of_owner (fun y hy => (hof2 y hy).1)
      (fun hn y hy => (hof2 y hy).2 hn) hx⟩
  have hmoved1 : MovedRecords comp v.catalog v'.catalog o₁ ⟨d₁, n₁, o₁⟩ ⟨d₂, n₂, o₁⟩ r₁ := by
    intro x hx
    have hne : owner x ≠ o₂ := hx ▸ h₁.ne
    rw [(hother2 x hne).2, hm1.mem_iff, (hother2 x hne).1, hp1.mem_iff]
  have hmoved2 : MovedRecords comp v.catalog v'.catalog o₂ ⟨d₂, n₂, o₂⟩ ⟨d₁, n₁, o₂⟩ r₂ := by
    intro x hx
    have hne : owner x ≠ o₁ := hx ▸ h2.ne
    rw [hm2.mem_iff, (hother1 x hne).2, hp2.mem_iff, (hother1 x hne).1]
  have hset1 := h.settled_moved hi1 h₁.old h₁.new h₁.ne_dir hr1 hmoved1 ht1 rfl hj1 (hlinks o₁)
  have hset2 := h.settled_moved hi2 h2.old h2.new h2.ne_dir hr2 hmoved2 ht2 rfl hj2 (hlinks o₂)
  refine ⟨h.of_changed ?_ halike hlist ?_ (fun x hx => ?_) hm2.ordered ?_ ?_ ?_, he4⟩
  · rintro (hroot | hroot)
    · exact h.ne_root_of_entry (h.liveDir_ne_zero h₁.dir) h₁.old hroot.symm
    · exact h.ne_root_of_entry (h.liveDir_ne_zero h2.dir) h2.old hroot.symm
  · rintro m i (rfl | rfl) hi
    · obtain rfl := Option.mem_unique hi hi1
      exact CatalogInode.stays_moved hi hself1 hj1
    · obtain rfl := Option.mem_unique hi hi2
      exact CatalogInode.stays_moved hi hself2 hj2
  · obtain ⟨hx1, hx2⟩ := not_or.mp hx
    rw [(hother2 x hx2).2, (hother1 x hx1).2, (hother2 x hx2).1, (hother1 x hx1).1]
  · rintro m (rfl | rfl)
    · exact ⟨j₁, hself1, hset1⟩
    · exact ⟨j₂, hself2, hset2⟩
  · intro ρ hρ
    rw [he4] at hρ
    have hρ := Finset.mem_of_mem_erase (Finset.mem_of_mem_erase hρ)
    rcases Finset.mem_insert.mp hρ with rfl | hρ
    · exact .inr h₁.dir
    rcases Finset.mem_insert.mp hρ with rfl | hρ
    · exact .inr h2.dir
    · exact h.parent ρ hρ
  · -- neither directory is inside the inode that goes there
    have hloop : ∀ {o d : Nat} {j i : CatalogInode} {n : CString} {t : RecordType},
        j.sizeless = (i.movedTo d n t).sizeless → (d ≠ o₁ ∧ d ≠ o₂) →
        (∀ dd, v.inodes d = some dd → dd.parentId ≠ o) → ∀ p k, v'.inodes p = some k →
        j.hardLink = false → j.parentId = p → k.parentId ≠ o := by
      intro o d j i n t hj hd hinside p k hk hs hp hk'
      have hjf := CatalogInode.movedTo_fields hj
      have hpd : p = d := hp.symm.trans (hjf.2.2.2.2 (hjf.2.2.2.1.symm.trans hs))
      subst hpd
      obtain ⟨dd, hdd, heq⟩ := halike.of_after (not_or.mpr hd) hk
      exact hinside dd hdd ((congrArg (·.parentId) heq).symm.trans hk')
    have hod1 := (h.exists_of_entry h₁.old).1
    have hod2 := (h.exists_of_entry h2.old).1
    rintro m i p k (rfl | rfl) hi hk hs - hp
    · obtain rfl := Option.mem_unique hself1 hi
      exact hloop hj1 ⟨h₁.ne_dir.symm, hod2.symm⟩ h₁.inside p k hk hs hp
    · obtain rfl := Option.mem_unique hself2 hi
      exact hloop hj2 ⟨hod1.symm, h2.ne_dir.symm⟩ h2.inside p k hk hs hp

end Vdfs4
