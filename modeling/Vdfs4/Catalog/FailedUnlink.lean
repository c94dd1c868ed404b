import Vdfs4.Catalog.TreeRun

/-!
# What a failed `vdfs4_unlink` takes back

The shared error path `exit_inc_nlink` restores the **number of links** and nothing else. What the
call did before has to be taken back where it was done: `vdfs4_add_to_orphan` takes the inode from
the orphan list when the write of its predecessor fails, but nobody does when the write of the
**inode** fails, and nobody inserts a removed **hard link reference** again.

* `UnlinkUndone` — the name, the number of links and the orphan list are as before the call;
* `UnlinkFaults.TakenBack` — the failures after which they are;
* `failed_unlink_undone_iff` — no others are.
-/

namespace Vdfs4

open OrderedMap GuardedRun

variable {comp : Comparison} {c₁ : Catalog} {v v' w : Volume} {o d : Nat} {n : CString}
  {i : CatalogInode} {e : Errno}

/-- Nothing of an unlinking of the entry `n` of `d`, whose inode `o` was `i`, is left. -/
structure UnlinkUndone (comp : Comparison) (v v' : Volume) (d : Nat) (n : CString) (o : Nat)
    (i : CatalogInode) : Prop where
  inode : ∃ j, v'.inodes o = some j ∧ j.nlink = i.nlink ∧ j.orphan = i.orphan
  list : v'.orphanInodes = v.orphanInodes
  entry : comp.rank ⟨d, n, o⟩ ∈ entries comp v'.catalog
  references : i.nlink = linksOf (entries comp v'.catalog) o

/-- **The failures that are taken back**: the reference of a hard linked inode is still there, or
the predecessor of another one in the orphan list could not be written. -/
def UnlinkFaults.TakenBack (f : UnlinkFaults) (i : CatalogInode) : Prop :=
  if i.hardLink then ¬ (f.ref.alloc = false ∧ f.ref.record = none) else f.orphan ≠ none

namespace Consistent

/-- The failures behind the last entry: of the predecessor's write, taken back in memory, and of the
inode's write, which leaves the inode on the orphan list. -/
theorem unlinkTail_failed (h : Consistent comp v) (hd : d ≠ 0)
    (he : comp.rank ⟨d, n, o⟩ ∈ entries comp v.catalog) (hi : v.inodes o = some i)
    (hone : i.nlink = 1) (hlast : LastEntry comp v.catalog c₁ i ⟨d, n, o⟩) (f : UnlinkFaults)
    (hw : w = { v.setInode o { i with nlink := 0 } with catalog := c₁ })
    (hfail : unlinkTail comp f w d o 0 = some (some e, v')) :
    (f.orphan ≠ none ∧ v'.catalog = c₁ ∧ v'.orphanInodes = v.orphanInodes ∧
        v'.inodes o = some { i with orphan := false, nextOrphanId := 0 }) ∨
      f.orphan = none ∧ v'.orphanInodes = v.orphanInodes ++ [o] := by
  obtain ⟨hord1, -, -, -⟩ := h.lastEntry_records hi hone he hlast
  obtain ⟨l, prev, -, -, -, -, -, hcases⟩ := h.addToOrphan_last hd he hi hone hlast f.orphan hw
  have hwcat : w.catalog = c₁ := by rw [hw]
  have hwlist : w.orphanInodes = v.orphanInodes := by rw [hw]; rfl
  rw [unlinkTail, if_neg (by simp)] at hfail
  rcases hcases with ⟨e', w1, heq, hwhy, href⟩ | ⟨w1, heq, hadd⟩
  · left
    rw [heq] at hfail
    cases hfail
    refine ⟨hwhy, href.catalog.trans hwcat, href.list.trans hwlist, ?_⟩
    rw [Volume.modifyInode_self, href.ino_eq]
    simp [hone]
  · right
    have hord2 : w1.catalog.Ordered comp := by
      rw [hadd.catalog, hwcat]
      exact Sorted.modify hord1 _ _
    rw [heq] at hfail
    simp only [hadd.ino_eq] at hfail
    rcases writeInode_cases hord2 f.write o
        { i with nlink := 0, orphan := true, nextOrphanId := 0 } with ⟨e', heq2, -⟩ | heq2
    · rw [heq2] at hfail
      cases hfail
      refine ⟨addToOrphan_none heq, ?_⟩
      rw [← hwlist]
      exact hadd.list
    · rw [heq2] at hfail
      cases hfail

end Consistent

/-- **A failed unlink is undone exactly when its failure is one that is taken back.** -/
theorem failed_unlink_undone_iff (h : Consistent comp v) (hd : d ≠ 0)
    (he : comp.rank ⟨d, n, o⟩ ∈ entries comp v.catalog) (hi : v.inodes o = some i)
    (f : UnlinkFaults) (hfail : vdfs4Unlink comp f v d n o = some (some e, v')) :
    UnlinkUndone comp v v' d n o i ↔ f.TakenBack i := by
  obtain ⟨-, i', hi', hl, horphan, -⟩ := h.exists_of_entry he
  obtain rfl : i' = i := Option.mem_unique hi' hi
  have hlinks := (h.settled o i' hi).links
  rw [vdfs4Unlink, hi] at hfail
  simp only [hl, if_false] at hfail
  by_cases hmax : vdfs4LinkMax < i'.nlink - 1
  · rw [if_pos hmax] at hfail
    cases hfail
  rw [if_neg hmax] at hfail
  -- what the two failures behind the last entry leave of the list
  have hlisted : v'.orphanInodes = v.orphanInodes ++ [o] → ¬ UnlinkUndone comp v v' d n o i' :=
    fun hlist hundone => by
      have hlen := congrArg List.length (hlist.symm.trans hundone.list)
      simp at hlen
  by_cases hh : i'.hardLink = true
  swap
  · have hsingle : i'.hardLink = false := Bool.eq_false_iff.mpr hh
    have hone := h.single_nlink hi hsingle hl
    rw [UnlinkFaults.TakenBack, if_neg hh]
    rw [if_neg hh] at hfail
    simp only [hone, Nat.sub_self, ne_eq, not_true_eq_false, if_false] at hfail
    rcases h.unlinkTail_failed hd he hi hone (.inl ⟨hsingle, rfl⟩) f rfl hfail with
      ⟨hf, hcat, hlist, hself⟩ | ⟨hf, hlist⟩
    · refine iff_of_true ⟨⟨_, hself, rfl, horphan.symm⟩, hlist, ?_, ?_⟩ hf
      · rw [hcat]
        exact he
      · rw [hcat]
        exact hlinks
    · exact iff_of_false (hlisted hlist) (not_not.mpr hf)
  · obtain ⟨x, hx, -, hrank⟩ := mem_entries.mp he
    rw [UnlinkFaults.TakenBack, if_pos hh]
    rw [if_pos hh] at hfail
    rcases removeReference_cases h.ordered f.ref ⟨x, hx, hrank⟩ with
      ⟨e', heq, hf⟩ | ⟨c₁, heq, hf, hremoved⟩
    · -- the reference is still there, and the number of links with it
      rw [show vdfs4CattreeRemove comp f.ref (v.setInode o _).catalog o d n .hlink = _
        from heq] at hfail
      cases (exitIncNlink_eq hi hl e').symm.trans hfail
      exact iff_of_true ⟨⟨i', hi, rfl, rfl⟩, rfl, he, hlinks⟩ hf
    rw [show vdfs4CattreeRemove comp f.ref (v.setInode o _).catalog o d n .hlink = _
      from heq] at hfail
    simp only at hfail
    by_cases hone : i'.nlink = 1
    · simp only [hone, Nat.sub_self] at hfail
      refine iff_of_false ?_ (not_not.mpr hf)
      rcases h.unlinkTail_failed hd he hi hone (.inr ⟨hh, hremoved⟩) f rfl hfail with
        ⟨-, hcat, -⟩ | ⟨-, hlist⟩
      · intro hundone
        have hentry := hundone.entry
        rw [hcat, entries_of_removed hremoved fun hn => absurd rfl hn] at hentry
        exact Finset.notMem_erase _ _ hentry
      · exact hlisted hlist
    · have hmore : i'.nlink - 1 ≠ 0 := by omega
      rw [unlinkTail, if_pos hmore] at hfail
      cases hfail

/-- The last name of the file of `lostReferenceOps`. -/
def lastName : CString := nameB

/-- An allocation fails in front of the removal. -/
theorem failed_unlink_of_last_reference : ∃ v v' i, v.inodes 2 = some i ∧
    vdfs4Unlink .caseSensitive { ref := { alloc := true } } v 1 lastName 2 = some (some .enomem,
      v') ∧ UnlinkUndone .caseSensitive v v' 1 lastName 2 i := by
  have hrun : ((guardedRun (TreeOp.Sound .caseSensitive) (treeStep .caseSensitive)
      (lostReferenceOps.take 3) emptyVolume).map fun v =>
      (v.readOnly, (v.inodes 2).map (·.hardLink),
        decide (Comparison.caseSensitive.rank ⟨1, lastName, 2⟩ ∈ entries .caseSensitive v.catalog),
        (vdfs4Unlink .caseSensitive { ref := { alloc := true } } v 1 lastName 2).map (·.1))) =
      some (false, some true, true, some (some .enomem)) := by decide +kernel
  obtain ⟨v, hv, heq⟩ := Option.map_eq_some_iff.mp hrun
  obtain ⟨hro, hhard, hentry, hout⟩ : _ ∧ _ ∧ _ ∧ _ := by simpa only [Prod.mk.injEq] using heq
  obtain ⟨i, hi, hh⟩ := Option.map_eq_some_iff.mp hhard
  obtain ⟨⟨r, v'⟩, hcall, rfl⟩ := Option.map_eq_some_iff.mp hout
  have hleaves := leaves_of_reaches emptyVolume_leaves (reaches_of_guardedRun hv)
  refine ⟨v, v', i, hi, hcall, (failed_unlink_undone_iff (hleaves.consistent hro) (by decide)
    (of_decide_eq_true hentry) hi _ hcall).mpr ?_⟩
  rw [UnlinkFaults.TakenBack, if_pos hh]
  simp

/-- **A failed unlink that removes the name**: the last reference is gone before the write of the
predecessor fails, and the inode has one link again, without an entry. -/
theorem failed_unlink_removes_name : ∃ v v',
    Reaches (TreeOp.Sound .caseSensitive) (treeStep .caseSensitive) emptyVolume v ∧
      Comparison.caseSensitive.rank ⟨1, lastName, 2⟩ ∈ entries .caseSensitive v.catalog ∧
      vdfs4Unlink .caseSensitive { orphan := some .enomem } v 1 lastName 2 = some
      (some .enomem, v') ∧
      Comparison.caseSensitive.rank ⟨1, lastName, 2⟩ ∉ entries .caseSensitive v'.catalog ∧
      (v'.inodes 2).map (·.nlink) = some 1 := by
  have hrun : ((guardedRun (TreeOp.Sound .caseSensitive) (treeStep .caseSensitive)
      (lostReferenceOps.take 3) emptyVolume).map fun v =>
        (decide (Comparison.caseSensitive.rank ⟨1, lastName, 2⟩ ∈ entries .caseSensitive v.catalog),
          (vdfs4Unlink .caseSensitive { orphan := some .enomem } v 1 lastName 2).map fun out =>
          (out.1,
            decide (Comparison.caseSensitive.rank ⟨1, lastName, 2⟩ ∉ entries .caseSensitive
              out.2.catalog), (out.2.inodes 2).map (·.nlink)))) =
      some (true, some (some .enomem, true, some 1)) := by decide +kernel
  obtain ⟨v, hv, heq⟩ := Option.map_eq_some_iff.mp hrun
  obtain ⟨hentry, hout⟩ := Prod.mk.inj heq
  obtain ⟨⟨r, v'⟩, hcall, heq'⟩ := Option.map_eq_some_iff.mp hout
  obtain ⟨rfl, hgone, hlinks⟩ : _ ∧ _ ∧ _ := by simpa only [Prod.mk.injEq] using heq'
  exact ⟨v, v', reaches_of_guardedRun hv, of_decide_eq_true hentry, hcall,
    of_decide_eq_true hgone, hlinks⟩

end Vdfs4
