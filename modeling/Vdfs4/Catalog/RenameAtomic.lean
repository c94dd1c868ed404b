import Vdfs4.Catalog.TreeRun

/-!
# Renames that fail

`vdfs4_rename` drops the entry of an existing target **before any later step is known to succeed**,
and nothing brings it back. Up to there, and in all of `vdfs4_cross_rename`, a failure is undone.

* `failed_rename_changes_nothing_iff` — which failed calls leave the tree as it was;
* `failed_rename_loses_target` — the new record is refused when the target is gone.
-/

namespace Vdfs4

open OrderedMap GuardedRun

variable {comp : Comparison} {v : Volume}

instance {f : RenameFaults} {newName : CString} {target : Option Nat} :
    Decidable (f.DropsTarget v newName target) :=
  inferInstanceAs (Decidable (newName.length ≤ vdfs4FileNameLen ∧
    ∃ t ∈ target, ∃ j ∈ v.inodes t, f.target.Removes j))

/-- **A failed `vdfs4_rename` changes nothing exactly when it drops no target; a failed
`vdfs4_cross_rename` changes nothing.** Failures are of any steps but those that undo another one: a
single failure is none of these. -/
theorem failed_rename_changes_nothing_iff (h : Leaves comp v) (hro : v.readOnly = false) :
    (∀ (f : RenameFaults) old newDir newName target whiteout e v', f.UndoClean →
      (TreeOp.rename f old newDir newName target whiteout).Issued comp v →
      vdfs4Rename comp f v old newDir newName target whiteout = some (some e, v') →
      (SameTree comp v v' ↔ ¬ f.DropsTarget v newName target)) ∧
    ∀ (f : CrossRenameFaults) old new e v', f.UndoClean →
      (TreeOp.crossRename f old new).Issued comp v →
      vdfs4CrossRename comp f v old new = some (some e, v') → SameTree comp v v' := by
  have hc := h.consistent hro
  constructor
  · rintro f old newDir newName target whiteout e v' hf ⟨-, hr, ht⟩ hcall
    rcases hc.rename_cases h.sized hr ht hf hcall with
      ⟨-, hsame, hno, -⟩ | ⟨t, j, htarget, -, -, hdrops, hentries, -⟩
    · exact iff_of_true (hsame (by simp)) hno
    · -- the entry of the target is gone
      refine iff_of_false (fun hsame => ?_) (not_not.mpr hdrops)
      have hmem := (ht t htarget).2
      rw [← hsame.entries, hentries (by simp)] at hmem
      exact Finset.notMem_erase _ _ hmem
  · rintro f old new e v' hf ⟨-, h1, h2⟩ hcall
    obtain ⟨e', w, heq, hren⟩ := hc.crossRename_spec h.sized h1 h2 hf
    rw [heq] at hcall
    cases hcall
    exact hren.failed (by simp)

/-- Two files in the root. -/
def twoFilesOps : List TreeOp :=
  [.create {} 1 nameA .reg 2, .create {} 1 nameB .reg 3]

/-- The volume with both. -/
def twoFilesTree : Volume :=
  (guardedRun (TreeOp.Sound .caseSensitive) (treeStep .caseSensitive) twoFilesOps emptyVolume).getD
  emptyVolume

theorem twoFilesTree_leaves : Leaves .caseSensitive twoFilesTree := by
  have hrun : (guardedRun (TreeOp.Sound .caseSensitive) (treeStep .caseSensitive) twoFilesOps
      emptyVolume).isSome = true := by decide +kernel
  obtain ⟨v, hv⟩ := Option.isSome_iff_exists.mp hrun
  have hv' : twoFilesTree = v := by
    rw [twoFilesTree, hv]
    rfl
  rw [hv']
  exact leaves_of_reaches emptyVolume_leaves (reaches_of_guardedRun hv)

/-- A rename to a new name whose old record cannot be removed. -/
theorem failed_rename_changes_nothing_sample :
    ∃ e v', vdfs4Rename .caseSensitive { remove := { record := some .enomem } } twoFilesTree
        ⟨1, ⟨[97], by decide⟩, 2⟩ 1 ⟨[99], by decide⟩ none none = some (some e, v') ∧
      SameTree .caseSensitive twoFilesTree v' := by
  have hcall : ((vdfs4Rename .caseSensitive { remove := { record := some .enomem } } twoFilesTree
      ⟨1, ⟨[97], by decide⟩, 2⟩ 1 ⟨[99], by decide⟩ none none).map Prod.fst) =
        some (some .enomem) := by decide +kernel
  obtain ⟨⟨e, v'⟩, hv', he⟩ := Option.map_eq_some_iff.mp hcall
  obtain rfl : e = some .enomem := he
  refine ⟨_, v', hv', ?_⟩
  exact ((failed_rename_changes_nothing_iff twoFilesTree_leaves (by decide +kernel)).1 _ _ _ _ _ _ _
    _ (by decide) (by decide +kernel) hv').mpr (by decide +kernel)

/-- **The target is lost**: it is unlinked, then the new record is refused. -/
theorem failed_rename_loses_target :
    ∃ f : RenameFaults, f = { place := { insert := some .enomem } } ∧ f.UndoClean ∧
      Leaves .caseSensitive twoFilesTree ∧
      (TreeOp.rename f ⟨1, ⟨[97], by decide⟩, 2⟩ 1 ⟨[98], by decide⟩ (some 3) none).Issued
      .caseSensitive
        twoFilesTree ∧
      ∃ e v', vdfs4Rename .caseSensitive f twoFilesTree ⟨1, ⟨[97], by decide⟩, 2⟩ 1
      ⟨[98], by decide⟩
          (some 3) none = some (some e, v') ∧
        ¬ SameTree .caseSensitive twoFilesTree v' := by
  refine ⟨_, rfl, by decide, twoFilesTree_leaves, by decide +kernel, ?_⟩
  have hcall : ((vdfs4Rename .caseSensitive { place := { insert := some .enomem } } twoFilesTree
      ⟨1, ⟨[97], by decide⟩, 2⟩ 1 ⟨[98], by decide⟩ (some 3) none).map fun r =>
        (r.1, decide (entries .caseSensitive r.2.catalog = entries .caseSensitive
          twoFilesTree.catalog))) =
      some (some .enomem, false) := by decide +kernel
  obtain ⟨⟨e, v'⟩, hv', he⟩ := Option.map_eq_some_iff.mp hcall
  obtain ⟨rfl, hentries⟩ := Prod.mk.inj he
  exact ⟨_, v', hv', fun hsame => of_decide_eq_false hentries hsame.entries⟩

end Vdfs4
