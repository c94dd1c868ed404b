import Vdfs4.Catalog.CrossRename
import Vdfs4.Catalog.Listing
import Vdfs4.Catalog.OrphanRecovery

/-!
# Runs of the directory operations

The operations on directories are issued by callers that **hold entries and inodes**: a new name is
not there, an old one is, a directory is alive. An operation that fails undoes what it has done, and
the volume stays what it was **as long as no undoing fails**. One operation has nothing to undo
with: when the last reference of a hard linked inode is gone and a write behind it fails, the
reference stays away.

* `TreeOp`, `treeStep` — the operations, with all their failures, and the eviction of an inode;
* `TreeOp.Issued` — what the callers guarantee; `TreeOp.Safe` — the failures that are undone;
* `Leaves.step` — **what every safe operation leaves**, from which every result about runs follows;
* `directory_size_counts_entries` — the size of a directory is its number of live entries.
-/

namespace Vdfs4

open Option hiding map_map mem_map
open GuardedRun List

variable {comp : Comparison} {v v' : Volume} {x : CattreeKey × CatalogRecord} {o : Nat}
  {i : CatalogInode} {f : UnlinkFaults}

/-! ### The operations -/

/-- The operations, each with the failures inside it. -/
inductive TreeOp where
  | create (f : CreateFaults) (dir : Nat) (name : CString) (kind : FileKind) (ino : Nat)
  | link (f : LinkFaults) (dir : Nat) (name : CString) (ino : Nat)
  | unlink (f : UnlinkFaults) (e : Dentry)
  | rmdir (f : UnlinkFaults) (e : Dentry)
  | rename (f : RenameFaults) (old : Dentry) (newDir : Nat) (newName : CString)
      (target whiteout : Option Nat)
  | crossRename (f : CrossRenameFaults) (old new : Dentry)
  | evict (f : EvictFaults) (ino : Nat)

/-- The result of an operation. -/
def TreeOp.call (comp : Comparison) (v : Volume) : TreeOp → Outcome
  | create f dir name kind ino => vdfs4Create comp f v dir name kind ino
  | link f dir name ino => vdfs4Link comp f v dir name ino
  | unlink f e => vdfs4Unlink comp f v e.dir e.name e.ino
  | rmdir f e => vdfs4Rmdir comp f v e.dir e.name e.ino
  | rename f old newDir newName target whiteout =>
    vdfs4Rename comp f v old newDir newName target whiteout
  | crossRename f old new => vdfs4CrossRename comp f v old new
  | evict f ino => (Volume.vdfs4EvictInode comp f v ino).map fun v => (none, v)

/-- A step of a run. -/
def treeStep (comp : Comparison) (v : Volume) (op : TreeOp) : Option Volume :=
  (op.call comp v).map Prod.snd

/-! ### What the callers guarantee -/

instance : Decidable (LiveDir v o) :=
  inferInstanceAs (Decidable (∃ d ∈ v.inodes o, d.kind = .dir ∧ d.nlink ≠ 0))

instance {k : CattreeKey} {c : Catalog} : Decidable (comp.rank k ∈ entries comp c) :=
    Finset.decidableMem _ _

/-- An entry in a live directory, whose inode is of a kind. -/
structure Dentry.Held (comp : Comparison) (v : Volume) (e : Dentry) (kind : FileKind → Prop) :
    Prop where
  dir : LiveDir v e.dir
  entry : comp.rank e.key ∈ entries comp v.catalog
  inode : ∃ i ∈ v.inodes e.ino, kind i.kind

instance {e : Dentry} {kind : FileKind → Prop} [DecidablePred kind] :
    Decidable (e.Held comp v kind) :=
  decidable_of_iff (LiveDir v e.dir ∧ comp.rank e.key ∈ entries comp v.catalog ∧
    ∃ i ∈ v.inodes e.ino, kind i.kind) ⟨fun h => ⟨h.1, h.2.1, h.2.2⟩, fun h => ⟨h.1, h.2, h.3⟩⟩

instance {old : Dentry} {newDir : Nat} {newName : CString} {whiteout : Option Nat} :
    Decidable (Renameable comp v old newDir newName whiteout) :=
  decidable_of_iff (comp.rank old.key ∈ entries comp v.catalog ∧ old.dir ≠ 0 ∧ LiveDir v newDir ∧
    old.ino ≠ newDir ∧ (∀ dd ∈ v.inodes newDir, dd.parentId ≠ old.ino) ∧
    comp.rank ⟨newDir, newName, old.ino⟩ ∉ entries comp v.catalog ∧
    ∀ w ∈ whiteout, w ≠ 0 ∧ v.inodes w = none)
    ⟨fun ⟨h₁, h₂, h₃, h₄, h₅, h₆, h₇⟩ => ⟨h₁, h₂, h₃, h₄, h₅, h₆, h₇⟩,
      fun ⟨h₁, h₂, h₃, h₄, h₅, h₆, h₇⟩ => ⟨h₁, h₂, h₃, h₄, h₅, h₆, h₇⟩⟩

instance {old : Dentry} {newDir : Nat} {newName : CString} {target : Option Nat} :
    Decidable (IsTarget comp v old newDir newName target) :=
  inferInstanceAs (Decidable (∀ t ∈ target, t ≠ old.ino ∧
    comp.rank ⟨newDir, newName, t⟩ ∈ entries comp v.catalog))

instance {old new : Dentry} : Decidable (old.Crosses comp v new) :=
  decidable_of_iff (old.ino ≠ new.ino ∧ comp.rank ⟨old.dir, old.name, old.ino⟩ ∈
    entries comp v.catalog ∧
    LiveDir v old.dir ∧ old.ino ≠ new.dir ∧ (∀ dd ∈ v.inodes new.dir, dd.parentId ≠ old.ino) ∧
    comp.rank ⟨new.dir, new.name, old.ino⟩ ∉ entries comp v.catalog)
    ⟨fun ⟨h₁, h₂, h₃, h₄, h₅, h₆⟩ => ⟨h₁, h₂, h₃, h₄, h₅, h₆⟩,
      fun ⟨h₁, h₂, h₃, h₄, h₅, h₆⟩ => ⟨h₁, h₂, h₃, h₄, h₅, h₆⟩⟩

/-- **What the callers guarantee**: the volume is writable, directories are alive, old entries are
there and new ones are not, and the number of a new inode is not in use. An inode is evicted here
when it has no links. -/
def TreeOp.Issued (comp : Comparison) (v : Volume) (op : TreeOp) : Prop :=
  v.readOnly = false ∧
    match op with
    | create _ dir _ _ ino => LiveDir v dir ∧ ino ≠ 0 ∧ v.inodes ino = none
    | link _ dir name ino => LiveDir v dir ∧ comp.rank ⟨dir, name, ino⟩ ∉ entries comp v.catalog ∧
        ∃ i ∈ v.inodes ino, i.kind ≠ .dir ∧ i.nlink ≠ 0
    | unlink _ e => e.Held comp v (· ≠ .dir)
    | rmdir _ e => e.Held comp v (· = .dir)
    | rename _ old newDir newName target whiteout =>
        Renameable comp v old newDir newName whiteout ∧ IsTarget comp v old newDir newName target
    | crossRename _ old new => old.Crosses comp v new ∧ new.Crosses comp v old
    | evict _ ino => ∃ i ∈ v.inodes ino, i.nlink = 0

instance TreeOp.decidableIssued (op : TreeOp) : Decidable (op.Issued comp v) := by
  cases op <;> exact inferInstanceAs (Decidable (_ ∧ _))

/-! ### Failures that are undone -/

/-- The failure that is not undone: a write after the last reference of a hard linked inode is
gone. -/
def UnlinkFaults.Safe (f : UnlinkFaults) (v : Volume) (ino : Nat) : Prop :=
  ∀ i ∈ v.inodes ino, i.hardLink = true → i.nlink = 1 → f.orphan = none ∧ f.write = none

instance UnlinkFaults.decidableSafe (f : UnlinkFaults) : Decidable (f.Safe v o) :=
  inferInstanceAs (Decidable (∀ i ∈ v.inodes o, i.hardLink = true → i.nlink = 1 →
    f.orphan = none ∧ f.write = none))

theorem UnlinkFaults.Safe.not_lost (h : f.Safe v o) (hi : v.inodes o = some i) :
    ¬ (i.hardLink = true ∧ i.nlink = 1 ∧ (f.orphan ≠ none ∨ f.write ≠ none)) := by
  rintro ⟨hhard, hone, hbad⟩
  obtain ⟨h1, h2⟩ := h i hi hhard hone
  exact hbad.elim (absurd h1) (absurd h2)

/-- **The safe failures**: all but those of a step that undoes another one, and those of a write
after the last reference of a hard linked inode. -/
def TreeOp.Safe (v : Volume) : TreeOp → Prop
  | create f _ _ _ _ => f.place.undo = {} ∧ f.evict = {}
  | link f _ _ _ => f.place.undo = {} ∧ f.transform.undo = {}
  | unlink f e => f.Safe v e.ino
  | rmdir f e => f.Safe v e.ino
  | rename f _ _ _ target _ => f.UndoClean ∧ ∀ t ∈ target, f.target.Safe v t
  | crossRename f _ _ => f.UndoClean
  | evict _ _ => True

instance TreeOp.decidableSafe (op : TreeOp) : Decidable (op.Safe v) := by
  cases op with
  | create | link => exact inferInstanceAs (Decidable (_ ∧ _))
  | unlink f e => exact inferInstanceAs (Decidable (f.Safe v e.ino))
  | rmdir f e => exact inferInstanceAs (Decidable (f.Safe v e.ino))
  | rename f _ _ _ target => exact inferInstanceAs
      (Decidable (f.UndoClean ∧ ∀ t ∈ target, f.target.Safe v t))
  | crossRename f => exact inferInstanceAs (Decidable f.UndoClean)
  | evict => exact inferInstanceAs (Decidable True)

/-- A safe operation that its callers may issue. -/
def TreeOp.Sound (comp : Comparison) (v : Volume) (op : TreeOp) : Prop :=
    op.Issued comp v ∧ op.Safe v

instance TreeOp.decidableSound (op : TreeOp) : Decidable (op.Sound comp v) :=
    inferInstanceAs (Decidable (_ ∧ _))

/-! ### What a run keeps -/

/-- Unlinking that is safe leaves right sizes. -/
theorem Consistent.removeInode_leaves (h : Consistent comp v)
    (hs : Sized v (entries comp v.catalog)) {e : Dentry} {kind : FileKind → Prop}
    (he : e.Held comp v kind) (hf : f.Safe v e.ino) (hi : v.inodes e.ino = some i) {out : Outcome}
    (hout : (if i.kind = .dir then vdfs4Rmdir comp f v e.dir e.name e.ino else vdfs4Unlink comp f v
      e.dir e.name e.ino) = out)
    (hend : out.map Prod.snd = some v') :
    Leaves comp v' := by
  rcases h.removeInode_cases hs (h.liveDir_ne_zero he.dir) he.entry hi f hout with
    ⟨rfl, -⟩ | ⟨_, w, rfl, -, -, hleaves, -⟩ | ⟨w, rfl, hdrop, -⟩ | ⟨_, w, rfl, -, hlost, -⟩
  · cases hend
  · cases hend
    exact hleaves
  · cases hend
    exact hdrop.consistent.leaves hdrop.sized
  · exact absurd hlost (hf.not_lost hi)

/-- **What every safe operation leaves.** -/
theorem Leaves.step {op : TreeOp} (h : Leaves comp v) (hop : op.Sound comp v)
    (hstep : treeStep comp v op = some v') : Leaves comp v' := by
  obtain ⟨⟨hro, hissued⟩, hsafe⟩ := hop
  have hc := h.consistent hro
  have hs := h.sized
  rw [treeStep] at hstep
  cases op with
  | create f dir name kind ino =>
    obtain ⟨hdir, hino, hnone⟩ := hissued
    obtain ⟨hplace, hevict⟩ := hsafe
    rcases hc.create_cases hdir hino hnone (fun _ => hplace) hevict name kind with
      ⟨e, heq⟩ | ⟨w, heq, hnew⟩ <;> rw [TreeOp.call, heq] at hstep <;> cases hstep
    · exact h
    · refine hnew.consistent.leaves ?_
      rw [hnew.entries]
      exact hnew.sized hs hnew.notMem (hc.parent_ne_unused hino hnone)
  | link f dir name ino =>
    obtain ⟨hdir, hnew, i, hi, hkind, hlinks⟩ := hissued
    obtain ⟨⟨e, w⟩, hcall, rfl⟩ := map_eq_some_iff.mp hstep
    obtain ⟨hcons, hsized, -⟩ := hc.link_leaves hs hdir hi hkind hlinks hnew
      (fun _ => hsafe.1) hsafe.2 hcall
    exact hcons.leaves hsized
  | unlink f e =>
    obtain ⟨i, hi, hkind⟩ := hissued.inode
    exact hc.removeInode_leaves hs hissued hsafe hi (if_neg hkind) hstep
  | rmdir f e =>
    obtain ⟨i, hi, hkind⟩ := hissued.inode
    exact hc.removeInode_leaves hs hissued hsafe hi (if_pos hkind) hstep
  | rename f old newDir newName target whiteout =>
    obtain ⟨hr, ht⟩ := hissued
    obtain ⟨⟨e, w⟩, hcall, rfl⟩ := map_eq_some_iff.mp hstep
    rcases hc.rename_cases hs hr ht hsafe.1 hcall with
      ⟨hleaves, -⟩ | ⟨t, j, htarget, hj, -, -, -, ⟨hleaves, -⟩ | hlost⟩
    · exact hleaves
    · exact hleaves
    · exact absurd hlost ((hsafe.2 t htarget).not_lost hj)
  | crossRename f old new =>
    obtain ⟨e, w, heq, hren⟩ := hc.crossRename_spec hs hissued.1 hissued.2 hsafe
    rw [TreeOp.call, heq] at hstep
    cases hstep
    exact hren.consistent.leaves hren.sized
  | evict f ino =>
    obtain ⟨i, hi, hz⟩ := hissued
    rw [TreeOp.call, Option.map_map] at hstep
    obtain ⟨w, hcall, rfl⟩ := map_eq_some_iff.mp hstep
    exact (hc.evict_leaves hs hi hz hcall).1

/-! ### The empty root -/

/-- The record of the root that `mkfs` writes. -/
def rootRecord : CatalogRecord := { emptyRoot with linksCount := 1 }

/-- A volume with nothing but its root. -/
def emptyVolume : Volume := mountVolume [(rootKey, rootRecord)] rootRecord

theorem emptyVolume_root {n : Nat} (hi : emptyVolume.inodes n = some i) :
    n = rootIno ∧ i = .ofRecord (rootKey, rootRecord) := by
  change (if n = rootIno then some (.ofRecord (rootKey, rootRecord)) else none) = some i at hi
  split at hi
  · exact ⟨‹_›, (some.inj hi).symm⟩
  · cases hi

theorem emptyVolume_leaves : Leaves comp emptyVolume := by
  have hsettled : Settled comp [(rootKey, rootRecord)] rootIno (.ofRecord (rootKey, rootRecord)) :=
    { ne_zero := by decide
      fits := by
        intro x hx _
        obtain rfl := mem_singleton.mp hx
        exact (fits_inode (.inl rfl)).mpr ⟨rfl, rfl⟩
      located := ⟨_, mem_singleton_self _, .inl rfl, rfl⟩
      kind := by decide
      dir_single := fun _ => rfl
      single_type := fun _ => .inl rfl
      single_parent := fun _ => by decide
      links := rfl
      orphan_iff := by decide }
  refine Consistent.leaves ⟨pairwise_singleton _ _, ?_, ?_, ?_, ?_, ?_, ?_⟩ ?_
  · intro x hx
    obtain rfl := mem_singleton.mp hx
    exact ⟨_, rfl⟩
  · intro o i hi
    obtain ⟨rfl, rfl⟩ := emptyVolume_root hi
    exact hsettled
  · intro ρ hρ
    obtain rfl := Finset.mem_singleton.mp hρ
    exact .inl rfl
  · intro o i p j hi hj _ _ hp
    obtain ⟨rfl, rfl⟩ := emptyVolume_root hi
    obtain ⟨rfl, rfl⟩ := emptyVolume_root hj
    exact absurd hp (by decide)
  · exact ⟨_, rfl, rfl, by decide, rfl, rfl⟩
  · exact ⟨[], rfl, rfl, nofun⟩
  · intro dir d hd _
    obtain ⟨rfl, rfl⟩ := emptyVolume_root hd
    rfl

/-- **Every run of safe operations keeps sizes and records.** -/
theorem leaves_of_reaches (h : Leaves comp v) (hrun : Reaches (TreeOp.Sound comp)
    (treeStep comp) v v') : Leaves comp v' :=
  hrun.invariant h fun _ _ _ ht hop hstep => ht.step hop hstep

/-! ### Sizes of directories -/

/-- The live records of a directory are counted by the entries. -/
theorem Counted.length_liveIn (h : Counted comp v) (hi : v.inodes o = some i)
    (hdir : i.kind = .dir) : (liveIn o v.catalog).length = sizeOf (entries comp v.catalog) o := by
  have hset : ((liveIn o v.catalog).map fun x => comp.rank x.1).toFinset =
      (entries comp v.catalog).filter fun r => (ofLex r).1 = o := by
    ext ρ
    rw [List.mem_toFinset, mem_map, Finset.mem_filter, mem_entries]
    constructor
    · rintro ⟨x, hx, rfl⟩
      obtain ⟨hx, hp, hlive⟩ := mem_liveIn.mp hx
      refine ⟨⟨x, hx, ⟨hlive, fun hself => ?_⟩, rfl⟩, hp⟩
      exact h.bodies x hx hself i (hp ▸ hi) hdir
    · rintro ⟨⟨x, hx, he, rfl⟩, hp⟩
      exact ⟨x, mem_liveIn.mpr ⟨hx, hp, he.1⟩, rfl⟩
  have hnodup : ((liveIn o v.catalog).map fun x => comp.rank x.1).Nodup := by
    rw [nodup_iff_pairwise_ne, pairwise_map]
    exact (h.ordered.sublist filter_sublist).imp fun hlt => hlt.ne
  rw [sizeOf, ← hset, toFinset_card_of_nodup hnodup, length_map]

theorem Leaves.isize_eq (h : Leaves comp v) (hi : v.inodes o = some i) (hdir : i.kind = .dir) :
    i.isize = (liveIn o v.catalog).length := by
  rw [h.counted.length_liveIn hi hdir]
  exact h.sized o i hi hdir

/-- Without a failure `vdfs4_rmdir` succeeds when the size is zero. -/
theorem Consistent.rmdir_succeeds_iff (h : Consistent comp v)
    (hs : Sized v (entries comp v.catalog))
    {e : Dentry} (he : e.Held comp v (· = .dir)) (hi : v.inodes e.ino = some i) :
    (∃ w, vdfs4Rmdir comp {} v e.dir e.name e.ino = some (none, w)) ↔ i.isize = 0 := by
  obtain ⟨j, hj, hkind⟩ := he.inode
  obtain rfl : j = i := mem_unique hj hi
  have hremoves : UnlinkFaults.Removes {} j ↔ j.isize = 0 := by
    have hdrops : UnlinkFaults.Drops {} j := by
      rw [UnlinkFaults.Drops]
      split <;> exact ⟨rfl, rfl⟩
    exact ⟨fun hr => hr.1 hkind, fun hz => ⟨fun _ => hz, hdrops⟩⟩
  rcases h.removeInode_cases hs (h.liveDir_ne_zero he.dir) he.entry hi {} (if_pos hkind) with
    ⟨-, hmax⟩ | ⟨_, w, heq, -, -, -, hno⟩ | ⟨w, heq, -, hyes⟩ | ⟨_, w, heq, -, ⟨hhard, -⟩, -⟩
  · -- a directory has one link
    obtain ⟨-, i', hi', hl, -⟩ := h.exists_of_entry he.entry
    obtain rfl : i' = j := mem_unique hi' hi
    rw [h.single_nlink hi ((h.settled _ i' hi).dir_single hkind) hl] at hmax
    exact absurd hmax (by decide)
  · rw [heq, ← hremoves]
    refine ⟨?_, fun hr => absurd hr hno⟩
    rintro ⟨_, hw⟩
    cases hw
  · rw [heq]
    exact ⟨fun _ => hremoves.mp hyes, fun _ => ⟨w, rfl⟩⟩
  · rw [(h.settled _ j hi).dir_single hkind] at hhard
    cases hhard

/-- **The size of a directory is its number of live entries**, in every run whose failures are
undone, and so an empty directory is one that `vdfs4_rmdir` removes. -/
theorem directory_size_counts_entries
    (hrun : Reaches (TreeOp.Sound comp) (treeStep comp) emptyVolume v') :
    (∀ dir d, v'.inodes dir = some d → d.kind = .dir → d.isize = (liveIn dir v'.catalog).length) ∧
      ∀ e : Dentry, (TreeOp.rmdir {} e).Issued comp v' →
        ((∃ w, vdfs4Rmdir comp {} v' e.dir e.name e.ino = some (none, w)) ↔
          liveIn e.ino v'.catalog = []) := by
  have hleaves := leaves_of_reaches emptyVolume_leaves hrun
  refine ⟨fun dir d hd hdir => hleaves.isize_eq hd hdir, ?_⟩
  rintro e ⟨hro, he⟩
  obtain ⟨i, hi, hkind⟩ := he.inode
  rw [(hleaves.consistent hro).rmdir_succeeds_iff hleaves.sized he hi, hleaves.isize_eq hi hkind,
    length_eq_zero_iff]

/-- A directory and a file in it with two names; the first name is renamed over the second one with
a whiteout, a failed creation, and the end of the file. -/
def treeOps : List TreeOp :=
  let a := nameA
  let b := nameB
  let d := nameD
  [.create {} 1 d .dir 2, .create {} 2 a .reg 3, .link {} 2 b 3,
    .create { acl := some .enospc } 2 d .reg 4,
    .create {} 1 a .reg 4, .rename {} ⟨1, a, 4⟩ 2 b (some 3) (some 5),
    .unlink {} ⟨2, a, 3⟩, .evict {} 3]

theorem directory_size_sample :
    ∃ v', Reaches (TreeOp.Sound .caseSensitive) (treeStep .caseSensitive) emptyVolume v' ∧
      (liveIn 2 v'.catalog).length = 1 ∧ ∃ d, v'.inodes 2 = some d ∧ d.isize = 1 := by
  have hrun : (guardedRun (TreeOp.Sound .caseSensitive) (treeStep .caseSensitive) treeOps
    emptyVolume).map
      (fun v => ((liveIn 2 v.catalog).length, (v.inodes 2).map CatalogInode.kind)) =
        some (1, some .dir) := by decide +kernel
  obtain ⟨v', hv', heq⟩ := map_eq_some_iff.mp hrun
  obtain ⟨hlen, hkind⟩ := Prod.mk.inj heq
  obtain ⟨d, hd, hdir⟩ := map_eq_some_iff.mp hkind
  have hreach := reaches_of_guardedRun hv'
  refine ⟨v', hreach, hlen, d, hd, ?_⟩
  rw [(directory_size_counts_entries hreach).1 2 d hd hdir, hlen]

/-- A file gets a second name and loses both; the write of its predecessor in the orphan list fails
behind the last one. -/
def lostReferenceOps : List TreeOp :=
  let a := nameA
  let b := nameB
  [.create {} 1 a .reg 2, .link {} 1 b 2, .unlink {} ⟨1, a, 2⟩,
    .unlink { orphan := some .enomem } ⟨1, b, 2⟩]

/-- **An empty directory with a size**: the last reference is gone, and the size still counts it. -/
theorem unlink_keeps_size_of_lost_reference :
    ∃ v', Reaches (TreeOp.Issued .caseSensitive) (treeStep .caseSensitive) emptyVolume v' ∧
      liveIn 1 v'.catalog = [] ∧ ∃ d, v'.inodes 1 = some d ∧ d.kind = .dir ∧ d.isize = 1 := by
  have hrun : (guardedRun (TreeOp.Issued .caseSensitive) (treeStep .caseSensitive) lostReferenceOps
      emptyVolume).map (fun v => (liveIn 1 v.catalog, (v.inodes 1).map fun d =>
        (d.kind, d.isize))) =
        some ([], some (.dir, 1)) := by decide +kernel
  obtain ⟨v', hv', heq⟩ := map_eq_some_iff.mp hrun
  obtain ⟨hlive, hroot⟩ := Prod.mk.inj heq
  obtain ⟨d, hd, hdir⟩ := map_eq_some_iff.mp hroot
  obtain ⟨hkind, hsize⟩ := Prod.mk.inj hdir
  exact ⟨v', reaches_of_guardedRun hv', hlive, d, hd, hkind, hsize⟩

/-- **Links and entries agree in every such run** without a fatal error: an inode has as many links
as entries name it and is marked as an orphan exactly if none does, and every entry names an inode
with links and stands in a live directory. -/
theorem links_count_entries (hrun : Reaches (TreeOp.Sound comp) (treeStep comp) emptyVolume v')
    (hrw : v'.readOnly = false) :
    (∀ o i, v'.inodes o = some i → i.nlink = linksOf (entries comp v'.catalog) o ∧
      (i.orphan = true ↔ i.nlink = 0)) ∧
    ∀ x ∈ v'.catalog, IsEntry x → (∃ i, v'.inodes x.1.objectId = some i ∧ i.nlink ≠ 0) ∧
      (x.1.parentId = 0 ∨ LiveDir v' x.1.parentId) := by
  have h := (leaves_of_reaches emptyVolume_leaves hrun).consistent hrw
  refine ⟨fun o i hi => ⟨(h.settled o i hi).links, (h.settled o i hi).orphan_iff⟩, ?_⟩
  intro x hx he
  have hmem : comp.rank x.1 ∈ entries comp v'.catalog := mem_entries.mpr ⟨x, hx, he, rfl⟩
  obtain ⟨-, i, hi, hl, -⟩ := h.exists_of_entry hmem
  exact ⟨⟨i, hi, hl⟩, h.parent _ hmem⟩

theorem links_count_sample : ∃ v',
    guardedRun (TreeOp.Sound .caseSensitive) (treeStep .caseSensitive)
    (treeOps.take 3) emptyVolume =
      some v' ∧ v'.readOnly = false ∧ (v'.inodes 3).map CatalogInode.nlink = some 2 ∧
    linksOf (entries .caseSensitive v'.catalog) 3 = 2 := by
  have hrun : (guardedRun (TreeOp.Sound .caseSensitive) (treeStep .caseSensitive) (treeOps.take 3)
      emptyVolume).map (fun v => (v.readOnly, (v.inodes 3).map CatalogInode.nlink)) =
        some (false, some 2) := by decide +kernel
  obtain ⟨v', hv', heq⟩ := map_eq_some_iff.mp hrun
  obtain ⟨hrw, hlinks⟩ := Prod.mk.inj heq
  obtain ⟨i, hi, htwo⟩ := map_eq_some_iff.mp hlinks
  refine ⟨v', hv', hrw, hlinks, ?_⟩
  rw [← ((links_count_entries (reaches_of_guardedRun hv') hrw).1 3 i hi).1, htwo]

end Vdfs4
