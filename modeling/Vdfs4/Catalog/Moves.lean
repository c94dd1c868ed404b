import Vdfs4.Catalog.Departures

/-!
# What `vdfs4_rename` leaves

The new record is placed before the old one goes, and a failure in between takes the new one away
again. With a whiteout the move is over when the whiteout is created; if that fails, **the entry
moves back**. As long as no undoing fails, a failed call changes nothing that users see.

* `Renameable` — what the callers guarantee; `RenameFaults.UndoClean` — no undoing fails;
* `renameTail_spec` — the part behind the removal of an existing target.
-/

namespace Vdfs4

open Option hiding map_map
open Comparison Volume CatalogInode Finset

variable {comp : Comparison} {c c₁ c₂ : Catalog} {v v' : Volume} {x : CattreeKey × CatalogRecord}
  {o d d' m : Nat} {n n' : CString} {i j : CatalogInode} {r : CatalogRecord} {k : CattreeKey}
  {t : RecordType} {E : Finset Comparison.Rank} {f : RenameFaults}

/-! ### Steps that every move has -/

/-- **The undoing of a placement** after a removal failed: what that removal lost stays lost. -/
theorem EntryPlaced.undo (hc : c.Ordered comp) (hp : EntryPlaced comp c c₁ ⟨d', n', o⟩ r)
    (hod : o ≠ d') (hr : r.recordType ≠ .ilink) (hl : LostIlink comp c₁ c₂ k)
    (hne : comp.rank ⟨d', n', o⟩ ≠ comp.rank k.ilinkKey)
    (hne' : comp.rank ⟨d', n', o⟩ ≠ comp.rank k) :
    ∃ c3, vdfs4CattreeRemove comp {} c₂ o d' n' r.recordType = (none, c3) ∧ LostIlink comp c c3 k ∧
      (c₂ = c₁ → c3 = c) := by
  have hentry : ((⟨d', n', o⟩, r) : CattreeKey × CatalogRecord) ∈ c₂ :=
    (hl.keep _ ((hp.mem_iff _).mpr (.inl rfl))).resolve_right hne
  obtain ⟨c3, heq, hrem⟩ := EntryPlaced.remove (t := r.recordType) hl.ordered hod hr
    ⟨_, hentry, rfl⟩ fun hn => by
      refine ⟨(CattreeKey.ilinkKey ⟨d', n', o⟩, .blank .ilink), ?_, rfl⟩
      refine (hl.keep _ ((hp.mem_iff _).mpr (.inr (.inl ⟨hn, rfl⟩)))).resolve_right fun heq => ?_
      exact hne' (rank_ilinkKey_inj.mp heq)
  refine ⟨c3, heq, ⟨hrem.ordered, fun x hx => ?_, fun x hx => ?_⟩, fun hsame => ?_⟩
  · obtain ⟨hx2, hmain, hil⟩ := (hrem.mem_iff x).mp hx
    rcases (hp.mem_iff x).mp (hl.sub x hx2) with rfl | ⟨hn, rfl⟩ | hx
    · exact absurd rfl hmain
    · exact absurd rfl (hil hn)
    · exact hx
  · refine (hl.keep x ((hp.mem_iff x).mpr (.inr (.inr hx)))).imp_left fun hx2 => ?_
    exact (hrem.mem_iff x).mpr ⟨hx2, hp.fresh x hx, fun hn => hp.fresh_ilink hn x hx⟩
  · subst hsame
    exact hp.removed_eq hc hrem

namespace Consistent

theorem resized (h : Consistent comp v) (halike : AlikeBut v v' fun _ => False)
    (hcat : v'.catalog = v.catalog) (hlist : v'.orphanInodes = v.orphanInodes) :
    Consistent comp v' := by
  refine h.of_changed (T := fun _ => False) id halike hlist (fun _ _ hT => hT.elim)
    (fun x _ => by rw [hcat]) ?_ (fun _ hT => hT.elim) (fun ρ hρ => ?_) fun _ _ _ _ hT => hT.elim
  · rw [hcat]
    exact h.ordered
  · rw [hcat] at hρ
    exact h.parent ρ hρ

/-- The directory of an entry is not inside the inode of the entry. -/
theorem entry_not_inside (h : Consistent comp v) (hd : d ≠ 0)
    (he : comp.rank ⟨d, n, o⟩ ∈ entries comp v.catalog) :
    LiveDir v d ∧ ∀ dd, v.inodes d = some dd → dd.parentId ≠ o := by
  have hdir : LiveDir v d := (h.parent _ he).resolve_left hd
  refine ⟨hdir, fun dd hdd hp => ?_⟩
  obtain ⟨dd', hdd', hkind, hlinks⟩ := hdir
  obtain rfl := mem_unique hdd hdd'
  have hs := (h.settled d dd hdd).dir_single hkind
  obtain ⟨-, i, hi, -, -, hkey⟩ := h.exists_of_entry he
  rcases h.live_parent hdd hs hlinks with hz | ⟨m, hm, hmdir, -⟩
  · exact (h.settled o i hi).ne_zero (hp.symm.trans hz)
  rw [hp] at hm
  obtain rfl := mem_unique hi hm
  have his := (h.settled o i hi).dir_single hmdir
  have hrank := hkey his
  rw [recordKey_single his] at hrank
  exact h.unlooped d dd o i hdd hi hs his hp (rank_eq_iff.mp hrank).1

end Consistent

/-! ### The contract -/

/-- **What the callers of `vdfs4_rename` guarantee** when an existing target is gone: the old entry
is there, the new directory is alive and not inside the inode, the new entry is not there, and the
number for a whiteout is not in use. -/
structure Renameable (comp : Comparison) (v : Volume) (old : Dentry) (newDir : Nat)
    (newName : CString) (whiteout : Option Nat) : Prop where
  old_mem : comp.rank old.key ∈ entries comp v.catalog
  old_dir : old.dir ≠ 0
  dir : LiveDir v newDir
  ne_dir : old.ino ≠ newDir
  inside : ∀ dd, v.inodes newDir = some dd → dd.parentId ≠ old.ino
  new : comp.rank ⟨newDir, newName, old.ino⟩ ∉ entries comp v.catalog
  unused : ∀ w, whiteout = some w → w ≠ 0 ∧ v.inodes w = none

/-- No step that undoes an earlier one fails. -/
def RenameFaults.UndoClean (f : RenameFaults) : Prop :=
  f.place.undo = {} ∧ f.undo = {} ∧ f.whiteout.place.undo = {} ∧ f.whiteout.evict = {} ∧
    f.replace = {} ∧ f.removeNew = {}

instance (f : RenameFaults) : Decidable f.UndoClean :=
  inferInstanceAs (Decidable (_ ∧ _ ∧ _ ∧ _ ∧ _ ∧ _))

/-- The kinds of the inodes after a call that may have made a whiteout. -/
def KindsBut (v v' : Volume) (whiteout : Option Nat) : Prop :=
  ∀ m, (v'.inodes m).map kind =
    if some m = whiteout then some .chr else (v.inodes m).map kind

/-- What a rename leaves. -/
structure Renamed (comp : Comparison) (v v' : Volume) (e : Option Errno) (whiteout : Option Nat) :
    Prop where
  consistent : Consistent comp v'
  sized : Sized v' (entries comp v'.catalog)
  readOnly : v'.readOnly = v.readOnly
  failed : e ≠ none → SameTree comp v v'
  kinds : KindsBut v v' (if e = none then whiteout else none)

theorem Renamed.refl (h : Consistent comp v) (hs : Sized v (entries comp v.catalog)) (e : Errno)
    (whiteout : Option Nat) : Renamed comp v v (some e) whiteout :=
  ⟨h, hs, rfl, fun _ => .refl comp v, fun m => by simp⟩

/-! ### The entry has moved -/

/-- A directory and a name are written into an inode, unless its records are hard links. -/
def Volume.relocated (v : Volume) (o : Nat) (i : CatalogInode) (d : Nat) (n : CString) : Volume :=
  if i.hardLink then v else v.modifyInode o fun j => { j with parentId := d, name := n }

namespace Volume

theorem relocated_catalog : (v.relocated o i d n).catalog = v.catalog := by
  rw [relocated]
  split <;> rfl

theorem relocated_list : (v.relocated o i d n).orphanInodes = v.orphanInodes := by
  rw [relocated]
  split <;> rfl

theorem relocated_readOnly : (v.relocated o i d n).readOnly = v.readOnly := by
  rw [relocated]
  split <;> rfl

theorem relocated_self (hi : v.inodes o = some { i with recordType := t }) :
    (v.relocated o i d n).inodes o = some (i.movedTo d n t) := by
  rw [relocated, movedTo]
  split
  · exact hi
  · rw [modifyInode_self, hi]
    rfl

theorem relocated_of_ne (hm : m ≠ o) : (v.relocated o i d n).inodes m = v.inodes m := by
  rw [relocated]
  split
  · rfl
  · exact modifyInode_of_ne _ _ hm

/-- The inode in memory after the move. -/
def withMoved (v : Volume) (o : Nat) (i : CatalogInode) (c : Catalog) (d : Nat) (n : CString)
    (t : RecordType) : Volume :=
  relocated { v.modifyInode o fun i => { i with recordType := t } with catalog := c } o i d n

theorem withMoved_catalog : (v.withMoved o i c d n t).catalog = c := relocated_catalog

theorem withMoved_list : (v.withMoved o i c d n t).orphanInodes = v.orphanInodes := relocated_list

theorem withMoved_readOnly : (v.withMoved o i c d n t).readOnly = v.readOnly := relocated_readOnly

theorem withMoved_self (hi : v.inodes o = some i) :
    (v.withMoved o i c d n t).inodes o = some (i.movedTo d n t) := by
  refine relocated_self ?_
  rw [modifyInode_self, hi]
  rfl

theorem withMoved_of_ne (hm : m ≠ o) : (v.withMoved o i c d n t).inodes m = v.inodes m :=
  (relocated_of_ne hm).trans (modifyInode_of_ne _ _ hm)

end Volume

/-- **Sizes after a move.** -/
theorem sized_renameSizes (h : Sized v E) (hold : comp.rank ⟨d, n, o⟩ ∈ E)
    (hnew : comp.rank ⟨d', n', o⟩ ∉ E) :
    Sized (renameSizes v d d')
      ((insert (comp.rank ⟨d', n', o⟩) E).erase (comp.rank ⟨d, n, o⟩)) := by
  have hne : comp.rank ⟨d', n', o⟩ ≠ comp.rank ⟨d, n, o⟩ := fun heq => hnew (heq ▸ hold)
  rw [erase_insert_of_ne hne]
  have herase := h.erase (v := v) hold (v.modifyInode_self _) fun m j hm hj =>
    ⟨j, (v.modifyInode_of_ne _ hm).symm.trans hj, rfl, rfl⟩
  refine herase.insert (fun hmem => hnew (mem_of_mem_erase hmem)) (modifyInode_self _ _)
    fun m j hm hj _ => .inl ?_
  exact (modifyInode_of_ne _ _ hm).symm.trans hj

theorem alike_renameSizes (v : Volume) (d d' : Nat) :
    AlikeBut v (renameSizes v d d') fun _ => False := by
  have hmodify : ∀ (v : Volume) (d : Nat) (f : Nat → Nat) (m : Nat),
      ((v.modifyInode d fun i => { i with isize := f i.isize }).inodes m).map sizeless =
        (v.inodes m).map sizeless := by
    intro v d f m
    by_cases hm : m = d
    · rw [hm, modifyInode_self, Option.map_map]
      rfl
    · rw [modifyInode_of_ne _ _ hm]
  intro m _
  exact (hmodify _ d' (· + 1) m).trans (hmodify v d (· - 1) m)

/-- A change of sizes keeps the kinds. -/
theorem AlikeBut.kinds (h : AlikeBut v v' fun _ => False) (m : Nat) :
    (v'.inodes m).map kind = (v.inodes m).map kind := by
  have hkind := congrArg (Option.map kind) (h m id)
  rwa [Option.map_map, Option.map_map] at hkind

section Rename

variable {old : Dentry} {newDir : Nat} {newName : CString} {whiteout : Option Nat}

/-- The volume in which the entry has moved, with the sizes as they were. -/
structure EntryMoved (comp : Comparison) (v w : Volume) (old : Dentry) (i : CatalogInode)
    (newDir : Nat) (newName : CString) (t : RecordType) : Prop where
  consistent : Consistent comp w
  entries_eq : entries comp w.catalog =
    (insert (comp.rank ⟨newDir, newName, old.ino⟩) (entries comp v.catalog)).erase
    (comp.rank old.key)
  self : w.inodes old.ino = some (i.movedTo newDir newName t)
  others : ∀ m, m ≠ old.ino → w.inodes m = v.inodes m
  list : w.orphanInodes = v.orphanInodes
  readOnly : w.readOnly = v.readOnly
  back_link : t ≠ .hlink → ∃ x ∈ w.catalog,
    comp.rank x.1 = comp.rank (CattreeKey.ilinkKey ⟨newDir, newName, old.ino⟩)

theorem Consistent.entryMoved (h : Consistent comp v)
    (hr : Renameable comp v old newDir newName whiteout) (hi : v.inodes old.ino = some i)
    (hfits : FitsMove i r) (hrt : r.recordType = t)
    (htype : i.hardLink = false → t = .folder ∨ t = .file)
    (hplaced : EntryPlaced comp v.catalog c₁ ⟨newDir, newName, old.ino⟩ r)
    (hremoved : EntryRemoved comp c₁ c₂ old.key t) :
    EntryMoved comp v (v.withMoved old.ino i c₂ newDir newName t) old i newDir newName t := by
  subst hrt
  have hself := withMoved_self (c := c₂) (d := newDir) (n := newName) (t := r.recordType) hi
  have hcat := withMoved_catalog (v := v) (o := old.ino) (i := i) (c := c₂) (d := newDir)
    (n := newName) (t := r.recordType)
  have hremoved' := hremoved
  rw [← hcat] at hremoved'
  obtain ⟨hcons, hentries⟩ := h.moved hi hr.old_mem hr.old_dir hr.dir hr.ne_dir hr.inside hr.new
    hfits hplaced hremoved' htype hself rfl rfl (fun m hm => by rw [withMoved_of_ne hm])
    withMoved_list
  refine ⟨hcons, hentries, hself, fun m hm => withMoved_of_ne hm, withMoved_list,
    withMoved_readOnly, fun hn =>
    ⟨(CattreeKey.ilinkKey ⟨newDir, newName, old.ino⟩, .blank .ilink), ?_, rfl⟩⟩
  refine (hremoved'.mem_iff _).mpr ⟨(hplaced.mem_iff _).mpr (.inr (.inl ⟨hn, rfl⟩)), fun heq => ?_,
    fun _ heq => hr.new ?_⟩
  · exact (h.exists_of_entry hr.old_mem).1 (rank_eq_iff.mp heq).1
  · rw [rank_ilinkKey_inj.mp heq]
    exact hr.old_mem

section

variable (hm : EntryMoved comp v v' old i newDir newName t)

include hm

/-- The sizes are those of the entries before the move. -/
theorem EntryMoved.sized (hi : v.inodes old.ino = some i) (hs : Sized v E) : Sized v' E := by
  refine hs.stay fun m => ?_
  by_cases ho : m = old.ino
  · rw [ho, hm.self, hi, movedTo]
    split <;> rfl
  · rw [hm.others m ho]

theorem EntryMoved.kinds (hi : v.inodes old.ino = some i) (m : Nat) :
    (v'.inodes m).map kind = (v.inodes m).map kind := by
  by_cases ho : m = old.ino
  · rw [ho, hm.self, hi, movedTo]
    split <;> rfl
  · rw [hm.others m ho]

/-- **The move is over** when no whiteout is asked for. -/
theorem EntryMoved.renamed
    (hr : Renameable comp v old newDir newName whiteout) (hi : v.inodes old.ino = some i)
    (hs : Sized v (entries comp v.catalog)) :
    Renamed comp v (renameSizes v' old.dir newDir) none none := by
  have halike := alike_renameSizes v' old.dir newDir
  refine ⟨hm.consistent.resized halike rfl rfl, ?_, hm.readOnly, fun hne =>
    absurd rfl hne, fun m => ?_⟩
  · have hentries : entries comp (renameSizes v' old.dir newDir).catalog = _ := hm.entries_eq
    rw [hentries]
    exact sized_renameSizes (hm.sized hi hs) hr.old_mem hr.new
  · rw [if_pos rfl, if_neg nofun, halike.kinds, hm.kinds hi]

/-- **The move is over** when the whiteout is created. -/
theorem EntryMoved.renamed_whiteout {u : Nat}
    (h : Consistent comp v) (hr : Renameable comp v old newDir newName (some u))
    (hi : v.inodes old.ino = some i) (hs : Sized v (entries comp v.catalog)) {w : Volume}
    (hnew : InodeCreated comp v' w old.dir old.name u .chr) :
    Renamed comp v (renameSizes w old.dir newDir) none (some u) := by
  obtain ⟨hu, hnone⟩ := hr.unused u rfl
  have halike := alike_renameSizes w old.dir newDir
  have huo : u ≠ old.ino := by
    rintro rfl
    rw [hnone] at hi
    cases hi
  have hE : comp.rank ⟨old.dir, old.name, u⟩ ∉ entries comp v.catalog := fun hmem => by
    obtain ⟨-, i', hi', -⟩ := h.exists_of_entry hmem
    rw [hnone] at hi'
    cases hi'
  have hsized := hnew.sized (hm.sized hi hs) hE (h.parent_ne_unused hu hnone)
  have hne : comp.rank ⟨old.dir, old.name, u⟩ ≠ comp.rank old.key := fun heq =>
    huo (rank_eq_iff.mp heq).2.2
  have hne' : comp.rank ⟨newDir, newName, old.ino⟩ ≠ comp.rank ⟨old.dir, old.name, u⟩ := fun heq =>
    huo (rank_eq_iff.mp heq).2.2.symm
  refine ⟨hnew.consistent.resized halike rfl rfl, ?_, hnew.readOnly.trans hm.readOnly,
    fun hne => absurd rfl hne, fun m => ?_⟩
  · have hentries : entries comp (renameSizes w old.dir newDir).catalog = _ := hnew.entries
    rw [hentries, hm.entries_eq, ← erase_insert_of_ne hne, insert_comm]
    refine sized_renameSizes hsized (mem_insert_of_mem hr.old_mem) fun hmem => ?_
    exact (mem_insert.mp hmem).elim hne' hr.new
  rw [if_pos rfl, halike.kinds]
  by_cases hmu : m = u
  · subst hmu
    obtain ⟨j, hj, -, hkind⟩ := hnew.inode
    rw [if_pos rfl, hj, map_some, hkind]
  · rw [if_neg fun heq => hmu (some.inj heq), ← hm.kinds hi m]
    by_cases hmd : m = old.dir
    · rw [hmd, hnew.dir, Option.map_map]
      rfl
    · rw [hnew.others m hmu hmd]

end

/-! ### Ways back -/

/-- A move and the move back leave an inode where it was. -/
theorem CatalogInode.movedTo_back (hkey : i.hardLink = false → i.parentId = d) :
    ((i.movedTo d' n' t).movedTo d i.name t) = { i with recordType := t } := by
  by_cases hh : i.hardLink = true
  · rw [movedTo_hard hh]
    exact movedTo_hard hh
  · have hs : i.hardLink = false := Bool.eq_false_iff.mpr hh
    rw [movedTo_single hs, ← hkey hs]
    exact movedTo_single hs

/-- The inodes are the same but for a record type. -/
theorem sameOutline_of_recordType (hi : v.inodes o = some i)
    (hself : v'.inodes o = some { i with recordType := t })
    (hothers : ∀ m, m ≠ o → v'.inodes m = v.inodes m) : SameOutline v v' := by
  intro m
  by_cases hm : m = o
  · rw [hm, hself, hi]
    rfl
  · rw [hothers m hm]

/-- A failed rename, when the entries and the inodes in outline are the same. -/
theorem Renamed.of_outline (hcons : Consistent comp v') (hs : Sized v (entries comp v.catalog))
    (hentries : entries comp v'.catalog = entries comp v.catalog) (hro : v'.readOnly = v.readOnly)
    (hout : SameOutline v v') (e : Errno) : Renamed comp v v' (some e) whiteout := by
  refine ⟨hcons, ?_, hro, fun _ => hout.sameTree hentries, fun m => ?_⟩
  · rw [hentries]
    exact hout.sized hs
  · rw [if_neg (by simp)]
    exact hout.kinds m

/-- The volume in which the entry has moved back. -/
structure EntryBack (comp : Comparison) (v w : Volume) (o : Nat) (i : CatalogInode)
    (t : RecordType) : Prop where
  consistent : Consistent comp w
  entries_eq : entries comp w.catalog = entries comp v.catalog
  self : w.inodes o = some { i with recordType := t }
  others : ∀ m, m ≠ o → w.inodes m = v.inodes m
  list : w.orphanInodes = v.orphanInodes
  readOnly : w.readOnly = v.readOnly

/-- **The way back**: the old record is placed again and the new one is removed. -/
theorem EntryMoved.entryBack (hm : EntryMoved comp v v' old i newDir newName t)
    (h : Consistent comp v)
    (hr : Renameable comp v old newDir newName whiteout) (hi : v.inodes old.ino = some i)
    (hfits : FitsMove i r) (hrt : r.recordType = t)
    (htype : i.hardLink = false → t = .folder ∨ t = .file)
    (hplaced : EntryPlaced comp v'.catalog c₁ old.key r)
    (hremoved : EntryRemoved comp c₁ c₂ ⟨newDir, newName, old.ino⟩ t) :
    EntryBack comp v (v'.withMoved old.ino (i.movedTo newDir newName t) c₂ old.dir i.name t)
    old.ino i t := by
  subst hrt
  obtain ⟨hod, i', hi', -, -, hkey⟩ := h.exists_of_entry hr.old_mem
  obtain rfl : i' = i := mem_unique hi' hi
  obtain ⟨⟨dd, hdd, hddir⟩, hinside⟩ := h.entry_not_inside hr.old_dir hr.old_mem
  obtain ⟨-, -, -, hh1, -⟩ := movedTo_fields
    (rfl : (i'.movedTo newDir newName r.recordType).sizeless = _)
  have hself := withMoved_self (c := c₂) (d := old.dir) (n := i'.name) (t := r.recordType) hm.self
  have hcat := withMoved_catalog (v := v') (o := old.ino)
    (i := i'.movedTo newDir newName r.recordType) (c := c₂) (d := old.dir) (n := i'.name)
    (t := r.recordType)
  have hnew : comp.rank old.key ∉ entries comp v'.catalog := by
    rw [hm.entries_eq]
    exact notMem_erase _ _
  have hnewmem : comp.rank ⟨newDir, newName, old.ino⟩ ∈ entries comp v'.catalog := by
    rw [hm.entries_eq]
    exact mem_erase.mpr ⟨fun heq => hr.new (heq ▸ hr.old_mem), mem_insert_self _ _⟩
  have hparent : i'.hardLink = false → i'.parentId = old.dir ∧
      comp.rank ⟨old.dir, i'.name, old.ino⟩ = comp.rank old.key := by
    intro hs
    have hrank := hkey hs
    rw [recordKey_single hs] at hrank
    have hp : i'.parentId = old.dir := (rank_eq_iff.mp hrank).1
    exact ⟨hp, hp ▸ hrank⟩
  -- the name in memory may differ from the one in the entry, but not for the comparison function
  obtain ⟨m, hname, hj⟩ : ∃ m, comp.rank ⟨old.dir, m, old.ino⟩ = comp.rank old.key ∧
      ((i'.movedTo newDir newName r.recordType).movedTo old.dir i'.name r.recordType).sizeless =
        ((i'.movedTo newDir newName r.recordType).movedTo old.dir m r.recordType).sizeless := by
    by_cases hh : i'.hardLink = true
    · refine ⟨old.name, rfl, ?_⟩
      rw [movedTo_hard (hh1.trans hh), movedTo_hard (hh1.trans hh)]
    · exact ⟨i'.name, (hparent (Bool.eq_false_iff.mpr hh)).2, rfl⟩
  have hfits1 : FitsMove (i'.movedTo newDir newName r.recordType) r :=
    ⟨fun hh => hfits.hard (hh1 ▸ hh), fun hh => hfits.single (hh1 ▸ hh), hfits.linked⟩
  rw [← hcat] at hremoved
  obtain ⟨hcons, hentries⟩ := hm.consistent.moved hm.self hnewmem (h.liveDir_ne_zero hr.dir)
    ⟨dd, (hm.others _ hod.symm).trans hdd, hddir⟩ hod
    (fun dd hdd => hinside dd ((hm.others _ hod.symm).symm.trans hdd)) hnew hfits1 hplaced hremoved
    (fun hs => htype (hh1 ▸ hs)) hself hname hj (fun m hm => by rw [withMoved_of_ne hm])
    withMoved_list
  rw [movedTo_back fun hs => (hparent hs).1] at hself
  refine ⟨hcons, ?_, hself, fun m ho => (withMoved_of_ne ho).trans (hm.others m ho),
    withMoved_list.trans hm.list, withMoved_readOnly.trans hm.readOnly⟩
  have hinsert : insert (comp.rank old.key) (entries comp v'.catalog) =
      insert (comp.rank ⟨newDir, newName, old.ino⟩) (entries comp v.catalog) := by
    rw [hm.entries_eq, insert_erase (mem_insert_of_mem hr.old_mem)]
  rw [hentries]
  exact (congrArg (erase · _) hinsert).trans (erase_insert hr.new)

/-- **`error_whiteout` moves the entry back.** -/
theorem EntryMoved.back (hm : EntryMoved comp v v' old i newDir newName t) (h : Consistent comp v)
    (hs : Sized v (entries comp v.catalog)) (hr : Renameable comp v old newDir newName whiteout)
    (hi : v.inodes old.ino = some i) (hhard : i.hardLink = true → t = .hlink)
    (htype : i.hardLink = false → t = .folder ∨ t = .file) (hreplace : f.replace = {})
    (hremove : f.removeNew = {}) (e : Errno) :
    ∃ w, errorWhiteout comp f v' e old i newDir newName t = some (some e, w) ∧
      Renamed comp v w (some e) whiteout := by
  obtain ⟨hod, i', hi', hl, horphan, -⟩ := h.exists_of_entry hr.old_mem
  obtain rfl : i' = i := mem_unique hi' hi
  obtain ⟨⟨dd, hdd, hddir⟩, hinside⟩ := h.entry_not_inside hr.old_dir hr.old_mem
  have hdirw : LiveDir v' old.dir := ⟨dd, (hm.others _ hod.symm).trans hdd, hddir⟩
  have hinsidew : ∀ dd, v'.inodes old.dir = some dd → dd.parentId ≠ old.ino := fun dd hdd =>
    hinside dd ((hm.others _ hod.symm).symm.trans hdd)
  obtain ⟨-, hl1, -, hh1, -⟩ := movedTo_fields
    (rfl : (i'.movedTo newDir newName t).sizeless = _)
  have hnew : comp.rank old.key ∉ entries comp v'.catalog := by
    rw [hm.entries_eq]
    exact notMem_erase _ _
  have hnewmem : comp.rank ⟨newDir, newName, old.ino⟩ ∈ entries comp v'.catalog := by
    rw [hm.entries_eq]
    exact mem_erase.mpr ⟨fun heq => hr.new (heq ▸ hr.old_mem), mem_insert_self _ _⟩
  have hfree : Free comp v'.catalog old.key := hm.consistent.free hdirw hod hinsidew
    (fun j hj => by rw [mem_unique hj hm.self, hl1]; exact hl) hnew
  have htn : t ≠ .ilink := by
    cases hh : i'.hardLink with
    | true => simp [hhard hh]
    | false => rcases htype hh with rfl | rfl <;> simp
  -- the old record is placed again
  rw [errorWhiteout]
  rcases placeAndFill_cases (t := t) hm.consistent.ordered (f := f.replace)
    (fun _ => by rw [hreplace])
      hod hfree i' with ⟨_, -, hwhy⟩ | ⟨c3, heq, hplaced⟩
  · rw [hreplace] at hwhy
    exact absurd hwhy (by simp)
  -- and the new one is removed
  obtain ⟨x, hx, -, hxrank⟩ := mem_entries.mp hnewmem
  obtain ⟨c4, heq4, hremoved⟩ := EntryPlaced.remove (t := t) hplaced.ordered hr.ne_dir htn
    ⟨x, (hplaced.mem_iff x).mpr (.inr (.inr hx)), hxrank⟩ fun hn => by
      obtain ⟨y, hy, hyrank⟩ := hm.back_link hn
      exact ⟨y, (hplaced.mem_iff y).mpr (.inr (.inr hy)), hyrank⟩
  rw [show placeAndFill comp f.replace v' old.ino i' old.dir old.name t = _ from heq]
  simp only [hremove, heq4]
  refine ⟨v'.withMoved old.ino (i'.movedTo newDir newName t) c4 old.dir i'.name t, ?_, ?_⟩
  · rw [withMoved, relocated, hh1]
  · have hfits := fitsMove_fillRecord (i := i') horphan hhard htype
    have hback := hm.entryBack h hr hi hfits (i'.fillRecord_type _) htype hplaced hremoved
    exact Renamed.of_outline hback.consistent hs hback.entries_eq hback.readOnly
      (sameOutline_of_recordType hi hback.self hback.others) e

section

variable (h : Consistent comp v) (hs : Sized v (entries comp v.catalog))
  (hr : Renameable comp v old newDir newName whiteout)

include h hs hr

/-- **The old entry could not be removed**: the new one goes again, and at most the back link of the
old one is lost. -/
theorem Consistent.rename_lost (hi : v.inodes old.ino = some i)
    (hfits : FitsMove i r) (hrt : r.recordType = t) (htn : t ≠ .ilink)
    (htype : i.hardLink = false → t = .folder ∨ t = .file)
    (hplaced : EntryPlaced comp v.catalog c₁ ⟨newDir, newName, old.ino⟩ r)
    (hlost : LostIlink comp c₁ c₂ old.key) (hsame : t = .hlink → c₂ = c₁) (e : Errno) :
    ∃ c3, vdfs4CattreeRemove comp {} c₂ old.ino newDir newName t = (none, c3) ∧
      Renamed comp v
        { v.modifyInode old.ino fun i => { i with recordType := t } with catalog := c3 } (some e)
        whiteout := by
  subst hrt
  obtain ⟨hod, i', hi', -, -, hkey⟩ := h.exists_of_entry hr.old_mem
  obtain rfl : i' = i := mem_unique hi' hi
  obtain ⟨c3, heq, hlost3, hundo⟩ := hplaced.undo h.ordered hr.ne_dir htn hlost
    (fun heq => hr.ne_dir (rank_eq_iff.mp heq).1.symm) fun heq => hr.new (heq ▸ hr.old_mem)
  refine ⟨c3, heq, ?_⟩
  have hkeep : ∀ x ∈ v.catalog, x.2.recordType ≠ .ilink → x ∈ c3 := by
    intro x hx ht
    by_cases hh : i'.hardLink = true
    · rw [hundo (hsame (hfits.hard hh))]
      exact hx
    · refine (hlost3.keep x hx).resolve_right fun hrank => ht ?_
      exact (h.ilink_of_entry hr.old_mem hi (Bool.eq_false_iff.mpr hh) hx hrank).2
  generalize hv' : ({ v.modifyInode old.ino _ with catalog := c3 } : Volume) = v'
  have hself : v'.inodes old.ino = some { i' with recordType := r.recordType } := by
    rw [← hv']
    exact (modifyInode_self _ _).trans (congrArg _ hi)
  have hothers : ∀ m, m ≠ old.ino → v'.inodes m = v.inodes m := fun m hm => by
    rw [← hv']
    exact modifyInode_of_ne _ _ hm
  have hcat : v'.catalog = c3 := by rw [← hv']
  have hlist : v'.orphanInodes = v.orphanInodes := by rw [← hv']; rfl
  obtain ⟨hcons, hentries⟩ := h.lost (by rw [hcat]; exact hlost3.ordered)
    (fun x hx => .inl (hlost3.sub x (hcat ▸ hx))) (by rw [hcat]; exact hkeep) hlist hi
    hself htype hothers
  exact Renamed.of_outline hcons hs hentries (by rw [← hv']; rfl)
    (sameOutline_of_recordType hi hself hothers) e

/-- **The part of `vdfs4_rename` behind the removal of a target**: it always ends, and when it fails
nothing that users see has changed. -/
theorem Consistent.renameTail_spec (hf : f.UndoClean) :
    ∃ e v', renameTail comp f v old newDir newName whiteout = some (e, v') ∧
      Renamed comp v v' e whiteout := by
  obtain ⟨hplace, hundo, hwplace, hwevict, hreplace, hremoveNew⟩ := hf
  obtain ⟨hod, i, hi, hl, horphan, -⟩ := h.exists_of_entry hr.old_mem
  obtain ⟨t, ht, hhard, htype⟩ := i.getRecordType_cases (h.settled _ i hi).kind
  have htn : t ≠ .ilink := by
    cases hh : i.hardLink with
    | true => simp [hhard hh]
    | false => rcases htype hh with rfl | rfl <;> simp
  have hfits := fitsMove_fillRecord (i := i) horphan hhard htype
  have hrt : (i.fillRecord (.blank t)).recordType = t := i.fillRecord_type _
  rw [renameTail, hi]
  simp only
  by_cases hname : i.hardLink = false ∧ f.name = true
  · rw [if_pos hname]
    exact ⟨_, _, rfl, .refl h hs _ _⟩
  rw [if_neg hname, ht]
  have hfree : Free comp v.catalog ⟨newDir, newName, old.ino⟩ := h.free hr.dir hr.ne_dir hr.inside
    (fun j hj => by rw [mem_unique hj hi]; exact hl) hr.new
  rcases placeAndFill_cases (t := t) h.ordered (f := f.place)
    (fun _ => hplace) hr.ne_dir hfree i with
    ⟨e, heq, -⟩ | ⟨c₁, heq, hplaced⟩
  · simp only [heq]
    exact ⟨_, _, rfl, .refl h hs _ _⟩
  simp only [heq]
  obtain ⟨x, hx, -, hxrank⟩ := mem_entries.mp hr.old_mem
  rcases remove_cases (t := t) hplaced.ordered f.remove hod htn
      ⟨x, (hplaced.mem_iff x).mpr (.inr (.inr hx)), hxrank⟩ with
    ⟨e, c₂, heq2, hlost, hsame, -⟩ | ⟨c₂, heq2, hremoved⟩
  · -- the old entry stays
    obtain ⟨c3, heq3, hren⟩ := h.rename_lost hs hr hi hfits hrt htn htype hplaced hlost hsame e
    simp only [heq2, hundo, heq3]
    exact ⟨_, _, rfl, hren⟩
  have hmoved := h.entryMoved hr hi hfits hrt htype hplaced hremoved
  simp only [heq2]
  cases whiteout with
  | none => exact ⟨_, _, rfl, hmoved.renamed hr hi hs⟩
  | some u =>
    obtain ⟨hu, hnone⟩ := hr.unused u rfl
    have huo : u ≠ old.ino := by
      rintro rfl
      rw [hnone] at hi
      cases hi
    obtain ⟨⟨dd, hdd, hddir⟩, -⟩ := h.entry_not_inside hr.old_dir hr.old_mem
    have hdirw : LiveDir (v.withMoved old.ino i c₂ newDir newName t) old.dir :=
      ⟨dd, (hmoved.others _ hod.symm).trans hdd, hddir⟩
    have hback := fun e => hmoved.back h hs hr hi hhard htype hreplace hremoveNew e
    simp only [vdfs4CreateWhiteout]
    by_cases hdentry : f.dentry = true
    · simp only [hdentry, if_true]
      obtain ⟨w, heqw, hren⟩ := hback .enomem
      exact ⟨_, w, heqw, hren⟩
    rw [if_neg hdentry]
    rcases hmoved.consistent.create_cases hdirw hu ((hmoved.others u huo).trans hnone)
        (f := f.whiteout) (fun _ => hwplace) hwevict old.name .chr with ⟨e, heqc⟩ | ⟨w, heqc, hnew⟩
    · obtain ⟨w, heqw, hren⟩ := hback e
      rw [withMoved, relocated] at heqc heqw
      rw [heqc]
      exact ⟨_, w, heqw, hren⟩
    · rw [withMoved, relocated] at heqc
      rw [heqc]
      exact ⟨_, _, rfl, hmoved.renamed_whiteout h hr hi hs hnew⟩

end

/-! ### The whole call -/

/-- The target of a rename is another inode with an entry under the new name. -/
def IsTarget (comp : Comparison) (v : Volume) (old : Dentry) (newDir : Nat) (newName : CString)
    (target : Option Nat) : Prop :=
  ∀ t, target = some t → t ≠ old.ino ∧ comp.rank ⟨newDir, newName, t⟩ ∈ entries comp v.catalog

/-- **The renames that drop the entry of an existing target** first: the name is not too long, and
the target can be removed. -/
def RenameFaults.DropsTarget (f : RenameFaults) (v : Volume) (newName : CString)
    (target : Option Nat) :
    Prop :=
  newName.length ≤ vdfs4FileNameLen ∧
    ∃ t, target = some t ∧ ∃ j, v.inodes t = some j ∧ f.target.Removes j

/-- The contract still holds when the target is gone. -/
theorem EntryDropped.renameable {t : Nat} (hd : EntryDropped comp v v' newDir newName t)
    (h : Consistent comp v) (hr : Renameable comp v old newDir newName whiteout) (hne : t ≠ old.ino)
    (he : comp.rank ⟨newDir, newName, t⟩ ∈ Vdfs4.entries comp v.catalog) :
    Renameable comp v' old newDir newName whiteout := by
  obtain ⟨htd, j, hj, -⟩ := h.exists_of_entry he
  have hcore := hd.cores newDir htd.symm
  refine ⟨?_, hr.old_dir, Consistent.liveDir_congr hr.dir hcore, hr.ne_dir, fun dd hdd => ?_,
    fun hmem => ?_, fun w hw => ?_⟩
  · rw [hd.entries]
    refine mem_erase.mpr ⟨fun heq => hne ?_, hr.old_mem⟩
    exact (rank_eq_iff.mp heq).2.2.symm
  · rw [hdd, map_some] at hcore
    obtain ⟨dd0, hdd0, heq⟩ := map_eq_some_iff.mp hcore.symm
    have hp : dd0.parentId = dd.parentId := congrArg (·.parentId) heq
    rw [← hp]
    exact hr.inside dd0 hdd0
  · rw [hd.entries] at hmem
    exact hr.new (mem_of_mem_erase hmem)
  · obtain ⟨hw0, hnone⟩ := hr.unused w hw
    refine ⟨hw0, ?_⟩
    have hcw := hd.cores w (by rintro rfl; rw [hnone] at hj; cases hj)
    rw [hnone, map_none] at hcw
    exact map_eq_none_iff.mp hcw

/-- **All ends of `vdfs4_rename`.** Without an entry of a target to drop, a failure changes nothing;
otherwise that entry is gone. -/
theorem Consistent.rename_cases (h : Consistent comp v) (hs : Sized v (entries comp v.catalog))
    (hr : Renameable comp v old newDir newName whiteout) {target : Option Nat}
    (ht : IsTarget comp v old newDir newName target) (hf : f.UndoClean) {e : Option Errno}
    (hcall : vdfs4Rename comp f v old newDir newName target whiteout = some (e, v')) :
    (Leaves comp v' ∧ (e ≠ none → SameTree comp v v') ∧ ¬ f.DropsTarget v newName target ∧
        KindsBut v v' (if e = none then whiteout else none)) ∨
      ∃ t j, target = some t ∧ v.inodes t = some j ∧ f.target.Removes j ∧
        f.DropsTarget v newName target ∧
        (e ≠ none → entries comp v'.catalog =
          (entries comp v.catalog).erase (comp.rank ⟨newDir, newName, t⟩)) ∧
        (Leaves comp v' ∧ KindsBut v v' (if e = none then whiteout else none) ∨
          j.hardLink = true ∧ j.nlink = 1 ∧ (f.target.orphan ≠ none ∨ f.target.write ≠ none)) := by
  have hkinds : ∀ {w : Volume} {e : Errno}, (∀ m, (w.inodes m).map kind =
      (v.inodes m).map kind) → KindsBut v w (if some e = none then whiteout else none) := by
    intro w e hw m
    rw [if_neg (by simp)]
    exact hw m
  rw [vdfs4Rename.eq_def] at hcall
  by_cases hlen : vdfs4FileNameLen < newName.length
  · rw [if_pos hlen] at hcall
    cases hcall
    exact .inl ⟨h.leaves hs, fun _ => .refl comp v, fun hd => hlen.not_ge hd.1, hkinds fun _ => rfl⟩
  rw [if_neg hlen] at hcall
  cases target with
  | none =>
    obtain ⟨e', w, heq, hren⟩ := h.renameTail_spec hs hr hf
    rw [heq] at hcall
    cases hcall
    refine .inl ⟨hren.consistent.leaves hren.sized, hren.failed, ?_, hren.kinds⟩
    rintro ⟨-, t, ht, -⟩
    cases ht
  | some t =>
    obtain ⟨hne, he⟩ := ht t rfl
    obtain ⟨-, j, hj, -⟩ := h.exists_of_entry he
    have hdrops : f.DropsTarget v newName (some t) ↔ f.target.Removes j := by
      constructor
      · rintro ⟨-, t', htt, j', hj', hrem⟩
        rw [← some.inj htt] at hj'
        rwa [mem_unique hj hj']
      · exact fun hrem => ⟨not_lt.mp hlen, t, rfl, j, hj, hrem⟩
    simp only [hj] at hcall
    rcases h.removeInode_cases hs (h.liveDir_ne_zero hr.dir) he hj f.target rfl with
      ⟨heq, -⟩ | ⟨e', w, heq, hentries, hout, hleaves, hrem⟩ | ⟨w, heq, hdrop, hrem⟩ |
        ⟨e', w, heq, hentries, hbad, hrem⟩
    · rw [heq] at hcall
      cases hcall
    · rw [heq] at hcall
      cases hcall
      exact .inl ⟨hleaves, fun _ => hout.sameTree hentries, mt hdrops.mp hrem, hkinds hout.kinds⟩
    · -- the target is gone, and the rest of the call may fail
      rw [heq] at hcall
      obtain ⟨e', w', heq', hren⟩ := hdrop.consistent.renameTail_spec hdrop.sized
        (hdrop.renameable h hr hne he) hf
      simp only [heq'] at hcall
      cases hcall
      refine .inr ⟨t, j, rfl, hj, hrem, hdrops.mpr hrem, fun hfail => ?_,
        .inl ⟨hren.consistent.leaves hren.sized, fun m => ?_⟩⟩
      · rw [(hren.failed hfail).entries, hdrop.entries]
      · rw [hren.kinds m, hdrop.kinds m]
    · rw [heq] at hcall
      cases hcall
      exact .inr ⟨t, j, rfl, hj, hrem, hdrops.mpr hrem, fun _ => hentries, .inr hbad⟩

end Rename

end Vdfs4
