import Vdfs4.Catalog.Transitions

/-!
# What `vdfs4_create` and `vdfs4_link` leave

A call that fails undoes what it did, and as long as **no undoing fails** the volume is as it was:
no entry is new, no size has changed, and at most a back link is missing. A call that gets through
is one of the changes of a consistent volume, and the size of the directory goes with it.

* `Leaves` — what every directory operation leaves;
* `placeAndFill_cases`, `create_cases`, `link_leaves` — the two operations.
-/

namespace Vdfs4

open OrderedMap Comparison Volume CatalogInode Option CString

/-- The live records under the number of a directory are its entries, and every one has a key of its
own. -/
structure Counted (comp : Comparison) (v : Volume) : Prop where
  ordered : v.catalog.Ordered comp
  bodies : ∀ x ∈ v.catalog, x.1.objectId = x.1.parentId →
    ∀ i, v.inodes x.1.parentId = some i → i.kind ≠ .dir

/-- What a call leaves: right sizes, and a consistent volume unless a fatal error made it
read-only. -/
structure Leaves (comp : Comparison) (v : Volume) : Prop where
  sized : Sized v (entries comp v.catalog)
  counted : Counted comp v
  consistent : v.readOnly = false → Consistent comp v

variable {comp : Comparison} {c c' c'' c₁ : Catalog} {v v' w : Volume}
  {x : CattreeKey × CatalogRecord} {o d : Nat} {n : CString} {i j : CatalogInode}
  {r : CatalogRecord} {k : CattreeKey} {t : RecordType} {E : Finset Comparison.Rank}
  {f : LinkFaults}

/-- The record of a directory does not stand under the directory's own number. -/
theorem Consistent.counted (h : Consistent comp v) : Counted comp v where
  ordered := h.ordered
  bodies x hx hself i hi hdir := by
    obtain ⟨j, hj, hfits⟩ := h.fits hx
    have hown : owner x = x.1.parentId := by
      rw [owner]
      split
      · rfl
      · exact hself
    rw [hown] at hj hfits
    obtain rfl : j = i := mem_unique hj hi
    have hset := h.settled _ j hj
    have hs := hset.dir_single hdir
    have hkey := recordKey_single (o := x.1.parentId) hs
    rcases x.2.cases_type with ht | ht | ht
    · have hrank := ((fits_inode ht).mp hfits).1
      rw [hkey] at hrank
      exact hset.single_parent hs (rank_eq_iff.mp hrank).1.symm
    · exact ((fits_hlink ht).mp hfits).2 hself
    · have hrank := ((fits_ilink ht).mp hfits).2
      rw [hkey] at hrank
      exact hset.single_parent hs ((rank_eq_iff.mp hrank).2.2.symm.trans hself)

theorem Consistent.leaves (h : Consistent comp v) (hs : Sized v (entries comp v.catalog)) :
    Leaves comp v :=
  ⟨hs, h.counted, fun _ => h⟩

/-- No new keys and no new directories. -/
theorem Counted.within (h : Counted comp v) (hord : v'.catalog.Ordered comp)
    (hkeys : ∀ x ∈ v'.catalog, ∃ y ∈ v.catalog, y.1 = x.1)
    (hkinds : ∀ m j, v'.inodes m = some j → ∃ i, v.inodes m = some i ∧ i.kind = j.kind) :
    Counted comp v' where
  ordered := hord
  bodies x hx hself j hj := by
    obtain ⟨y, hy, hkey⟩ := hkeys x hx
    obtain ⟨i, hi, hkind⟩ := hkinds _ j hj
    rw [← hkey] at hself hi
    rw [← hkind]
    exact h.bodies y hy hself i hi

/-- **Sizes and entries go together.** A directory that is new has the size of its entries. -/
theorem Sized.balanced {E' : Finset Comparison.Rank} (h : Sized v E)
    (hb : ∀ m j, v'.inodes m = some j → j.kind = .dir → (∃ i, v.inodes m = some i ∧ i.kind = .dir ∧
      j.isize + sizeOf E m = i.isize + sizeOf E' m) ∨ j.isize = sizeOf E' m) : Sized v' E' := by
  intro m j hj hdir
  rcases hb m j hj hdir with ⟨i, hi, hkind, hsum⟩ | hsize
  · have hold := h m i hi hkind
    omega
  · exact hsize

/-- **One entry and one unit of size.** -/
theorem Sized.insert (h : Sized v E) (hnew : comp.rank ⟨d, n, o⟩ ∉ E)
    (hdir : v'.inodes d = (v.inodes d).map fun i => { i with isize := i.isize + 1 })
    (hothers : ∀ m j, m ≠ d → v'.inodes m = some j → j.kind = .dir → v.inodes m = some j ∨
      j.isize = 0 ∧ sizeOf E m = 0) :
    Sized v' (insert (comp.rank ⟨d, n, o⟩) E) := by
  refine h.balanced fun m j hj hjdir => ?_
  have hsum := sizeOf_insert hnew m
  rw [rank_parent] at hsum
  by_cases hmd : m = d
  · subst hmd
    rw [hdir] at hj
    obtain ⟨i, hi, rfl⟩ := map_eq_some_iff.mp hj
    rw [if_pos rfl] at hsum
    exact .inl ⟨i, hi, hjdir, by rw [hsum]; change _ + 1 + _ = _; omega⟩
  · rw [if_neg (Ne.symm hmd)] at hsum
    rcases hothers m j hmd hj hjdir with hi | ⟨hz, hzero⟩
    · exact .inl ⟨j, hi, hjdir, by rw [hsum]; rfl⟩
    · exact .inr (by rw [hsum, hz, hzero])

/-- Sizes that stay, with the entries. -/
theorem Sized.stay (h : Sized v E)
    (hinodes : ∀ m, (v'.inodes m).map (fun i => (i.kind, i.isize)) = (v.inodes m).map fun i =>
      (i.kind, i.isize)) : Sized v' E := by
  refine h.congr fun m j hj hdir => ?_
  have hmap := hinodes m
  rw [hj, map_some] at hmap
  obtain ⟨i, hi, heq⟩ := map_eq_some_iff.mp hmap.symm
  obtain ⟨hkind, hsize⟩ := Prod.mk.inj heq
  exact ⟨i, hi, hkind.trans hdir, hsize.symm⟩

/-! ### The type of a record -/

/-- Every kind of file has a record type; a hard linked inode has references. -/
theorem CatalogInode.getRecordType_cases (hkind : i.kind ≠ .other) :
    ∃ t, i.getRecordTypeOnMode = .ok t ∧ (i.hardLink = true → t = .hlink) ∧
      (i.hardLink = false → t = .folder ∨ t = .file) := by
  rw [getRecordTypeOnMode]
  cases hh : i.hardLink with
  | true => exact ⟨.hlink, by simp, fun _ => rfl, by simp⟩
  | false =>
    cases hk : i.kind with
    | other => exact absurd hk hkind
    | reg | lnk => exact ⟨.file, by simp, by simp, fun _ => .inr rfl⟩
    | dir | fifo | sock | chr | blk => exact ⟨.folder, by simp, by simp, fun _ => .inl rfl⟩

theorem CatalogInode.fillRecord_type (i : CatalogInode) (r : CatalogRecord) :
    (i.fillRecord r).recordType = r.recordType := by
  rw [fillRecord]
  split <;> rfl

/-- A new record is filled as an inode that is no orphan needs it. -/
theorem CatalogInode.fitsMove_fillRecord (horphan : i.orphan = false)
    (hhard : i.hardLink = true → t = .hlink) (hsingle : i.hardLink = false →
      t = .folder ∨ t = .file) :
    FitsMove i (i.fillRecord (.blank t)) where
  hard h := by
    rw [fillRecord_type]
    exact hhard h
  single h := by
    rw [CatalogRecord.IsInode, fillRecord_type]
    exact hsingle h
  linked := by
    rw [fillRecord]
    split
    · rfl
    · exact horphan

/-! ### Placement and its undoing -/

/-- To place an entry and to remove it again changes nothing. -/
theorem EntryPlaced.removed_eq (hc : c.Ordered comp) (hp : EntryPlaced comp c c' k r)
    (hr : EntryRemoved comp c' c'' k r.recordType) : c'' = c := by
  refine hr.ordered.ext hc fun x => ?_
  rw [hr.mem_iff, hp.mem_iff]
  constructor
  · rintro ⟨rfl | ⟨ht, rfl⟩ | hx, hne, hil⟩
    · exact absurd rfl hne
    · exact absurd rfl (hil ht)
    · exact hx
  · exact fun hx => ⟨.inr (.inr hx), hp.fresh x hx, fun ht => hp.fresh_ilink ht x hx⟩

/-- **The undoing of a placement does not fail by itself**: the entry and its back link are
there. -/
theorem EntryPlaced.remove {p : Nat} (hc' : c'.Ordered comp) (hop : o ≠ p) (ht : t ≠ .ilink)
    (hentry : ∃ x ∈ c', comp.rank x.1 = comp.rank ⟨p, n, o⟩)
    (hilink : t ≠ .hlink → ∃ x ∈ c', comp.rank x.1 = comp.rank (CattreeKey.ilinkKey ⟨p, n, o⟩)) :
    ∃ c'', vdfs4CattreeRemove comp {} c' o p n t = (none, c'') ∧
      EntryRemoved comp c' c'' ⟨p, n, o⟩ t := by
  rcases remove_cases hc' {} hop ht hentry with ⟨e, c'', -, -, -, hwhy⟩ | hdone
  · rcases hwhy with hf | ⟨hn, habs⟩
    · exact absurd rfl hf
    · obtain ⟨x, hx, hrank⟩ := hilink hn
      exact absurd hrank (habs x hx)
  · exact hdone

/-- `placeAndFill` under free keys places a filled record, or it is refused and changes nothing. -/
theorem placeAndFill_cases (hc : v.catalog.Ordered comp) {f : PlaceFaults} (hf : f.Clean)
    (hod : o ≠ d) (hfree : Free comp v.catalog ⟨d, n, o⟩) (i : CatalogInode) :
    (∃ e, placeAndFill comp f v o i d n t = (some e, v) ∧ (f.ilink ≠ none ∨ f.insert ≠ none)) ∨
      ∃ c', placeAndFill comp f v o i d n t =
          (none, { v.modifyInode o fun i => { i with recordType := t } with catalog := c' }) ∧
        EntryPlaced comp v.catalog c' ⟨d, n, o⟩ (i.fillRecord (.blank t)) := by
  rw [placeAndFill]
  rcases place_cases (t := t) hc hf hod hfree with ⟨e, heq, hwhy⟩ | ⟨c', heq, hplaced⟩
  · exact .inl ⟨e, by rw [heq], hwhy⟩
  · exact .inr ⟨_, by rw [heq], hplaced.fill hod (i.fillRecord_type _)⟩

/-! ### A new inode -/

/-- A volume that differs in one inode only, which was not there before. -/
theorem Volume.dropInode_eq (hnone : v.inodes o = none) (hcat : w.catalog = v.catalog)
    (hlist : w.orphanInodes = v.orphanInodes) (hro : w.readOnly = v.readOnly)
    (hinodes : ∀ m, m ≠ o → w.inodes m = v.inodes m) : w.dropInode o = v := by
  have hfun : (w.dropInode o).inodes = v.inodes := by
    funext m
    by_cases hm : m = o
    · rw [hm, dropInode_self, hnone]
    · rw [dropInode_of_ne _ hm, hinodes m hm]
  cases v
  simp only [dropInode] at hfun ⊢
  rw [hcat, hlist, hro, hfun]

/-- What a successful `vdfs4_create` does. -/
structure InodeCreated (comp : Comparison) (v v' : Volume) (d : Nat) (n : CString) (o : Nat)
    (kind : FileKind) : Prop where
  consistent : Consistent comp v'
  notMem : comp.rank ⟨d, n, o⟩ ∉ entries comp v.catalog
  entries : entries comp v'.catalog = insert (comp.rank ⟨d, n, o⟩) (entries comp v.catalog)
  readOnly : v'.readOnly = v.readOnly
  inode : ∃ j, v'.inodes o = some j ∧ j.isize = 0 ∧ j.kind = kind
  dir : v'.inodes d = (v.inodes d).map fun i => { i with isize := i.isize + 1 }
  others : ∀ m, m ≠ o → m ≠ d → v'.inodes m = v.inodes m

/-- **The size of the directory goes with a new inode.** -/
theorem InodeCreated.sized {kind : FileKind} (hnew : InodeCreated comp v v' d n o kind)
    (hs : Sized v E) (hE : comp.rank ⟨d, n, o⟩ ∉ E)
    (hempty : ∀ ρ ∈ E, (ofLex ρ).1 ≠ o) : Sized v' (insert (comp.rank ⟨d, n, o⟩) E) := by
  refine hs.insert hE hnew.dir fun m j hmd hj _ => ?_
  by_cases hmo : m = o
  · subst hmo
    obtain ⟨j', hj', hz, -⟩ := hnew.inode
    obtain rfl := mem_unique hj hj'
    exact .inr ⟨hz, (sizeOf_eq_zero_iff m).mpr hempty⟩
  · rw [hnew.others m hmo hmd] at hj
    exact .inl hj

namespace Consistent

section

variable (h : Consistent comp v)

include h

/-- A number that is not in use stands in no record. -/
theorem unused (hnone : v.inodes o = none) :
    (∀ x ∈ v.catalog, owner x ≠ o) ∧ o ∉ v.orphanInodes ∧
      ∀ m i, v.inodes m = some i → i.hardLink = false → i.nlink ≠ 0 → i.parentId = o → o = 0 := by
  refine ⟨fun x hx ho => ?_, fun hmem => ?_, fun m i hi hs hl hp => ?_⟩
  · obtain ⟨i, hi⟩ := h.owned x hx
    rw [ho, hnone] at hi
    cases hi
  · obtain ⟨l, hlist, hfollows, -⟩ := h.list
    obtain ⟨i, hi⟩ := exists_of_follows hfollows (hlist ▸ hmem)
    rw [hnone] at hi
    cases hi
  · rcases h.live_parent hi hs hl with hz | ⟨j, hj, -⟩
    · exact hp.symm.trans hz
    · rw [hp, hnone] at hj
      cases hj

/-- And no entry is in a number that is not in use. -/
theorem parent_ne_unused (ho : o ≠ 0) (hnone : v.inodes o = none) :
    ∀ ρ ∈ entries comp v.catalog, (ofLex ρ).1 ≠ o := by
  intro ρ hρ hp
  rcases h.parent ρ hρ with hzero | ⟨i, hi, -⟩
  · exact ho (hp.symm.trans hzero)
  · rw [hp, hnone] at hi
    cases hi

/-- The keys of a new entry of a number that is not in use are free. -/
theorem free_unused (hdir : LiveDir v d) (ho : o ≠ 0)
    (hnone : v.inodes o = none) (n : CString) : o ≠ d ∧ Free comp v.catalog ⟨d, n, o⟩ := by
  obtain ⟨dd, hdd, hkind, hlinks⟩ := id hdir
  have hod : o ≠ d := by
    rintro rfl
    rw [hnone] at hdd
    cases hdd
  refine ⟨hod, h.free hdir hod (fun i hi hp => ?_) (fun i hi => ?_) fun hmem => ?_⟩
  · obtain rfl := mem_unique hi hdd
    exact ho ((h.unused hnone).2.2 d i hi ((h.settled d i hi).dir_single hkind) hlinks hp)
  · rw [hnone] at hi
    cases hi
  · obtain ⟨-, i, hi, -⟩ := h.exists_of_entry hmem
    rw [hnone] at hi
    cases hi

/-- The end of a `vdfs4_create` that fails late: **the eviction of the new inode** takes its record
away again. -/
theorem evict_created (hnone : v.inodes o = none)
    (hplaced : EntryPlaced comp v.catalog w.catalog ⟨d, n, o⟩ r) (hod : o ≠ d) (hr : r.IsInode)
    (hlist : w.orphanInodes = v.orphanInodes) (hro : w.readOnly = v.readOnly)
    (hinodes : ∀ m, m ≠ o → w.inodes m = v.inodes m) (hj : w.inodes o = some j)
    (hlinks : j.nlink = 0) (hkey : j.recordKey o = ⟨d, n, o⟩) (ht : j.recordType = r.recordType) :
    vdfs4EvictInode comp {} w o = some v := by
  obtain ⟨c'', heq, hremoved⟩ := EntryPlaced.remove (t := r.recordType) hplaced.ordered hod hr.ne.2
    ⟨_, (hplaced.mem_iff _).mpr (.inl rfl), rfl⟩
    fun hn => ⟨_, (hplaced.mem_iff _).mpr (.inr (.inl ⟨hn, rfl⟩)), rfl⟩
  have hlisted : o ∉ w.orphanInodes := hlist ▸ (h.unused hnone).2.1
  rw [vdfs4EvictInode, hj]
  simp only [hlinks, ne_eq, not_true_eq_false, if_false, and_false, hkey, ht, heq,
    vdfs4DelFromOrphan, hlisted, map_some, some.injEq]
  exact dropInode_eq hnone (hplaced.removed_eq h.ordered hremoved) hlist hro hinodes

/-- The end of a `vdfs4_create` that succeeds. -/
theorem inodeCreated (hdir : LiveDir v d) (hnone : v.inodes o = none)
    (hplaced : EntryPlaced comp v.catalog v'.catalog ⟨d, n, o⟩ r) (hr : r.IsInode)
    (horphan : r.orphan = false) (hj : SingleInode comp o d n j) (hself : v'.inodes o = some j)
    (hsize : j.isize = 0) (hdir' : v'.inodes d = (v.inodes d).map fun i =>
      { i with isize := i.isize + 1 })
    (hothers : ∀ m, m ≠ o → m ≠ d → v'.inodes m = v.inodes m)
    (hlist : v'.orphanInodes = v.orphanInodes) (hro : v'.readOnly = v.readOnly) :
    InodeCreated comp v v' d n o j.kind where
  consistent := by
    refine h.created hdir hnone hplaced hr horphan hself hj (fun m hm => ?_) hlist
    by_cases hmd : m = d
    · rw [hmd, hdir', map_map]
      rfl
    · rw [hothers m hm hmd]
  notMem := hplaced.notMem
  entries := by
    refine entries_of_placed hplaced ⟨⟨hr.ne.2, ?_⟩, hj.ne_dir⟩
    rw [CatalogRecord.isOrphan]
    rcases hr with ht | ht <;> simp [ht, horphan]
  readOnly := hro
  inode := ⟨j, hself, hsize, rfl⟩
  dir := hdir'
  others := hothers

/-- **`vdfs4_create` leaves the volume as it was, or it makes a new inode.** -/
theorem create_cases (hdir : LiveDir v d) (ho : o ≠ 0)
    (hnone : v.inodes o = none) {f : CreateFaults} (hplace : f.place.Clean) (hevict : f.evict = {})
    (n : CString) (kind : FileKind) :
    (∃ e, vdfs4Create comp f v d n kind o = some (some e, v)) ∨
      ∃ v', vdfs4Create comp f v d n kind o = some (none, v') ∧
      InodeCreated comp v v' d n o kind := by
  obtain ⟨hod, hfree⟩ := h.free_unused hdir ho hnone n
  rw [vdfs4Create]
  by_cases hlen : vdfs4FileNameLen < n.length
  · exact .inl ⟨.enametoolong, by rw [if_pos hlen]⟩
  by_cases hname : f.name = true
  · exact .inl ⟨.enomem, by rw [if_neg hlen, if_pos hname]⟩
  rw [if_neg hlen, if_neg hname]
  cases hinode : f.inode with
  | some e => exact .inl ⟨e, rfl⟩
  | none =>
    by_cases hkind : kind = .other
    · subst hkind
      exact .inl ⟨.einval, rfl⟩
    let i : CatalogInode := ⟨kind, 0, 1, 0, false, false, d, n, .file, finalOrphanId⟩
    obtain ⟨t, ht, -, htype⟩ := i.getRecordType_cases hkind
    have htype := htype rfl
    simp only [show (⟨kind, 0, 1, 0, false, false, d, n, .file, finalOrphanId⟩ : CatalogInode) =
      i from rfl, ht]
    rcases placeAndFill_cases (v := v.setInode o i) (t := t) h.ordered hplace hod hfree i with
      ⟨e, heq, -⟩ | ⟨c', heq, hplaced⟩
    · -- the record was refused
      rw [heq]
      refine .inl ⟨e, ?_⟩
      simp only [some.injEq, Prod.mk.injEq, true_and]
      exact dropInode_eq hnone rfl rfl rfl fun m hm => setInode_of_ne _ _ hm
    rw [heq]
    have hfits : FitsMove i (i.fillRecord (.blank t)) :=
      fitsMove_fillRecord rfl nofun fun _ => htype
    have hrt : (i.fillRecord (.blank t)).recordType = t := i.fillRecord_type _
    cases hlate : f.late with
    | some e =>
      -- the eviction undoes it
      refine .inl ⟨e, ?_⟩
      simp only [hevict]
      let w : Volume := { (v.setInode o i).modifyInode o fun i => { i with recordType := t } with
        catalog := c' }
      have hself : (w.modifyInode o fun i => { i with nlink := 0 }).inodes o =
          some { i with recordType := t, nlink := 0 } := by
        rw [modifyInode_self]
        rw [modifyInode_self, setInode_self]
        rfl
      have hevicted := h.evict_created (w := w.modifyInode o fun i => { i with nlink := 0 }) hnone
        hplaced hod (hfits.single rfl) rfl rfl (fun m hm => ?_) hself rfl rfl hrt.symm
      · exact congrArg (Option.map _) hevicted
      · rw [modifyInode_of_ne _ _ hm]
        exact (modifyInode_of_ne _ _ hm).trans (setInode_of_ne _ _ hm)
    | none =>
      refine .inr ⟨_, rfl, h.inodeCreated (j := { i with recordType := t }) hdir hnone hplaced
        (hfits.single rfl) hfits.linked ⟨ho, hod, hkind, rfl, rfl, rfl, htype, rfl⟩ ?_ rfl ?_
        (fun m hm hmd => ?_) rfl rfl⟩
      · rw [modifyInode_of_ne _ _ hod]
        rw [modifyInode_self, setInode_self]
        rfl
      · rw [modifyInode_self]
        rw [modifyInode_of_ne _ _ hod.symm, setInode_of_ne _ _ hod.symm]
      · rw [modifyInode_of_ne _ _ hmd]
        exact (modifyInode_of_ne _ _ hm).trans (setInode_of_ne _ _ hm)

/-! ### A new reference -/

/-- The keys of a new reference are free: a file contains no directory. -/
theorem free_reference (hdir : LiveDir v d) (hi : v.inodes o = some i)
    (hkind : i.kind ≠ .dir) (hlinks : i.nlink ≠ 0)
    (hnew : comp.rank ⟨d, n, o⟩ ∉ entries comp v.catalog) :
    o ≠ d ∧ Free comp v.catalog ⟨d, n, o⟩ := by
  obtain ⟨dd, hdd, hddir, hddl⟩ := id hdir
  have hod : o ≠ d := by
    rintro rfl
    exact hkind (mem_unique hi hdd ▸ hddir)
  refine ⟨hod, h.free hdir hod (fun j hj hp => ?_) (fun j hj => ?_) hnew⟩
  · obtain rfl := mem_unique hj hdd
    rcases h.live_parent hj ((h.settled d j hj).dir_single hddir) hddl with hz | ⟨m, hm, hmdir, -⟩
    · exact (h.settled o i hi).ne_zero (hp.symm.trans hz)
    · rw [hp] at hm
      exact hkind (mem_unique hi hm ▸ hmdir)
  · obtain rfl := mem_unique hj hi
    exact hlinks

/-- The end of `vdfs4_link` for a hard linked inode: refused with nothing changed, or done. -/
theorem linkTail_cases (hs : Sized v (entries comp v.catalog))
    (hdir : LiveDir v d) (hi : v.inodes o = some i) (hhard : i.hardLink = true)
    (hkind : i.kind ≠ .dir) (hlinks : i.nlink ≠ 0)
    (hnew : comp.rank ⟨d, n, o⟩ ∉ entries comp v.catalog) (hf : f.place.Clean) :
    (∃ e, linkTail comp f v d n o i.kind = some (some e, v)) ∨
      ∃ v', linkTail comp f v d n o i.kind = some (none, v') ∧ Consistent comp v' ∧
        Sized v' (entries comp v'.catalog) ∧ v'.readOnly = v.readOnly := by
  obtain ⟨hod, hfree⟩ := h.free_reference hdir hi hkind hlinks hnew
  rw [linkTail]
  rcases place_cases (t := .hlink) h.ordered hf hod hfree with ⟨e, heq, -⟩ | ⟨c', heq, hplaced⟩
  · exact .inl ⟨e, by rw [heq]⟩
  rw [heq]
  have hfilled := hplaced.fill (g := fun r => { r with fileMode := i.kind }) hod rfl
  refine .inr ⟨_, rfl, ?_⟩
  generalize hv' : modifyInode _ d _ = v'
  have hcat : v'.catalog =
      modify comp.compFn ⟨d, n, o⟩ (fun r => { r with fileMode := i.kind }) c' := by rw [← hv']; rfl
  have hself : v'.inodes o = some { i with nlink := i.nlink + 1 } := by
    rw [← hv', modifyInode_of_ne _ _ hod, modifyInode_self]
    exact congrArg (Option.map _) hi
  have hdir' : v'.inodes d = (v.inodes d).map fun i => { i with isize := i.isize + 1 } := by
    rw [← hv', modifyInode_self, modifyInode_of_ne _ _ hod.symm]
  have hothers : ∀ m, m ≠ o → m ≠ d → v'.inodes m = v.inodes m := fun m hm hmd => by
    rw [← hv', modifyInode_of_ne _ _ hmd, modifyInode_of_ne _ _ hm]
  have halike : AlikeBut v v' (· = o) := by
    intro m hm
    by_cases hmd : m = d
    · rw [hmd, hdir', map_map]
      rfl
    · rw [hothers m hm hmd]
  rw [← hcat] at hfilled
  obtain ⟨hcons, hentries⟩ := h.referenced hi hhard hlinks hdir hod rfl hfilled hself rfl halike
    (by rw [← hv']; rfl)
  refine ⟨hcons, ?_, by rw [← hv']; rfl⟩
  rw [hentries]
  refine hs.insert hnew hdir' fun m j hmd hj hjdir => .inl ?_
  by_cases hmo : m = o
  · subst hmo
    obtain rfl := mem_unique hself hj
    exact absurd hjdir hkind
  · rwa [hothers m hmo hmd] at hj

/-! ### A record becomes a reference and a body -/

/-- The body of an inode with one record is not there. -/
theorem bodyKey_notMem (hi : v.inodes o = some i) (hs : i.hardLink = false)
    (hx : x ∈ v.catalog) : comp.rank x.1 ≠ comp.rank (bodyKey o) := by
  intro hrank
  obtain ⟨hp, -, hobj⟩ := rank_eq_iff.mp hrank
  have hset := h.settled o i hi
  have ho : owner x = o := by
    rw [owner]
    split
    · exact hp
    · exact hobj
  have hfits := hset.fits x hx ho
  rcases x.2.cases_type with ht | ht | ht
  · have hkey := ((fits_inode ht).mp hfits).1
    rw [recordKey_single hs] at hkey
    exact hset.single_parent hs ((rank_eq_iff.mp hkey).1.symm.trans hp)
  · exact ((fits_hlink ht).mp hfits).2 (hobj.trans hp.symm)
  · have hkey := ((fits_ilink ht).mp hfits).2
    rw [recordKey_single hs] at hkey
    exact hset.single_parent hs ((rank_eq_iff.mp hkey).2.2.symm.trans hobj)

end

/-- What a failed `transform_into_hlink` leaves: at most the back link is gone, or it is a new
one. -/
def Relinked (comp : Comparison) (c c' : Catalog) (o : Nat) (i : CatalogInode) : Prop :=
  c'.Ordered comp ∧
    (∀ x ∈ c', x ∈ c ∨ x.2.recordType = .ilink ∧ comp.rank x.1 = comp.rank
      (i.recordKey o).ilinkKey) ∧
    ∀ x ∈ c, x.2.recordType ≠ .ilink → x ∈ c'

/-- **A failed `transform_into_hlink` keeps the volume consistent.** -/
theorem relinked (h : Consistent comp v) (hi : v.inodes o = some i) (hs : i.hardLink = false)
    (hre : Relinked comp v.catalog v'.catalog o i) (hlist : v'.orphanInodes = v.orphanInodes)
    (hinodes : ∀ m, v'.inodes m = v.inodes m) :
    Consistent comp v' ∧ entries comp v'.catalog = entries comp v.catalog := by
  obtain ⟨hord, hsub, hkeep⟩ := hre
  refine h.lost (t := i.recordType) hord (fun x hx => ?_) hkeep hlist hi ((hinodes o).trans hi)
    (h.settled o i hi).single_type fun m _ => hinodes m
  refine (hsub x hx).imp_right fun ⟨ht, hrank⟩ => ⟨ht, i, ?_, ?_⟩
  · rw [owner_ilink ht, (rank_eq_iff.mp hrank).1]
    exact (congrArg v.inodes (i.recordKey_objectId o)).trans hi
  · have ho : owner x = o := by
      rw [owner_ilink ht, (rank_eq_iff.mp hrank).1]
      exact i.recordKey_objectId o
    rw [ho]
    exact (fits_ilink ht).mpr ⟨hs, hrank⟩

/-- `out_hlink` puts the back link back, or it is lost. -/
theorem outHlink_relinked (hs : i.hardLink = false)
    (herased : Erased comp c c₁ (i.recordKey o).ilinkKey)
    (hilink : ∀ x ∈ c, comp.rank x.1 = comp.rank (i.recordKey o).ilinkKey → x.2.recordType = .ilink)
    (f : TransformFaults) (e : Errno) :
    ∃ c', outHlink comp f e c₁ o i = (some e, c', i) ∧ Relinked comp c c' o i := by
  have hkey : (⟨o, i.name, i.parentId⟩ : CattreeKey) = (i.recordKey o).ilinkKey := by
    rw [recordKey_single hs]
    rfl
  have hkeep : ∀ x ∈ c, x.2.recordType ≠ .ilink → x ∈ c₁ := fun x hx ht =>
    (herased.mem_iff x).mpr ⟨hx, fun hrank => ht (hilink x hx hrank)⟩
  rw [outHlink, vdfs4CattreeInsertIlink, hkey]
  rcases placeData_cases herased.ordered f.relink (i.recordKey o).ilinkKey (.blank .ilink) with
    ⟨c2, heq, -, hins⟩ | ⟨e', heq, -⟩
  · refine ⟨c2, by rw [heq], hins.ordered, fun x hx => ?_, fun x hx ht => ?_⟩
    · rcases (hins.mem_iff x).mp hx with rfl | hx
      · exact .inr ⟨rfl, rfl⟩
      · exact .inl ((herased.mem_iff x).mp hx).1
    · exact (hins.mem_iff x).mpr (.inr (hkeep x hx ht))
  · exact ⟨c₁, by rw [heq], herased.ordered, fun x hx => .inl ((herased.mem_iff x).mp hx).1, hkeep⟩

/-- The records after `transform_into_hlink`: in place of the record a reference, its value in a
body, and no back link. -/
structure Hardened (comp : Comparison) (c c' : Catalog) (o : Nat) (x : CattreeKey × CatalogRecord)
    (b r : CatalogRecord) : Prop where
  ordered : c'.Ordered comp
  body : b.IsInode
  orphan : b.orphan = x.2.orphan
  ref : r.recordType = .hlink
  mem_iff : ∀ y, y ∈ c' ↔ y = (bodyKey o, b) ∨ y = (x.1, r) ∨
    y ∈ c ∧ comp.rank y.1 ≠ comp.rank x.1 ∧ comp.rank y.1 ≠ comp.rank x.1.ilinkKey

/-- What `moveToBody` makes of a record, a blank body and no back link. -/
theorem moveToBody_hardened {c2 : Catalog} (hx : x ∈ c2) (hxo : x.1.objectId ≠ x.1.parentId)
    (ht : t = .folder ∨ t = .file) (ho : x.1.objectId = o) (herased : Erased comp c c₁ x.1.ilinkKey)
    (hins : Inserted comp c₁ c2 (bodyKey o) (.blank t)) :
    ∃ c' b r, moveToBody comp c2 o i x =
        (none, c', { i with parentId := 0, name := empty, hardLink := true }) ∧
      Hardened comp c c' o x b r := by
  have hxbody : comp.rank x.1 ≠ comp.rank (bodyKey o) := fun hrank => by
    obtain ⟨hp, -, hobj⟩ := rank_eq_iff.mp hrank
    exact hxo (hobj.trans hp.symm)
  have hbody : ∀ e ∈ c2, comp.rank e.1 = comp.rank (bodyKey o) → e = (bodyKey o, .blank t) :=
    fun e he hrank => hins.ordered.eq_of_rank he ((hins.mem_iff _).mpr (.inl rfl)) hrank
  refine ⟨_, { x.2 with recordType := t }, { CatalogRecord.blank .hlink with fileMode := i.kind },
    rfl, Sorted.modify (Sorted.modify hins.ordered _ _) _ _, ht, rfl, rfl, fun y => ?_⟩
  -- the first change is to the body alone
  have hfirst : ∀ y, y ∈ modify comp.compFn (bodyKey o)
      (fun hlink => { x.2 with recordType := hlink.recordType }) c2 ↔
        y = (bodyKey o, { x.2 with recordType := t }) ∨ y ∈ c₁ := by
    intro y
    rw [mem_modify comp.rankedBy]
    constructor
    · rintro (⟨hy, hrank⟩ | ⟨e, he, hrank, rfl⟩)
      · rcases (hins.mem_iff y).mp hy with rfl | hy
        · exact absurd rfl hrank
        · exact .inr hy
      · rw [hbody e he hrank]
        exact .inl rfl
    · rintro (rfl | hy)
      · exact .inr ⟨_, (hins.mem_iff _).mpr (.inl rfl), rfl, rfl⟩
      · exact .inl ⟨(hins.mem_iff y).mpr (.inr hy), hins.fresh y hy⟩
  have hx1 : x ∈ c₁ := by
    rcases (hins.mem_iff x).mp hx with rfl | hx
    · exact absurd rfl hxbody
    · exact hx
  rw [mem_modify comp.rankedBy]
  simp only [hfirst, herased.mem_iff]
  constructor
  · rintro (⟨rfl | ⟨hy, hil⟩, hrank⟩ | ⟨e, rfl | ⟨he, hil⟩, hrank, rfl⟩)
    · exact .inl rfl
    · exact .inr (.inr ⟨hy, hrank, hil⟩)
    · exact absurd hrank.symm hxbody
    · rw [herased.ordered.eq_of_rank ((herased.mem_iff e).mpr ⟨he, hil⟩) hx1 hrank]
      exact .inr (.inl rfl)
  · rintro (rfl | rfl | ⟨hy, hrank, hil⟩)
    · exact .inl ⟨.inl rfl, hxbody.symm⟩
    · exact .inr ⟨x, .inr ((herased.mem_iff x).mp hx1), rfl, rfl⟩
    · exact .inl ⟨.inr ⟨hy, hil⟩, hrank⟩

/-- **`transform_into_hlink`** on a file: refused, with at most the back link lost, or done. -/
theorem transform_cases (h : Consistent comp v) (hi : v.inodes o = some i) (hs : i.hardLink = false)
    {f : TransformFaults} (hundo : f.undo = {}) :
    (∃ e c', transformIntoHlink comp f v.catalog o i = (some e, c', i) ∧
        Relinked comp v.catalog c' o i) ∨
      ∃ c' x b r, transformIntoHlink comp f v.catalog o i =
          (none, c', { i with parentId := 0, name := empty, hardLink := true }) ∧
        x ∈ v.catalog ∧ comp.rank x.1 = comp.rank (i.recordKey o) ∧
        Hardened comp v.catalog c' o x b r := by
  have hset := h.settled o i hi
  have hkey := recordKey_single (o := o) hs
  obtain ⟨t, ht, -, htype⟩ := i.getRecordType_cases hset.kind
  obtain ⟨y, hy, hinode, hyrank⟩ := hset.located
  have hilink : ∀ x ∈ v.catalog, comp.rank x.1 = comp.rank (i.recordKey o).ilinkKey →
      x.2.recordType = .ilink := fun x hx hrank => h.at_ilinkKey hi hs hx hrank
  rw [transformIntoHlink]
  rcases removeIlink_cases h.ordered f.ilink o i.parentId i.name with
    ⟨e, heq, -⟩ | ⟨c₁, heq, herased⟩
  · rw [heq]
    exact .inl ⟨e, _, rfl, h.ordered, fun x hx => .inl hx, fun x hx _ => hx⟩
  have herased : Erased comp v.catalog c₁ (i.recordKey o).ilinkKey := by
    rw [hkey]
    exact herased
  rw [heq, ht]
  rcases placeRecord_single (t := t) herased.ordered f.body empty (o := o) (p := o) (by simp) with
    ⟨c2, heq2, hins⟩ | ⟨e, c2, heq2, -, rfl | hbody⟩
  · have hy2 : y ∈ c2 := by
      refine (hins.mem_iff y).mpr (.inr ((herased.mem_iff y).mpr ⟨hy, fun hrank => ?_⟩))
      exact hinode.ne.2 (hilink y hy hrank)
    simp only [heq2]
    cases hfind : f.find with
    | some e =>
      -- the body is removed again
      have hb : ∃ c3, vdfs4CattreeRemove comp f.undo c2 o o empty i.recordType = (none, c3) ∧
          Erased comp c2 c3 ⟨o, empty, o⟩ := by
        rcases cattreeRemove_single (o := o) (p := o) (t := i.recordType) hins.ordered f.undo
            empty (by simp) with ⟨e, -, hwhy⟩ | hdone
        · rw [hundo] at hwhy
          rcases hwhy with hf | hf | habs
          · cases hf
          · exact absurd rfl hf
          · exact absurd rfl (habs _ ((hins.mem_iff _).mpr (.inl rfl)))
        · exact hdone
      obtain ⟨c3, heq3, herased3⟩ := hb
      simp only [elim_some, heq3, hins.erased_eq herased.ordered herased3]
      obtain ⟨c', hout, hre⟩ := outHlink_relinked hs herased hilink f e
      exact .inl ⟨e, c', hout, hre⟩
    | none =>
      rcases findInode_cases hins.ordered o i.parentId i.name with
        ⟨x, hx, rest, hrank, hfound⟩ | ⟨habs, -⟩
      · simp only [elim_none, hfound]
        rw [← hkey] at hrank
        obtain rfl := hins.ordered.eq_of_rank hx hy2 (hrank.trans hyrank.symm)
        obtain ⟨hp, -, hobj⟩ := rank_eq_iff.mp hrank
        rw [i.recordKey_objectId] at hobj
        rw [hkey] at hp
        have hxo : x.1.objectId ≠ x.1.parentId := fun heq =>
          hset.single_parent hs (hp.symm.trans (heq.symm.trans hobj))
        have herased' : Erased comp v.catalog c₁ x.1.ilinkKey := by
          have hre := rank_ilinkKey_inj.mpr hrank
          refine ⟨herased.ordered, ?_, fun z => ?_⟩
          · rw [hre]
            exact herased.present
          · rw [hre]
            exact herased.mem_iff z
        obtain ⟨c', b, r, hmove, hhard⟩ :=
          moveToBody_hardened (i := i) hx hxo (htype hs) hobj herased' hins
        exact .inr ⟨c', x, b, r, hmove, hy, hrank, hhard⟩
      · rw [hkey] at hyrank
        exact absurd hyrank (habs y hy2)
  · simp only [heq2]
    obtain ⟨c', hout, hre⟩ := outHlink_relinked hs herased hilink f e
    exact .inl ⟨e, c', hout, hre⟩
  · -- there is no body that the refusal could have removed
    obtain ⟨z, hz, hrank⟩ := hbody.present
    exact absurd hrank (h.bodyKey_notMem hi hs ((herased.mem_iff z).mp hz).1)

/-- A hardened inode in a consistent volume. -/
theorem of_hardened (h : Consistent comp v) (hi : v.inodes o = some i) (hs : i.hardLink = false)
    (hkind : i.kind ≠ .dir) (hlinks : i.nlink ≠ 0) (hx : x ∈ v.catalog)
    (hrank : comp.rank x.1 = comp.rank (i.recordKey o)) {b : CatalogRecord}
    (hhard : Hardened comp v.catalog v'.catalog o x b r)
    (hself : v'.inodes o = some { i with parentId := 0, name := empty, hardLink := true })
    (hothers : ∀ m, m ≠ o → v'.inodes m = v.inodes m) (hlist : v'.orphanInodes = v.orphanInodes) :
    Consistent comp v' ∧ entries comp v'.catalog = entries comp v.catalog := by
  have hset := h.settled o i hi
  obtain ⟨-, hxo, horphan⟩ := hset.at_recordKey h.ordered hx hrank
  have hobj : x.1.objectId = o := (rank_eq_iff.mp hrank).2.2.trans (i.recordKey_objectId o)
  have hni : r.recordType ≠ .ilink := by simp [hhard.ref]
  refine h.hardened hi hs hlinks hkind hhard.body (hhard.orphan.trans horphan) hhard.ref hrank
    hhard.ordered (fun y hy => ?_) (fun y hy => ?_) hself rfl
    (fun m hm => by rw [hothers m hm]) hlist
  · rw [hhard.mem_iff]
    constructor
    · rintro (rfl | rfl | ⟨hy', -, -⟩)
      · exact absurd (owner_of_ne hhard.body.ne.2) hy
      · exact absurd ((owner_of_ne (x := (x.1, r)) hni).trans hobj) hy
      · exact hy'
    refine fun hy' => .inr (.inr ⟨hy', fun heq => ?_, fun heq => ?_⟩)
    · exact hy (hset.at_recordKey h.ordered hy' (heq.trans hrank)).2.1
    · have hil := heq.trans (rank_ilinkKey_inj.mpr hrank)
      refine hy ((owner_ilink (h.at_ilinkKey hi hs hy' hil)).trans ?_)
      rw [(rank_eq_iff.mp hil).1]
      exact i.recordKey_objectId o
  · rw [hhard.mem_iff]
    constructor
    · rintro (heq | heq | ⟨hy', hne, hnil⟩)
      · exact .inl heq
      · exact .inr heq
      · have hfits := hset.fits y hy' hy
        rcases y.2.cases_type with ht | ht | ht
        · exact absurd (((fits_inode ht).mp hfits).1.trans hrank.symm) hne
        · rw [fits_hlink ht, hs] at hfits
          exact absurd hfits.1 (by decide)
        · exact absurd (((fits_ilink ht).mp hfits).2.trans (rank_ilinkKey_inj.mpr hrank.symm)) hnil
    · rintro (heq | heq)
      · exact .inl heq
      · exact .inr (.inl heq)

/-- **`vdfs4_link` keeps a volume consistent**, and the size of the directory is right. -/
theorem link_leaves (h : Consistent comp v) (hs : Sized v (entries comp v.catalog))
    (hdir : LiveDir v d) (hi : v.inodes o = some i) (hkind : i.kind ≠ .dir) (hlinks : i.nlink ≠ 0)
    (hnew : comp.rank ⟨d, n, o⟩ ∉ entries comp v.catalog) (hf : f.place.Clean)
    (hundo : f.transform.undo = {}) {e : Option Errno}
    (hcall : vdfs4Link comp f v d n o = some (e, v')) :
    Consistent comp v' ∧ Sized v' (entries comp v'.catalog) ∧ v'.readOnly = v.readOnly := by
  have hsame : Consistent comp v ∧ Sized v (entries comp v.catalog) ∧ v.readOnly = v.readOnly :=
    ⟨h, hs, rfl⟩
  rw [vdfs4Link, hi] at hcall
  simp only at hcall
  split_ifs at hcall with hlen hmax hhard
  · cases hcall
    exact hsame
  · cases hcall
    exact hsame
  · rcases h.linkTail_cases hs hdir hi hhard hkind hlinks hnew hf with
      ⟨e', heq⟩ | ⟨w, heq, hw⟩ <;> rw [heq] at hcall <;> cases hcall
    · exact hsame
    · exact hw
  · have hhard : i.hardLink = false := Bool.eq_false_iff.mpr hhard
    rcases h.transform_cases hi hhard hundo with
      ⟨e', c', heq, hre⟩ | ⟨c', x, b, r, heq, hx, hrank, hh⟩ <;>
      rw [heq] at hcall <;> simp only at hcall
    · cases hcall
      have hinodes : ∀ m, (({ v with catalog := c' } : Volume).setInode o i).inodes m =
        v.inodes m := by
        intro m
        by_cases hm : m = o
        · rw [hm, setInode_self, hi]
        · rw [setInode_of_ne _ _ hm]
      obtain ⟨hcons, hentries⟩ : Consistent comp
        (({ v with catalog := c' } : Volume).setInode o i) ∧
          entries comp c' = entries comp v.catalog := h.relinked hi hhard hre rfl hinodes
      refine ⟨hcons, ?_, rfl⟩
      change Sized _ (entries comp c')
      rw [hentries]
      exact hs.stay fun m => by rw [hinodes m]
    · -- the reference goes to the volume with the body
      let i' : CatalogInode := { i with parentId := 0, name := empty, hardLink := true }
      let w : Volume := ({ v with catalog := c' } : Volume).setInode o i'
      have hself : w.inodes o = some i' := setInode_self _ _
      have hothers : ∀ m, m ≠ o → w.inodes m = v.inodes m := fun m hm => setInode_of_ne _ _ hm
      have hw : w.catalog = c' := rfl
      obtain ⟨hcons, hentries⟩ := h.of_hardened hi hhard hkind hlinks hx hrank
        (hw ▸ hh) hself hothers rfl
      have hod : d ≠ o := by
        rintro rfl
        obtain ⟨dd, hdd, hddir, -⟩ := hdir
        exact hkind (mem_unique hi hdd ▸ hddir)
      have hsw : Sized w (entries comp w.catalog) := by
        rw [hentries]
        refine hs.stay fun m => ?_
        by_cases hm : m = o
        · rw [hm, hself, hi]
          rfl
        · rw [hothers m hm]
      have hdirw : LiveDir w d := hdir.imp fun dd hdd => ⟨(hothers d hod).trans hdd.1, hdd.2⟩
      rcases hcons.linkTail_cases hsw hdirw hself rfl hkind hlinks (hentries ▸ hnew) hf with
        ⟨e', heq⟩ | ⟨w', heq, hw⟩
      · rw [show linkTail comp f _ d n o _ = _ from heq] at hcall
        rw [← (Prod.mk.inj (some.inj hcall)).2]
        exact ⟨hcons, hsw, rfl⟩
      · rw [show linkTail comp f _ d n o _ = _ from heq] at hcall
        cases hcall
        exact hw

end Consistent

end Vdfs4
