import Vdfs4.Catalog.Arrivals
import Vdfs4.Catalog.Retirement

/-!
# What `vdfs4_unlink`, `vdfs4_rmdir` and `vdfs4_evict_inode` leave

`vdfs4_unlink` drops one entry. The **last entry** makes the inode an orphan, which takes two
writes, and either of them may fail. An inode with one record keeps it until then, so a failure
leaves the entry. **A hard link reference is removed first**: after a failure the entry is gone, and
the directory still counts it.

* `SameTree` — nothing that users see has changed;
* `Drops` — the calls that drop the entry, whatever they return;
* `unlink_cases` — all ends of the call; `evict_leaves` — the end of an orphan.
-/

namespace Vdfs4

open Option hiding map_map
open OrderedMap Chain Volume CatalogInode List

variable {comp : Comparison} {c c' c₁ : Catalog} {v v' : Volume} {x : CattreeKey × CatalogRecord}
  {o d p : Nat} {n : CString} {i j prev : CatalogInode} {k : CattreeKey}
  {E : Finset Comparison.Rank} {fault : Option Errno}

/-- Where an inode is, as far as the memory says. -/
def CatalogInode.location (i : CatalogInode) : Nat × CString := (i.parentId, i.name)

/-- The directory entries are the same, and every inode is where it was. -/
structure SameTree (comp : Comparison) (v v' : Volume) : Prop where
  entries : entries comp v'.catalog = entries comp v.catalog
  locations : ∀ m, (v'.inodes m).map location = (v.inodes m).map location

theorem SameTree.refl (comp : Comparison) (v : Volume) : SameTree comp v v := ⟨rfl, fun _ => rfl⟩

/-- What sizes and places of inodes depend on. -/
def CatalogInode.outline (i : CatalogInode) : (FileKind × Nat) × (Nat × CString) :=
  ((i.kind, i.isize), i.location)

/-- The inodes are the same in outline. -/
def SameOutline (v v' : Volume) : Prop :=
  ∀ m, (v'.inodes m).map outline = (v.inodes m).map outline

theorem SameOutline.sized (h : SameOutline v v') (hs : Sized v E) :
    Sized v' E := by
  refine hs.stay fun m => ?_
  have hmap := congrArg (Option.map Prod.fst) (h m)
  rwa [Option.map_map, Option.map_map] at hmap

theorem SameOutline.sameTree (h : SameOutline v v')
    (hentries : entries comp v'.catalog = entries comp v.catalog) : SameTree comp v v' := by
  refine ⟨hentries, fun m => ?_⟩
  have hmap := congrArg (Option.map Prod.snd) (h m)
  rwa [Option.map_map, Option.map_map] at hmap

theorem SameOutline.kinds (h : SameOutline v v') (m : Nat) :
    (v'.inodes m).map kind = (v.inodes m).map kind := by
  have hmap := congrArg (Option.map fun p => p.1.1) (h m)
  rwa [Option.map_map, Option.map_map] at hmap

/-- **One entry and one unit of size less.** -/
theorem Sized.erase (h : Sized v E) (hold : comp.rank ⟨d, n, o⟩ ∈ E)
    (hdir : v'.inodes d = (v.inodes d).map fun i => { i with isize := i.isize - 1 })
    (hothers : ∀ m j, m ≠ d → v'.inodes m = some j → ∃ i, v.inodes m = some i ∧ i.kind = j.kind ∧
      j.isize = i.isize) :
    Sized v' (E.erase (comp.rank ⟨d, n, o⟩)) := by
  refine h.balanced fun m j hj hjdir => .inl ?_
  have hsum := sizeOf_erase hold m
  rw [rank_parent] at hsum
  by_cases hmd : m = d
  · subst hmd
    rw [hdir] at hj
    obtain ⟨i, hi, rfl⟩ := map_eq_some_iff.mp hj
    rw [if_pos rfl] at hsum
    have hsize := h m i hi hjdir
    exact ⟨i, hi, hjdir, by change i.isize - 1 + _ = _; omega⟩
  · rw [if_neg (Ne.symm hmd)] at hsum
    obtain ⟨i, hi, hkind, hsize⟩ := hothers m j hmd hj
    exact ⟨i, hi, hkind.trans hjdir, by rw [hsize]; omega⟩

/-! ### The writes of an orphan -/

/-- A write that is done had no failure. -/
theorem writeInode_none {w : Volume}
    (h : vdfs4WriteInode comp fault v o i = (none, w)) : fault = none := by
  cases fault with
  | none => rfl
  | some e => cases h

theorem addToOrphan_none {w : Volume}
    (h : vdfs4AddToOrphan comp fault v o = some (none, w)) : fault = none := by
  cases fault with
  | none => rfl
  | some e =>
    rw [vdfs4AddToOrphan] at h
    split at h
    · cases h
    · split at h
      · cases h
      · split at h
        · cases h
        · cases h

/-- The orphan list of a consistent volume: its last member, and who is not on it. -/
theorem Consistent.orphan_list (h : Consistent comp v) :
    ∃ l prev, v.orphanInodes = rootIno :: l ∧ Follows (nextInMemory v) 0 rootIno l ∧
      v.inodes (last rootIno l) = some prev ∧ prev.nextOrphanId = 0 ∧
      ∀ m i, v.inodes m = some i → i.nlink ≠ 0 → m ≠ rootIno → m ∉ rootIno :: l := by
  obtain ⟨l, hlist, hfollows, hdead⟩ := h.list
  obtain ⟨prev, hprev, hend⟩ := exists_of_nextInMemory hfollows.next_last
  refine ⟨l, prev, hlist, hfollows, hprev, hend, fun m i hi hl hroot hmem => ?_⟩
  rcases mem_cons.mp hmem with heq | hmem
  · exact hroot heq
  · obtain ⟨i', hi', hz⟩ := hdead m hmem
    exact hl (mem_unique hi hi' ▸ hz)

/-- What a successful `vdfs4_unlink` does. -/
structure EntryDropped (comp : Comparison) (v v' : Volume) (d : Nat) (n : CString) (o : Nat) :
    Prop where
  consistent : Consistent comp v'
  entries : entries comp v'.catalog = (entries comp v.catalog).erase (comp.rank ⟨d, n, o⟩)
  sized : Sized v' (Vdfs4.entries comp v'.catalog)
  readOnly : v'.readOnly = v.readOnly
  cores : ∀ m, m ≠ o → (v'.inodes m).map core = (v.inodes m).map core
  kinds : ∀ m, (v'.inodes m).map kind = (v.inodes m).map kind

/-- The end of an unlinking in which a write failed: read-only, and no record that matters has
changed. -/
structure OrphanFailed (comp : Comparison) (v v' : Volume) (c₁ : Catalog) : Prop where
  entries : entries comp v'.catalog = entries comp c₁
  ordered : v'.catalog.Ordered comp
  keys : ∀ x ∈ v'.catalog, ∃ y ∈ c₁, y.1 = x.1
  readOnly : v'.readOnly = true
  outline : SameOutline v v'

theorem exists_of_mem_modify {k : CattreeKey} {g : CatalogRecord → CatalogRecord}
    (hx : x ∈ modify comp.compFn k g c) : ∃ y ∈ c, y.1 = x.1 := by
  rcases (mem_modify comp.rankedBy x).mp hx with ⟨hx, -⟩ | ⟨y, hy, -, rfl⟩
  · exact ⟨x, hx, rfl⟩
  · exact ⟨y, hy, rfl⟩

/-- A read-only volume with the same entries, where at most records and an inode are gone. -/
theorem leaves_of_readOnly (h : Consistent comp v) (hs : Sized v (entries comp v.catalog))
    (hentries : entries comp v'.catalog = entries comp v.catalog) (hord : v'.catalog.Ordered comp)
    (hkeys : ∀ x ∈ v'.catalog, ∃ y ∈ v.catalog, y.1 = x.1) (hro : v'.readOnly = true)
    (hinodes : ∀ m j, v'.inodes m = some j → ∃ i, v.inodes m = some i ∧ i.kind = j.kind ∧
      j.isize = i.isize) : Leaves comp v' where
  sized := by
    rw [hentries]
    refine hs.congr fun m j hj hdir => ?_
    obtain ⟨i, hi, hkind, hsize⟩ := hinodes m j hj
    exact ⟨i, hi, hkind.trans hdir, hsize⟩
  counted := h.counted.within hord hkeys fun m j hj =>
    (hinodes m j hj).imp fun _ hi => ⟨hi.1, hi.2.1⟩
  consistent hf := by
    rw [hro] at hf
    cases hf

theorem SameOutline.exists_of_some {m : Nat} (h : SameOutline v v') (hj : v'.inodes m = some j) :
    ∃ i, v.inodes m = some i ∧ i.kind = j.kind ∧ j.isize = i.isize := by
  have hmap := h m
  rw [hj, map_some] at hmap
  obtain ⟨i, hi, heq⟩ := map_eq_some_iff.mp hmap.symm
  exact ⟨i, hi, congrArg (·.1.1) heq, (congrArg (·.1.2) heq).symm⟩

/-- The inodes outside an orphan and its predecessor, and those two in outline. -/
theorem SameOutline.of_three {q : CatalogInode} (hi : v.inodes o = some i)
    (hprev : v.inodes p = some prev) (hself : v'.inodes o = some j) (hpw : v'.inodes p = some q)
    (hj : j.outline = i.outline) (hp : q.outline = prev.outline)
    (hothers : ∀ m, m ≠ p → m ≠ o → v'.inodes m = v.inodes m) : SameOutline v v' := by
  intro m
  by_cases hmo : m = o
  · rw [hmo, hself, hi, map_some, map_some, hj]
  by_cases hmp : m = p
  · rw [hmp, hpw, hprev, map_some, map_some, hp]
  · rw [hothers m hmp hmo]

namespace Consistent

/-- The end of an unlinking in which both writes are done. -/
theorem entryDropped (h : Consistent comp v) (hs : Sized v (entries comp v.catalog)) (hd : d ≠ 0)
    (he : comp.rank ⟨d, n, o⟩ ∈ entries comp v.catalog) (hi : v.inodes o = some i)
    (hone : i.nlink = 1) (hempty : ∀ ρ ∈ entries comp v.catalog, (ofLex ρ).1 ≠ o) {l : List Nat}
    (hlist : v.orphanInodes = rootIno :: l) (hprev : v.inodes p = some prev)
    (hp : p ∈ v.orphanInodes) (hlast : LastEntry comp v.catalog c₁ i ⟨d, n, o⟩) {w : Volume}
    (hcat : w.catalog = modify comp.compFn (prev.recordKey p)
      { prev with nextOrphanId := o }.fillCattreeValue c₁)
    (hself : w.inodes o = some { i with nlink := 0, orphan := true, nextOrphanId := 0 })
    (hpw : w.inodes p = some { prev with nextOrphanId := o })
    (hothers : ∀ m, m ≠ p → m ≠ o → w.inodes m = v.inodes m)
    (hlist' : w.orphanInodes = rootIno :: (l ++ [o]))
    (hfollows : Follows (nextInMemory w) 0 rootIno (l ++ [o])) (hro : w.readOnly = v.readOnly) :
    EntryDropped comp v
      (({ w with catalog := (modify comp.compFn (i.recordKey o)
        { i with nlink := 0, orphan := true, nextOrphanId := 0 }.fillCattreeValue w.catalog) } :
          Volume).modifyInode d fun d => { d with isize := d.isize - 1 }) d n o := by
  have hod := (h.exists_of_entry he).1
  generalize hv' : modifyInode _ d _ = v'
  have hmodified : ∀ m, v'.inodes m =
      if m = d then (w.inodes m).map fun d => { d with isize := d.isize - 1 } else w.inodes m := by
    intro m
    rw [← hv']
    rfl
  have hself' : v'.inodes o = some { i with nlink := 0, orphan := true, nextOrphanId := 0 } := by
    rw [hmodified, if_neg hod, hself]
  have hcores : ∀ m, m ≠ o → (v'.inodes m).map core = (v.inodes m).map core := by
    intro m hm
    have hw : (w.inodes m).map core = (v.inodes m).map core := by
      by_cases hmp : m = p
      · rw [hmp, hpw, hprev]
        rfl
      · rw [hothers m hmp hm]
    rw [hmodified]
    split
    · rw [Option.map_map, ← hw]
      rfl
    · exact hw
  obtain ⟨hcons, hentries⟩ := h.orphaned hi hone he hd hempty hlist hprev hp
    (q := { prev with nextOrphanId := o }) rfl
    (w := { i with nlink := 0, orphan := true, nextOrphanId := 0 }) rfl hlast
    (by rw [← hv']; exact congrArg _ hcat) hself' rfl hcores (by rw [← hv']; exact hlist')
    (hfollows.congr fun m _ => by
      rw [nextInMemory, nextInMemory, hmodified]
      split
      · rw [Option.map_map]
        rfl
      · rfl)
  have hsw : Sized w (entries comp v.catalog) :=
    (SameOutline.of_three hi hprev hself hpw rfl rfl hothers).sized hs
  refine ⟨hcons, hentries, ?_, by rw [← hv']; exact hro, hcores, fun m => ?_⟩
  · rw [hentries]
    refine hsw.erase he (by rw [hmodified, if_pos rfl]) fun m j hmd hj => ?_
    rw [hmodified, if_neg hmd] at hj
    exact ⟨j, hj, rfl, rfl⟩
  · by_cases hm : m = o
    · rw [hm, hself', hi]
      rfl
    · have hkind := congrArg (Option.map kind) (hcores m hm)
      rwa [Option.map_map, Option.map_map] at hkind

/-- The addition to the orphan list when the last entry goes: only a failed write of the orphan in
front of it is reported. -/
theorem addToOrphan_last (h : Consistent comp v) (hd : d ≠ 0)
    (he : comp.rank ⟨d, n, o⟩ ∈ entries comp v.catalog) (hi : v.inodes o = some i)
    (hone : i.nlink = 1)
    (hlast : LastEntry comp v.catalog c₁ i ⟨d, n, o⟩) (fault : Option Errno) {w : Volume}
    (hw : w = { v.setInode o { i with nlink := 0 } with catalog := c₁ }) :
    ∃ l prev, v.orphanInodes = rootIno :: l ∧ v.inodes (last rootIno l) = some prev ∧
      o ∉ rootIno :: l ∧ Settled comp c₁ (last rootIno l) prev ∧
      Follows (nextInMemory w) 0 rootIno l ∧
      ((∃ e w1, vdfs4AddToOrphan comp fault w o = some (some e, w1) ∧ fault ≠ none ∧
          OrphanRefused w w1 o { i with nlink := 0 }) ∨
        ∃ w1, vdfs4AddToOrphan comp fault w o = some (none, w1) ∧
          OrphanAdded comp w w1 (last rootIno l) prev o { i with nlink := 0 }) := by
  obtain ⟨l, prev, hlist, hfollows, hprev, hend, hout⟩ := h.orphan_list
  obtain ⟨hord1, hothers1, -, -⟩ := h.lastEntry_records hi hone he hlast
  have hnew : o ∉ rootIno :: l := hout o i hi (by omega) (h.ne_root_of_entry hd he)
  have hne : o ≠ last rootIno l := fun heq => hnew (heq ▸ last_mem rootIno l)
  have hwself : w.inodes o = some { i with nlink := 0 } := by
    rw [hw]
    exact setInode_self _ _
  have hwothers : ∀ m, m ≠ o → w.inodes m = v.inodes m := fun m hm => by
    rw [hw]
    exact setInode_of_ne _ _ hm
  have hsetp : Settled comp c₁ (last rootIno l) prev := (h.settled _ prev hprev).congr
    (fun x hx => hothers1 x (hx ▸ hne.symm)) rfl
  refine ⟨l, prev, hlist, hprev, hnew, hsetp, hfollows.congr fun m hm =>
    congrArg _ (hwothers m fun heq => hnew (heq ▸ hm)), ?_⟩
  rcases addToOrphan_cases (v := w) (by rw [hw]; exact hord1) (by rw [hw]; exact hlist)
    ((hwothers _ hne.symm).trans hprev) hend hwself hne fault with
    ⟨e, w1, heq, hwhy, href⟩ | hadded
  · refine .inl ⟨e, w1, heq, hwhy.resolve_right fun habs => ?_, href⟩
    obtain ⟨y, hy, -, hyrank⟩ := hsetp.located
    rw [hw] at habs
    exact habs y hy hyrank
  · exact .inr hadded

/-- **The last entry**: both writes are done and the inode is an orphan, or one of them failed. -/
theorem unlinkTail_last (h : Consistent comp v) (hs : Sized v (entries comp v.catalog)) (hd : d ≠ 0)
    (he : comp.rank ⟨d, n, o⟩ ∈ entries comp v.catalog) (hi : v.inodes o = some i)
    (hone : i.nlink = 1) (hempty : ∀ ρ ∈ entries comp v.catalog, (ofLex ρ).1 ≠ o)
    (hlast : LastEntry comp v.catalog c₁ i ⟨d, n, o⟩) (f : UnlinkFaults) {w : Volume}
    (hw : w = { v.setInode o { i with nlink := 0 } with catalog := c₁ }) :
    (∃ e v', unlinkTail comp f w d o 0 = some (some e, v') ∧ OrphanFailed comp v v' c₁ ∧
        (f.orphan ≠ none ∨ f.write ≠ none)) ∨
      ∃ v', unlinkTail comp f w d o 0 = some (none, v') ∧ EntryDropped comp v v' d n o ∧
        f.orphan = none ∧ f.write = none := by
  obtain ⟨hord1, -, -, hkeep1⟩ := h.lastEntry_records hi hone he hlast
  obtain ⟨l, prev, hlist, hprev, hnew, hsetp, hwfollows, hcases⟩ :=
    h.addToOrphan_last hd he hi hone hlast f.orphan hw
  have hset := h.settled o i hi
  have hne : o ≠ last rootIno l := fun heq => hnew (heq ▸ last_mem rootIno l)
  have hwcat : w.catalog = c₁ := by rw [hw]
  have hwothers : ∀ m, m ≠ o → w.inodes m = v.inodes m := fun m hm => by
    rw [hw]
    exact setInode_of_ne _ _ hm
  rw [unlinkTail, if_neg (by simp)]
  rcases hcases with ⟨e, w1, heq, hwhy, href⟩ | ⟨w1, heq, hadd⟩
  · -- the predecessor could not be written
    left
    rw [heq]
    have hcat1 : w1.catalog = c₁ := href.catalog.trans hwcat
    refine ⟨e, _, rfl, ⟨?_, ?_, fun x hx => ⟨x, ?_, rfl⟩, href.readOnly, ?_⟩, .inl hwhy⟩
    · change entries comp w1.catalog = _
      rw [hcat1]
    · change w1.catalog.Ordered comp
      rw [hcat1]
      exact hord1
    · rw [← hcat1]
      exact hx
    · have hself : (w1.modifyInode o fun i => { i with nlink := i.nlink + 1 }).inodes o =
          some { i with orphan := false, nextOrphanId := 0 } := by
        rw [modifyInode_self, href.ino_eq]
        simp [hone]
      refine SameOutline.of_three (p := o) hi hi hself hself rfl rfl fun m hm _ => ?_
      rw [modifyInode_of_ne _ _ hm, href.others m hm, hwothers m hm]
  · have hcat1 := hadd.catalog
    rw [hwcat] at hcat1
    have hord2 : w1.catalog.Ordered comp := by
      rw [hcat1]
      exact Sorted.modify hord1 _ _
    rw [heq]
    simp only [hadd.ino_eq]
    rcases writeInode_cases hord2 f.write o
        { i with nlink := 0, orphan := true, nextOrphanId := 0 } with ⟨e, heq2, hwhy⟩ | heq2
    · -- the inode could not be written
      left
      rw [heq2]
      refine ⟨e, _, rfl, ⟨?_, hord2, fun x hx => ?_, rfl, ?_⟩,
        .inr (hwhy.resolve_right fun habs => ?_)⟩
      · change entries comp w1.catalog = _
        rw [hcat1]
        refine entries_modify fun x hx hrank => isEntry_fillCattreeValue ?_
        exact (hsetp.at_recordKey hord1 hx hrank).2.2
      · exact exists_of_mem_modify (hcat1 ▸ hx)
      · refine SameOutline.of_three hi hprev (j := { i with orphan := true, nextOrphanId := 0 })
          (q := { prev with nextOrphanId := o }) ?_ ?_ rfl rfl fun m hmp hm => ?_
        · rw [modifyInode_self]
          change Option.map _ (w1.inodes o) = _
          rw [hadd.ino_eq]
          simp [hone]
        · rw [modifyInode_of_ne _ _ hne.symm]
          exact hadd.prev_eq
        · rw [modifyInode_of_ne _ _ hm]
          exact (hadd.others m hmp hm).trans (hwothers m hm)
      · obtain ⟨y, hy, hinode, hyrank⟩ := hset.located
        have hyo := (hset.at_recordKey h.ordered hy hyrank).2.1
        have hy1 : y ∈ w1.catalog := by
          rw [hcat1]
          have hat := fun e he' hrank => (hsetp.at_recordKey (x := e) hord1 he' hrank).2.1
          exact (mem_modify_of_owner (g := fillCattreeValue { prev with nextOrphanId := o })
            hat (fun _ => rfl) (by rw [hyo]; exact hne)).mpr (hkeep1 y hy hyo hinode)
        exact habs y hy1 hyrank
    · right
      rw [heq2]
      refine ⟨_, rfl, ?_, addToOrphan_none heq, writeInode_none heq2⟩
      refine h.entryDropped hs hd he hi hone hempty hlist hprev
        (hlist ▸ last_mem rootIno l) hlast hcat1
        hadd.ino_eq hadd.prev_eq (fun m hmp hm => (hadd.others m hmp hm).trans (hwothers m hm)) ?_
        (hadd.follows hset.ne_zero hwfollows hnew) (hadd.readOnly.trans (by rw [hw]; rfl))
      rw [hadd.list, hw]
      exact congrArg (· ++ [o]) hlist

end Consistent

/-! ### Unlinking -/

/-- **The calls that drop the entry**: the reference of a hard linked inode could be removed, or
both writes of another one could be done. -/
def UnlinkFaults.Drops (f : UnlinkFaults) (i : CatalogInode) : Prop :=
  if i.hardLink then f.ref.alloc = false ∧ f.ref.record = none else f.orphan = none ∧ f.write = none

instance (f : UnlinkFaults) (i : CatalogInode) : Decidable (f.Drops i) :=
  inferInstanceAs (Decidable (if i.hardLink = true then f.ref.alloc = false ∧ f.ref.record = none
    else f.orphan = none ∧ f.write = none))

/-- The calls of `vdfs4_rmdir` and `vdfs4_unlink` that drop the entry: a directory has to be
empty. -/
def UnlinkFaults.Removes (f : UnlinkFaults) (i : CatalogInode) : Prop :=
  (i.kind = .dir → i.isize = 0) ∧ f.Drops i

instance (f : UnlinkFaults) (i : CatalogInode) : Decidable (f.Removes i) :=
  inferInstanceAs (Decidable ((i.kind = .dir → i.isize = 0) ∧ f.Drops i))

/-- The removal of a reference fails, with nothing changed, when the tree fails. -/
theorem removeReference_cases (hc : c.Ordered comp) (f : RemoveFaults)
    (hpresent : ∃ x ∈ c, comp.rank x.1 = comp.rank ⟨d, n, o⟩) :
    (∃ e, vdfs4CattreeRemove comp f c o d n .hlink = (some e, c) ∧
        ¬ (f.alloc = false ∧ f.record = none)) ∨
      ∃ c', vdfs4CattreeRemove comp f c o d n .hlink = (none, c') ∧
        (f.alloc = false ∧ f.record = none) ∧ EntryRemoved comp c c' ⟨d, n, o⟩ .hlink := by
  rw [vdfs4CattreeRemove]
  by_cases halloc : f.alloc = true
  · exact .inl ⟨.enomem, by rw [if_pos halloc], fun hf => by simp [halloc] at hf⟩
  rw [if_neg halloc, if_neg (by simp)]
  rcases removeRecord_cases hc f.record ⟨d, n, o⟩ with ⟨c', heq, hf, herased⟩ | ⟨e, heq, hwhy⟩
  · refine .inr ⟨c', heq, ⟨Bool.eq_false_iff.mpr halloc, hf⟩, herased.ordered,
      herased.present, fun x => ?_⟩
    rw [herased.mem_iff]
    simp
  refine .inl ⟨e, heq, fun hf => ?_⟩
  rcases hwhy with hwhy | ⟨-, habs⟩
  · rw [hf.2] at hwhy
    cases hwhy
  · obtain ⟨x, hx, hrank⟩ := hpresent
    exact habs x hx hrank

/-- `exit_inc_nlink` right after the decrement restores the volume. -/
theorem exitIncNlink_eq (hi : v.inodes o = some i) (hl : i.nlink ≠ 0) (e : Errno) :
    exitIncNlink e (v.setInode o { i with nlink := i.nlink - 1 }) o = some (some e, v) := by
  have hfun : ((v.setInode o { i with nlink := i.nlink - 1 }).modifyInode o
      fun i => { i with nlink := i.nlink + 1 }).inodes = v.inodes := by
    funext m
    by_cases hm : m = o
    · have hsum : i.nlink - 1 + 1 = i.nlink := by omega
      rw [hm, modifyInode_self, setInode_self, hi, map_some, hsum]
    · rw [modifyInode_of_ne _ _ hm, setInode_of_ne _ _ hm]
  rw [exitIncNlink]
  cases v
  simp only [modifyInode, setInode] at hfun ⊢
  rw [hfun]

namespace Consistent

/-- The end of an unlinking that is not the last one. -/
theorem entryDropped_reference (h : Consistent comp v) (hs : Sized v (entries comp v.catalog))
    (he : comp.rank ⟨d, n, o⟩ ∈ entries comp v.catalog) (hi : v.inodes o = some i)
    (hh : i.hardLink = true) (hmore : i.nlink - 1 ≠ 0)
    (hremoved : EntryRemoved comp v.catalog c₁ ⟨d, n, o⟩ .hlink) :
    EntryDropped comp v (({ v.setInode o { i with nlink := i.nlink - 1 } with catalog := c₁ } :
      Volume).modifyInode d fun d => { d with isize := d.isize - 1 }) d n o := by
  have hod := (h.exists_of_entry he).1
  generalize hv' : modifyInode _ d _ = v'
  have hcat : v'.catalog = c₁ := by rw [← hv']; rfl
  have hself : v'.inodes o = some { i with nlink := i.nlink - 1 } := by
    rw [← hv', modifyInode_of_ne _ _ hod]
    exact setInode_self _ _
  have hdir : v'.inodes d = (v.inodes d).map fun d => { d with isize := d.isize - 1 } := by
    rw [← hv', modifyInode_self]
    exact congrArg _ (setInode_of_ne _ _ hod.symm)
  have hothers : ∀ m, m ≠ o → m ≠ d → v'.inodes m = v.inodes m := fun m hm hmd => by
    rw [← hv', modifyInode_of_ne _ _ hmd]
    exact setInode_of_ne _ _ hm
  have halike : AlikeBut v v' (· = o) := by
    intro m hm
    by_cases hmd : m = d
    · rw [hmd, hdir, Option.map_map]
      rfl
    · rw [hothers m hm hmd]
  rw [← hcat] at hremoved
  have hentries := entries_of_removed hremoved fun hn => absurd rfl hn
  refine ⟨h.dereferenced hi hh he hmore hremoved hself rfl halike (by rw [← hv']; rfl), hentries,
    ?_, by rw [← hv']; rfl, fun m hm => halike.cores hm, fun m => ?_⟩
  · rw [hentries]
    refine hs.erase he hdir fun m j hmd hj => ?_
    by_cases hm : m = o
    · subst hm
      obtain rfl := mem_unique hself hj
      exact ⟨i, hi, rfl, rfl⟩
    · exact ⟨j, (hothers m hm hmd).symm.trans hj, rfl, rfl⟩
  · by_cases hm : m = o
    · rw [hm, hself, hi]
      rfl
    · have hkind := congrArg (Option.map kind) (halike.cores hm)
      rwa [Option.map_map, Option.map_map] at hkind

/-- **All ends of `vdfs4_unlink`**: an assertion on the number of links; a failure that leaves the
entry; success; and a failure after the last reference of a hard linked inode is gone. -/
theorem unlink_cases (h : Consistent comp v) (hs : Sized v (entries comp v.catalog)) (hd : d ≠ 0)
    (he : comp.rank ⟨d, n, o⟩ ∈ entries comp v.catalog) (hi : v.inodes o = some i)
    (hempty : ∀ ρ ∈ entries comp v.catalog, (ofLex ρ).1 ≠ o) (f : UnlinkFaults) :
    (vdfs4Unlink comp f v d n o = none ∧ vdfs4LinkMax < i.nlink - 1) ∨
      (∃ e v', vdfs4Unlink comp f v d n o = some (some e, v') ∧
        entries comp v'.catalog = entries comp v.catalog ∧ SameOutline v v' ∧ Leaves comp v' ∧
        ¬ f.Drops i) ∨
      (∃ v', vdfs4Unlink comp f v d n o = some (none, v') ∧
        EntryDropped comp v v' d n o ∧ f.Drops i) ∨
      ∃ e v', vdfs4Unlink comp f v d n o = some (some e, v') ∧
        entries comp v'.catalog = (entries comp v.catalog).erase (comp.rank ⟨d, n, o⟩) ∧
        (i.hardLink = true ∧ i.nlink = 1 ∧ (f.orphan ≠ none ∨ f.write ≠ none)) ∧ f.Drops i := by
  obtain ⟨hod, i', hi', hl, -, -⟩ := h.exists_of_entry he
  obtain rfl : i' = i := mem_unique hi' hi
  rw [vdfs4Unlink, hi]
  simp only [hl, if_false]
  by_cases hmax : vdfs4LinkMax < i'.nlink - 1
  · exact .inl ⟨by rw [if_pos hmax], hmax⟩
  rw [if_neg hmax]
  right
  by_cases hh : i'.hardLink = true
  swap
  · -- one record, which stays until the writes are done
    have hsingle : i'.hardLink = false := Bool.eq_false_iff.mpr hh
    have hone := h.single_nlink hi hsingle hl
    have hdrops : f.Drops i' ↔ f.orphan = none ∧ f.write = none := by
      rw [UnlinkFaults.Drops, if_neg hh]
    rw [if_neg hh]
    simp only [hone, Nat.sub_self, ne_eq, not_true_eq_false, if_false]
    rcases h.unlinkTail_last (w := v.setInode o { i' with nlink := 0 }) hs hd he hi hone hempty
        (.inl ⟨hsingle, rfl⟩) f rfl with ⟨e, v', heq, hfail, hwhy⟩ | ⟨v', heq, hdrop, hf⟩
    · refine .inl ⟨e, v', heq, hfail.entries, hfail.outline, ?_, fun hf => ?_⟩
      · refine leaves_of_readOnly h hs hfail.entries hfail.ordered hfail.keys hfail.readOnly
          fun m j hj => ?_
        exact hfail.outline.exists_of_some hj
      · obtain ⟨h1, h2⟩ := hdrops.mp hf
        exact hwhy.elim (absurd h1) (absurd h2)
    · exact .inr (.inl ⟨v', heq, hdrop, hdrops.mpr hf⟩)
  · have hdrops : f.Drops i' ↔ f.ref.alloc = false ∧ f.ref.record = none := by
      rw [UnlinkFaults.Drops, if_pos hh]
    obtain ⟨x, hx, -, hrank⟩ := mem_entries.mp he
    rw [if_pos hh]
    rcases removeReference_cases h.ordered f.ref ⟨x, hx, hrank⟩ with
      ⟨e, heq, hf⟩ | ⟨c₁, heq, hf, hremoved⟩
    · -- the reference could not be removed
      left
      rw [show vdfs4CattreeRemove comp f.ref (v.setInode o _).catalog o d n .hlink = _ from heq]
      exact ⟨e, v, exitIncNlink_eq hi hl e, rfl, fun _ => rfl, h.leaves hs, mt hdrops.mp hf⟩
    rw [show vdfs4CattreeRemove comp f.ref (v.setInode o _).catalog o d n .hlink = _ from heq]
    simp only
    by_cases hone : i'.nlink = 1
    · simp only [hone, Nat.sub_self]
      rcases h.unlinkTail_last hs hd he hi hone hempty (.inr ⟨hh, hremoved⟩) f rfl with
        ⟨e, v', heq', hfail, hwhy⟩ | ⟨v', heq', hdrop, -⟩
      · refine .inr (.inr ⟨e, v', heq', ?_, ⟨hh, trivial, hwhy⟩, hdrops.mpr hf⟩)
        rw [hfail.entries]
        exact entries_of_removed hremoved fun hn => absurd rfl hn
      · exact .inr (.inl ⟨v', heq', hdrop, hdrops.mpr hf⟩)
    · have hmore : i'.nlink - 1 ≠ 0 := by omega
      rw [unlinkTail, if_pos hmore]
      exact .inr (.inl ⟨_, rfl, h.entryDropped_reference hs he hi hh hmore hremoved, hdrops.mpr hf⟩)

theorem empty_of_file (h : Consistent comp v) (hi : v.inodes o = some i) (hkind : i.kind ≠ .dir) :
    ∀ ρ ∈ entries comp v.catalog, (ofLex ρ).1 ≠ o := by
  intro ρ hρ hp
  rcases h.parent ρ hρ with hz | ⟨j, hj, hdir, -⟩
  · exact (h.settled o i hi).ne_zero (hp.symm.trans hz)
  · rw [hp] at hj
    exact hkind (mem_unique hi hj ▸ hdir)

/-- The size of a directory says whether it is empty. -/
theorem empty_iff_isize (hs : Sized v (entries comp v.catalog)) (hi : v.inodes o = some i)
    (hkind : i.kind = .dir) : i.isize = 0 ↔ ∀ ρ ∈ entries comp v.catalog, (ofLex ρ).1 ≠ o := by
  rw [hs o i hi hkind]
  exact sizeOf_eq_zero_iff o

/-- **All ends of `vdfs4_rmdir` on a directory and `vdfs4_unlink` on a file.** -/
theorem removeInode_cases (h : Consistent comp v) (hs : Sized v (entries comp v.catalog))
    (hd : d ≠ 0)
    (he : comp.rank ⟨d, n, o⟩ ∈ entries comp v.catalog) (hi : v.inodes o = some i)
    (f : UnlinkFaults) {out : Outcome}
    (hout : (if i.kind = .dir then vdfs4Rmdir comp f v d n o else vdfs4Unlink comp f v d n o) =
      out) :
    (out = none ∧ vdfs4LinkMax < i.nlink - 1) ∨
      (∃ e v', out = some (some e, v') ∧ entries comp v'.catalog = entries comp v.catalog ∧
        SameOutline v v' ∧ Leaves comp v' ∧ ¬ f.Removes i) ∨
      (∃ v', out = some (none, v') ∧ EntryDropped comp v v' d n o ∧ f.Removes i) ∨
      ∃ e v', out = some (some e, v') ∧
        entries comp v'.catalog = (entries comp v.catalog).erase (comp.rank ⟨d, n, o⟩) ∧
        (i.hardLink = true ∧ i.nlink = 1 ∧ (f.orphan ≠ none ∨ f.write ≠ none)) ∧ f.Removes i := by
  by_cases hkind : i.kind = .dir
  · rw [if_pos hkind, vdfs4Rmdir, hi] at hout
    simp only at hout
    by_cases hsize : i.isize = 0
    · rw [if_neg (not_not.mpr hsize)] at hout
      subst hout
      have hempty := (empty_iff_isize hs hi hkind).mp hsize
      have hrem : f.Removes i ↔ f.Drops i := and_iff_right fun _ => hsize
      rw [hrem]
      exact h.unlink_cases hs hd he hi hempty f
    · rw [if_pos hsize] at hout
      subst hout
      exact .inr (.inl ⟨.enotempty, v, rfl, rfl, fun _ => rfl, h.leaves hs,
        fun hrem => hsize (hrem.1 hkind)⟩)
  · rw [if_neg hkind] at hout
    subst hout
    have hrem : f.Removes i ↔ f.Drops i := and_iff_right fun hk => absurd hk hkind
    rw [hrem]
    exact h.unlink_cases hs hd he hi (h.empty_of_file hi hkind) f

/-! ### Eviction -/

/-- The removal of the records of an orphan: refused, with at most a back link lost, or done. -/
theorem evictRemove_cases (h : Consistent comp v) (hi : v.inodes o = some i) (f : RemoveFaults) :
    (∃ e c', vdfs4CattreeRemove comp f v.catalog o (i.recordKey o).parentId (i.recordKey o).name
          i.recordType = (some e, c') ∧ entries comp c' = entries comp v.catalog ∧
          c'.Ordered comp ∧ (∀ x ∈ c', x ∈ v.catalog) ∧ ∀ x ∈ v.catalog, x.2.IsInode → x ∈ c') ∨
      ∃ c', vdfs4CattreeRemove comp f v.catalog o (i.recordKey o).parentId (i.recordKey o).name
          i.recordType = (none, c') ∧ Evicted comp v.catalog c' o i := by
  have hset := h.settled o i hi
  obtain ⟨y, hy, -, hyrank⟩ := hset.located
  by_cases hh : i.hardLink = true
  · have hkey := recordKey_hard (o := o) hh
    rw [hkey]
    rcases cattreeRemove_single (o := o) (p := o) (t := i.recordType) h.ordered f CString.empty
      (by simp) with
      ⟨e, heq, -⟩ | ⟨c', heq, herased⟩
    · exact .inl ⟨e, _, heq, rfl, h.ordered, fun _ hx => hx, fun _ hx _ => hx⟩
    · refine .inr ⟨c', heq, herased.ordered, fun x => ?_⟩
      rw [herased.mem_iff, hkey]
      exact ⟨fun hx => ⟨hx.1, hx.2, fun hs => absurd hh (by simp [hs])⟩, fun hx => ⟨hx.1, hx.2.1⟩⟩
  · have hs : i.hardLink = false := Bool.eq_false_iff.mpr hh
    have hkey := recordKey_single (o := o) hs
    have ht : i.recordType ≠ .hlink ∧ i.recordType ≠ .ilink := by
      rcases hset.single_type hs with ht | ht <;> simp [ht]
    rw [hkey] at hyrank ⊢
    rcases remove_cases h.ordered f (hset.single_parent hs).symm ht.2 ⟨y, hy, hyrank⟩ with
      ⟨e, c', heq, hlost, -, -⟩ | ⟨c', heq, hremoved⟩
    · rw [← hkey] at hlost
      refine .inl ⟨e, c', heq, entries_of_lost hlost (h.ilinkKey_notMem hi hs), hlost.ordered,
        hlost.sub, fun x hx hinode => (hlost.keep x hx).resolve_right fun hrank => ?_⟩
      exact hinode.ne.2 (h.at_ilinkKey hi hs hx hrank)
    · refine .inr ⟨c', heq, hremoved.ordered, fun x => ?_⟩
      rw [hremoved.mem_iff, hkey]
      exact ⟨fun hx => ⟨hx.1, hx.2.1, fun _ => hx.2.2 ht.1⟩, fun hx =>
        ⟨hx.1, hx.2.1, fun _ => hx.2.2 hs⟩⟩

section

variable (h : Consistent comp v) (hs : Sized v (entries comp v.catalog)) (hi : v.inodes o = some i)
  (hz : i.nlink = 0)

include h hs hi hz

/-- The end of an eviction: the orphan leaves the list, if it is on it, and the memory. -/
theorem unlisted_leaves (hev : Evicted comp v.catalog c' o i)
    (hcall : (vdfs4DelFromOrphan comp fault { v with catalog := c' } o).map
      (·.dropInode o) = some v') :
    Leaves comp v' ∧ v'.inodes o = none ∧
      ∀ m, m ≠ o → (v'.inodes m).map kind = (v.inodes m).map kind := by
  obtain ⟨-, -, hentries1⟩ := h.evicted_records hi hz hev
  obtain ⟨l, hlist, hfollows, hdead⟩ := h.list
  have hroot : o ≠ rootIno := by
    rintro rfl
    obtain ⟨ir, hir, hr⟩ := h.root
    exact hr.linked (mem_unique hir hi ▸ hz)
  obtain ⟨w, hdel, rfl⟩ := map_eq_some_iff.mp hcall
  -- what is the same for a listed and an unlisted orphan
  have hgone : (w.dropInode o).inodes o = none := dropInode_self _
  have hleft : ∀ m, m ≠ o → (w.dropInode o).inodes m = w.inodes m := fun m hm =>
    dropInode_of_ne _ hm
  by_cases hmem : o ∈ v.orphanInodes
  · have hol : o ∈ l := (mem_cons.mp (hlist ▸ hmem)).resolve_left hroot
    obtain ⟨l1, l2, rfl⟩ := append_of_mem hol
    obtain ⟨prev, hprev, hnext⟩ := follows_prev hfollows
    have hnodup : (rootIno :: (l1 ++ o :: l2)).Nodup := hfollows.nodup
    have hfront : o ∉ rootIno :: l1 := fun hm =>
      (nodup_append.mp (cons_append ▸ hnodup)).2.2 o hm o mem_cons_self rfl
    have hback : o ∉ l2 := (nodup_cons.mp
      (nodup_append.mp (cons_append ▸ hnodup)).2.1).1
    have hpo : last rootIno l1 ≠ o := fun heq => hfront (heq ▸ last_mem rootIno l1)
    obtain ⟨w', hdel', hd⟩ := delFromOrphan_cases (v := { v with catalog := c' }) hev.ordered hlist
      (hlist ▸ hnodup) hprev hnext hi fault
    obtain rfl : w' = w := mem_unique hdel' hdel
    have hfollows' : Follows (nextInMemory w') 0 rootIno (l1 ++ l2) := hd.follows hi hfollows
    have hlist' : w'.orphanInodes = rootIno :: (l1 ++ l2) := by
      rw [hd.list, hlist, erase_cons_tail (by simpa using hroot.symm),
        erase_append_right _ fun hm => hfront (mem_cons_of_mem _ hm), erase_cons_head]
    generalize hp : last rootIno l1 = p at hprev hpo hd
    have hothers : ∀ m, m ≠ p → m ≠ o → w'.inodes m = v.inodes m := hd.others
    have hcores : ∀ m, m ≠ o → ((w'.dropInode o).inodes m).map core =
        (v.inodes m).map core := by
      intro m hm
      rw [hleft m hm]
      by_cases hmp : m = p
      · rw [hmp, hd.prev_eq, hprev]
        rfl
      · rw [hothers m hmp hm]
    have hsizes : ∀ m j, (w'.dropInode o).inodes m = some j → ∃ i, v.inodes m = some i ∧
        i.kind = j.kind ∧ j.isize = i.isize := by
      intro m j hj
      by_cases hm : m = o
      · rw [hm, hgone] at hj
        cases hj
      rw [hleft m hm] at hj
      by_cases hmp : m = p
      · subst hmp
        obtain rfl := mem_unique hd.prev_eq hj
        exact ⟨prev, hprev, rfl, rfl⟩
      · rw [hothers m hmp hm] at hj
        exact ⟨j, hj, rfl, rfl⟩
    refine ⟨?_, hgone, fun m hm => ?_⟩
    · rcases hd.written with ⟨hcat, hro⟩ | ⟨hcat, hro, -⟩
      · have hleftList : ∀ m ∈ rootIno :: (l1 ++ l2), m ≠ o := by
          rintro m hm rfl
          rcases mem_append.mp (cons_append ▸ hm) with hm | hm
          · exact hfront hm
          · exact hback hm
        have hsub : ∀ m ∈ l1 ++ l2, m ∈ v.orphanInodes := by
          intro m hm
          rw [hlist]
          rcases mem_append.mp hm with hm | hm
          · exact mem_cons_of_mem _ (mem_append_left _ hm)
          · exact mem_cons_of_mem _ (mem_append_right _ (mem_cons_of_mem _ hm))
        have hfollows'' : Follows (nextInMemory (w'.dropInode o)) 0 rootIno (l1 ++ l2) :=
          hfollows'.congr fun m hm => congrArg _ (hleft m (hleftList m hm))
        obtain ⟨hcons, hentries⟩ : Consistent comp (w'.dropInode o) ∧
            entries comp (w'.dropInode o).catalog = entries comp v.catalog := h.evicted hi hz hev
          (.inr ⟨p, prev, { prev with nextOrphanId := i.nextOrphanId }, hprev, hpo, rfl, hcat⟩)
          hgone hcores ⟨l1 ++ l2, hlist', hfollows'', fun m hm =>
            ⟨hleftList m (mem_cons_of_mem _ hm), hsub m hm⟩⟩
        refine hcons.leaves ?_
        rw [hentries]
        refine hs.congr fun m j hj hdir => ?_
        obtain ⟨i', hi', hkind, hsize⟩ := hsizes m j hj
        exact ⟨i', hi', hkind.trans hdir, hsize⟩
      · have hcat' : (w'.dropInode o).catalog = c' := hcat
        refine leaves_of_readOnly h hs (by rw [← hentries1, hcat']) (hcat' ▸ hev.ordered)
          (fun x hx => ⟨x, ((hev.mem_iff x).mp (hcat' ▸ hx)).1, rfl⟩) hro hsizes
    · have hkind := congrArg (Option.map kind) (hcores m hm)
      rwa [Option.map_map, Option.map_map] at hkind
  · rw [vdfs4DelFromOrphan, if_neg hmem] at hdel
    cases hdel
    have hol : ∀ m ∈ rootIno :: l, m ≠ o := by
      rintro m hm rfl
      exact hmem (hlist ▸ hm)
    have hfollows' : Follows (nextInMemory (dropInode { v with catalog := c' } o)) 0 rootIno l :=
      hfollows.congr fun m hm => congrArg _ (hleft m (hol m hm))
    obtain ⟨hcons, hentries⟩ : Consistent comp (dropInode { v with catalog := c' } o) ∧
        entries comp c' = entries comp v.catalog :=
      h.evicted hi hz hev (.inl rfl) hgone (fun m hm => by rw [hleft m hm])
      ⟨l, hlist, hfollows', fun m hm =>
        ⟨hol m (mem_cons_of_mem _ hm), hlist ▸ mem_cons_of_mem _ hm⟩⟩
    refine ⟨hcons.leaves ?_, hgone, fun m hm => by rw [hleft m hm]⟩
    change Sized _ (entries comp c')
    rw [hentries]
    refine hs.congr fun m j hj hdir => ?_
    by_cases hm : m = o
    · rw [hm, hgone] at hj
      cases hj
    · exact ⟨j, (hleft m hm).symm.trans hj, hdir, rfl⟩

/-- **`vdfs4_evict_inode` of an orphan** keeps entries and sizes; what fails there is a fatal
error. -/
theorem evict_leaves {f : EvictFaults} (hcall : vdfs4EvictInode comp f v o = some v') :
    Leaves comp v' ∧ v'.inodes o = none ∧
      ∀ m, m ≠ o → (v'.inodes m).map kind = (v.inodes m).map kind := by
  have hdrop : ∀ w : Volume, (∀ m, w.inodes m = v.inodes m) → ∀ m j,
    (w.dropInode o).inodes m = some j →
      ∃ i, v.inodes m = some i ∧ i.kind = j.kind ∧ j.isize = i.isize := by
    intro w hw m j hj
    by_cases hm : m = o
    · rw [hm, dropInode_self] at hj
      cases hj
    · rw [dropInode_of_ne _ hm, hw] at hj
      exact ⟨j, hj, rfl, rfl⟩
  have hkinds : ∀ w : Volume, (∀ m, w.inodes m = v.inodes m) → ∀ m, m ≠ o →
      ((w.dropInode o).inodes m).map kind = (v.inodes m).map kind := by
    intro w hw m hm
    rw [dropInode_of_ne _ hm, hw]
  rw [vdfs4EvictInode, hi] at hcall
  simp only at hcall
  rw [if_neg (not_not.mpr hz)] at hcall
  by_cases hx : f.xattr ≠ none
  · rw [if_pos hx] at hcall
    cases hcall
    exact ⟨leaves_of_readOnly h hs rfl h.ordered (fun x hx => ⟨x, hx, rfl⟩) rfl
      (hdrop _ fun _ => rfl), dropInode_self _,
      hkinds _ fun _ => rfl⟩
  rw [if_neg hx] at hcall
  by_cases ht : (i.kind = .reg ∨ i.kind = .lnk) ∧ f.truncate ≠ none
  · rw [if_pos ht] at hcall
    cases hcall
    exact ⟨leaves_of_readOnly h hs rfl h.ordered (fun x hx => ⟨x, hx, rfl⟩) rfl
      (hdrop _ fun _ => rfl), dropInode_self _,
      hkinds _ fun _ => rfl⟩
  rw [if_neg ht] at hcall
  rcases h.evictRemove_cases hi f.remove with
    ⟨e, c', heq, hentries, hord, hsub, -⟩ | ⟨c', heq, hev⟩ <;>
    rw [heq] at hcall <;> simp only at hcall
  · cases hcall
    exact ⟨leaves_of_readOnly h hs hentries hord (fun x hx => ⟨x, hsub x hx, rfl⟩) rfl
      (hdrop _ fun _ => rfl), dropInode_self _,
      hkinds _ fun _ => rfl⟩
  · exact h.unlisted_leaves hs hi hz hev hcall

end

end Consistent

end Vdfs4
