import Vdfs4.Catalog.Transitions

/-!
# The end of an inode

When its last entry goes, an inode becomes an **orphan**: its record is marked and it goes to the
end of the orphan list, which writes the inode in front of it as well. Later it is **evicted**, and
its records and its place on the list go.

* `Settled.written`, `Settled.orphaned` — the two writes;
* `Consistent.of_retired` — what both ends have to show; `Consistent.orphaned`,
  `Consistent.evicted` — the two ends.
-/

namespace Vdfs4

open OrderedMap Chain CatalogInode CatalogRecord

variable {comp : Comparison} {c c' c₁ : Catalog} {v v' : Volume} {x y : CattreeKey × CatalogRecord}
  {o p d : Nat} {n : CString} {i j : CatalogInode} {r : CatalogRecord} {k : CattreeKey}

/-! ### An orphan -/

theorem isEntry_fillCattreeValue (horphan : x.2.orphan = j.orphan) :
    IsEntry (x.1, j.fillCattreeValue x.2) ↔ IsEntry x := by
  have hlive : (j.fillCattreeValue x.2).isOrphan = x.2.isOrphan := by
    rw [isOrphan, isOrphan, horphan]
    rfl
  rw [IsEntry, IsEntry, CatalogRecord.Live, CatalogRecord.Live, hlive]
  rfl

/-- A write leaves the records of other inodes alone. -/
theorem mem_modify_of_owner {g : CatalogRecord → CatalogRecord}
    (hat : ∀ e ∈ c, comp.rank e.1 = comp.rank k → owner e = o)
    (hg : ∀ r, (g r).recordType = r.recordType) (hx : owner x ≠ o) :
    x ∈ modify comp.compFn k g c ↔ x ∈ c := by
  rw [mem_modify comp.rankedBy]
  constructor
  · rintro (⟨hx', -⟩ | ⟨e, he, hrank, rfl⟩)
    · exact hx'
    · refine absurd ?_ hx
      rw [owner, hg]
      exact hat e he hrank
  · intro hx'
    exact .inl ⟨hx', fun hrank => hx (hat x hx' hrank)⟩

/-- The catalog after a write of the inode `p`, which keeps its record: the other records, the
entries and the **settled inodes** stay. -/
structure Written (comp : Comparison) (c c' : Catalog) (p : Nat) (i : CatalogInode) : Prop where
  ordered : c'.Ordered comp
  others : ∀ x, owner x ≠ p → (x ∈ c' ↔ x ∈ c)
  entries_eq : entries comp c' = entries comp c
  settled : ∀ m im, (m = p → im = i) → Settled comp c m im → Settled comp c' m im

theorem Settled.written (h : Settled comp c p i) (hord : c.Ordered comp) (hcore : j.core = i.core) :
    Written comp c (modify comp.compFn (i.recordKey p) j.fillCattreeValue c) p i := by
  have horphan : j.orphan = i.orphan := congrArg (·.orphan) hcore
  have hothers : ∀ x, owner x ≠ p →
      (x ∈ modify comp.compFn (i.recordKey p) j.fillCattreeValue c ↔ x ∈ c) := fun x hx =>
    mem_modify_of_owner (fun e he hrank => (h.at_recordKey hord he hrank).2.1) (fun _ => rfl) hx
  have hentries : entries comp (modify comp.compFn (i.recordKey p) j.fillCattreeValue c) =
      entries comp c := entries_modify fun e he hrank =>
    isEntry_fillCattreeValue ((h.at_recordKey hord he hrank).2.2.trans horphan.symm)
  refine ⟨Sorted.modify hord _ _, hothers, hentries, fun m im hself hm => ?_⟩
  by_cases hmp : m = p
  · obtain rfl := hmp
    obtain rfl := hself rfl
    obtain ⟨y, hy, hinode, hyrank⟩ := h.located
    refine { h with
      fits := fun x hx ho => ?_, located := ?_, links := by rw [hentries]; exact h.links }
    · rcases (mem_modify comp.rankedBy x).mp hx with ⟨hx, -⟩ | ⟨e, he, hrank, rfl⟩
      · exact h.fits x hx ho
      · obtain ⟨hinode, -, -⟩ := h.at_recordKey hord he hrank
        exact (fits_inode (x := (e.1, j.fillCattreeValue e.2)) hinode).mpr ⟨hrank, horphan⟩
    · exact ⟨(y.1, j.fillCattreeValue y.2), (mem_modify comp.rankedBy _).mpr
        (.inr ⟨y, hy, hyrank, rfl⟩), hinode, hyrank⟩
  · exact hm.congr (fun x hx => hothers x (hx ▸ hmp)) rfl

/-- **An inode without links whose record is written is settled.** Its references are gone
before. -/
theorem Settled.orphaned (h : Settled comp c o i) (hord : c₁.Ordered comp)
    (hsub : ∀ x ∈ c₁, owner x = o → x ∈ c ∧ x.2.recordType ≠ .hlink)
    (hkeep : ∀ x ∈ c, owner x = o → x.2.IsInode → x ∈ c₁)
    (hcore : j.core = { i with nlink := 0, orphan := true }.core) :
    Settled comp (modify comp.compFn (i.recordKey o) j.fillCattreeValue c₁) o j := by
  have hplace := place_of_core hcore
  have hhard : j.hardLink = i.hardLink := congrArg (·.hardLink) hcore
  have htype : j.recordType = i.recordType := congrArg (·.recordType) hcore
  have horphan : j.orphan = true := congrArg (·.orphan) hcore
  have hlinks : j.nlink = 0 := congrArg (·.nlink) hcore
  have hkey : j.recordKey o = i.recordKey o := recordKey_congr hplace
  obtain ⟨y, hy, hinode, hyrank, hyo⟩ := h.located_owner
  have hy1 := hkeep y hy hyo hinode
  -- under the key stands the record that carries the attributes
  have hat : ∀ e ∈ c₁, comp.rank e.1 = comp.rank (i.recordKey o) → e = y := fun e he hrank =>
    hord.eq_of_rank he hy1 (hrank.trans hyrank.symm)
  have hfits : ∀ x ∈ modify comp.compFn (i.recordKey o) j.fillCattreeValue c₁, owner x = o →
      Fits comp o j x ∧ x.2.recordType ≠ .hlink := by
    intro x hx ho
    rcases (mem_modify comp.rankedBy x).mp hx with ⟨hx, hrank⟩ | ⟨e, he, hrank, rfl⟩
    · obtain ⟨hxc, hnh⟩ := hsub x hx ho
      refine ⟨?_, hnh⟩
      have hfits := h.fits x hxc ho
      rcases x.2.cases_type with ht | ht | ht
      · exact absurd ((fits_inode ht).mp hfits).1 hrank
      · exact absurd ht hnh
      · rw [fits_ilink ht] at hfits ⊢
        rw [hkey, hhard]
        exact hfits
    · obtain rfl := hat e he hrank
      refine ⟨(fits_inode (x := (e.1, j.fillCattreeValue e.2)) hinode).mpr ⟨?_, rfl⟩, hinode.ne.1⟩
      rw [hkey]
      exact hrank
  refine h.rewritten hplace (fun x hx ho => (hfits x hx ho).1)
    ⟨(y.1, j.fillCattreeValue y.2), (mem_modify comp.rankedBy _).mpr (.inr ⟨y, hy1, hyrank, rfl⟩),
      hinode, hyrank⟩ (by rw [htype]; exact h.single_type) ?_ (by simp [horphan, hlinks])
  -- no entry is left
  rw [hlinks, eq_comm, linksOf_eq_zero_iff]
  rintro ρ hρ ho
  obtain ⟨x, hx, he, rfl⟩ := mem_entries.mp hρ
  obtain ⟨hf, hnh⟩ := hfits x hx ((owner_of_ne he.1.1).trans ho)
  rcases x.2.cases_type with ht | ht | ht
  · have hxo := ((fits_inode ht).mp hf).2
    have hlive := he.1.2
    rw [isOrphan, hxo, horphan] at hlive
    rcases ht with ht | ht <;> simp [ht] at hlive
  · exact hnh ht
  · exact he.1.1 ht

/-- **What the two ends have to show**: only the inode `o` is touched, it has no links any more and
holds no entries, and it stays in its place if it stays at all. -/
theorem Consistent.of_retired (h : Consistent comp v) (hi : v.inodes o = some i)
    (hroot : o ≠ rootIno) (hcores : ∀ m, m ≠ o → (v'.inodes m).map core = (v.inodes m).map core)
    (hself : ∀ j, v'.inodes o = some j → j.place = i.place ∧ j.nlink = 0 ∧
      Settled comp v'.catalog o j)
    (hord : v'.catalog.Ordered comp)
    (howned : ∀ x ∈ v'.catalog, if owner x = o then ∃ j, v'.inodes o = some j else
      ∃ im, v.inodes (owner x) = some im)
    (hset : ∀ m im, m ≠ o → v.inodes m = some im → Settled comp v'.catalog m im)
    (hparent : ∀ ρ ∈ entries comp v'.catalog, ρ ∈ entries comp v.catalog ∧
      ((ofLex ρ).1 = o → ¬ LiveDir v o))
    (hlist : ∃ l, v'.orphanInodes = rootIno :: l ∧ Follows (nextInMemory v') 0 rootIno l ∧
      ∀ m ∈ l, if m = o then ∃ j, v'.inodes o = some j else m ∈ v.orphanInodes) :
    Consistent comp v' := by
  have hbefore : ∀ m im, m ≠ o → v.inodes m = some im → ∃ jm, v'.inodes m = some jm ∧
      jm.core = im.core := fun m im hm him =>
    (exists_of_core (hcores m hm).symm him).imp fun _ hjm => ⟨hjm.1, hjm.2.symm⟩
  have hplaces : ∀ m jm, v'.inodes m = some jm → ∃ im, v.inodes m = some im ∧
    jm.place = im.place := by
    intro m jm hjm
    by_cases hm : m = o
    · subst hm
      exact ⟨i, hi, (hself jm hjm).1⟩
    · exact (exists_of_core (hcores m hm) hjm).imp fun _ him => ⟨him.1, place_of_core him.2⟩
  refine h.of_touched (T := fun _ => True) ⟨fun _ hT => absurd trivial hT, fun _ hT =>
    absurd trivial hT⟩ hord (fun x hx _ => ?_) (fun m jm _ hjm => ?_) (fun ρ hρ => ?_) ?_ ?_ ?_
  · have hown := howned x hx
    split at hown
    next ho => exact ho ▸ hown
    next ho => exact hown.elim fun im him => (hbefore _ im ho him).imp fun _ hjm => hjm.1
  · by_cases hm : m = o
    · subst hm
      exact (hself jm hjm).2.2
    · obtain ⟨im, him, hcore⟩ := exists_of_core (hcores m hm) hjm
      exact (hset m im hm him).congr (fun _ _ => Iff.rfl) hcore
  · obtain ⟨hρ, hne⟩ := hparent ρ hρ
    refine (h.parent ρ hρ).imp_right fun hdir => liveDir_congr hdir (hcores _ fun heq => ?_)
    exact hne heq (heq ▸ hdir)
  · rintro m im q jq - him hjq hsi hsj hq
    exact h.unlooped_of_before (hplaces m im him) (hplaces q jq hjq) hsi hsj hq
  · obtain ⟨ir, hir, hisroot⟩ := h.root
    exact (hbefore _ ir hroot.symm hir).imp fun jr hjr => ⟨hjr.1, hisroot.congr hjr.2⟩
  · obtain ⟨l, hl, hfollows, hmem⟩ := hlist
    obtain ⟨l0, hl0, -, hdead⟩ := h.list
    refine ⟨l, hl, hfollows, fun m hm => ?_⟩
    have hmL := hmem m hm
    split at hmL
    next hmo =>
      subst hmo
      exact hmL.imp fun j hj => ⟨hj, (hself j hj).2.1⟩
    next hmo =>
      have hmr : m ≠ rootIno := fun heq => (List.nodup_cons.mp hfollows.nodup).1 (heq ▸ hm)
      rw [hl0] at hmL
      obtain ⟨im, him, hlz⟩ := hdead m ((List.mem_cons.mp hmL).resolve_left hmr)
      exact (hbefore m im hmo him).imp fun jm hjm => ⟨hjm.1, (congrArg (·.nlink) hjm.2).trans hlz⟩

/-- The catalog when the last entry of an inode goes: the reference is removed, or the record
stays. -/
def LastEntry (comp : Comparison) (c c₁ : Catalog) (i : CatalogInode) (k : CattreeKey) : Prop :=
  i.hardLink = false ∧ c₁ = c ∨ i.hardLink = true ∧ EntryRemoved comp c c₁ k .hlink

namespace Consistent

section

variable (h : Consistent comp v) (hi : v.inodes o = some i) (hone : i.nlink = 1)
  (he : comp.rank ⟨d, n, o⟩ ∈ entries comp v.catalog)

include h hi hone he

/-- What is left of the inode's records then. -/
theorem lastEntry_records (hlast : LastEntry comp v.catalog c₁ i ⟨d, n, o⟩) :
    c₁.Ordered comp ∧ (∀ x, owner x ≠ o → (x ∈ c₁ ↔ x ∈ v.catalog)) ∧
      (∀ x ∈ c₁, owner x = o → x ∈ v.catalog ∧ x.2.recordType ≠ .hlink) ∧
      ∀ x ∈ v.catalog, owner x = o → x.2.IsInode → x ∈ c₁ := by
  have hset := h.settled o i hi
  rcases hlast with ⟨hs, rfl⟩ | ⟨hs, hremoved⟩
  · refine ⟨h.ordered, fun _ _ => Iff.rfl, fun x hx ho => ⟨hx, fun ht => ?_⟩, fun x hx _ _ => hx⟩
    have hfits := hset.fits x hx ho
    rw [fits_hlink ht, hs] at hfits
    exact absurd hfits.1 (by decide)
  refine ⟨hremoved.ordered, fun x hx => ?_, fun x hx ho => ?_, fun x hx ho hinode => ?_⟩
  · exact hremoved.mem_iff_of_owner (fun y hy hrank => (h.owner_of_entry he hy hrank).1)
      (fun hn => absurd rfl hn) hx
  · -- another reference would be another entry
    have hxc := ((hremoved.mem_iff x).mp hx).1
    refine ⟨hxc, fun ht => ?_⟩
    have hentries := entries_of_removed hremoved fun hn => absurd rfl hn
    have herase := linksOf_erase he o
    rw [← hentries, ← hset.links, hone] at herase
    simp only [rank_object, if_true] at herase
    have hzero : linksOf (entries comp c₁) o = 0 := by omega
    have hni : x.2.recordType ≠ .ilink := by simp [ht]
    have hfits := (fits_hlink ht).mp (hset.fits x hxc ho)
    exact (linksOf_eq_zero_iff o).mp hzero (comp.rank x.1)
      (mem_entries_of_mem hx (isEntry_of_hlink ht hfits.2)) ((owner_of_ne hni).symm.trans ho)
  · refine (hremoved.mem_iff x).mpr ⟨hx, fun hrank => ?_, fun hn => absurd rfl hn⟩
    exact hinode.ne.1 (h.hlink_of_entry hi hs he hx hrank)

/-- **The last entry goes and the inode becomes an orphan** behind the orphan `p`. -/
theorem orphaned (hd : d ≠ 0)
    (hempty : ∀ ρ ∈ entries comp v.catalog, (ofLex ρ).1 ≠ o) {l : List Nat}
    (hlist : v.orphanInodes = rootIno :: l) {prev q w : CatalogInode}
    (hprev : v.inodes p = some prev) (hp : p ∈ v.orphanInodes) (hpw : q.core = prev.core)
    (hw : w.core = { i with nlink := 0, orphan := true }.core)
    (hlast : LastEntry comp v.catalog c₁ i ⟨d, n, o⟩)
    (hcat : v'.catalog = modify comp.compFn (i.recordKey o) w.fillCattreeValue
      (modify comp.compFn (prev.recordKey p) q.fillCattreeValue c₁))
    (hself : v'.inodes o = some j) (hj : j.core = w.core)
    (hcores : ∀ m, m ≠ o → (v'.inodes m).map core = (v.inodes m).map core)
    (hlist' : v'.orphanInodes = rootIno :: (l ++ [o]))
    (hfollows : Follows (nextInMemory v') 0 rootIno (l ++ [o])) :
    Consistent comp v' ∧
      entries comp v'.catalog = (entries comp v.catalog).erase (comp.rank ⟨d, n, o⟩) := by
  obtain ⟨hord1, hothers1, hsub1, hkeep1⟩ := h.lastEntry_records hi hone he hlast
  obtain ⟨hod, i', hi', -, horphan, hkey⟩ := h.exists_of_entry he
  obtain rfl : i' = i := Option.mem_unique hi' hi
  have hset := h.settled o i' hi
  let c2 := modify comp.compFn (prev.recordKey p) q.fillCattreeValue c₁
  -- the orphan in front is another inode
  have hdead : ∀ m ∈ l, ∃ im, v.inodes m = some im ∧ im.nlink = 0 := by
    obtain ⟨l', hlist'', -, hdead⟩ := h.list
    rw [hlist] at hlist''
    obtain rfl := (List.cons.inj hlist'').2
    exact hdead
  have hpo : p ≠ o := by
    rintro rfl
    rcases List.mem_cons.mp (hlist ▸ hp) with hroot | hmem
    · exact h.ne_root_of_entry hd he hroot
    · obtain ⟨im, him, hz⟩ := hdead p hmem
      rw [Option.mem_unique him hi, hone] at hz
      cases hz
  -- the write of the orphan in front
  have hsetp : Settled comp c₁ p prev := (h.settled p prev hprev).congr
    (fun x hx => hothers1 x (hx ▸ hpo)) rfl
  obtain ⟨hord2, hothers2, hentries2, hsettled2⟩ := hsetp.written hord1 hpw
  -- the write of the inode
  have hsub2 : ∀ x, owner x = o → (x ∈ c2 ↔ x ∈ c₁) := fun x hx => hothers2 x (hx ▸ hpo.symm)
  have hat : ∀ e ∈ c2, comp.rank e.1 = comp.rank (i'.recordKey o) → e.2.IsInode ∧ owner e = o := by
    intro e he' hrank
    obtain ⟨y, hy, hinode, hyrank, hyo⟩ := hset.located_owner
    have hy2 : y ∈ c2 := (hsub2 y hyo).mpr (hkeep1 y hy hyo hinode)
    obtain rfl := hord2.eq_of_rank he' hy2 (hrank.trans hyrank.symm)
    exact ⟨hinode, hyo⟩
  have hothers3 : ∀ x, owner x ≠ o → (x ∈ v'.catalog ↔ x ∈ c2) := by
    intro x hx
    rw [hcat]
    exact mem_modify_of_owner (fun e he' hrank => (hat e he' hrank).2) (fun _ => rfl) hx
  have hseto : Settled comp v'.catalog o w := by
    rw [hcat]
    exact hset.orphaned hord2 (fun x hx ho => hsub1 x ((hsub2 x ho).mp hx) ho)
      (fun x hx ho hinode => (hsub2 x ho).mpr (hkeep1 x hx ho hinode)) hw
  have hwo : w.orphan = true := congrArg (·.orphan) hw
  have hentries : entries comp v'.catalog =
      (entries comp v.catalog).erase (comp.rank ⟨d, n, o⟩) := by
    rw [hcat]
    rcases hlast with ⟨hs, rfl⟩ | ⟨hs, hremoved⟩
    · rw [entries_modify_erase, hentries2, hkey hs]
      rintro e he' hrank ⟨hlive, -⟩
      have hlive := hlive.2
      rw [isOrphan] at hlive
      rcases (hat e he' hrank).1 with ht | ht <;>
        simp [fillCattreeValue, ht, hwo] at hlive
    · rw [entries_modify, hentries2, entries_of_removed hremoved fun hn => absurd rfl hn]
      intro e he' hrank
      -- the body is no entry
      rw [recordKey_hard hs] at hrank
      obtain ⟨hp', -, ho'⟩ := Comparison.rank_eq_iff.mp hrank
      have hself' : e.1.objectId = e.1.parentId := ho'.trans hp'.symm
      exact ⟨fun hentry => absurd hself' hentry.2, fun hentry => absurd hself' hentry.2⟩
  have hjw : j.core = { i' with nlink := 0, orphan := true }.core := hj.trans hw
  refine ⟨h.of_retired hi (h.ne_root_of_entry hd he) hcores (fun j' hj' => ?_) ?_ (fun x hx => ?_)
    (fun m im hm him => ?_) (fun ρ hρ => ?_) ⟨l ++ [o], hlist', hfollows, fun m hm => ?_⟩, hentries⟩
  · obtain rfl := Option.mem_unique hself hj'
    have hplace := place_of_core hjw
    exact ⟨hplace, congrArg (·.nlink) hjw, hseto.congr (fun _ _ => Iff.rfl) hj⟩
  · rw [hcat]
    exact Sorted.modify hord2 _ _
  · split
    next => exact ⟨j, hself⟩
    next hx' =>
      by_cases hxp : owner x = p
      · exact ⟨prev, hxp ▸ hprev⟩
      · exact h.owned x ((hothers1 x hx').mp ((hothers2 x hxp).mp ((hothers3 x hx').mp hx)))
  · have hset1 := (h.settled m im him).congr (j := im) (fun x hx => hothers1 x (hx ▸ hm)) rfl
    refine (hsettled2 m im (fun heq => ?_) hset1).congr (fun x hx => hothers3 x (hx ▸ hm)) rfl
    exact Option.mem_unique (heq ▸ him) hprev
  · rw [hentries] at hρ
    have hρ := Finset.mem_of_mem_erase hρ
    exact ⟨hρ, fun heq => absurd heq (hempty ρ hρ)⟩
  · split
    next => exact ⟨j, hself⟩
    next hmo =>
      have hml := (List.mem_append.mp hm).resolve_right fun hm => hmo (List.mem_singleton.mp hm)
      exact hlist ▸ List.mem_cons_of_mem _ hml

end

/-- The catalog without the records of an orphan. -/
structure Evicted (comp : Comparison) (c c₁ : Catalog) (o : Nat) (i : CatalogInode) : Prop where
  ordered : c₁.Ordered comp
  mem_iff : ∀ x, x ∈ c₁ ↔ x ∈ c ∧ comp.rank x.1 ≠ comp.rank (i.recordKey o) ∧
    (i.hardLink = false → comp.rank x.1 ≠ comp.rank (i.recordKey o).ilinkKey)

section

variable (h : Consistent comp v) (hi : v.inodes o = some i) (hz : i.nlink = 0)
  (hev : Evicted comp v.catalog c₁ o i)

include h hi hz hev

/-- What is left when an inode without links is evicted. -/
theorem evicted_records :
    (∀ x ∈ c₁, owner x ≠ o) ∧ (∀ x, owner x ≠ o → (x ∈ c₁ ↔ x ∈ v.catalog)) ∧
      entries comp c₁ = entries comp v.catalog := by
  have hset := h.settled o i hi
  have hnolinks := (linksOf_eq_zero_iff o).mp (hset.links.symm.trans hz)
  have hnone : ∀ x ∈ c₁, owner x ≠ o := by
    intro x hx ho
    obtain ⟨hxc, hmain, hilink⟩ := (hev.mem_iff x).mp hx
    have hfits := hset.fits x hxc ho
    rcases x.2.cases_type with ht | ht | ht
    · exact hmain ((fits_inode ht).mp hfits).1
    · have hni : x.2.recordType ≠ .ilink := by simp [ht]
      have hentry : IsEntry x := isEntry_of_hlink ht ((fits_hlink ht).mp hfits).2
      exact hnolinks _ (mem_entries_of_mem hxc hentry) ((owner_of_ne hni).symm.trans ho)
    · obtain ⟨hs, hrank⟩ := (fits_ilink ht).mp hfits
      exact hilink hs hrank
  have hothers : ∀ x, owner x ≠ o → (x ∈ c₁ ↔ x ∈ v.catalog) := by
    intro x hx
    rw [hev.mem_iff]
    refine ⟨fun hx' => hx'.1, fun hx' => ⟨hx', fun hrank => ?_, fun hs hrank => ?_⟩⟩
    · exact hx (hset.at_recordKey h.ordered hx' hrank).2.1
    · refine hx ((owner_ilink (h.at_ilinkKey hi hs hx' hrank)).trans ?_)
      rw [(Comparison.rank_eq_iff.mp hrank).1]
      exact i.recordKey_objectId o
  refine ⟨hnone, hothers, entries_congr fun x he => ?_⟩
  by_cases ho : owner x = o
  · refine ⟨fun hx => absurd ho (hnone x hx), fun hx => ?_⟩
    exact absurd ((owner_of_ne he.1.1).symm.trans ho) (hnolinks _ (mem_entries_of_mem hx he))
  · exact hothers x ho

/-- **An orphan is evicted**, and the orphan `p` in front of it is written, if there is one. -/
theorem evicted
    (hcat : v'.catalog = c₁ ∨ ∃ p prev q, v.inodes p = some prev ∧ p ≠ o ∧ core q = prev.core ∧
      v'.catalog = modify comp.compFn (prev.recordKey p) q.fillCattreeValue c₁)
    (hgone : v'.inodes o = none)
    (hcores : ∀ m, m ≠ o → (v'.inodes m).map core = (v.inodes m).map core)
    (hlist : ∃ l, v'.orphanInodes = rootIno :: l ∧ Follows (nextInMemory v') 0 rootIno l ∧ ∀ m ∈ l,
      m ≠ o ∧ m ∈ v.orphanInodes) :
    Consistent comp v' ∧ entries comp v'.catalog = entries comp v.catalog := by
  obtain ⟨hnone1, hothers1, hentries1⟩ := h.evicted_records hi hz hev
  have hset1 : ∀ m im, m ≠ o → v.inodes m = some im → Settled comp c₁ m im := fun m im hm him =>
    (h.settled m im him).congr (fun x hx => hothers1 x (hx ▸ hm)) rfl
  have howned1 : ∀ x ∈ c₁, ∃ im, v.inodes (owner x) = some im := fun x hx =>
    h.owned x ((hev.mem_iff x).mp hx).1
  -- the write keeps owners, entries and settled inodes
  have hwrite : v'.catalog.Ordered comp ∧
      (∀ x ∈ v'.catalog, owner x ≠ o ∧ ∃ im, v.inodes (owner x) = some im) ∧
      entries comp v'.catalog = entries comp v.catalog ∧
      ∀ m im, m ≠ o → v.inodes m = some im → Settled comp v'.catalog m im := by
    rcases hcat with hcat | ⟨p, prev, q, hprev, hpo, hpw, hcat⟩
    · rw [hcat]
      exact ⟨hev.ordered, fun x hx => ⟨hnone1 x hx, howned1 x hx⟩, hentries1, hset1⟩
    obtain ⟨hord, hothers, hentries, hsettled⟩ := (hset1 p prev hpo hprev).written hev.ordered hpw
    rw [hcat]
    refine ⟨hord, fun x hx => ?_, hentries.trans hentries1, fun m im hm him => ?_⟩
    · by_cases hxp : owner x = p
      · exact ⟨hxp ▸ hpo, prev, hxp ▸ hprev⟩
      · have hx1 := (hothers x hxp).mp hx
        exact ⟨hnone1 x hx1, howned1 x hx1⟩
    · exact hsettled m im (fun heq => Option.mem_unique (heq ▸ him) hprev) (hset1 m im hm him)
  obtain ⟨hord, howned, hentries, hset⟩ := hwrite
  have hroot : o ≠ rootIno := by
    rintro rfl
    obtain ⟨ir, hir, hisroot⟩ := h.root
    exact hisroot.linked (Option.mem_unique hir hi ▸ hz)
  refine ⟨h.of_retired hi hroot hcores (fun j hj => ?_) hord (fun x hx => ?_) hset (fun ρ hρ => ?_)
    ?_, hentries⟩
  · rw [hgone] at hj
    cases hj
  · rw [if_neg (howned x hx).1]
    exact (howned x hx).2
  · -- an inode without links is no live directory
    refine ⟨hentries ▸ hρ, ?_⟩
    rintro - ⟨dd, hdd, -, hlinks⟩
    exact hlinks (Option.mem_unique hdd hi ▸ hz)
  · obtain ⟨l, hl, hfollows, hmem⟩ := hlist
    refine ⟨l, hl, hfollows, fun m hm => ?_⟩
    rw [if_neg (hmem m hm).1]
    exact (hmem m hm).2

end

end Consistent

end Vdfs4
