import Vdfs4.Catalog.Consistency

/-!
# Changes that keep a volume consistent

What the directory operations do when they get through, or leave when they fail, as relations
between two volumes: a back link is lost, an inode and its entry appear, an entry moves, a
reference appears or goes, a record becomes a reference and a body, an inode becomes an orphan, an
orphan goes.

* `Sized` — the sizes of the directories, for a set of entries;
* one theorem for each change, with its **effect on the entries**.
-/

namespace Vdfs4

open Option hiding map_map
open Chain Comparison Finset CatalogRecord
open CatalogInode (recordKey_single core place_of_core recordKey_hard)

variable {comp : Comparison} {c c' : Catalog} {v v' : Volume} {x y : CattreeKey × CatalogRecord}
  {o p d : Nat} {n : CString} {i j : CatalogInode} {r b : CatalogRecord} {k : CattreeKey}
  {t : RecordType} {T : Nat → Prop} {E : Finset Comparison.Rank}

/-! ### Sizes -/

/-- The size of every directory is its number of entries in `E`. -/
def Sized (v : Volume) (E : Finset Comparison.Rank) : Prop :=
  ∀ dir d, v.inodes dir = some d → d.kind = .dir → d.isize = sizeOf E dir

/-- The part of an inode that the sizes depend on. -/
theorem Sized.congr (h : Sized v E)
    (hinodes : ∀ n j, v'.inodes n = some j → j.kind = .dir → ∃ i, v.inodes n = some i ∧
      i.kind = .dir ∧ j.isize = i.isize) : Sized v' E := by
  intro dir d hd hdir
  obtain ⟨i, hi, hkind, hsize⟩ := hinodes dir d hd hdir
  rw [hsize]
  exact h dir i hi hkind

/-! ### Where the list and the root stay -/

/-- Every inode stays in memory, with its place in the orphan chain, and one without links does not
get any. -/
def Stay (v v' : Volume) : Prop :=
  v'.orphanInodes = v.orphanInodes ∧
    ∀ o i, v.inodes o = some i → ∃ j, v'.inodes o = some j ∧ j.nextOrphanId = i.nextOrphanId ∧
      (i.nlink = 0 → j.nlink = 0)

theorem Stay.list (hstay : Stay v v') (h : Consistent comp v) :
    ∃ l, v'.orphanInodes = rootIno :: l ∧ Follows (nextInMemory v') 0 rootIno l ∧
      ∀ o ∈ l, ∃ i, v'.inodes o = some i ∧ i.nlink = 0 := by
  obtain ⟨l, hlist, hfollows, hdead⟩ := h.list
  refine ⟨l, hstay.1.trans hlist, hfollows.congr fun o ho => ?_, fun o ho => ?_⟩
  · obtain ⟨i, hi⟩ := exists_of_follows hfollows ho
    obtain ⟨j, hj, hnext, -⟩ := hstay.2 o i hi
    rw [nextInMemory_of_some hi, nextInMemory_of_some hj, hnext]
  · obtain ⟨i, hi, hlinks⟩ := hdead o ho
    obtain ⟨j, hj, -, hzero⟩ := hstay.2 o i hi
    exact ⟨j, hj, hzero hlinks⟩

namespace Consistent

theorem root_of_frame (h : Consistent comp v) (hframe : Frame v v' T) (hT : ¬ T rootIno) :
    ∃ i, v'.inodes rootIno = some i ∧ IsRoot i := by
  obtain ⟨i, hi, hroot⟩ := h.root
  have hcore := hframe.cores _ hT
  rw [hi] at hcore
  exact (map_eq_some_iff.mp hcore).imp fun j hj => ⟨hj.1, hroot.congr hj.2⟩

/-- The root has no entry in a directory. -/
theorem ne_root_of_entry (h : Consistent comp v) (hd : d ≠ 0)
    (he : comp.rank ⟨d, n, o⟩ ∈ entries comp v.catalog) : o ≠ rootIno := by
  rintro rfl
  obtain ⟨i, hi, hroot⟩ := h.root
  obtain ⟨-, i', hi', -, -, hkey⟩ := h.exists_of_entry he
  obtain rfl : i' = i := mem_unique hi' hi
  have hrank := hkey hroot.single
  rw [recordKey_single hroot.single] at hrank
  exact hd ((rank_eq_iff.mp hrank).1.symm.trans hroot.top)

theorem liveDir_ne_zero (h : Consistent comp v) (hdir : LiveDir v d) : d ≠ 0 := by
  obtain ⟨i, hi, -⟩ := hdir
  exact (h.settled d i hi).ne_zero

end Consistent

/-- All of an inode but its size. -/
def CatalogInode.sizeless (i : CatalogInode) : CatalogInode := { i with isize := 0 }

theorem CatalogInode.core_of_sizeless (h : j.sizeless = i.sizeless) : j.core = i.core := by
  have hcore : j.sizeless.core = i.sizeless.core := by rw [h]
  exact hcore

/-- The inodes outside `T` are the same but for their sizes. -/
def AlikeBut (v v' : Volume) (T : Nat → Prop) : Prop :=
  ∀ m, ¬ T m → (v'.inodes m).map CatalogInode.sizeless = (v.inodes m).map CatalogInode.sizeless

theorem AlikeBut.cores (h : AlikeBut v v' T) (ho : ¬ T o) :
    (v'.inodes o).map core = (v.inodes o).map core := by
  have hmap := congrArg (Option.map core) (h o ho)
  rw [Option.map_map, Option.map_map] at hmap
  exact hmap

/-- An inode outside `T`, after and before. -/
theorem AlikeBut.of_after (h : AlikeBut v v' T) (ho : ¬ T o) (hj : v'.inodes o = some j) :
    ∃ i, v.inodes o = some i ∧ j.sizeless = i.sizeless := by
  have hmap := h o ho
  rw [hj, Option.map_some] at hmap
  obtain ⟨i, hi, heq⟩ := Option.map_eq_some_iff.mp hmap.symm
  exact ⟨i, hi, heq.symm⟩

theorem AlikeBut.of_before (h : AlikeBut v v' T) (ho : ¬ T o) (hi : v.inodes o = some i) :
    ∃ j, v'.inodes o = some j ∧ j.sizeless = i.sizeless := by
  have hmap := h o ho
  rw [hi, map_some] at hmap
  exact map_eq_some_iff.mp hmap

/-- **What an operation has to show** when the orphan list stays. -/
theorem Consistent.of_changed (h : Consistent comp v) (hroot : ¬ T rootIno)
    (halike : AlikeBut v v' T) (hlist : v'.orphanInodes = v.orphanInodes)
    (hstay : ∀ o i, T o → v.inodes o = some i → ∃ j, v'.inodes o = some j ∧
      j.nextOrphanId = i.nextOrphanId ∧ (i.nlink = 0 → j.nlink = 0) ∧ (LiveDir v o → LiveDir v' o))
    (hrecords : ∀ x, ¬ T (owner x) → (x ∈ v'.catalog ↔ x ∈ v.catalog))
    (hord : v'.catalog.Ordered comp)
    (hsettled : ∀ o, T o → ∃ j, v'.inodes o = some j ∧ Settled comp v'.catalog o j)
    (hparent : ∀ r ∈ entries comp v'.catalog, (ofLex r).1 = 0 ∨ LiveDir v (ofLex r).1)
    (hunlooped : ∀ o i p j, T o → v'.inodes o = some i → v'.inodes p = some j → i.hardLink = false →
      j.hardLink = false → i.parentId = p → j.parentId ≠ o) :
    Consistent comp v' := by
  have hframe : Frame v v' T := ⟨fun o ho => halike.cores ho, hrecords⟩
  have hkeeps : Stay v v' := by
    refine ⟨hlist, fun o i hi => ?_⟩
    by_cases ho : T o
    · exact (hstay o i ho hi).imp fun j hj => ⟨hj.1, hj.2.1, hj.2.2.1⟩
    · obtain ⟨j, hj, heq⟩ := halike.of_before ho hi
      exact ⟨j, hj, congrArg (·.nextOrphanId) heq, fun hz => (congrArg (·.nlink) heq).trans hz⟩
  refine h.of_touched hframe hord (fun x _ hx => ?_) (fun o j ho hj => ?_)
    (fun r hr => ?_) hunlooped (h.root_of_frame hframe hroot) (hkeeps.list h)
  · exact (hsettled _ hx).imp fun _ hj => hj.1
  · obtain ⟨j', hj', hset⟩ := hsettled o ho
    rwa [mem_unique hj hj']
  · refine (hparent r hr).imp_right fun hdir => ?_
    by_cases hT : T (ofLex r).1
    · obtain ⟨d, hd, -⟩ := id hdir
      obtain ⟨-, -, -, -, hlive⟩ := hstay _ d hT hd
      exact hlive hdir
    · exact Consistent.liveDir_congr hdir (hframe.cores _ hT)

/-! ### A lost back link -/

/-- An inode stays settled when back links come and go and its record type is another one. -/
theorem Settled.lost (h : Settled comp c o i)
    (hsub : ∀ x ∈ c', owner x = o → x ∈ c ∨ x.2.recordType = .ilink ∧ Fits comp o i x)
    (hkeep : ∀ x ∈ c, owner x = o → x.2.recordType ≠ .ilink → x ∈ c')
    (hentries : linksOf (entries comp c') o = linksOf (entries comp c) o)
    (hcore : j.core = { i with recordType := j.recordType }.core)
    (ht : i.hardLink = false → j.recordType = .folder ∨ j.recordType = .file) :
    Settled comp c' o j := by
  have hlinks : j.nlink = i.nlink := congrArg (·.nlink) hcore
  have horphan : j.orphan = i.orphan := congrArg (·.orphan) hcore
  have hplace := place_of_core hcore
  obtain ⟨x, hx, hinode, hrank, hxo⟩ := h.located_owner
  refine h.rewritten hplace (fun x hx ho => ?_) ⟨x, hkeep x hx hxo hinode.ne.2, hinode, hrank⟩ ht
    (by rw [hlinks, h.links, hentries]) (by rw [hlinks, horphan]; exact h.orphan_iff)
  have hfits : Fits comp o i x := (hsub x hx ho).elim (fun hx => h.fits x hx ho) And.right
  exact hfits.congr hplace horphan

/-- **Lost back links**, some of which came back, and a record type that a failed operation
left. -/
theorem Consistent.lost (h : Consistent comp v) (hord : v'.catalog.Ordered comp)
    (hsub : ∀ x ∈ v'.catalog, x ∈ v.catalog ∨ x.2.recordType = .ilink ∧
      ∃ i, v.inodes (owner x) = some i ∧ Fits comp (owner x) i x)
    (hkeep : ∀ x ∈ v.catalog, x.2.recordType ≠ .ilink → x ∈ v'.catalog)
    (hlist : v'.orphanInodes = v.orphanInodes) (hi : v.inodes o = some i)
    (hself : v'.inodes o = some { i with recordType := t })
    (ht : i.hardLink = false → t = .folder ∨ t = .file)
    (hothers : ∀ n, n ≠ o → v'.inodes n = v.inodes n) :
    Consistent comp v' ∧ entries comp v'.catalog = entries comp v.catalog := by
  have hentries : entries comp v'.catalog = entries comp v.catalog := by
    refine entries_congr fun x he => ⟨fun hx => ?_, fun hx => hkeep x hx he.1.1⟩
    exact (hsub x hx).resolve_right fun hil => he.1.1 hil.1
  -- every inode is the old one but for a record type
  have hold : ∀ n j, v'.inodes n = some j → ∃ i, v.inodes n = some i ∧
      j = { i with recordType := j.recordType } ∧
      (i.hardLink = false → j.recordType = .folder ∨ j.recordType = .file) := by
    intro n j hj
    by_cases hn : n = o
    · subst hn
      obtain rfl := mem_unique hself hj
      exact ⟨i, hi, rfl, ht⟩
    · rw [hothers n hn] at hj
      exact ⟨j, hj, rfl, (h.settled n j hj).single_type⟩
  have hnew : ∀ n i', v.inodes n = some i' → ∃ j, v'.inodes n = some j ∧
      j = { i' with recordType := j.recordType } := by
    intro n i' hi'
    by_cases hn : n = o
    · subst hn
      obtain rfl := mem_unique hi hi'
      exact ⟨_, hself, rfl⟩
    · exact ⟨i', (hothers n hn).trans hi', rfl⟩
  have hstay : Stay v v' := by
    refine ⟨hlist, fun n i' hi' => ?_⟩
    obtain ⟨j, hj, heq⟩ := hnew n i' hi'
    exact ⟨j, hj, by rw [heq], fun hz => by rw [heq]; exact hz⟩
  refine ⟨?_, hentries⟩
  refine h.of_touched (T := fun _ => True) ⟨fun _ hT => absurd trivial hT, fun _ hT =>
    absurd trivial hT⟩
    hord (fun x hx _ => ?_) (fun n j _ hj => ?_) (fun r hr => ?_) ?_ ?_ (hstay.list h)
  · obtain ⟨i', hi'⟩ : ∃ i, v.inodes (owner x) = some i :=
      (hsub x hx).elim (fun hx => h.owned x hx) fun ⟨_, i', hi', _⟩ => ⟨i', hi'⟩
    exact (hnew _ i' hi').imp fun _ hj => hj.1
  · obtain ⟨i', hi', heq, htype⟩ := hold n j hj
    refine (h.settled n i' hi').lost (fun x hx ho => ?_) (fun x hx _ => hkeep x hx)
      (by rw [hentries]) (by rw [heq]) htype
    refine (hsub x hx).imp_right fun ⟨ht, i'', hi'', hfits⟩ => ⟨ht, ?_⟩
    rw [ho] at hi'' hfits
    rwa [mem_unique hi' hi'']
  · rw [hentries] at hr
    refine (h.parent r hr).imp_right fun ⟨d, hd, hdir, hlinks⟩ => ?_
    obtain ⟨j, hj, heq⟩ := hnew _ d hd
    exact ⟨j, hj, by rw [heq]; exact hdir, by rw [heq]; exact hlinks⟩
  · intro o i' p j _ hi' hj hsi hsj hp
    obtain ⟨i0, hi0, heqi, -⟩ := hold o i' hi'
    obtain ⟨j0, hj0, heqj, -⟩ := hold p j hj
    have hpi := congrArg CatalogInode.place heqi
    have hpj := congrArg CatalogInode.place heqj
    exact h.unlooped_of_before ⟨i0, hi0, hpi⟩ ⟨j0, hj0, hpj⟩ hsi hsj hp
  · obtain ⟨i', hi', hroot⟩ := h.root
    obtain ⟨j, hj, heq⟩ := hnew _ i' hi'
    refine ⟨j, hj, ?_⟩
    rw [heq]
    exact { hroot with }

/-! ### An inode with one record -/

theorem EntryPlaced.mem_iff_of_owner (h : EntryPlaced comp c c' k r) (hr : r.recordType ≠ .ilink)
    (hx : owner x ≠ k.objectId) : x ∈ c' ↔ x ∈ c := by
  rw [h.mem_iff]
  constructor
  · rintro (rfl | ⟨-, rfl⟩ | hx')
    · exact absurd (owner_of_ne hr) hx
    · exact absurd (owner_ilink rfl) hx
    · exact hx'
  · intro hx'
    exact .inr (.inr hx')

theorem EntryRemoved.mem_iff_of_owner (h : EntryRemoved comp c c' k t)
    (hmain : ∀ x ∈ c, comp.rank x.1 = comp.rank k → owner x = o)
    (hilink : t ≠ .hlink → ∀ x ∈ c, comp.rank x.1 = comp.rank k.ilinkKey → owner x = o)
    (hx : owner x ≠ o) : x ∈ c' ↔ x ∈ c := by
  rw [h.mem_iff]
  refine ⟨fun hx' => hx'.1, fun hx' => ⟨hx', fun heq => hx (hmain x hx' heq), fun ht heq => ?_⟩⟩
  exact hx (hilink ht x hx' heq)

/-- What an inode with one record and its back link is like. -/
structure SingleInode (comp : Comparison) (o d : Nat) (n : CString) (j : CatalogInode) : Prop where
  ne_zero : o ≠ 0
  ne_dir : o ≠ d
  kind : j.kind ≠ .other
  single : j.hardLink = false
  linked : j.orphan = false
  key : comp.rank (j.recordKey o) = comp.rank ⟨d, n, o⟩
  recordType : j.recordType = .folder ∨ j.recordType = .file
  nlink : j.nlink = 1

theorem SingleInode.parentId (h : SingleInode comp o d n j) : j.parentId = d := by
  have hkey := h.key
  rw [recordKey_single h.single] at hkey
  exact (rank_eq_iff.mp hkey).1

/-- **One record and its back link** settle an inode. -/
theorem SingleInode.settled (h : SingleInode comp o d n j)
    (hmem : ∀ x, owner x = o →
      (x ∈ c' ↔ x = (⟨d, n, o⟩, r) ∨ x = (⟨o, n, d⟩, blank .ilink)))
    (hr : r.IsInode) (horphan : r.orphan = false) : Settled comp c' o j := by
  have hrecord : ((⟨d, n, o⟩, r) : CattreeKey × CatalogRecord) ∈ c' :=
    (hmem _ (owner_of_ne (x := (⟨d, n, o⟩, r)) hr.ne.2)).mpr (.inl rfl)
  have hentry : IsEntry ((⟨d, n, o⟩, r) : CattreeKey × CatalogRecord) := by
    refine ⟨⟨hr.ne.2, ?_⟩, h.ne_dir⟩
    rw [isOrphan]
    rcases hr with ht | ht <;> simp [ht, horphan]
  refine
    { ne_zero := h.ne_zero
      fits := fun x hx ho => ?_
      located := ⟨_, hrecord, hr, h.key.symm⟩
      kind := h.kind
      dir_single := fun _ => h.single
      single_type := fun _ => h.recordType
      single_parent := fun _ => h.parentId ▸ h.ne_dir.symm
      links := ?_
      orphan_iff := by simp [h.linked, h.nlink] }
  · rcases (hmem x ho).mp hx with rfl | rfl
    · exact (fits_inode (x := (⟨d, n, o⟩, r)) hr).mpr ⟨h.key.symm, by rw [h.linked, ← horphan]⟩
    · exact (fits_ilink rfl).mpr ⟨h.single, (rank_ilinkKey_inj.mpr h.key).symm⟩
  -- the only entry of the inode
  have hlinks : (entries comp c').filter (fun ρ => (ofLex (ofLex ρ).2).2 = o) =
      {comp.rank ⟨d, n, o⟩} := by
    ext ρ
    rw [mem_filter, mem_singleton, mem_entries]
    constructor
    · rintro ⟨⟨x, hx, he, rfl⟩, ho⟩
      rcases (hmem x ((owner_of_ne he.1.1).trans ho)).mp hx with rfl | rfl
      · rfl
      · exact absurd he (not_isEntry_of_ilink rfl)
    · rintro rfl
      exact ⟨⟨_, hrecord, hentry, rfl⟩, rfl⟩
  rw [h.nlink, linksOf, hlinks, card_singleton]

namespace Consistent

/-- An inode with one record and any links has one. -/
theorem single_nlink (h : Consistent comp v) (hi : v.inodes o = some i) (hs : i.hardLink = false)
    (hlinks : i.nlink ≠ 0) : i.nlink = 1 := by
  have hset := h.settled o i hi
  have hfilter : (entries comp v.catalog).filter (fun ρ => (ofLex (ofLex ρ).2).2 = o) =
      {comp.rank (i.recordKey o)} := by
    ext ρ
    rw [mem_filter, mem_singleton]
    constructor
    · rintro ⟨hρ, ho⟩
      obtain ⟨x, hx, he, rfl⟩ := mem_entries.mp hρ
      exact hset.rank_of_single hs hx ((owner_of_ne he.1.1).trans ho) he.1.1
    · rintro rfl
      exact ⟨h.live_entry hi hs hlinks, i.recordKey_objectId o⟩
  rw [hset.links, linksOf, hfilter, card_singleton]

/-- **A new inode and its entry.** -/
theorem created (h : Consistent comp v) (hdir : LiveDir v d) (hunused : v.inodes o = none)
    (hplaced : EntryPlaced comp v.catalog v'.catalog ⟨d, n, o⟩ r) (hr : r.IsInode)
    (horphan : r.orphan = false) (hself : v'.inodes o = some j) (hj : SingleInode comp o d n j)
    (halike : AlikeBut v v' (· = o)) (hlist : v'.orphanInodes = v.orphanInodes) :
    Consistent comp v' := by
  have hnone : ∀ x ∈ v.catalog, owner x ≠ o := by
    rintro x hx rfl
    obtain ⟨i, hi⟩ := h.owned x hx
    rw [hunused] at hi
    cases hi
  have hmem : ∀ x, owner x = o → (x ∈ v'.catalog ↔ x = (⟨d, n, o⟩, r) ∨
      x = (⟨o, n, d⟩, blank .ilink)) := by
    intro x hx
    rw [hplaced.mem_iff]
    constructor
    · rintro (heq | ⟨-, heq⟩ | hxc)
      · exact .inl heq
      · exact .inr heq
      · exact absurd hx (hnone x hxc)
    · rintro (heq | heq)
      · exact .inl heq
      · exact .inr (.inl ⟨hr.ne.1, heq⟩)
  refine h.of_changed ?_ halike hlist ?_ (fun x hx => hplaced.mem_iff_of_owner hr.ne.2 hx)
    hplaced.ordered ?_ ?_ ?_
  · rintro heq
    obtain ⟨i, hi, -⟩ := h.root
    rw [heq, hunused] at hi
    cases hi
  · rintro m i rfl hi
    rw [hunused] at hi
    cases hi
  · rintro m rfl
    exact ⟨j, hself, hj.settled hmem hr horphan⟩
  · intro ρ hρ
    obtain ⟨x, hx, he, rfl⟩ := mem_entries.mp hρ
    rcases (hplaced.mem_iff x).mp hx with rfl | ⟨-, rfl⟩ | hx
    · exact .inr hdir
    · exact absurd he (not_isEntry_of_ilink rfl)
    · exact h.parent _ (mem_entries_of_mem hx he)
  · -- the directory of the new inode is not inside it
    rintro m i p j' rfl hi hj' - - hp hloop
    obtain rfl := mem_unique hself hi
    obtain ⟨dd, hdd, hkind, hlinks⟩ := hdir
    have hpd : p = d := hp.symm.trans hj.parentId
    obtain ⟨i0, hi0, heq⟩ := halike.of_after (fun heq => hj.ne_dir (heq.symm.trans hpd)) hj'
    obtain rfl : i0 = dd := mem_unique hi0 (hpd ▸ hdd)
    have hparent : j'.parentId = i0.parentId := congrArg (·.parentId) heq
    have hs := (h.settled d i0 hdd).dir_single hkind
    rcases h.live_parent hdd hs hlinks with hzero | ⟨m', hm', -⟩
    · exact hj.ne_zero (hloop.symm.trans (hparent.trans hzero))
    · rw [← hparent, hloop, hunused] at hm'
      cases hm'

end Consistent

/-! ### A moved entry -/

/-- The records of an inode after its entry moved from `⟨d, n, o⟩` to `⟨d', n', o⟩`. -/
def MovedRecords (comp : Comparison) (c c' : Catalog) (o : Nat) (k k' : CattreeKey)
    (r : CatalogRecord) : Prop :=
  ∀ x, owner x = o → (x ∈ c' ↔
    (x = (k', r) ∨ r.recordType ≠ .hlink ∧ x = (k'.ilinkKey, CatalogRecord.blank .ilink) ∨ x ∈ c) ∧
      comp.rank x.1 ≠ comp.rank k ∧
      (r.recordType ≠ .hlink → comp.rank x.1 ≠ comp.rank k.ilinkKey))

/-- The record at the new place: a reference for a hard linked inode, else one that carries the
attributes. -/
structure FitsMove (i : CatalogInode) (r : CatalogRecord) : Prop where
  hard : i.hardLink = true → r.recordType = .hlink
  single : i.hardLink = false → r.IsInode
  linked : r.orphan = false

theorem FitsMove.ne_ilink (h : FitsMove i r) : r.recordType ≠ .ilink := by
  cases hh : i.hardLink with
  | true => simp [h.hard hh]
  | false => exact (h.single hh).ne.2

theorem FitsMove.hlink_iff (h : FitsMove i r) : r.recordType = .hlink ↔ i.hardLink = true := by
  constructor
  · intro ht
    by_contra hs
    exact (h.single (Bool.eq_false_iff.mpr hs)).ne.1 ht
  · exact h.hard

theorem FitsMove.isEntry (h : FitsMove i r) (hne : k.objectId ≠ k.parentId) : IsEntry (k, r) := by
  refine ⟨⟨h.ne_ilink, ?_⟩, hne⟩
  rw [isOrphan]
  cases r.recordType <;> simp [h.linked]

variable {d' : Nat} {n' m : CString}

/-- The inode after its entry moved. -/
def CatalogInode.movedTo (i : CatalogInode) (d : Nat) (n : CString) (t : RecordType) :
    CatalogInode :=
  if i.hardLink then { i with recordType := t }
  else { i with parentId := d, name := n, recordType := t }

theorem CatalogInode.movedTo_single (hs : i.hardLink = false) :
    i.movedTo d n t = { i with parentId := d, name := n, recordType := t } :=
  if_neg (by simp [hs])

theorem CatalogInode.movedTo_hard (hs : i.hardLink = true) :
    i.movedTo d n t = { i with recordType := t } :=
  if_pos hs

/-- A move leaves the kind, the links and the orphan chain of the inode. -/
theorem CatalogInode.movedTo_fields (hj : j.sizeless = (i.movedTo d n t).sizeless) :
    j.kind = i.kind ∧ j.nlink = i.nlink ∧ j.nextOrphanId = i.nextOrphanId ∧
      j.hardLink = i.hardLink ∧ (i.hardLink = false → j.parentId = d) := by
  cases hs : i.hardLink with
  | true =>
    rw [movedTo_hard hs] at hj
    exact ⟨congrArg (·.kind) hj, congrArg (·.nlink) hj, congrArg (·.nextOrphanId) hj,
      (congrArg (·.hardLink) hj).trans hs, nofun⟩
  | false =>
    rw [movedTo_single hs] at hj
    exact ⟨congrArg (·.kind) hj, congrArg (·.nlink) hj, congrArg (·.nextOrphanId) hj,
      (congrArg (·.hardLink) hj).trans hs, fun _ => congrArg (·.parentId) hj⟩

theorem CatalogInode.stays_moved (hi : v.inodes o = some i) (hself : v'.inodes o = some j)
    (hj : j.sizeless = (i.movedTo d n t).sizeless) :
    ∃ j, v'.inodes o = some j ∧ j.nextOrphanId = i.nextOrphanId ∧ (i.nlink = 0 → j.nlink = 0) ∧
      (LiveDir v o → LiveDir v' o) := by
  obtain ⟨hkind, hlinks, hnext, -, -⟩ := movedTo_fields hj
  refine ⟨j, hself, hnext, fun hz => hlinks.trans hz, fun ⟨dd, hdd, hdir, hl⟩ => ?_⟩
  obtain rfl := mem_unique hdd hi
  exact ⟨j, hself, hkind.trans hdir, by rw [hlinks]; exact hl⟩

namespace Consistent

/-- An inode with one record is settled after the move: the old record and the old back link are
gone. -/
theorem settled_moved_single (h : Consistent comp v) (hi : v.inodes o = some i)
    (hs : i.hardLink = false) (hold : comp.rank ⟨d, n, o⟩ ∈ entries comp v.catalog)
    (hnew : comp.rank ⟨d', n', o⟩ ∉ entries comp v.catalog) (hne : o ≠ d') (hr : FitsMove i r)
    (hmoved : MovedRecords comp v.catalog c' o ⟨d, n, o⟩ ⟨d', n', o⟩ r)
    (ht : t = .folder ∨ t = .file) (hm : comp.rank ⟨d', m, o⟩ = comp.rank ⟨d', n', o⟩)
    (hj : j.sizeless = (i.movedTo d' m t).sizeless) : Settled comp c' o j := by
  obtain ⟨hod, i', hi', hpos, horphan, hkey⟩ := h.exists_of_entry hold
  obtain rfl : i' = i := mem_unique hi' hi
  have hset := h.settled o i' hi
  have hranks : comp.rank ⟨d', n', o⟩ ≠ comp.rank ⟨d, n, o⟩ := fun heq => hnew (heq ▸ hold)
  have hrn : r.recordType ≠ .hlink := (hr.single hs).ne.1
  rw [CatalogInode.movedTo_single hs] at hj
  have hkind : j.kind = i'.kind := congrArg (·.kind) hj
  have hjs : j.hardLink = false := (congrArg (·.hardLink) hj).trans hs
  have hj' : SingleInode comp o d' n' j :=
    { ne_zero := hset.ne_zero
      ne_dir := hne
      kind := hkind ▸ hset.kind
      single := hjs
      linked := (congrArg (·.orphan) hj).trans horphan
      key := by
        rw [recordKey_single hjs, show j.parentId = d' from congrArg (·.parentId) hj,
          show j.name = m from congrArg (·.name) hj]
        exact hm
      recordType := by
        rw [show j.recordType = t from congrArg (·.recordType) hj]
        exact ht
      nlink := (congrArg (·.nlink) hj).trans (h.single_nlink hi hs hpos) }
  refine hj'.settled (fun x hx => ?_) (hr.single hs) hr.linked
  rw [hmoved x hx]
  constructor
  · rintro ⟨heq | ⟨-, heq⟩ | hxc, hx1, hx2⟩
    · exact .inl heq
    · exact .inr heq
    · by_cases htx : x.2.recordType = .ilink
      · have hrank := ((fits_ilink htx).mp (hset.fits x hxc hx)).2
        exact absurd (hrank.trans (rank_ilinkKey_inj.mpr (hkey hs))) (hx2 hrn)
      · exact absurd ((hset.rank_of_single hs hxc hx htx).trans (hkey hs)) hx1
  · rintro (rfl | rfl)
    · refine ⟨.inl rfl, hranks, fun _ heq => hne ?_⟩
      exact (rank_eq_iff.mp heq).1.symm
    · refine ⟨.inr (.inl ⟨hrn, rfl⟩), fun heq => hod (rank_eq_iff.mp heq).1,
        fun _ heq => hranks ?_⟩
      exact rank_ilinkKey_inj.mp heq

end Consistent

/-- **A hard linked inode stays settled** when only references come and go. -/
theorem Settled.references (h : Settled comp c o i) (hs : i.hardLink = true)
    (hmem : ∀ x, owner x = o → x.2.recordType ≠ .hlink → (x ∈ c' ↔ x ∈ c))
    (href : ∀ x ∈ c', owner x = o → x.2.recordType = .hlink → x.1.objectId ≠ x.1.parentId)
    (hcore : j.core = { i with nlink := j.nlink, recordType := j.recordType }.core)
    (hlinks : j.nlink = linksOf (entries comp c') o) (horphan : i.orphan = true ↔ j.nlink = 0) :
    Settled comp c' o j := by
  have hplace := place_of_core hcore
  have hhard : j.hardLink = i.hardLink := congrArg (·.hardLink) hcore
  have hjo : j.orphan = i.orphan := congrArg (·.orphan) hcore
  obtain ⟨y, hy, hinode, hrank, hyo⟩ := h.located_owner
  refine h.rewritten hplace (fun x hx ho => ?_) ⟨y, (hmem y hyo hinode.ne.1).mpr hy, hinode, hrank⟩
    (fun hf => absurd hf (by simp [hs])) hlinks (by rw [hjo]; exact horphan)
  by_cases ht : x.2.recordType = .hlink
  · exact (fits_hlink ht).mpr ⟨hhard.trans hs, href x hx ho ht⟩
  · exact (h.fits x ((hmem x ho ht).mp hx) ho).congr hplace hjo

namespace Consistent

section

variable (h : Consistent comp v) (he : comp.rank ⟨d, n, o⟩ ∈ entries comp v.catalog)

include h he

/-- Under the key of an entry stands a record of its inode. -/
theorem owner_of_entry (hx : x ∈ v.catalog) (hrank : comp.rank x.1 = comp.rank ⟨d, n, o⟩) :
    owner x = o ∧ IsEntry x := by
  obtain ⟨y, hy, hentry, hyrank⟩ := mem_entries.mp he
  obtain rfl := h.ordered.eq_of_rank hx hy (hrank.trans hyrank.symm)
  exact ⟨(owner_of_ne hentry.1.1).trans (rank_eq_iff.mp hrank).2.2, hentry⟩

/-- Under the key of the back link of an entry with one record stands the back link. -/
theorem ilink_of_entry (hi : v.inodes o = some i) (hs : i.hardLink = false) (hx : x ∈ v.catalog)
    (hrank : comp.rank x.1 = comp.rank (CattreeKey.ilinkKey ⟨d, n, o⟩)) :
    owner x = o ∧ x.2.recordType = .ilink := by
  obtain ⟨-, i', hi', -, -, hkey⟩ := h.exists_of_entry he
  obtain rfl : i' = i := mem_unique hi' hi
  have ht := h.at_ilinkKey hi hs hx (hrank.trans (rank_ilinkKey_inj.mpr (hkey hs).symm))
  exact ⟨(owner_ilink ht).trans (rank_eq_iff.mp hrank).1, ht⟩

end

/-- An entry of a hard linked inode is a reference. -/
theorem hlink_of_entry (h : Consistent comp v) (hi : v.inodes o = some i) (hs : i.hardLink = true)
    (he : comp.rank ⟨d, n, o⟩ ∈ entries comp v.catalog) (hx : x ∈ v.catalog)
    (hrank : comp.rank x.1 = comp.rank ⟨d, n, o⟩) : x.2.recordType = .hlink := by
  obtain ⟨ho, hentry⟩ := h.owner_of_entry he hx hrank
  have hfits := (h.settled o i hi).fits x hx ho
  rcases x.2.cases_type with ht | ht | ht
  · have hkey := ((fits_inode ht).mp hfits).1
    rw [recordKey_hard hs] at hkey
    obtain ⟨hp, -, hobj⟩ := rank_eq_iff.mp hkey
    exact absurd (hobj.trans hp.symm) hentry.2
  · exact ht
  · exact absurd ht hentry.1.1

end Consistent

/-- To move an entry keeps the number of links. -/
theorem linksOf_moved {ρ ρ' : Comparison.Rank} (hold : ρ ∈ E) (hnew : ρ' ∉ E)
    (hobj : (ofLex (ofLex ρ).2).2 = (ofLex (ofLex ρ').2).2) (o : Nat) :
    linksOf ((insert ρ' E).erase ρ) o = linksOf E o := by
  have herase := linksOf_erase (mem_insert_of_mem (b := ρ') hold) o
  rw [linksOf_insert hnew, hobj] at herase
  omega

namespace Consistent

section

variable (h : Consistent comp v) (hi : v.inodes o = some i)
  (hold : comp.rank ⟨d, n, o⟩ ∈ entries comp v.catalog)

include h hi hold

/-- **An inode whose entry moved is settled.** -/
theorem settled_moved
    (hnew : comp.rank ⟨d', n', o⟩ ∉ entries comp v.catalog) (hne : o ≠ d') (hr : FitsMove i r)
    (hmoved : MovedRecords comp v.catalog c' o ⟨d, n, o⟩ ⟨d', n', o⟩ r)
    (ht : i.hardLink = false → t = .folder ∨ t = .file)
    (hm : comp.rank ⟨d', m, o⟩ = comp.rank ⟨d', n', o⟩)
    (hj : j.sizeless = (i.movedTo d' m t).sizeless)
    (hlinks : linksOf (entries comp c') o = linksOf (entries comp v.catalog) o) :
    Settled comp c' o j := by
  cases hs : i.hardLink with
  | false => exact h.settled_moved_single hi hs hold hnew hne hr hmoved (ht hs) hm hj
  | true =>
    have hset := h.settled o i hi
    have hrt : r.recordType = .hlink := hr.hard hs
    rw [CatalogInode.movedTo_hard hs] at hj
    have hjl : j.nlink = i.nlink := congrArg (·.nlink) hj
    have hcore : j.core = { i with nlink := j.nlink, recordType := j.recordType }.core := by
      rw [hjl, show j.recordType = t from congrArg (·.recordType) hj]
      exact CatalogInode.core_of_sizeless hj
    refine hset.references hs (fun x hx htx => ?_) (fun x hx ho htx => ?_) hcore
      (by rw [hjl, hset.links, hlinks]) (by rw [hjl]; exact hset.orphan_iff)
    · rw [hmoved x hx]
      constructor
      · rintro ⟨rfl | ⟨hn, -⟩ | hxc, -, -⟩
        · exact absurd hrt htx
        · exact absurd hrt hn
        · exact hxc
      · -- a reference goes, and the body stays
        intro hxc
        refine ⟨.inr (.inr hxc), fun heq => ?_, fun hn => absurd hrt hn⟩
        exact htx (h.hlink_of_entry hi hs hold hxc heq)
    · obtain ⟨rfl | ⟨hn, -⟩ | hxc, -, -⟩ := (hmoved x ho).mp hx
      · exact hne
      · exact absurd hrt hn
      · exact ((fits_hlink htx).mp (hset.fits x hxc ho)).2

/-- **A moved entry.** -/
theorem moved (hd : d ≠ 0) (hdir : LiveDir v d')
    (hne : o ≠ d') (hinside : ∀ dd, v.inodes d' = some dd → dd.parentId ≠ o)
    (hnew : comp.rank ⟨d', n', o⟩ ∉ entries comp v.catalog) (hr : FitsMove i r) {c1 : Catalog}
    (hplaced : EntryPlaced comp v.catalog c1 ⟨d', n', o⟩ r)
    (hremoved : EntryRemoved comp c1 v'.catalog ⟨d, n, o⟩ r.recordType)
    (ht : i.hardLink = false → t = .folder ∨ t = .file) (hself : v'.inodes o = some j)
    (hm : comp.rank ⟨d', m, o⟩ = comp.rank ⟨d', n', o⟩)
    (hj : j.sizeless = (i.movedTo d' m t).sizeless) (halike : AlikeBut v v' (· = o))
    (hlist : v'.orphanInodes = v.orphanInodes) :
    Consistent comp v' ∧ entries comp v'.catalog =
      (insert (comp.rank ⟨d', n', o⟩) (entries comp v.catalog)).erase (comp.rank ⟨d, n, o⟩) := by
  obtain ⟨hod, i', hi', hpos, -, hkey⟩ := h.exists_of_entry hold
  obtain rfl : i' = i := mem_unique hi' hi
  have hranks : comp.rank ⟨d', n', o⟩ ≠ comp.rank ⟨d, n, o⟩ := fun heq => hnew (heq ▸ hold)
  have hsingle : r.recordType ≠ .hlink → i'.hardLink = false := fun hn =>
    Bool.eq_false_iff.mpr (mt hr.hlink_iff.mpr hn)
  -- the entries
  have hentries1 := entries_of_placed hplaced (hr.isEntry hne)
  have hentries := entries_of_removed hremoved fun hn hmem => by
    rw [hentries1, mem_insert] at hmem
    rcases hmem with heq | hmem
    · exact hne (rank_eq_iff.mp heq).1
    · rw [rank_ilinkKey_inj.mpr (hkey (hsingle hn)).symm] at hmem
      exact h.ilinkKey_notMem hi (hsingle hn) hmem
  rw [hentries1] at hentries
  have hlinks : linksOf (entries comp v'.catalog) o = linksOf (entries comp v.catalog) o := by
    rw [hentries]
    exact linksOf_moved hold hnew rfl o
  -- the records
  have hmoved : MovedRecords comp v.catalog v'.catalog o ⟨d, n, o⟩ ⟨d', n', o⟩ r := by
    intro x _
    rw [hremoved.mem_iff, hplaced.mem_iff]
  have hrecords : ∀ x, owner x ≠ o → (x ∈ v'.catalog ↔ x ∈ v.catalog) := by
    intro x hx
    rw [hremoved.mem_iff_of_owner (o := o) (fun y hy hrank => ?_) (fun hn y hy hrank => ?_) hx,
      hplaced.mem_iff_of_owner hr.ne_ilink hx]
    · rcases (hplaced.mem_iff y).mp hy with rfl | ⟨-, rfl⟩ | hy
      · exact absurd hrank hranks
      · exact owner_ilink rfl
      · exact (h.owner_of_entry hold hy hrank).1
    · rcases (hplaced.mem_iff y).mp hy with rfl | ⟨-, rfl⟩ | hy
      · exact owner_of_ne hr.ne_ilink
      · exact owner_ilink rfl
      · exact (h.ilink_of_entry hold hi (hsingle hn) hy hrank).1
  have hjf := CatalogInode.movedTo_fields hj
  refine ⟨h.of_changed (T := (· = o)) ?_ halike hlist ?_ hrecords hremoved.ordered ?_ ?_ ?_,
    hentries⟩
  · exact fun heq => h.ne_root_of_entry hd hold heq.symm
  · rintro m i0 rfl hi0
    obtain rfl := mem_unique hi0 hi
    exact CatalogInode.stays_moved hi hself hj
  · rintro m rfl
    exact ⟨j, hself, h.settled_moved hi hold hnew hne hr hmoved ht hm hj hlinks⟩
  · intro ρ hρ
    rw [hentries] at hρ
    rcases mem_insert.mp (mem_of_mem_erase hρ) with rfl | hρ
    · exact .inr hdir
    · exact h.parent ρ hρ
  · -- the new directory is not inside the inode
    rintro m i0 p j' rfl hi0 hj' hs - hp hloop
    obtain rfl := mem_unique hself hi0
    have hpd : p = d' := hp.symm.trans (hjf.2.2.2.2 (hjf.2.2.2.1.symm.trans hs))
    obtain ⟨dd, hdd, heq⟩ := halike.of_after (fun heq => hne (heq.symm.trans hpd)) hj'
    exact hinside dd (hpd ▸ hdd) ((congrArg (·.parentId) heq).symm.trans hloop)

end

end Consistent

/-! ### References come and go -/

namespace Consistent

section

variable (h : Consistent comp v) (hi : v.inodes o = some i) (hs : i.hardLink = true)

include h hi hs

/-- A hard linked inode is not the root. -/
theorem ne_root_of_hard :
    o ≠ rootIno := by
  rintro rfl
  obtain ⟨i', hi', hroot⟩ := h.root
  rw [mem_unique hi hi', hroot.single] at hs
  cases hs

/-- **References of a hard linked inode change**, and its links are counted. -/
theorem of_references (hpos : i.nlink ≠ 0) {m : Nat} (hm : m ≠ 0) (hord : v'.catalog.Ordered comp)
    (hmem : ∀ x, owner x ≠ o ∨ x.2.recordType ≠ .hlink → (x ∈ v'.catalog ↔ x ∈ v.catalog))
    (href : ∀ x ∈ v'.catalog, x ∈ v.catalog ∨ x.1.objectId ≠ x.1.parentId)
    (hparent : ∀ r ∈ entries comp v'.catalog, r ∈ entries comp v.catalog ∨ LiveDir v (ofLex r).1)
    (hlinks : m = linksOf (entries comp v'.catalog) o) (hself : v'.inodes o = some j)
    (hj : j.sizeless = { i with nlink := m }.sizeless) (halike : AlikeBut v v' (· = o))
    (hlist : v'.orphanInodes = v.orphanInodes) : Consistent comp v' := by
  have hset := h.settled o i hi
  have hjl : j.nlink = m := congrArg (·.nlink) hj
  refine h.of_changed (T := (· = o)) (fun heq => h.ne_root_of_hard hi hs heq.symm) halike hlist ?_
    (fun x hx => hmem x (.inl hx)) hord ?_ ?_ ?_
  · rintro m' i0 rfl hi0
    obtain rfl := mem_unique hi0 hi
    refine ⟨j, hself, congrArg (·.nextOrphanId) hj, fun hz => absurd hz hpos,
      fun ⟨dd, hdd, hkind, _⟩ => ?_⟩
    obtain rfl := mem_unique hdd hi
    exact ⟨j, hself, (congrArg (·.kind) hj).trans hkind, by rw [hjl]; exact hm⟩
  · rintro m' rfl
    refine ⟨j, hself, hset.references hs (fun x _ ht => hmem x (.inr ht))
      (fun x hx ho ht => ?_) ?_ ?_ ?_⟩
    · rcases href x hx with hx | hne
      · exact ((fits_hlink ht).mp (hset.fits x hx ho)).2
      · exact hne
    · rw [hjl, show j.recordType = i.recordType from congrArg (·.recordType) hj]
      exact CatalogInode.core_of_sizeless hj
    · rw [hjl, hlinks]
    · rw [hjl, hset.orphan_iff]
      exact ⟨fun hz => absurd hz hpos, fun hz => absurd hz hm⟩
  · intro ρ hρ
    rcases hparent ρ hρ with hρ | hdir
    · exact h.parent ρ hρ
    · exact .inr hdir
  · rintro m' i0 p j' rfl hi0 - hs' - - -
    obtain rfl := mem_unique hself hi0
    rw [show j.hardLink = i.hardLink from congrArg (·.hardLink) hj, hs] at hs'
    cases hs'

/-- **A new reference.** -/
theorem referenced
    (hpos : i.nlink ≠ 0) (hdir : LiveDir v d) (hne : o ≠ d) (hr : r.recordType = .hlink)
    (hplaced : EntryPlaced comp v.catalog v'.catalog ⟨d, n, o⟩ r) (hself : v'.inodes o = some j)
    (hj : j.sizeless = { i with nlink := i.nlink + 1 }.sizeless) (halike : AlikeBut v v' (· = o))
    (hlist : v'.orphanInodes = v.orphanInodes) :
    Consistent comp v' ∧
      entries comp v'.catalog = insert (comp.rank ⟨d, n, o⟩) (entries comp v.catalog) := by
  have hentries := entries_of_placed hplaced (isEntry_of_hlink hr hne)
  refine ⟨h.of_references hi hs hpos i.nlink.succ_ne_zero hplaced.ordered (fun x hx => ?_)
    (fun x hx => ?_) (fun ρ hρ => ?_) ?_ hself hj halike hlist, hentries⟩
  · rw [hplaced.mem_iff]
    constructor
    · rintro (rfl | ⟨hn, -⟩ | hx')
      · exact absurd hx (by simp [hr, owner])
      · exact absurd hr hn
      · exact hx'
    · exact fun hx' => .inr (.inr hx')
  · rcases (hplaced.mem_iff x).mp hx with rfl | ⟨hn, -⟩ | hx
    · exact .inr hne
    · exact absurd hr hn
    · exact .inl hx
  · rw [hentries] at hρ
    rcases mem_insert.mp hρ with rfl | hρ
    · exact .inr hdir
    · exact .inl hρ
  · rw [hentries, linksOf_insert hplaced.notMem, ← (h.settled o i hi).links]
    simp

/-- **A reference goes**, not the last one. -/
theorem dereferenced (hold : comp.rank ⟨d, n, o⟩ ∈ entries comp v.catalog) (hmore : i.nlink - 1 ≠ 0)
    (hremoved : EntryRemoved comp v.catalog v'.catalog ⟨d, n, o⟩ .hlink)
    (hself : v'.inodes o = some j) (hj : j.sizeless = { i with nlink := i.nlink - 1 }.sizeless)
    (halike : AlikeBut v v' (· = o)) (hlist : v'.orphanInodes = v.orphanInodes) :
    Consistent comp v' := by
  have hentries := entries_of_removed hremoved fun hn => absurd rfl hn
  refine h.of_references hi hs (by omega) hmore hremoved.ordered (fun x hx => ?_)
    (fun x hx => .inl ((hremoved.mem_iff x).mp hx).1) (fun ρ hρ => ?_) ?_ hself hj halike hlist
  · rw [hremoved.mem_iff]
    refine ⟨fun hx' => hx'.1, fun hx' => ⟨hx', fun heq => ?_, fun hn => absurd rfl hn⟩⟩
    -- under the key of the entry stands a reference of the inode
    exact hx.elim (fun hx => hx (h.owner_of_entry hold hx' heq).1)
      fun hx => hx (h.hlink_of_entry hi hs hold hx' heq)
  · rw [hentries] at hρ
    exact .inl (mem_of_mem_erase hρ)
  · have herase := linksOf_erase hold o
    rw [← hentries, ← (h.settled o i hi).links] at herase
    simp only [rank_object, if_true] at herase
    omega

end

end Consistent

/-! ### A record becomes a reference and a body -/

/-- **A body and one reference** settle a hard linked inode. -/
theorem Settled.hardened (h : Settled comp c o i) (hs : i.hardLink = false) (hkind : i.kind ≠ .dir)
    (hb : b.IsInode) (horphan : b.orphan = i.orphan) (hr : r.recordType = .hlink)
    (hk : comp.rank k = comp.rank (i.recordKey o))
    (hmem : ∀ x, owner x = o → (x ∈ c' ↔ x = (bodyKey o, b) ∨ x = (k, r)))
    (hlinks : linksOf (entries comp c') o = linksOf (entries comp c) o)
    (hj : j.core = { i with parentId := 0, name := CString.empty, hardLink := true }.core) :
    Settled comp c' o j := by
  have hhard : j.hardLink = true := congrArg (·.hardLink) hj
  have hjk : j.kind = i.kind := congrArg (·.kind) hj
  have hjl : j.nlink = i.nlink := congrArg (·.nlink) hj
  have hjo : j.orphan = i.orphan := congrArg (·.orphan) hj
  have hkey : j.recordKey o = bodyKey o := recordKey_hard hhard
  obtain ⟨hp, -, ho⟩ := rank_eq_iff.mp hk
  rw [i.recordKey_objectId] at ho
  rw [recordKey_single hs] at hp
  refine
    { ne_zero := h.ne_zero
      fits := fun x hx hxo => ?_
      located := ⟨(bodyKey o, b), (hmem _ (owner_of_ne (x := (bodyKey o, b)) hb.ne.2)).mpr
        (.inl rfl), hb, by rw [hkey]⟩
      kind := hjk ▸ h.kind
      dir_single := fun hdir => absurd (hjk ▸ hdir) hkind
      single_type := fun hf => absurd hf (by simp [hhard])
      single_parent := fun hf => absurd hf (by simp [hhard])
      links := by rw [hjl, h.links, hlinks]
      orphan_iff := by rw [hjo, hjl]; exact h.orphan_iff }
  rcases (hmem x hxo).mp hx with rfl | rfl
  · exact (fits_inode (x := (bodyKey o, b)) hb).mpr ⟨by rw [hkey], horphan.trans hjo.symm⟩
  · refine (fits_hlink (x := (k, r)) hr).mpr ⟨hhard, fun heq => h.single_parent hs ?_⟩
    exact hp.symm.trans (heq.symm.trans ho)

/-- **A record becomes a reference and a body.** -/
theorem Consistent.hardened (h : Consistent comp v) (hi : v.inodes o = some i)
    (hs : i.hardLink = false) (hpos : i.nlink ≠ 0) (hkind : i.kind ≠ .dir) (hb : b.IsInode)
    (horphan : b.orphan = i.orphan) (hr : r.recordType = .hlink)
    (hk : comp.rank k = comp.rank (i.recordKey o)) (hord : v'.catalog.Ordered comp)
    (hothers : ∀ x, owner x ≠ o → (x ∈ v'.catalog ↔ x ∈ v.catalog))
    (hmem : ∀ x, owner x = o → (x ∈ v'.catalog ↔ x = (bodyKey o, b) ∨ x = (k, r)))
    (hself : v'.inodes o = some j)
    (hj : j.sizeless = { i with parentId := 0, name := CString.empty, hardLink := true }.sizeless)
    (halike : AlikeBut v v' (· = o)) (hlist : v'.orphanInodes = v.orphanInodes) :
    Consistent comp v' ∧ entries comp v'.catalog = entries comp v.catalog := by
  have hset := h.settled o i hi
  obtain ⟨hp, -, ho⟩ := rank_eq_iff.mp hk
  rw [i.recordKey_objectId] at ho
  rw [recordKey_single hs] at hp
  have hko : k.objectId ≠ k.parentId := fun heq => hset.single_parent hs
    (hp.symm.trans (heq.symm.trans ho))
  -- the entry of the record is now the entry of the reference
  have hentries : entries comp v'.catalog = entries comp v.catalog := by
    ext ρ
    rw [mem_entries]
    constructor
    · rintro ⟨x, hx, he, rfl⟩
      by_cases hxo : owner x = o
      · rcases (hmem x hxo).mp hx with rfl | rfl
        · exact absurd rfl he.2
        · rw [hk]
          exact h.live_entry hi hs hpos
      · exact mem_entries_of_mem ((hothers x hxo).mp hx) he
    · intro hρ
      obtain ⟨x, hx, he, rfl⟩ := mem_entries.mp hρ
      by_cases hxo : owner x = o
      · have hrank : comp.rank x.1 = comp.rank k :=
          (hset.rank_of_single hs hx hxo he.1.1).trans hk.symm
        have hni : r.recordType ≠ .ilink := by simp [hr]
        exact ⟨(k, r), (hmem _ ((owner_of_ne (x := (k, r)) hni).trans ho)).mpr (.inr rfl),
          isEntry_of_hlink hr hko, hrank.symm⟩
      · exact ⟨x, (hothers x hxo).mpr hx, he, rfl⟩
  refine ⟨h.of_changed (T := (· = o)) ?_ halike hlist ?_ hothers hord ?_ ?_ ?_, hentries⟩
  · rintro rfl
    obtain ⟨i', hi', hroot⟩ := h.root
    exact hkind (mem_unique hi hi' ▸ hroot.dir)
  · rintro m i0 rfl hi0
    obtain rfl := mem_unique hi0 hi
    refine ⟨j, hself, congrArg (·.nextOrphanId) hj, fun hz => absurd hz hpos,
      fun ⟨dd, hdd, hdir, _⟩ => ?_⟩
    obtain rfl := mem_unique hdd hi
    exact absurd hdir hkind
  · rintro m rfl
    exact ⟨j, hself, hset.hardened hs hkind hb horphan hr hk hmem (by rw [hentries])
      (CatalogInode.core_of_sizeless hj)⟩
  · intro ρ hρ
    exact h.parent ρ (hentries ▸ hρ)
  · rintro m i0 q j' rfl hi0 - hs' - - -
    obtain rfl := mem_unique hself hi0
    rw [show j.hardLink = true from congrArg (·.hardLink) hj] at hs'
    cases hs'

end Vdfs4
