import Vdfs4.Catalog.Entries
import Vdfs4.Catalog.Orphans

/-!
# Catalog and inodes in memory

The directory operations rely on the inodes in memory to say **where their records stand**. Every
record belongs to one inode, its owner, and an inode is settled when its own records are as its
fields say. An operation on one inode leaves the records of the others alone, so what it has to
keep is **local** to the inode it works on.

* `owner`, `Fits`, `Settled` — the records of one inode;
* `Consistent` — all inodes are settled, the directories of the entries are alive, no two
  directories contain each other, and the orphan list is a chain;
* `Consistent.free` — the keys of a new entry are free; `Consistent.at_ilinkKey` — only the back
  link stands under its key;
* `Consistent.of_touched` — **what an operation has to show** for the inodes it touches.
-/

namespace Vdfs4

open Chain Comparison CatalogInode

/-! ### The records of one inode -/

/-- The number of the inode a record belongs to. -/
def owner (x : CattreeKey × CatalogRecord) : Nat :=
  if x.2.recordType = .ilink then x.1.parentId else x.1.objectId

/-- A record that is as its inode says. -/
def Fits (comp : Comparison) (o : Nat) (i : CatalogInode) (x : CattreeKey × CatalogRecord) : Prop :=
  match x.2.recordType with
  | .ilink => i.hardLink = false ∧ comp.rank x.1 = comp.rank (i.recordKey o).ilinkKey
  | .hlink => i.hardLink = true ∧ x.1.objectId ≠ x.1.parentId
  | .folder | .file => comp.rank x.1 = comp.rank (i.recordKey o) ∧ x.2.orphan = i.orphan

/-- **A settled inode**: all its records fit, its attributes have a record, and its links are
counted. -/
structure Settled (comp : Comparison) (c : Catalog) (o : Nat) (i : CatalogInode) : Prop where
  ne_zero : o ≠ 0
  fits : ∀ x ∈ c, owner x = o → Fits comp o i x
  located : ∃ x ∈ c, x.2.IsInode ∧ comp.rank x.1 = comp.rank (i.recordKey o)
  kind : i.kind ≠ .other
  dir_single : i.kind = .dir → i.hardLink = false
  single_type : i.hardLink = false → i.recordType = .folder ∨ i.recordType = .file
  single_parent : i.hardLink = false → i.parentId ≠ o
  links : i.nlink = linksOf (entries comp c) o
  orphan_iff : i.orphan = true ↔ i.nlink = 0

/-- The fields of an inode that its records depend on. -/
def CatalogInode.core (i : CatalogInode) : CatalogInode :=
  { i with rdev := 0, isize := 0, nextOrphanId := 0 }

/-- The inode of the root: a directory that is in no other one. -/
structure IsRoot (i : CatalogInode) : Prop where
  dir : i.kind = .dir
  linked : i.nlink ≠ 0
  single : i.hardLink = false
  top : i.parentId = 0

/-- A directory with links. -/
def LiveDir (v : Volume) (dir : Nat) : Prop :=
  ∃ d, v.inodes dir = some d ∧ d.kind = .dir ∧ d.nlink ≠ 0

/-- **A consistent volume.** -/
structure Consistent (comp : Comparison) (v : Volume) : Prop where
  ordered : v.catalog.Ordered comp
  owned : ∀ x ∈ v.catalog, ∃ i, v.inodes (owner x) = some i
  settled : ∀ o i, v.inodes o = some i → Settled comp v.catalog o i
  parent : ∀ r ∈ entries comp v.catalog, (ofLex r).1 = 0 ∨ LiveDir v (ofLex r).1
  unlooped : ∀ o i p j, v.inodes o = some i → v.inodes p = some j → i.hardLink = false →
    j.hardLink = false → i.parentId = p → j.parentId ≠ o
  root : ∃ i, v.inodes rootIno = some i ∧ IsRoot i
  list : ∃ l, v.orphanInodes = rootIno :: l ∧ Follows (nextInMemory v) 0 rootIno l ∧
    ∀ o ∈ l, ∃ i, v.inodes o = some i ∧ i.nlink = 0

variable {comp : Comparison} {c c' : Catalog} {v v' : Volume} {x y : CattreeKey × CatalogRecord}
  {o p d : Nat} {n : CString} {i j : CatalogInode}

theorem owner_ilink (h : x.2.recordType = .ilink) : owner x = x.1.parentId := if_pos h

theorem owner_of_ne (h : x.2.recordType ≠ .ilink) : owner x = x.1.objectId := if_neg h

theorem fits_ilink (h : x.2.recordType = .ilink) :
    Fits comp o i x ↔ i.hardLink = false ∧ comp.rank x.1 = comp.rank (i.recordKey o).ilinkKey := by
  rw [Fits, h]

theorem fits_hlink (h : x.2.recordType = .hlink) :
    Fits comp o i x ↔ i.hardLink = true ∧ x.1.objectId ≠ x.1.parentId := by
  rw [Fits, h]

theorem fits_inode (h : x.2.IsInode) :
    Fits comp o i x ↔ comp.rank x.1 = comp.rank (i.recordKey o) ∧ x.2.orphan = i.orphan := by
  rw [Fits]
  rcases h with h | h <;> rw [h]

theorem CatalogInode.recordKey_single (h : i.hardLink = false) :
    i.recordKey o = ⟨i.parentId, i.name, o⟩ := by
  rw [recordKey, h]
  rfl

theorem CatalogInode.recordKey_hard (h : i.hardLink = true) : i.recordKey o = bodyKey o := by
  rw [recordKey, h]
  rfl

/-- What an inode is, and where its records stand. -/
def CatalogInode.place (i : CatalogInode) : FileKind × Bool × Nat × CString :=
  (i.kind, i.hardLink, i.parentId, i.name)

theorem CatalogInode.place_of_core (hcore : j.core = i.core) : j.place = i.place := by
  have hplace : j.core.place = i.core.place := by rw [hcore]
  exact hplace

theorem CatalogInode.recordKey_congr (hplace : j.place = i.place) :
    j.recordKey o = i.recordKey o := by
  have hhard : j.hardLink = i.hardLink := congrArg (·.2.1) hplace
  have hparent : j.parentId = i.parentId := congrArg (·.2.2.1) hplace
  have hname : j.name = i.name := congrArg (·.2.2.2) hplace
  rw [recordKey, recordKey, hhard, hparent, hname]

theorem Fits.congr (h : Fits comp o i x) (hplace : j.place = i.place)
    (horphan : j.orphan = i.orphan) : Fits comp o j x := by
  have hhard : j.hardLink = i.hardLink := congrArg (·.2.1) hplace
  rw [Fits, recordKey_congr hplace, hhard, horphan]
  exact h

theorem IsRoot.congr (h : IsRoot i) (hcore : j.core = i.core) : IsRoot j where
  dir := (congrArg (·.kind) hcore).trans h.dir
  linked := by
    rw [show j.nlink = i.nlink from congrArg (·.nlink) hcore]
    exact h.linked
  single := (congrArg (·.hardLink) hcore).trans h.single
  top := (congrArg (·.parentId) hcore).trans h.top

/-- The links of an inode are among its own records. -/
theorem linksOf_congr (h : ∀ x, owner x = o → (x ∈ c' ↔ x ∈ c)) :
    linksOf (entries comp c') o = linksOf (entries comp c) o := by
  rw [linksOf, linksOf]
  congr 1
  ext r
  simp only [Finset.mem_filter, mem_entries]
  constructor
  · rintro ⟨⟨x, hx, he, rfl⟩, ho⟩
    exact ⟨⟨x, (h x ((owner_of_ne he.1.1).trans ho)).mp hx, he, rfl⟩, ho⟩
  · rintro ⟨⟨x, hx, he, rfl⟩, ho⟩
    exact ⟨⟨x, (h x ((owner_of_ne he.1.1).trans ho)).mpr hx, he, rfl⟩, ho⟩

section

variable (h : Settled comp c o i)

include h

/-- The record of the attributes is the inode's own. -/
theorem Settled.located_owner :
    ∃ x ∈ c, x.2.IsInode ∧ comp.rank x.1 = comp.rank (i.recordKey o) ∧ owner x = o := by
  obtain ⟨x, hx, hinode, hrank⟩ := h.located
  refine ⟨x, hx, hinode, hrank, ?_⟩
  rw [owner_of_ne hinode.ne.2, (rank_eq_iff.mp hrank).2.2, i.recordKey_objectId]

/-- **An inode that stays in its place** is settled when its new records, its links and its record
type are right. -/
theorem Settled.rewritten (hplace : j.place = i.place)
    (hfits : ∀ x ∈ c', owner x = o → Fits comp o j x)
    (hlocated : ∃ x ∈ c', x.2.IsInode ∧ comp.rank x.1 = comp.rank (i.recordKey o))
    (htype : i.hardLink = false → j.recordType = .folder ∨ j.recordType = .file)
    (hlinks : j.nlink = linksOf (entries comp c') o) (horphan : j.orphan = true ↔ j.nlink = 0) :
    Settled comp c' o j := by
  have hkind : j.kind = i.kind := congrArg (·.1) hplace
  have hhard : j.hardLink = i.hardLink := congrArg (·.2.1) hplace
  have hparent : j.parentId = i.parentId := congrArg (·.2.2.1) hplace
  exact
    { ne_zero := h.ne_zero
      fits := hfits
      located := by rw [recordKey_congr hplace]; exact hlocated
      kind := hkind ▸ h.kind
      dir_single := by rw [hkind, hhard]; exact h.dir_single
      single_type := by rw [hhard]; exact htype
      single_parent := by rw [hhard, hparent]; exact h.single_parent
      links := hlinks
      orphan_iff := horphan }

/-- **An inode stays settled** while its own records stay. -/
theorem Settled.congr (hc : ∀ x, owner x = o → (x ∈ c' ↔ x ∈ c))
    (hcore : j.core = i.core) : Settled comp c' o j := by
  have hlinks : j.nlink = i.nlink := congrArg (·.nlink) hcore
  have horphan : j.orphan = i.orphan := congrArg (·.orphan) hcore
  have hplace := place_of_core hcore
  obtain ⟨x, hx, hinode, hrank, ho⟩ := h.located_owner
  refine h.rewritten hplace (fun x hx ho => ?_) ⟨x, (hc x ho).mpr hx, hinode, hrank⟩ ?_ ?_ ?_
  · exact (h.fits x ((hc x ho).mp hx) ho).congr hplace horphan
  · rw [show j.recordType = i.recordType from congrArg (·.recordType) hcore]
    exact h.single_type
  · rw [hlinks, h.links, linksOf_congr hc]
  · rw [hlinks, horphan]
    exact h.orphan_iff

/-- Under the key of a settled inode's record stands that record. -/
theorem Settled.at_recordKey (hord : c.Ordered comp) (hx : x ∈ c)
    (hrank : comp.rank x.1 = comp.rank (i.recordKey o)) :
    x.2.IsInode ∧ owner x = o ∧ x.2.orphan = i.orphan := by
  obtain ⟨y, hy, hinode, hyrank, ho⟩ := h.located_owner
  obtain rfl := hord.eq_of_rank hx hy (hrank.trans hyrank.symm)
  exact ⟨hinode, ho, ((fits_inode hinode).mp (h.fits x hx ho)).2⟩

/-- Only the back link of an inode with one record stands under another key. -/
theorem Settled.rank_of_single (hs : i.hardLink = false) (hx : x ∈ c)
    (ho : owner x = o) (ht : x.2.recordType ≠ .ilink) :
    comp.rank x.1 = comp.rank (i.recordKey o) := by
  have hfits := h.fits x hx ho
  rcases x.2.cases_type with htx | htx | htx
  · exact ((fits_inode htx).mp hfits).1
  · rw [fits_hlink htx, hs] at hfits
    exact absurd hfits.1 (by decide)
  · exact absurd htx ht

end

/-! ### Entries of a consistent volume -/

namespace Consistent

theorem fits (h : Consistent comp v) (hx : x ∈ v.catalog) :
    ∃ i, v.inodes (owner x) = some i ∧ Fits comp (owner x) i x := by
  obtain ⟨i, hi⟩ := h.owned x hx
  exact ⟨i, hi, (h.settled _ i hi).fits x hx rfl⟩

/-- The inode of an entry has links, and an inode with one record has its entry there. -/
theorem exists_of_entry (h : Consistent comp v)
    (he : comp.rank ⟨d, n, o⟩ ∈ entries comp v.catalog) :
    o ≠ d ∧ ∃ i, v.inodes o = some i ∧ i.nlink ≠ 0 ∧ i.orphan = false ∧
      (i.hardLink = false → comp.rank (i.recordKey o) = comp.rank ⟨d, n, o⟩) := by
  obtain ⟨x, hx, hentry, hrank⟩ := mem_entries.mp he
  obtain ⟨hd, -, ho⟩ := rank_eq_iff.mp hrank
  have hxo : owner x = o := (owner_of_ne hentry.1.1).trans ho
  obtain ⟨i, hi⟩ := h.owned x hx
  rw [hxo] at hi
  have hset := h.settled o i hi
  have hlinks : i.nlink ≠ 0 := by
    rw [hset.links]
    exact fun hzero => (linksOf_eq_zero_iff o).mp hzero _ he rfl
  refine ⟨fun heq => hentry.2 (by rw [ho, heq, hd]), i, hi, hlinks, ?_, fun hsingle => ?_⟩
  · exact Bool.eq_false_iff.mpr fun horphan => hlinks (hset.orphan_iff.mp horphan)
  · rw [← hrank, hset.rank_of_single hsingle hx hxo hentry.1.1]

section

variable (h : Consistent comp v) (hi : v.inodes o = some i) (hsingle : i.hardLink = false)

include h hi hsingle

/-- The one record of an inode with links is an entry. -/
theorem live_entry (hlinks : i.nlink ≠ 0) : comp.rank (i.recordKey o) ∈ entries comp v.catalog := by
  have hset := h.settled o i hi
  obtain ⟨x, hx, hinode, hrank⟩ := hset.located
  obtain ⟨hp, -, ho⟩ := rank_eq_iff.mp hrank
  rw [i.recordKey_objectId] at ho
  rw [recordKey_single hsingle] at hp
  have hfits := (fits_inode hinode).mp (hset.fits x hx ((owner_of_ne hinode.ne.2).trans ho))
  rw [← hrank]
  refine mem_entries_of_mem hx ⟨⟨hinode.ne.2, ?_⟩, fun heq => ?_⟩
  · have horphan : x.2.orphan = false := by
      rw [hfits.2]
      exact Bool.eq_false_iff.mpr fun horphan => hlinks (hset.orphan_iff.mp horphan)
    rw [CatalogRecord.isOrphan]
    rcases hinode with ht | ht <;> simp [ht, horphan]
  · exact hset.single_parent hsingle (hp.symm.trans (heq.symm.trans ho))

/-- The directory of an inode with links is alive. -/
theorem live_parent (hlinks : i.nlink ≠ 0) : i.parentId = 0 ∨ LiveDir v i.parentId := by
  have hparent := h.parent _ (h.live_entry hi hsingle hlinks)
  rwa [recordKey_single hsingle] at hparent

/-- **Under the key of a back link stands only a back link**: another record there would put the
inode's directory into the inode. -/
theorem at_ilinkKey
    (hx : x ∈ v.catalog) (hrank : comp.rank x.1 = comp.rank (i.recordKey o).ilinkKey) :
    x.2.recordType = .ilink := by
  have hset := h.settled o i hi
  obtain ⟨hp, -, ho⟩ := rank_eq_iff.mp hrank
  rw [recordKey_single hsingle] at hp ho
  by_contra ht
  obtain ⟨j, hj, hfits⟩ := h.fits hx
  rw [owner_of_ne ht, ho] at hj hfits
  have hsetj := h.settled _ j hj
  rcases x.2.cases_type with hinode | hlink | hil
  · -- the directory has its record in the inode
    have hkey := ((fits_inode hinode).mp hfits).1
    by_cases hjs : j.hardLink = false
    · rw [recordKey_single hjs] at hkey
      exact h.unlooped o i i.parentId j hi hj hsingle hjs rfl
        ((rank_eq_iff.mp hkey).1.symm.trans hp)
    · rw [recordKey_hard (Bool.not_eq_false _ ▸ hjs)] at hkey
      exact hset.single_parent hsingle ((rank_eq_iff.mp hkey).1.symm.trans hp)
  · -- the directory has a reference in the inode, but a directory has none
    obtain ⟨hjh, hne⟩ := (fits_hlink hlink).mp hfits
    have hlive := h.parent (comp.rank x.1) (mem_entries_of_mem hx (isEntry_of_hlink hlink hne))
    rw [rank_parent, hp] at hlive
    obtain ⟨i', hi', -, hlinks⟩ := hlive.resolve_left hset.ne_zero
    obtain rfl : i' = i := Option.mem_unique hi' hi
    obtain ⟨j', hj', hdir, -⟩ := (h.live_parent hi hsingle hlinks).resolve_left hsetj.ne_zero
    obtain rfl : j' = j := Option.mem_unique hj' hj
    rw [hsetj.dir_single hdir] at hjh
    cases hjh
  · exact ht hil

/-- So the key of a back link is no entry. -/
theorem ilinkKey_notMem :
    comp.rank (i.recordKey o).ilinkKey ∉ entries comp v.catalog := by
  intro hmem
  obtain ⟨x, hx, hentry, hrank⟩ := mem_entries.mp hmem
  exact hentry.1.1 (h.at_ilinkKey hi hsingle hx hrank)

end

/-- **Both keys of a new entry are free**, when the directory is alive and not inside the inode,
and there is no such entry. -/
theorem free (h : Consistent comp v) (hdir : LiveDir v d) (hne : o ≠ d)
    (hinside : ∀ i, v.inodes d = some i → i.parentId ≠ o)
    (hlive : ∀ i, v.inodes o = some i → i.nlink ≠ 0)
    (hnew : comp.rank ⟨d, n, o⟩ ∉ entries comp v.catalog) : Free comp v.catalog ⟨d, n, o⟩ := by
  obtain ⟨dd, hdd, hkind, hddlinks⟩ := hdir
  have hddset := h.settled d dd hdd
  have hdds := hddset.dir_single hkind
  intro x hx
  obtain ⟨i, hi, hfits⟩ := h.fits hx
  rcases x.2.cases_type with ht | ht | ht
  · obtain ⟨hkey, -⟩ := (fits_inode ht).mp hfits
    rw [owner_of_ne ht.ne.2] at hi hkey
    constructor
    · -- a record of the inode itself would be its entry
      intro hrank
      obtain ⟨hp, -, ho⟩ := rank_eq_iff.mp hrank
      by_cases hs : i.hardLink = false
      · rw [← hrank, hkey] at hnew
        exact hnew (h.live_entry hi hs (hlive i (by rw [← hi, ho])))
      · rw [recordKey_hard (Bool.not_eq_false _ ▸ hs)] at hkey
        exact hne (ho.symm.trans ((rank_eq_iff.mp hkey).1.symm.trans hp))
    · -- a record of the directory would put it inside the inode
      intro hrank
      obtain ⟨hp, -, ho⟩ := rank_eq_iff.mp hrank
      rw [ho] at hi hkey
      obtain rfl : i = dd := Option.mem_unique hi hdd
      rw [recordKey_single hdds] at hkey
      exact hinside i hi ((rank_eq_iff.mp hkey).1.symm.trans hp)
  · obtain ⟨hih, hne'⟩ := (fits_hlink ht).mp hfits
    have hni : x.2.recordType ≠ .ilink := by simp [ht]
    rw [owner_of_ne hni] at hi
    constructor
    · intro hrank
      exact hnew (hrank ▸ mem_entries_of_mem hx (isEntry_of_hlink ht hne'))
    intro hrank
    obtain ⟨-, -, ho⟩ := rank_eq_iff.mp hrank
    rw [ho] at hi
    obtain rfl : i = dd := Option.mem_unique hi hdd
    rw [hdds] at hih
    cases hih
  · obtain ⟨hs, hkey⟩ := (fits_ilink ht).mp hfits
    rw [owner_ilink ht] at hi hkey
    rw [recordKey_single hs] at hkey
    obtain ⟨-, hname, hobj⟩ := rank_eq_iff.mp hkey
    constructor
    · -- the back link of the directory would put it inside the inode
      intro hrank
      obtain ⟨hp, -, ho⟩ := rank_eq_iff.mp hrank
      exact hinside i (by rw [← hi, hp]) (hobj.symm.trans ho)
    -- the back link of the inode itself leads to its entry
    intro hrank
    obtain ⟨hp, hn, ho⟩ := rank_eq_iff.mp hrank
    rw [hp] at hi
    refine hnew ?_
    have hmem := h.live_entry hi hs (hlive i hi)
    rw [recordKey_single hs] at hmem
    rwa [show comp.rank ⟨d, n, o⟩ = comp.rank ⟨i.parentId, i.name, o⟩ from
      rank_eq_iff.mpr ⟨ho.symm.trans hobj, hn.symm.trans hname, rfl⟩]

/-! ### What an operation has to show -/

/-- The inode fields that matter to the records are the same. -/
theorem liveDir_congr (hdir : LiveDir v d)
    (hcore : (v'.inodes d).map core = (v.inodes d).map core) :
    LiveDir v' d := by
  obtain ⟨i, hi, hkind, hlinks⟩ := hdir
  rw [hi, Option.map_some] at hcore
  obtain ⟨j, hj, heq⟩ := Option.map_eq_some_iff.mp hcore
  refine ⟨j, hj, ?_, ?_⟩
  · rw [show j.kind = i.kind from congrArg (·.kind) heq]
    exact hkind
  · rw [show j.nlink = i.nlink from congrArg (·.nlink) heq]
    exact hlinks

/-- **The frame of an operation**: it touches the inodes in `T` and their records. -/
structure Frame (v v' : Volume) (T : Nat → Prop) : Prop where
  cores : ∀ o, ¬ T o → (v'.inodes o).map core = (v.inodes o).map core
  records : ∀ x, ¬ T (owner x) → (x ∈ v'.catalog ↔ x ∈ v.catalog)

/-- The inode before, when the fields that matter are the same. -/
theorem exists_of_core (hcore : (v'.inodes o).map core = (v.inodes o).map core)
    (hj : v'.inodes o = some j) : ∃ i, v.inodes o = some i ∧ j.core = i.core := by
  rw [hj, Option.map_some] at hcore
  obtain ⟨i, hi, heq⟩ := Option.map_eq_some_iff.mp hcore.symm
  exact ⟨i, hi, heq.symm⟩

/-- No two directories contain each other where all inodes are as before. -/
theorem unlooped_of_before (h : Consistent comp v) {i' j' : CatalogInode}
    (hi : ∃ i, v.inodes o = some i ∧ i'.place = i.place)
    (hj : ∃ j, v.inodes p = some j ∧ j'.place = j.place) (hsi : i'.hardLink = false)
    (hsj : j'.hardLink = false) (hp : i'.parentId = p) : j'.parentId ≠ o := by
  obtain ⟨i, hi, hpi⟩ := hi
  obtain ⟨j, hj, hpj⟩ := hj
  rw [show j'.parentId = j.parentId from congrArg (·.2.2.1) hpj]
  refine h.unlooped o i p j hi hj ?_ ?_ ?_
  · exact (congrArg (·.2.1) hpi).symm.trans hsi
  · exact (congrArg (·.2.1) hpj).symm.trans hsj
  · exact (congrArg (·.2.2.1) hpi).symm.trans hp

/-- What an operation has to show: the inodes it touches are settled, and the directories, the
root and the list are as they should be. -/
theorem of_touched (h : Consistent comp v) {T : Nat → Prop} (hframe : Frame v v' T)
    (hord : v'.catalog.Ordered comp)
    (howned : ∀ x ∈ v'.catalog, T (owner x) → ∃ i, v'.inodes (owner x) = some i)
    (hsettled : ∀ o i, T o → v'.inodes o = some i → Settled comp v'.catalog o i)
    (hparent : ∀ r ∈ entries comp v'.catalog, (ofLex r).1 = 0 ∨ LiveDir v' (ofLex r).1)
    (hunlooped : ∀ o i p j, T o → v'.inodes o = some i → v'.inodes p = some j →
      i.hardLink = false → j.hardLink = false → i.parentId = p → j.parentId ≠ o)
    (hroot : ∃ i, v'.inodes rootIno = some i ∧ IsRoot i)
    (hlist : ∃ l, v'.orphanInodes = rootIno :: l ∧ Follows (nextInMemory v') 0 rootIno l ∧
      ∀ o ∈ l, ∃ i, v'.inodes o = some i ∧ i.nlink = 0) : Consistent comp v' where
  ordered := hord
  owned x hx := by
    by_cases hT : T (owner x)
    · exact howned x hx hT
    · obtain ⟨i, hi⟩ := h.owned x ((hframe.records x hT).mp hx)
      have hcore := hframe.cores _ hT
      rw [hi] at hcore
      exact (Option.map_eq_some_iff.mp hcore).imp fun _ hj => hj.1
  settled o j hj := by
    by_cases hT : T o
    · exact hsettled o j hT hj
    · obtain ⟨i, hi, hcore⟩ := exists_of_core (hframe.cores o hT) hj
      exact (h.settled o i hi).congr (fun x hx => hframe.records x (hx ▸ hT)) hcore
  parent := hparent
  unlooped o i p j hi hj hsi hsj hp hloop := by
    by_cases hTo : T o
    · exact hunlooped o i p j hTo hi hj hsi hsj hp hloop
    by_cases hTp : T p
    · exact hunlooped p j o i hTp hj hi hsj hsi hloop hp
    · obtain ⟨i₀, hi₀, hci⟩ := exists_of_core (hframe.cores o hTo) hi
      obtain ⟨j₀, hj₀, hcj⟩ := exists_of_core (hframe.cores p hTp) hj
      exact h.unlooped_of_before ⟨i₀, hi₀, place_of_core hci⟩
        ⟨j₀, hj₀, place_of_core hcj⟩ hsi hsj hp hloop
  root := hroot
  list := hlist

end Consistent

end Vdfs4
