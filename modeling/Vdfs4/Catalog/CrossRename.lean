import Vdfs4.Catalog.Exchange
import Vdfs4.Catalog.Moves

/-!
# What `vdfs4_cross_rename` leaves

Both new records are placed, then both old ones are removed. When the second removal fails, the
first old record is placed again and both new ones go: the first entry has **moved and moved back**,
and the second one was never away. So the ends of the call are moves, exchanges and lost back links
of a consistent volume.

* `CrossRenameFaults.UndoClean` — no undoing fails;
* `crossRename_spec` — the call always ends, and when it fails nothing that users see has changed.
-/

namespace Vdfs4

open OrderedMap Comparison Volume CatalogInode

variable {comp : Comparison} {c c' c₁ c₂ c₃ c₄ c₅ : Catalog} {v v' w : Volume}
  {x : CattreeKey × CatalogRecord} {o d : Nat} {n : CString} {i j : CatalogInode}
  {r r' : CatalogRecord} {k k' : CattreeKey} {t t' : RecordType} {f : CrossRenameFaults}

/-! ### Placements and removals that do not meet -/

/-- The keys of two entries and of their back links are four different ones. -/
structure Apart (comp : Comparison) (k k' : CattreeKey) : Prop where
  main : comp.rank k ≠ comp.rank k'
  cross : comp.rank k ≠ comp.rank k'.ilinkKey

theorem Apart.symm (h : Apart comp k k') : Apart comp k' k :=
  ⟨h.main.symm, fun heq => h.cross (rank_ilinkKey_iff.mp heq.symm)⟩

theorem Apart.ilinks (h : Apart comp k k') : comp.rank k.ilinkKey ≠ comp.rank k'.ilinkKey :=
  fun heq => h.main (rank_ilinkKey_inj.mp heq)

theorem Apart.ilink (h : Apart comp k k') : comp.rank k.ilinkKey ≠ comp.rank k' :=
  fun heq => h.symm.cross heq.symm

/-- A record is filled after another one was placed. -/
theorem EntryPlaced.modify (h : EntryPlaced comp c c' k r) (ha : Apart comp k k')
    (g : CatalogRecord → CatalogRecord) :
    EntryPlaced comp (OrderedMap.modify comp.compFn k' g c)
    (OrderedMap.modify comp.compFn k' g c') k r where
  ordered := Sorted.modify h.ordered k' g
  fresh x hx := by
    rcases (mem_modify comp.rankedBy x).mp hx with ⟨hx, -⟩ | ⟨e, he, -, rfl⟩
    · exact h.fresh x hx
    · exact h.fresh e he
  fresh_ilink ht x hx := by
    rcases (mem_modify comp.rankedBy x).mp hx with ⟨hx, -⟩ | ⟨e, he, -, rfl⟩
    · exact h.fresh_ilink ht x hx
    · exact h.fresh_ilink ht e he
  mem_iff x := by
    rw [mem_modify comp.rankedBy, mem_modify comp.rankedBy]
    simp only [h.mem_iff]
    constructor
    · rintro (⟨hx, hrank⟩ | ⟨e, rfl | ⟨-, rfl⟩ | he, hrank, rfl⟩)
      · exact hx.imp_right fun hx => hx.imp_right fun hx => .inl ⟨hx, hrank⟩
      · exact absurd hrank ha.main
      · exact absurd hrank ha.ilink
      · exact .inr (.inr (.inr ⟨e, he, hrank, rfl⟩))
    · rintro (rfl | ⟨ht, rfl⟩ | ⟨hx, hrank⟩ | ⟨e, he, hrank, rfl⟩)
      · exact .inl ⟨.inl rfl, ha.main⟩
      · exact .inl ⟨.inr (.inl ⟨ht, rfl⟩), ha.ilink⟩
      · exact .inl ⟨.inr (.inr hx), hrank⟩
      · exact .inr ⟨e, .inr (.inr he), hrank, rfl⟩

/-- To place one entry, remove another one and remove the first again. -/
theorem EntryRemoved.around (hp : EntryPlaced comp c c₁ k' r') (hm : EntryRemoved comp c₁ c₂ k t)
    (hu : EntryRemoved comp c₂ c₃ k' r'.recordType) (ha : Apart comp k' k) :
    EntryRemoved comp c c₃ k t where
  ordered := hu.ordered
  present := by
    obtain ⟨x, hx, hrank⟩ := hm.present
    rcases (hp.mem_iff x).mp hx with rfl | ⟨-, rfl⟩ | hx
    · exact absurd hrank ha.main
    · exact absurd hrank ha.ilink
    · exact ⟨x, hx, hrank⟩
  mem_iff x := by
    rw [hu.mem_iff, hm.mem_iff, hp.mem_iff]
    constructor
    · rintro ⟨⟨rfl | ⟨ht, rfl⟩ | hx, hk⟩, hmain, hil⟩
      · exact absurd rfl hmain
      · exact absurd rfl (hil ht)
      · exact ⟨hx, hk⟩
    · exact fun ⟨hx, hk⟩ => ⟨⟨.inr (.inr hx), hk⟩, hp.fresh x hx, fun ht => hp.fresh_ilink ht x hx⟩

/-- A loss, and the removal of another entry before or after it. -/
theorem LostIlink.removed (hl : LostIlink comp c c' k) (hm : EntryRemoved comp c c₁ k' t)
    (hm' : EntryRemoved comp c' c₂ k' t) : LostIlink comp c₁ c₂ k where
  ordered := hm'.ordered
  sub x hx := by
    obtain ⟨hx, hk⟩ := (hm'.mem_iff x).mp hx
    exact (hm.mem_iff x).mpr ⟨hl.sub x hx, hk⟩
  keep x hx := by
    obtain ⟨hx, hk⟩ := (hm.mem_iff x).mp hx
    exact (hl.keep x hx).imp_left fun hx => (hm'.mem_iff x).mpr ⟨hx, hk⟩

/-- A placement, and the removal of another entry before or after it. -/
theorem EntryPlaced.removed (hp : EntryPlaced comp c c' k r) (hm : EntryRemoved comp c c₁ k' t)
    (hm' : EntryRemoved comp c' c₂ k' t) (ha : Apart comp k k') : EntryPlaced comp c₁ c₂ k r where
  ordered := hm'.ordered
  fresh x hx := hp.fresh x ((hm.mem_iff x).mp hx).1
  fresh_ilink ht x hx := hp.fresh_ilink ht x ((hm.mem_iff x).mp hx).1
  mem_iff x := by
    rw [hm'.mem_iff, hp.mem_iff, hm.mem_iff]
    constructor
    · rintro ⟨hx, hk⟩
      exact hx.imp_right fun hx => hx.imp_right fun hx => ⟨hx, hk⟩
    · rintro (rfl | ⟨ht, rfl⟩ | ⟨hx, hk⟩)
      · exact ⟨.inl rfl, ha.main, fun _ => ha.cross⟩
      · exact ⟨.inr (.inl ⟨ht, rfl⟩), ha.ilink, fun _ => ha.ilinks⟩
      · exact ⟨.inr (.inr hx), hk⟩

/-- A placement that cannot fail: no fault, and the keys it needs are free. -/
theorem place_done (hc : c.Ordered comp) (hod : o ≠ d)
    (hmain : ∀ x ∈ c, comp.rank x.1 ≠ comp.rank ⟨d, n, o⟩)
    (hilink : t ≠ .hlink → ∀ x ∈ c, comp.rank x.1 ≠ comp.rank (CattreeKey.ilinkKey ⟨d, n, o⟩)) :
    ∃ c', vdfs4CattreePlaceRecord comp {} c o d n t = (none, c') ∧
      EntryPlaced comp c c' ⟨d, n, o⟩ (.blank t) := by
  by_cases ht : t = .hlink
  · subst ht
    rcases placeRecord_single hc {} n (show ¬ (o ≠ d ∧ RecordType.hlink ≠ .hlink) by simp) with
      ⟨c', heq, hi⟩ | ⟨e, c', -, hwhy, -⟩
    · refine ⟨c', heq, hi.ordered, hi.fresh, fun h => absurd rfl h, fun x => ?_⟩
      rw [hi.mem_iff]
      simp [CatalogRecord.blank]
    · rcases hwhy with hf | ⟨x, hx, hrank⟩
      · exact absurd rfl hf
      · exact absurd hrank (hmain x hx)
  · have hfree : Free comp c ⟨d, n, o⟩ := fun x hx => ⟨hmain x hx, hilink ht x hx⟩
    rcases place_cases (t := t) hc (f := {}) (fun _ => rfl) hod hfree with ⟨e, -, hwhy⟩ | hdone
    · exact absurd hwhy (by simp)
    · exact hdone

/-! ### Entries that can be removed -/

/-- An entry stands with its back link, if it has one. -/
structure Whole (comp : Comparison) (c : Catalog) (k : CattreeKey) (t : RecordType) : Prop where
  entry : ∃ x ∈ c, comp.rank x.1 = comp.rank k
  back_link : t ≠ .hlink → ∃ x ∈ c, comp.rank x.1 = comp.rank k.ilinkKey

namespace Whole

theorem of_placed (hp : EntryPlaced comp c c' k r) : Whole comp c' k r.recordType :=
  ⟨⟨_, (hp.mem_iff _).mpr (.inl rfl), rfl⟩, fun hn =>
    ⟨_, (hp.mem_iff _).mpr (.inr (.inl ⟨hn, rfl⟩)), rfl⟩⟩

theorem placed (h : Whole comp c k t) (hp : EntryPlaced comp c c' k' r) : Whole comp c' k t where
  entry := h.entry.imp fun x hx => ⟨(hp.mem_iff x).mpr (.inr (.inr hx.1)), hx.2⟩
  back_link hn := (h.back_link hn).imp fun x hx => ⟨(hp.mem_iff x).mpr (.inr (.inr hx.1)), hx.2⟩

theorem removed (h : Whole comp c k t) (hm : EntryRemoved comp c c' k' t') (ha : Apart comp k k') :
    Whole comp c' k t where
  entry := h.entry.imp fun x ⟨hx, hrank⟩ =>
    ⟨(hm.mem_iff x).mpr ⟨hx, hrank ▸ ha.main, fun _ => hrank ▸ ha.cross⟩, hrank⟩
  back_link hn := (h.back_link hn).imp fun x ⟨hx, hrank⟩ =>
    ⟨(hm.mem_iff x).mpr ⟨hx, hrank ▸ ha.ilink, fun _ => hrank ▸ ha.ilinks⟩, hrank⟩

theorem lost (h : Whole comp c k t) (hl : LostIlink comp c c' k') (ha : Apart comp k k') :
    Whole comp c' k t where
  entry := h.entry.imp fun x ⟨hx, hrank⟩ =>
    ⟨(hl.keep x hx).resolve_right (hrank ▸ ha.cross), hrank⟩
  back_link hn := (h.back_link hn).imp fun x ⟨hx, hrank⟩ =>
    ⟨(hl.keep x hx).resolve_right (hrank ▸ ha.ilinks), hrank⟩

/-- Without a fault the removal is done. -/
theorem remove (h : Whole comp c ⟨d, n, o⟩ t) (hc : c.Ordered comp) (hod : o ≠ d)
    (ht : t ≠ .ilink) :
    ∃ c', vdfs4CattreeRemove comp {} c o d n t = (none, c') ∧ EntryRemoved comp c c' ⟨d, n, o⟩ t :=
  EntryPlaced.remove hc hod ht h.entry h.back_link

end Whole

/-! ### The contract -/

variable {old new : Dentry}

/-- What the callers of `vdfs4_cross_rename` guarantee for one of the two entries. -/
abbrev Dentry.Crosses (comp : Comparison) (v : Volume) (old new : Dentry) : Prop :=
  Exchangeable comp v old.ino old.dir old.name new.ino new.dir new.name

/-- The key of an entry under the name of another one. -/
def Dentry.crossKey (old new : Dentry) : CattreeKey := ⟨new.dir, new.name, old.ino⟩

/-- No step that undoes an earlier one fails. -/
def CrossRenameFaults.UndoClean (f : CrossRenameFaults) : Prop :=
  f.place₁.undo = {} ∧ f.place₂.undo = {} ∧ f.replace = {} ∧ f.undo₂ = {} ∧ f.undo₁ = {}

instance (f : CrossRenameFaults) : Decidable f.UndoClean :=
  inferInstanceAs (Decidable (_ ∧ _ ∧ _ ∧ _ ∧ _))

namespace Consistent

theorem apart_crossKeys (h : Consistent comp v) (h₁ : old.Crosses comp v new)
    (h₂ : new.Crosses comp v old) : Apart comp (old.crossKey new) (new.crossKey old) where
  main heq := h₁.ne (rank_eq_iff.mp heq).2.2
  cross heq := (h.exists_of_entry h₂.old).1 (rank_eq_iff.mp heq).1.symm

/-- The new entry of the second inode does not meet the old one of the first. -/
theorem apart_key (h : Consistent comp v) (h₁ : old.Crosses comp v new) :
    Apart comp (new.crossKey old) old.key where
  main heq := h₁.ne (rank_eq_iff.mp heq).2.2.symm
  cross heq := (h.exists_of_entry h₁.old).1 (rank_eq_iff.mp heq).1.symm

theorem apart_self (h₁ : old.Crosses comp v new) : Apart comp (old.crossKey new) old.key where
  main heq := h₁.new (heq ▸ h₁.old)
  cross heq := h₁.ne_dir (rank_eq_iff.mp heq).1.symm

end Consistent

/-- The keys of an entry are free after another one was placed. -/
theorem EntryPlaced.free (hp : EntryPlaced comp c c' k' r) (ha : Apart comp k' k)
    (hfree : Free comp c k) : Free comp c' k := by
  intro x hx
  rcases (hp.mem_iff x).mp hx with rfl | ⟨-, rfl⟩ | hx
  · exact ⟨ha.main, ha.cross⟩
  · exact ⟨ha.ilink, ha.ilinks⟩
  · exact hfree x hx

/-! ### The ends of the call -/

section Ends

variable {t₁ t₂ : RecordType} {r₁ r₂ : CatalogRecord}

/-- What the call knows of the two inodes: the types of their records and what is filled in. -/
structure CrossTypes (comp : Comparison) (v : Volume) (old new : Dentry) (i j : CatalogInode)
    (t₁ t₂ : RecordType) (r₁ r₂ : CatalogRecord) : Prop where
  inode₁ : v.inodes old.ino = some i
  inode₂ : v.inodes new.ino = some j
  fits₁ : FitsMove i r₁
  fits₂ : FitsMove j r₂
  type₁ : r₁.recordType = t₁
  type₂ : r₂.recordType = t₂
  single₁ : i.hardLink = false → t₁ = .folder ∨ t₁ = .file
  single₂ : j.hardLink = false → t₂ = .folder ∨ t₂ = .file

/-- The volume a failed call leaves: other record types, and a catalog. -/
structure CrossFailed (v v' : Volume) (old new : Dentry) (i j : CatalogInode) (t₁ t₂ : RecordType)
    (c : Catalog) : Prop where
  catalog : v'.catalog = c
  list : v'.orphanInodes = v.orphanInodes
  readOnly : v'.readOnly = v.readOnly
  inode₁ : v'.inodes old.ino = some { i with recordType := t₁ }
  inode₂ : v'.inodes new.ino = some { j with recordType := t₂ }
  others : ∀ m, m ≠ old.ino → m ≠ new.ino → v'.inodes m = v.inodes m

/-- A failed call, when the catalog goes with a consistent volume that has the same entries. -/
theorem CrossFailed.renamed (hx : CrossFailed v v' old new i j t₁ t₂ c)
    (ht : CrossTypes comp v old new i j t₁ t₂ r₁ r₂) (hs : Sized v (entries comp v.catalog))
    (hw : Consistent comp w) (hcat : w.catalog = c)
    (hentries : entries comp w.catalog = entries comp v.catalog)
    (hlist : w.orphanInodes = v.orphanInodes)
    (hself : w.inodes old.ino = some { i with recordType := t₁ })
    (hnew : w.inodes new.ino = some { j with recordType := t })
    (hothers : ∀ m, m ≠ old.ino → m ≠ new.ino → w.inodes m = v.inodes m) (e : Errno) :
    Renamed comp v v' (some e) none := by
  have hcat' : v'.catalog = w.catalog := hx.catalog.trans hcat.symm
  have hsame : ∀ m, m ≠ new.ino → v'.inodes m = w.inodes m := by
    intro m hm
    by_cases hmo : m = old.ino
    · rw [hmo, hx.inode₁, hself]
    · rw [hx.others m hmo hm, hothers m hmo hm]
  obtain ⟨hcons, hent⟩ := hw.lost (by rw [hcat']; exact hw.ordered)
    (fun x hx => .inl (hcat' ▸ hx)) (fun x hx _ => hcat' ▸ hx) (hx.list.trans hlist.symm)
    hnew hx.inode₂ ht.single₂ hsame
  refine Renamed.of_outline hcons hs (hent.trans hentries) hx.readOnly (fun m => ?_) e
  by_cases hmn : m = new.ino
  · rw [hmn, hx.inode₂, ht.inode₂]
    rfl
  by_cases hmo : m = old.ino
  · rw [hmo, hx.inode₁, ht.inode₁]
    rfl
  · rw [hx.others m hmo hmn]

/-- **The first old record could not be removed**: both new ones go again. -/
theorem Consistent.crossed_lost₁ (h : Consistent comp v) (hs : Sized v (entries comp v.catalog))
    (h₁ : old.Crosses comp v new) (h₂ : new.Crosses comp v old)
    (ht : CrossTypes comp v old new i j t₁ t₂ r₁ r₂)
    (hp1 : EntryPlaced comp v.catalog c₁ (old.crossKey new) r₁)
    (hp2 : EntryPlaced comp c₁ c₂ (new.crossKey old) r₂) (hl : LostIlink comp c₂ c₃ old.key)
    (hsame : t₁ = .hlink → c₃ = c₂) :
    ∃ c₄ c₅, vdfs4CattreeRemove comp {} c₃ new.ino old.dir old.name t₂ = (none, c₄) ∧
      vdfs4CattreeRemove comp {} c₄ old.ino new.dir new.name t₁ = (none, c₅) ∧
      ∀ v', CrossFailed v v' old new i j t₁ t₂ c₅ → ∀ e, Renamed comp v v' (some e) none := by
  have ha2 := h.apart_key h₁
  have ha1 := apart_self h₁
  have hord1 := hp1.ordered
  obtain ⟨c₄, heq4, hl4, hu4⟩ := hp2.undo hord1 h₂.ne_dir ht.fits₂.ne_ilink hl ha2.cross ha2.main
  obtain ⟨c₅, heq5, hl5, hu5⟩ :=
    hp1.undo h.ordered h₁.ne_dir ht.fits₁.ne_ilink hl4 ha1.cross ha1.main
  rw [ht.type₂] at heq4
  rw [ht.type₁] at heq5
  refine ⟨c₄, c₅, heq4, heq5, fun v' hx e => ?_⟩
  have hkeep : ∀ x ∈ v.catalog, x.2.recordType ≠ .ilink → x ∈ c₅ := by
    intro x hx htx
    by_cases hh : i.hardLink = true
    · rw [hu5 (hu4 (hsame (ht.type₁ ▸ ht.fits₁.hard hh)))]
      exact hx
    · refine (hl5.keep x hx).resolve_right fun hrank => htx ?_
      exact (h.ilink_of_entry h₁.old ht.inode₁ (Bool.eq_false_iff.mpr hh) hx hrank).2
  let w : Volume := { v.setInode old.ino { i with recordType := t₁ } with catalog := c₅ }
  have hself : w.inodes old.ino = some { i with recordType := t₁ } := setInode_self _ _
  have hothers : ∀ m, m ≠ old.ino → w.inodes m = v.inodes m := fun m hm => setInode_of_ne _ _ hm
  obtain ⟨hcons, hentries⟩ : Consistent comp w ∧ entries comp w.catalog = entries comp v.catalog :=
    h.lost hl5.ordered (fun x hx => .inl (hl5.sub x hx)) hkeep rfl ht.inode₁ hself
    ht.single₁ hothers
  exact hx.renamed ht hs hcons rfl hentries rfl hself ((hothers _ h₁.ne.symm).trans ht.inode₂)
    (fun m hm _ => hothers m hm) e

/-- The record type of the second inode alone has changed. -/
theorem Consistent.crossed_type (h : Consistent comp v)
    (ht : CrossTypes comp v old new i j t₁ t₂ r₁ r₂) :
    Consistent comp (v.setInode new.ino { j with recordType := t₂ }) := by
  let w := v.setInode new.ino { j with recordType := t₂ }
  obtain ⟨hcons, -⟩ : Consistent comp w ∧ entries comp w.catalog = entries comp v.catalog :=
    h.lost h.ordered (fun _ hx => .inl hx) (fun _ hx _ => hx) rfl ht.inode₂ (setInode_self _ _)
      ht.single₂ fun _ hm => setInode_of_ne _ _ hm
  exact hcons

/-- What the callers guarantee does not depend on that record type. -/
theorem Consistent.crossed_renameable (h : Consistent comp v) (h₁ : old.Crosses comp v new)
    (h₂ : new.Crosses comp v old) (j : CatalogInode) :
    Renameable comp (v.setInode new.ino j) old new.dir new.name none := by
  have hne := (h.exists_of_entry h₂.old).1
  have hdir : (v.setInode new.ino j).inodes new.dir = v.inodes new.dir :=
    setInode_of_ne _ _ hne.symm
  refine ⟨h₁.old, h.liveDir_ne_zero h₁.dir, ?_, h₁.ne_dir, ?_, h₁.new, nofun⟩
  · rw [LiveDir, hdir]
    exact h₂.dir
  · rw [hdir]
    exact h₁.inside

/-- The back link of the second entry is lost while the first one is away. -/
theorem EntryMoved.lost (hm : EntryMoved comp v w old i new.dir new.name t₁)
    (hne : old.ino ≠ new.ino) (hnew : comp.rank new.key ∈ entries comp v.catalog)
    (hj : v.inodes new.ino = some { j with recordType := t₂ })
    (hsingle : j.hardLink = false → t₂ = .folder ∨ t₂ = .file)
    (hl : LostIlink comp w.catalog c new.key) (hsame : j.hardLink = true → ∀ x ∈ w.catalog, x ∈ c)
    (hback : t₁ ≠ .hlink → ∃ x ∈ c, comp.rank x.1 = comp.rank (old.crossKey new).ilinkKey) :
    EntryMoved comp v { w with catalog := c } old i new.dir new.name t₁ := by
  have hj' : w.inodes new.ino = some { j with recordType := t₂ } := (hm.others _ hne.symm).trans hj
  have hmem : comp.rank new.key ∈ entries comp w.catalog := by
    rw [hm.entries_eq]
    refine Finset.mem_erase.mpr ⟨fun heq => hne ?_, Finset.mem_insert_of_mem hnew⟩
    exact (rank_eq_iff.mp heq).2.2.symm
  have hkeep : ∀ x ∈ w.catalog, x.2.recordType ≠ .ilink → x ∈ c := by
    intro x hx htx
    by_cases hh : j.hardLink = true
    · exact hsame hh x hx
    · refine (hl.keep x hx).resolve_right fun hrank => htx ?_
      exact (hm.consistent.ilink_of_entry hmem hj' (Bool.eq_false_iff.mpr hh) hx hrank).2
  let w' : Volume := { w with catalog := c }
  obtain ⟨hcons, hentries⟩ : Consistent comp w' ∧ entries comp w'.catalog =
    entries comp w.catalog :=
    hm.consistent.lost hl.ordered (fun x hx => .inl (hl.sub x hx)) hkeep rfl hj' hj' hsingle
    fun _ _ => rfl
  exact ⟨hcons, hentries.trans hm.entries_eq, hm.self, hm.others, hm.list, hm.readOnly, hback⟩

/-- **The second old record could not be removed**: the first one is placed again, and both new ones
go. -/
theorem Consistent.crossed_lost₂ (h : Consistent comp v) (hs : Sized v (entries comp v.catalog))
    (h₁ : old.Crosses comp v new) (h₂ : new.Crosses comp v old)
    (ht : CrossTypes comp v old new i j t₁ t₂ r₁ r₂)
    (hp1 : EntryPlaced comp v.catalog c₁ (old.crossKey new) r₁)
    (hp2 : EntryPlaced comp c₁ c₂ (new.crossKey old) r₂) (hm1 : EntryRemoved comp c₂ c₃ old.key t₁)
    (hl : LostIlink comp c₃ c₄ new.key) (hsame : t₂ = .hlink → c₄ = c₃)
    (hp3 : EntryPlaced comp c₄ c₅ old.key r₁) :
    ∃ c6 c7, vdfs4CattreeRemove comp {} c₅ new.ino old.dir old.name t₂ = (none, c6) ∧
      vdfs4CattreeRemove comp {} c6 old.ino new.dir new.name t₁ = (none, c7) ∧
      ∀ v', CrossFailed v v' old new i j t₁ t₂ c7 → ∀ e, Renamed comp v v' (some e) none := by
  have hn1 : t₁ ≠ .ilink := ht.type₁ ▸ ht.fits₁.ne_ilink
  have hn2 : t₂ ≠ .ilink := ht.type₂ ▸ ht.fits₂.ne_ilink
  have ha := h.apart_crossKeys h₁ h₂
  -- both new entries can be removed wherever the way back meets them
  have hw2 : Whole comp c₃ (new.crossKey old) t₂ :=
    ht.type₂ ▸ (Whole.of_placed hp2).removed hm1 (h.apart_key h₁)
  have hw2' := hw2.lost hl (apart_self h₂)
  have hw1 : Whole comp c₄ (old.crossKey new) t₁ :=
    ht.type₁ ▸ (((Whole.of_placed hp1).placed hp2).removed hm1 (apart_self h₁)).lost hl
    (h.apart_key h₂)
  obtain ⟨a, -, hma⟩ := hw2.remove hm1.ordered h₂.ne_dir hn2
  obtain ⟨b, -, hmb⟩ := hw2'.remove hl.ordered h₂.ne_dir hn2
  obtain ⟨c6, heq6, hm6⟩ := (hw2'.placed hp3).remove hp3.ordered h₂.ne_dir hn2
  obtain ⟨c7, heq7, hm7⟩ := ((hw1.placed hp3).removed hm6 ha).remove hm6.ordered h₁.ne_dir hn1
  refine ⟨c6, c7, heq6, heq7, fun v' hx e => ?_⟩
  -- the first entry has moved, the second one has lost its back link, the first one moves back
  have hi : (v.setInode new.ino { j with recordType := t₂ }).inodes old.ino = some i :=
    (setInode_of_ne _ _ h₁.ne).trans ht.inode₁
  have hr := h.crossed_renameable h₁ h₂ { j with recordType := t₂ }
  have hcons := h.crossed_type ht
  have hma' : EntryRemoved comp c₃ a (new.crossKey old) r₂.recordType := ht.type₂.symm ▸ hma
  have hmoved := hcons.entryMoved hr hi ht.fits₁ ht.type₁ ht.single₁ hp1
    (EntryRemoved.around hp2 hm1 hma' (h.apart_key h₁))
  have hcat : ((v.setInode new.ino { j with recordType := t₂ }).withMoved old.ino i a
    new.dir new.name
      t₁).catalog = a := withMoved_catalog
  have hmoved' := hmoved.lost (c := b) h₁.ne h₂.old (setInode_self _ _) ht.single₂
    (by rw [hcat]; exact hl.removed hma hmb)
    (fun hh x hx => by
      rw [hcat] at hx
      rw [hmb.mem_iff, hsame (ht.type₂ ▸ ht.fits₂.hard hh)]
      exact (hma.mem_iff x).mp hx)
    (hw1.removed hmb ha).back_link
  have hback := hmoved'.entryBack hcons hr hi ht.fits₁ ht.type₁ ht.single₁
    (hp3.removed hmb hm6 (h.apart_key h₁).symm) hm7
  refine hx.renamed ht hs hback.consistent withMoved_catalog hback.entries_eq hback.list hback.self
    ((hback.others _ h₁.ne.symm).trans (setInode_self _ _)) (fun m ho hn => ?_) e
  exact (hback.others m ho).trans (setInode_of_ne _ _ hn)

/-- The sizes stay when two entries are exchanged. -/
theorem sizeOf_exchanged {E : Finset Comparison.Rank} {ρ1 ρ2 σ1 σ2 : Comparison.Rank}
    (h₁ : ρ1 ∈ E) (h₂ : ρ2 ∈ E) (hne : ρ1 ≠ ρ2) (hn1 : σ1 ∉ E) (hn2 : σ2 ∉ insert σ1 E)
    (hd1 : (ofLex ρ1).1 = (ofLex σ2).1) (hd2 : (ofLex ρ2).1 = (ofLex σ1).1) (d : Nat) :
    sizeOf (((insert σ2 (insert σ1 E)).erase ρ1).erase ρ2) d = sizeOf E d := by
  have hmem1 : ρ1 ∈ insert σ2 (insert σ1 E) := by simp [h₁]
  have hmem2 : ρ2 ∈ (insert σ2 (insert σ1 E)).erase ρ1 := by simp [h₂, hne.symm]
  have herase1 := sizeOf_erase hmem1 d
  have herase2 := sizeOf_erase hmem2 d
  rw [sizeOf_insert hn2, sizeOf_insert hn1, hd1] at herase1
  rw [hd2] at herase2
  omega

/-- **Both old records are removed**: the entries are exchanged. -/
theorem Consistent.crossed (h : Consistent comp v) (hs : Sized v (entries comp v.catalog))
    (h₁ : old.Crosses comp v new) (h₂ : new.Crosses comp v old)
    (ht : CrossTypes comp v old new i j t₁ t₂ r₁ r₂)
    (hp1 : EntryPlaced comp v.catalog c₁ (old.crossKey new) r₁)
    (hp2 : EntryPlaced comp c₁ c₂ (new.crossKey old) r₂) (hm1 : EntryRemoved comp c₂ c₃ old.key t₁)
    (hm2 : EntryRemoved comp c₃ c₄ new.key t₂) (hx : CrossFailed v w old new i j t₁ t₂ c₄) :
    Renamed comp v ((w.relocated old.ino i new.dir new.name).relocated new.ino j old.dir old.name)
      none none := by
  have hmem1 : (w.relocated old.ino i new.dir new.name).inodes new.ino = _ :=
    (relocated_of_ne h₁.ne.symm).trans hx.inode₂
  have hself2 := relocated_self (d := old.dir) (n := old.name) hmem1
  have hself1 := (relocated_of_ne (i := j) (d := old.dir) (n := old.name) h₁.ne).trans
    (relocated_self (d := new.dir) (n := new.name) hx.inode₁)
  generalize hv' : (w.relocated old.ino i new.dir new.name).relocated new.ino j old.dir old.name =
    v' at hself1 hself2 ⊢
  have hcat : v'.catalog = c₄ := by
    rw [← hv', relocated_catalog, relocated_catalog, hx.catalog]
  have hothers : ∀ m, m ≠ old.ino → m ≠ new.ino → v'.inodes m = v.inodes m := by
    intro m ho hn
    rw [← hv', relocated_of_ne hn, relocated_of_ne ho, hx.others m ho hn]
  have hkeep : ∀ m, (v'.inodes m).map (fun i => (i.kind, i.isize)) =
      (v.inodes m).map fun i => (i.kind, i.isize) := by
    intro m
    by_cases ho : m = old.ino
    · rw [ho, hself1, ht.inode₁, movedTo]
      split <;> rfl
    by_cases hn : m = new.ino
    · rw [hn, hself2, ht.inode₂, movedTo]
      split <;> rfl
    · rw [hothers m ho hn]
  obtain ⟨hcons, hentries⟩ := h.exchanged h₁ h₂ ht.inode₁ ht.inode₂ ht.fits₁ ht.fits₂
    ⟨c₁, c₂, c₃, hp1, hp2, ht.type₁.symm ▸ hm1, ht.type₂.symm ▸ hcat.symm ▸ hm2⟩ ht.single₁
    ht.single₂ hself1 hself2 rfl rfl (fun m hm => by rw [hothers m (mt .inl hm) (mt .inr hm)])
    (by rw [← hv', relocated_list, relocated_list, hx.list])
  refine ⟨hcons, fun d dd hdd hdir => ?_, ?_, fun hne => absurd rfl hne, fun m => ?_⟩
  · have hnew := hp2.notMem
    rw [entries_of_placed hp1 (ht.fits₁.isEntry h₁.ne_dir)] at hnew
    have hsize := sizeOf_exchanged h₁.old h₂.old
      (fun heq => h₁.ne (rank_eq_iff.mp heq).2.2) h₁.new hnew rfl rfl d
    rw [hentries]
    exact (hs.stay hkeep d dd hdd hdir).trans hsize.symm
  · rw [← hv', relocated_readOnly, relocated_readOnly, hx.readOnly]
  · have hkind := congrArg (Option.map Prod.fst) (hkeep m)
    rw [Option.map_map, Option.map_map] at hkind
    rw [if_pos rfl, if_neg (by simp)]
    exact hkind

/-! ### The whole call -/

/-- The part of `vdfs4_cross_rename` behind the filling of the two new records. -/
def crossRemovals (comp : Comparison) (f : CrossRenameFaults) (v : Volume) (old new : Dentry)
    (i j : CatalogInode) (oldType newType : RecordType) : Outcome :=
  match vdfs4CattreeRemove comp f.remove₁ v.catalog old.ino old.dir old.name oldType with
  | (some e, c) => removeRecord₂ comp f { v with catalog := c } e old new oldType newType
  | (none, c) =>
    match vdfs4CattreeRemove comp f.remove₂ c new.ino new.dir new.name newType with
    | (some e, c) =>
      match placeAndFill comp f.replace { v with catalog := c } old.ino i old.dir
        old.name oldType with
      | (some _, _) => none
      | (none, v) => removeRecord₂ comp f v e old new oldType newType
    | (none, c) => some
        (none, (relocated { v with catalog := c } old.ino i new.dir new.name).relocated
        new.ino j old.dir old.name)

/-- The volume with both record types written. -/
def Volume.crossTyped (v : Volume) (old new : Dentry) (i j : CatalogInode) (t₁ t₂ : RecordType)
    (c : Catalog) : Volume :=
  { (v.setInode old.ino { i with recordType := t₁ }).setInode new.ino
    { j with recordType := t₂ } with
    catalog := c }

theorem CrossFailed.of_typed (hne : old.ino ≠ new.ino) (c : Catalog) :
    CrossFailed v (v.crossTyped old new i j t₁ t₂ c) old new i j t₁ t₂ c :=
  ⟨rfl, rfl, rfl, (setInode_of_ne _ _ hne).trans (setInode_self _ _),
    setInode_self _ _, fun _ ho hn =>
      (setInode_of_ne _ _ hn).trans (setInode_of_ne _ _ ho)⟩

/-- The record type of the first inode is written once more. -/
theorem CrossFailed.retyped (hx : CrossFailed v v' old new i j t₁ t₂ c) (hne : old.ino ≠ new.ino)
    (c' : Catalog) :
    CrossFailed v
      { v'.modifyInode old.ino fun i => { i with recordType := t₁ } with catalog := c' }
      old new i j t₁ t₂ c' where
  catalog := rfl
  list := hx.list
  readOnly := hx.readOnly
  inode₁ := (v'.modifyInode_self _).trans (by rw [hx.inode₁, Option.map_some])
  inode₂ := (v'.modifyInode_of_ne _ hne.symm).trans hx.inode₂
  others m ho hn := (v'.modifyInode_of_ne _ ho).trans (hx.others m ho hn)

/-- The first old record is placed again without a fault. -/
theorem EntryRemoved.replace (hm : EntryRemoved comp c₂ c₃ old.key t₁)
    (hl : LostIlink comp c₃ c₄ new.key) (hod : old.ino ≠ old.dir) (i : CatalogInode) :
    ∃ c₅, EntryPlaced comp c₄ c₅ old.key (i.fillRecord (.blank t₁)) ∧ ∀ w : Volume, w.catalog = c₄ →
      placeAndFill comp {} w old.ino i old.dir old.name t₁ =
        (none, { w.modifyInode old.ino fun i => { i with recordType := t₁ }
          with catalog := c₅ }) := by
  obtain ⟨c', heq, hp⟩ := place_done (t := t₁) (n := old.name) hl.ordered hod
    (fun x hx => ((hm.mem_iff x).mp (hl.sub x hx)).2.1)
    fun hn x hx => ((hm.mem_iff x).mp (hl.sub x hx)).2.2 hn
  refine ⟨_, hp.fill hod (i.fillRecord_type _), fun w hw => ?_⟩
  rw [placeAndFill, hw, heq]

section

variable (h : Consistent comp v) (hs : Sized v (entries comp v.catalog))
  (h₁ : old.Crosses comp v new) (h₂ : new.Crosses comp v old) (hf : f.UndoClean)

include h hs h₁ h₂ hf

/-- **The ends of the removals.** -/
theorem Consistent.crossRemovals_spec
    (ht : CrossTypes comp v old new i j t₁ t₂ (i.fillRecord (.blank t₁)) r₂)
    (hp1 : EntryPlaced comp v.catalog c₁ (old.crossKey new) (i.fillRecord (.blank t₁)))
    (hp2 : EntryPlaced comp c₁ c₂ (new.crossKey old) r₂) :
    ∃ e v', crossRemovals comp f (v.crossTyped old new i j t₁ t₂ c₂) old new i j t₁ t₂ =
      some (e, v') ∧ Renamed comp v v' e none := by
  obtain ⟨-, -, hreplace, hundo2, hundo1⟩ := hf
  have hn1 : t₁ ≠ .ilink := ht.type₁ ▸ ht.fits₁.ne_ilink
  have hn2 : t₂ ≠ .ilink := ht.type₂ ▸ ht.fits₂.ne_ilink
  have hod1 := (h.exists_of_entry h₁.old).1
  have hod2 := (h.exists_of_entry h₂.old).1
  have hstay : ∀ x ∈ v.catalog, x ∈ c₂ := fun x hx =>
    (hp2.mem_iff x).mpr (.inr (.inr ((hp1.mem_iff x).mpr (.inr (.inr hx)))))
  obtain ⟨x, hx, -, hxrank⟩ := mem_entries.mp h₁.old
  obtain ⟨y, hy, -, hyrank⟩ := mem_entries.mp h₂.old
  rw [crossRemovals, show (v.crossTyped old new i j t₁ t₂ c₂).catalog = c₂ from rfl]
  rcases remove_cases (t := t₁) hp2.ordered f.remove₁ hod1 hn1 ⟨x, hstay x hx, hxrank⟩ with
    ⟨e, c₃, heq3, hlost, hsame, -⟩ | ⟨c₃, heq3, hm1⟩
  · obtain ⟨c₄, c₅, heq4, heq5, hren⟩ := h.crossed_lost₁ hs h₁ h₂ ht hp1 hp2 hlost hsame
    rw [heq3]
    simp only [removeRecord₂, removeRecord₁, hundo1, hundo2, heq4, heq5]
    exact ⟨_, _, rfl, hren _ (.of_typed h₁.ne c₅) e⟩
  have hy3 : y ∈ c₃ := (hm1.mem_iff y).mpr ⟨hstay y hy, fun heq => ?_, fun _ heq => ?_⟩
  · rw [heq3]
    simp only
    rcases remove_cases (t := t₂) hm1.ordered f.remove₂ hod2 hn2 ⟨y, hy3, hyrank⟩ with
      ⟨e, c₄, heq4, hlost, hsame, -⟩ | ⟨c₄, heq4, hm2⟩
    · obtain ⟨c₅, hp3, heq5⟩ := hm1.replace hlost hod1 i
      obtain ⟨c6, c7, heq6, heq7, hren⟩ := h.crossed_lost₂ hs h₁ h₂ ht hp1 hp2 hm1 hlost hsame hp3
      rw [heq4]
      simp only [hreplace]
      rw [heq5 _ rfl]
      simp only [removeRecord₂, removeRecord₁, hundo1, hundo2, heq6, heq7]
      exact ⟨_, _, rfl, hren _ (CrossFailed.retyped (.of_typed h₁.ne c₄) h₁.ne c7) e⟩
    · rw [heq4]
      exact ⟨_, _, rfl, h.crossed hs h₁ h₂ ht hp1 hp2 hm1 hm2 (.of_typed h₁.ne c₄)⟩
  · exact h₁.ne (rank_eq_iff.mp (heq.symm.trans hyrank)).2.2
  · exact h₁.ne_dir (rank_eq_iff.mp (heq.symm.trans hyrank)).1

/-- **`vdfs4_cross_rename`** always ends, and when it fails nothing that users see has changed. -/
theorem Consistent.crossRename_spec :
    ∃ e v', vdfs4CrossRename comp f v old new = some (e, v') ∧ Renamed comp v v' e none := by
  obtain ⟨hod1, i, hi, hl1, horphan1, -⟩ := h.exists_of_entry h₁.old
  obtain ⟨hod2, j, hj, hl2, horphan2, -⟩ := h.exists_of_entry h₂.old
  obtain ⟨t₁, ht1, hhard1, hsingle1⟩ := i.getRecordType_cases (h.settled _ i hi).kind
  obtain ⟨t₂, ht2, hhard2, hsingle2⟩ := j.getRecordType_cases (h.settled _ j hj).kind
  have ht : CrossTypes comp v old new i j t₁ t₂ (i.fillRecord (.blank t₁))
    (j.fillRecord (.blank t₂)) :=
    ⟨hi, hj, fitsMove_fillRecord horphan1 hhard1 hsingle1,
      fitsMove_fillRecord horphan2 hhard2 hsingle2, i.fillRecord_type _, j.fillRecord_type _,
      hsingle1, hsingle2⟩
  have hn1 : t₁ ≠ .ilink := ht.type₁ ▸ ht.fits₁.ne_ilink
  have ha := h.apart_crossKeys h₁ h₂
  rw [vdfs4CrossRename, hi, hj]
  simp only
  by_cases hname1 : i.hardLink = false ∧ f.newName = true
  · rw [if_pos hname1]
    exact ⟨_, _, rfl, .refl h hs _ _⟩
  by_cases hname2 : j.hardLink = false ∧ f.oldName = true
  · rw [if_neg hname1, if_pos hname2]
    exact ⟨_, _, rfl, .refl h hs _ _⟩
  rw [if_neg hname1, if_neg hname2, ht1, ht2]
  simp only
  have hfree1 : Free comp v.catalog (old.crossKey new) := h.free h₂.dir h₁.ne_dir h₁.inside
    (fun k hk => by rw [Option.mem_unique hk hi]; exact hl1) h₁.new
  have hfree2 : Free comp v.catalog (new.crossKey old) := h.free h₁.dir h₂.ne_dir h₂.inside
    (fun k hk => by rw [Option.mem_unique hk hj]; exact hl2) h₂.new
  rcases place_cases (t := t₁) h.ordered (fun _ => hf.1) h₁.ne_dir hfree1 with
    ⟨e, heq, -⟩ | ⟨c₁, heq, hp1⟩
  · rw [heq]
    exact ⟨_, _, rfl, .refl h hs _ _⟩
  rw [heq]
  simp only
  rcases place_cases (t := t₂) hp1.ordered (fun _ => hf.2.1) h₂.ne_dir (hp1.free ha hfree2) with
    ⟨e, heq, -⟩ | ⟨c₂, heq, hp2⟩
  · -- the first new record goes again
    obtain ⟨c₃, heq3, hm3⟩ := (Whole.of_placed hp1).remove hp1.ordered h₁.ne_dir hn1
    rw [heq]
    simp only [removeRecord₁, hf.2.2.2.2]
    rw [show vdfs4CattreeRemove comp {} c₁ old.ino new.dir new.name t₁ = _ from heq3,
      hp1.removed_eq h.ordered hm3]
    exact ⟨_, _, rfl, .refl h hs _ _⟩
  · rw [heq]
    exact h.crossRemovals_spec hs h₁ h₂ hf ht (hp1.fill h₁.ne_dir (i.fillRecord_type _))
      ((hp2.modify ha.symm i.fillRecord).fill h₂.ne_dir (j.fillRecord_type _))

end

end Ends

end Vdfs4
