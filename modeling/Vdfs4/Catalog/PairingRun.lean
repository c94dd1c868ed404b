import Vdfs4.Catalog.Pairing

/-!
# Runs of catalog updates

* `CatalogOp`, `catalogStep` — `vdfs4_cattree_place_record`, `vdfs4_cattree_remove` and
  `transform_into_hlink`, with the insertions that the tree **refuses**; removals of a key that
  is there succeed;
* `CatalogOp.Sound` — the calls whose undoing touches nothing else: a refused insertion must not
  find a record under the key that is removed on its account, and the back link that
  `transform_into_hlink` took out must be accepted again;
* `LinksExact` — records, back links and bodies as they belong together, and what `vdfs4_iget`
  finds through them.
-/

namespace Vdfs4

open OrderedMap GuardedRun Comparison List

/-- One update of the catalog. -/
inductive CatalogOp where
  | place (objectId parentId : Nat) (name : CString) (recordType : RecordType)
      (ilink insert : Option Errno)
  | remove (objectId parentId : Nat) (name : CString) (recordType : RecordType)
  | transform (ino : Nat) (i : CatalogInode) (body find relink : Option Errno)

/-- The catalog after one update. -/
def catalogStep (comp : Comparison) (c : Catalog) : CatalogOp → Catalog
  | .place objectId parentId name recordType ilink insert =>
    (vdfs4CattreePlaceRecord comp ⟨ilink, insert, {}⟩ c objectId parentId name recordType).2
  | .remove objectId parentId name recordType =>
    (vdfs4CattreeRemove comp {} c objectId parentId name recordType).2
  | .transform ino i body find relink =>
    (transformIntoHlink comp ⟨{}, ⟨none, body, {}⟩, find, {}, relink⟩ c ino i).2.1

/-- The tree does not take a record: it refuses, or the key is taken. -/
def Refused (comp : Comparison) (c : Catalog) (k : CattreeKey) (fault : Option Errno) : Prop :=
  fault ≠ none ∨ ∃ x ∈ c, comp.rank x.1 = comp.rank k

instance (comp : Comparison) (c : Catalog) (k : CattreeKey) (fault : Option Errno) :
    Decidable (Refused comp c k fault) :=
  inferInstanceAs (Decidable (_ ∨ _))

/-- Placements that keep a catalog paired. -/
def PlaceSound (comp : Comparison) (c : Catalog) (o p : Nat) (n : CString)
    (insert : Option Errno) : RecordType → Prop
  | .folder | .file =>
    o = p → Refused comp c ⟨p, n, o⟩ insert → Removable comp c ⟨o, n, p⟩
  | .hlink =>
    o ≠ p ∧ (∃ x ∈ c, x.2.IsInode ∧ comp.rank x.1 = comp.rank (bodyKey o)) ∧
      (Refused comp c ⟨p, n, o⟩ insert → Removable comp c ⟨o, n, p⟩)
  | .ilink => False

instance (comp : Comparison) (c : Catalog) (o p : Nat) (n : CString) (insert : Option Errno)
    (t : RecordType) : Decidable (PlaceSound comp c o p n insert t) :=
  match t with
  | .folder | .file => inferInstanceAs (Decidable (_ → _))
  | .hlink => inferInstanceAs (Decidable (_ ∧ _))
  | .ilink => inferInstanceAs (Decidable False)

/-- **The calls that keep a catalog paired.** -/
def CatalogOp.Sound (comp : Comparison) (c : Catalog) : CatalogOp → Prop
  | .place o p n t _ insert => (o ≠ 0 ∧ p ≠ 0) ∧ PlaceSound comp c o p n insert t
  | .remove o p n t =>
    (o ≠ 0 ∧ p ≠ 0) ∧ (o = p ∨ t = .hlink ∨ t = .ilink → Removable comp c ⟨p, n, o⟩)
  | .transform o i body find relink =>
    (∃ x ∈ c, comp.rank x.1 = comp.rank ⟨o, i.name, i.parentId⟩) →
      (∀ x ∈ c, comp.rank x.1 = comp.rank ⟨o, i.name, i.parentId⟩ → x.2.recordType = .ilink) ∧
      i.hardLink = false ∧
      (Refused comp c (bodyKey o) body → Removable comp c (bodyKey o)) ∧
      (relink = none ∨
        i.kind ≠ .other ∧ ¬ Refused comp c (bodyKey o) body ∧ find = none)

instance (comp : Comparison) (c : Catalog) (op : CatalogOp) : Decidable (op.Sound comp c) :=
  match op with
  | .place .. => inferInstanceAs (Decidable (_ ∧ _))
  | .remove .. => inferInstanceAs (Decidable (_ ∧ _))
  | .transform .. => inferInstanceAs (Decidable (_ → _))

variable {comp : Comparison} {c : Catalog} {t : RecordType} {ino o p : Nat} {n : CString}

namespace Paired

/-! ### One step -/

section

variable (h : Paired comp c)

include h

theorem place {ilink insert : Option Errno} (ho : o ≠ 0) (hp : p ≠ 0)
    (hs : PlaceSound comp c o p n insert t) :
    Paired comp (vdfs4CattreePlaceRecord comp ⟨ilink, insert, {}⟩ c o p n t).2 := by
  have hhlink : t ≠ .ilink := by
    rintro rfl
    exact hs
  by_cases hlinked : o ≠ p ∧ t ≠ .hlink
  · have ht : (CatalogRecord.blank t).IsInode := by
      cases t with
      | folder => exact .inl rfl
      | file => exact .inr rfl
      | hlink => exact absurd rfl hlinked.2
      | ilink => exact absurd rfl hhlink
    rcases placeRecord_linked h.ordered ⟨ilink, insert, {}⟩ n hlinked.1 hlinked.2 with
      ⟨e, heq, -⟩ | ⟨e, c1, -, -, hundo, -⟩ | ⟨c1, c2, heq, hi1, hi2⟩
    · rw [heq]
      exact h
    · rcases hundo with hundo | hundo
      · cases hundo
      · exact absurd rfl hundo
    · rw [heq]
      exact h.insertPair hlinked.1 ho hp ht hi1 hi2
  · -- a refused insertion removes what stands under the key of the back link
    have hsafe : Refused comp c ⟨p, n, o⟩ insert → Removable comp c ⟨o, n, p⟩ := by
      cases t with
      | folder => exact hs (by simpa using hlinked)
      | file => exact hs (by simpa using hlinked)
      | hlink => exact hs.2.2
      | ilink => exact absurd rfl hhlink
    rcases placeRecord_single h.ordered ⟨ilink, insert, {}⟩ n hlinked with
      ⟨c', heq, hi⟩ | ⟨e, c', heq, hwhy, rfl | he⟩
    · rw [heq]
      refine h.insertAlone hi ?_
      cases t with
      | folder =>
        obtain rfl : o = p := by simpa using hlinked
        exact ⟨ho, ho, fun _ => .inl rfl, fun hself => absurd rfl hself⟩
      | file =>
        obtain rfl : o = p := by simpa using hlinked
        exact ⟨ho, ho, fun _ => .inr rfl, fun hself => absurd rfl hself⟩
      | hlink =>
        obtain ⟨hop, ⟨x, hx, hxt, hxk⟩, -⟩ := hs
        exact ⟨ho, hp, fun heq => absurd heq hop, fun _ =>
          ⟨x, (hi.mem_iff x).mpr (.inr hx), (companion_hlink rfl).mpr ⟨hxt, hxk⟩⟩⟩
      | ilink => exact absurd rfl hhlink
    · rw [heq]
      exact h
    · rw [heq]
      exact h.eraseAlone (hsafe hwhy) he

theorem remove (ho : o ≠ 0) (hp : p ≠ 0)
    (hs : o = p ∨ t = .hlink ∨ t = .ilink → Removable comp c ⟨p, n, o⟩) :
    Paired comp (vdfs4CattreeRemove comp {} c o p n t).2 := by
  by_cases hlinked : o ≠ p ∧ t ≠ .hlink ∧ t ≠ .ilink
  · rcases cattreeRemove_linked h.ordered {} n hlinked.1 hlinked.2 with
      ⟨e, heq, -⟩ | ⟨e, c1, heq, he, hwhy⟩ | ⟨c1, c2, heq, he1, he2⟩
    · rw [heq]
      exact h
    · rw [heq]
      rcases hwhy with hwhy | habs
      · exact absurd rfl hwhy
      · refine h.eraseAlone (h.removable_of_alone hlinked.1 ho fun x hx hk => ?_) he
        refine habs x ((he.mem_iff x).mpr ⟨hx, fun hk' => hlinked.1 ?_⟩) hk
        exact (rank_eq_iff.mp (hk'.symm.trans hk)).1
    · rw [heq]
      exact h.erasePair hlinked.1 ho hp he1 he2
  · rcases cattreeRemove_single h.ordered {} n hlinked with ⟨e, heq, -⟩ | ⟨c', heq, he⟩
    · rw [heq]
      exact h
    · rw [heq]
      refine h.eraseAlone (hs ?_) he
      by_cases hop : o = p
      · exact .inl hop
      · exact .inr (by by_contra hne; exact hlinked ⟨hop, not_or.mp hne⟩)

theorem transform {i : CatalogInode} {body find relink : Option Errno}
    (hs : (CatalogOp.transform o i body find relink).Sound comp c) :
    Paired comp (catalogStep comp c (.transform o i body find relink)) := by
  rw [catalogStep, transformIntoHlink]
  rcases removeIlink_cases h.ordered {} o i.parentId i.name with ⟨e, heq, -⟩ | ⟨c1, heq, he⟩
  · rw [heq]
    exact h
  rw [heq]
  obtain ⟨hlink, hhard, hbody, hrelink⟩ := hs he.present
  obtain ⟨x, hx, hk⟩ := he.present
  have ht := hlink x hx hk
  have hold : ∀ y ∈ c1, y ∈ c ∧ comp.rank y.1 ≠ comp.rank ⟨o, i.name, i.parentId⟩ := fun y hy =>
    (he.mem_iff y).mp hy
  have hkeep : ∀ y ∈ c, comp.rank y.1 ≠ comp.rank ⟨o, i.name, i.parentId⟩ → y ∈ c1 :=
    fun y hy hyk => (he.mem_iff y).mpr ⟨hy, hyk⟩
  cases htype : i.getRecordTypeOnMode with
  | error e =>
    have hother : i.kind = .other := by
      rw [CatalogInode.getRecordTypeOnMode, hhard] at htype
      cases hkind : i.kind <;> simp [hkind] at htype ⊢
    obtain rfl : relink = none := hrelink.resolve_right fun hne => hne.1 hother
    exact h.relink hx ht hk he.ordered hold fun y hy hyk => .inl (hkeep y hy hyk)
  | ok t =>
    have hinode : (CatalogRecord.blank t).IsInode := by
      rw [CatalogInode.getRecordTypeOnMode, hhard] at htype
      cases hkind : i.kind <;> simp [hkind] at htype <;> subst htype
      all_goals first | exact .inl rfl | exact .inr rfl
    rcases placeRecord_single he.ordered ⟨none, body, {}⟩ CString.empty
        (show ¬ (o ≠ o ∧ t ≠ .hlink) by simp) with
      ⟨c2, hplace, hi⟩ | ⟨e, c2, hplace, hwhy, hundo⟩
    · simp only [hplace]
      cases hfind : find with
      | some e =>
        -- the search failed: the body goes again
        obtain rfl : relink = none := hrelink.resolve_right fun hne => by
          rw [hfind] at hne
          cases hne.2.2
        rcases cattreeRemove_single hi.ordered {} CString.empty
            (show ¬ (o ≠ o ∧ i.recordType ≠ .hlink ∧ i.recordType ≠ .ilink) by simp) with
          ⟨e', -, hwhy⟩ | ⟨c3, hrem, he'⟩
        · rcases hwhy with hwhy | hwhy | habs
          · cases hwhy
          · exact absurd rfl hwhy
          · exact absurd rfl (habs _ ((hi.mem_iff _).mpr (.inl rfl)))
        · rw [hrem, hi.erased_eq he.ordered he']
          exact h.relink hx ht hk he.ordered hold fun y hy hyk => .inl (hkeep y hy hyk)
      | none =>
        obtain ⟨hxop, z, hz, -, hzk⟩ := h.ilink_partner hx ht
        have hzk' : comp.rank z.1 = comp.rank ⟨i.parentId, i.name, o⟩ :=
          hzk.trans (rank_ilinkKey_iff.mpr hk)
        have hzc : z ∈ c2 := by
          refine (hi.mem_iff z).mpr (.inr (hkeep z hz fun heq => ?_))
          obtain ⟨h1, -, h2⟩ := rank_eq_iff.mp (hzk.symm.trans heq)
          exact hxop (h1.trans (rank_eq_iff.mp hk).1.symm)
        rcases findInode_cases hi.ordered o i.parentId i.name with
          ⟨y, hy, rest, hyk, hres⟩ | ⟨habs, -⟩
        · rw [hres]
          exact h.moved hx ht hk he hinode hi hy hyk
        · exact absurd hzk' (habs z hzc)
    · -- the body was refused
      simp only [hplace]
      have hrefused : Refused comp c (bodyKey o) body :=
        hwhy.imp_right fun ⟨y, hy, hyk⟩ => ⟨y, (hold y hy).1, hyk⟩
      obtain rfl : relink = none := hrelink.resolve_right fun hne => hne.2.1 hrefused
      rcases hundo with rfl | he'
      · exact h.relink hx ht hk he.ordered hold fun y hy hyk => .inl (hkeep y hy hyk)
      · refine h.relink hx ht hk he'.ordered (fun y hy => hold y ((he'.mem_iff y).mp hy).1)
          fun y hy hyk => ?_
        by_cases hyb : comp.rank y.1 = comp.rank (bodyKey o)
        · exact .inr ⟨hyb, hbody hrefused⟩
        · exact .inl ((he'.mem_iff y).mpr ⟨hkeep y hy hyk, hyb⟩)

/-- **One sound call keeps a catalog paired.** -/
theorem step {op : CatalogOp} (hs : op.Sound comp c) :
    Paired comp (catalogStep comp c op) := by
  cases op with
  | place o p n t ilink insert => exact h.place hs.1.1 hs.1.2 hs.2
  | remove o p n t => exact h.remove hs.1.1 hs.1.2 hs.2
  | transform o i body find relink => exact h.transform hs

/-! ### Inodes by number -/

/-- `vdfs4_iget` walks the records with this parent and those of greater parents. -/
theorem iget_eq (hino : ino ≠ 0) :
    ∃ hi : Catalog, vdfs4Iget comp c ino = igetLoop comp c ino hi ∧ hi.Ordered comp ∧
      (∀ x ∈ hi, x ∈ c ∧ ino ≤ x.1.parentId) ∧ ∀ x ∈ c, x.1.parentId = ino → x ∈ hi := by
  obtain ⟨front, hi, hc, hfront, hhi, hfirst⟩ := h.rooted.firstChild_eq hino
  have hord : Catalog.Ordered comp hi := by
    have := h.ordered
    rw [hc] at this
    exact (Sorted.append_iff.mp this).2.1
  refine ⟨hi, ?_, hord, fun x hx => ⟨by simp [hc, hx], hhi x hx⟩, fun x hx hp => ?_⟩
  · rw [vdfs4Iget, hfirst]
    cases hi with
    | nil => rfl
    | cons a l => rfl
  · rw [hc] at hx
    refine (mem_append.mp hx).resolve_left fun hx => ?_
    exact absurd hp (hfront x hx).ne

/-- The walk ends at an inode record of the number, or there is neither a back link nor a body
of it. -/
theorem igetLoop_cases {l : Catalog} (hl : l.Ordered comp)
    (hmem : ∀ x ∈ l, x ∈ c ∧ ino ≤ x.1.parentId) (hino : ino ≠ 0) :
    (∃ y ∈ c, igetLoop comp c ino l = .ok y ∧ y.2.IsInode ∧ y.1.objectId = ino) ∨
      igetLoop comp c ino l = .error .enoent ∧
        ∀ x ∈ l, x.1.parentId = ino → x.2.recordType ≠ .ilink ∧ x.1.objectId ≠ ino := by
  induction l with
  | nil => exact .inr ⟨rfl, fun x hx => absurd hx not_mem_nil⟩
  | cons x l ih =>
    obtain ⟨hx, hxp⟩ := hmem x mem_cons_self
    obtain ⟨hfirst, hl'⟩ := Sorted.cons_iff.mp hl
    rw [igetLoop]
    by_cases hp : x.1.parentId = ino
    · rw [if_neg (not_not.mpr hp)]
      by_cases ht : x.2.recordType = .ilink
      · -- the back link leads to its record
        rw [if_pos ht]
        obtain ⟨-, z, hz, hzt, hzk⟩ := h.ilink_partner hx ht
        have hzk' : comp.rank z.1 = comp.rank ⟨x.1.objectId, x.1.name, ino⟩ := by
          rw [hzk, CattreeKey.ilinkKey, hp]
        rcases findInode_cases h.ordered ino x.1.objectId x.1.name with
          ⟨y, hy, rest, hyk, hres⟩ | ⟨habs, -⟩
        · obtain rfl : y = z := h.ordered.eq_of_rank hy hz (hyk.trans hzk'.symm)
          rw [hres]
          exact .inl ⟨y, hy, rfl, hzt, (rank_eq_iff.mp hyk).2.2⟩
        · exact absurd hzk' (habs z hz)
      · rw [if_neg ht]
        by_cases ho : x.1.objectId = ino
        · rw [if_pos ho]
          have hroot : x.1 ≠ rootKey := fun heq => hino (by rw [← hp, heq]; rfl)
          exact .inl ⟨x, hx, rfl, (h.attached x hx hroot).self_isInode (ho.trans hp.symm), ho⟩
        rw [if_neg ho]
        refine (ih hl' fun y hy => hmem y (mem_cons_of_mem _ hy)).imp_right
          fun ⟨heq, hnone⟩ => ⟨heq, fun y hy hyp => ?_⟩
        rcases mem_cons.mp hy with rfl | hy
        · exact ⟨ht, ho⟩
        · exact hnone y hy hyp
    · -- past the records of this parent
      rw [if_pos hp]
      refine .inr ⟨rfl, fun y hy hyp => ?_⟩
      rcases mem_cons.mp hy with rfl | hy
      · exact absurd hyp hp
      · have hlt := hfirst y hy
        rw [rank_lt_iff] at hlt
        omega

/-- **`vdfs4_iget` of a number in use** finds an inode record of it. -/
theorem iget_of_used (hroot : ino ≠ rootIno) {x : CattreeKey × CatalogRecord}
    (hx : x ∈ c) (ht : x.2.IsInode) (ho : x.1.objectId = ino) :
    ∃ y ∈ c, vdfs4Iget comp c ino = .ok y ∧ y.2.IsInode ∧ y.1.objectId = ino := by
  have hino : ino ≠ 0 := ho ▸ h.objectId_ne hx
  obtain ⟨hi, heq, hord, hmem, hall⟩ := h.iget_eq hino
  rw [heq]
  refine (h.igetLoop_cases hord hmem hino).resolve_right fun ⟨_, hnone⟩ => ?_
  by_cases hop : x.1.objectId = x.1.parentId
  · -- a body stands among the records with its own number as parent
    exact (hnone x (hall x hx (hop.symm.trans ho)) (hop.symm.trans ho)).2 ho
  · have hne : x.1 ≠ rootKey := fun heq => hroot (by rw [← ho, heq]; rfl)
    obtain ⟨y, hy, hxy⟩ := (h.attached x hx hne).companion hop
    obtain ⟨hyt, hyk⟩ := (companion_inode ht).mp hxy
    have hyp : y.1.parentId = ino := (rank_eq_iff.mp hyk).1.trans ho
    exact (hnone y (hall y hy hyp) hyp).1 hyt

/-- **`vdfs4_iget` of a number not in use** fails. -/
theorem iget_of_unused (hino : ino ≠ 0) (hunused : ∀ x ∈ c, x.2.IsInode → x.1.objectId ≠ ino) :
    vdfs4Iget comp c ino = .error .enoent := by
  obtain ⟨hi, heq, hord, hmem, -⟩ := h.iget_eq hino
  rw [heq]
  rcases h.igetLoop_cases hord hmem hino with ⟨y, hy, -, hyt, hyo⟩ | ⟨hres, -⟩
  · exact absurd hyo (hunused y hy hyt)
  · exact hres

end

end Paired

/-! ### Whole runs -/

/-- **Records, back links and bodies as they belong together.** The root's own record is found
by its name and has no back link. -/
structure LinksExact (comp : Comparison) (c : Catalog) : Prop where
  /-- one back link for every file or folder record -/
  one_ilink : ∀ x ∈ c, x.2.IsInode → x.1.objectId ≠ x.1.parentId → x.1 ≠ rootKey →
    ∃! y, y ∈ c ∧ y.2.recordType = .ilink ∧ comp.rank y.1 = comp.rank x.1.ilinkKey
  /-- and a file or folder record for every back link -/
  ilink_partner : ∀ x ∈ c, x.2.recordType = .ilink →
    ∃ y ∈ c, y.2.IsInode ∧ y.1.objectId ≠ y.1.parentId ∧ comp.rank x.1 = comp.rank y.1.ilinkKey
  /-- references and bodies have no back link -/
  no_ilink : ∀ x ∈ c, x.2.recordType = .hlink ∨ x.1.objectId = x.1.parentId →
    ∀ y ∈ c, y.2.recordType = .ilink → comp.rank y.1 ≠ comp.rank x.1.ilinkKey
  /-- one body for every reference -/
  one_body : ∀ x ∈ c, x.2.recordType = .hlink →
    ∃! y, y ∈ c ∧ y.2.IsInode ∧ comp.rank y.1 = comp.rank (bodyKey x.1.objectId)
  /-- a number in use leads to its attributes -/
  iget_used : ∀ x ∈ c, x.2.IsInode → x.1.objectId ≠ rootIno →
    ∃ y ∈ c, vdfs4Iget comp c x.1.objectId = .ok y ∧ y.2.IsInode ∧
      y.1.objectId = x.1.objectId
  /-- a number not in use leads nowhere -/
  iget_unused : ∀ ino, ino ≠ 0 → (∀ x ∈ c, x.2.IsInode → x.1.objectId ≠ ino) →
    vdfs4Iget comp c ino = .error .enoent

theorem Paired.linksExact (h : Paired comp c) : LinksExact comp c where
  one_ilink x hx ht hop hroot := by
    obtain ⟨y, hy, hxy⟩ := (h.attached x hx hroot).companion hop
    obtain ⟨hyt, hyk⟩ := (companion_inode ht).mp hxy
    exact ⟨y, ⟨hy, hyt, hyk⟩, fun z ⟨hz, _, hzk⟩ =>
      h.ordered.eq_of_rank hz hy (hzk.trans hyk.symm)⟩
  ilink_partner x hx ht := by
    obtain ⟨hop, y, hy, hyt, hyk⟩ := h.ilink_partner hx ht
    obtain ⟨h1, -, h2⟩ := rank_eq_iff.mp hyk
    refine ⟨y, hy, hyt, ?_, (rank_ilinkKey_iff.mpr hyk).symm⟩
    rw [h1, h2]
    exact hop.symm
  no_ilink x hx hcase y hy hyt hyk := by
    obtain ⟨hop, z, hz, hzt, hzk⟩ := h.ilink_partner hy hyt
    rcases hcase with ht | hself
    · obtain rfl : z = x := h.ordered.eq_of_rank hz hx (hzk.trans (rank_ilinkKey_iff.mpr hyk))
      exact hzt.ne.1 ht
    · obtain ⟨h1, -, h2⟩ := rank_eq_iff.mp hyk
      exact hop (h2.trans (hself.symm.trans h1.symm))
  one_body x hx ht := by
    obtain ⟨-, y, hy, hyt, hyk⟩ := h.hlink_body hx ht
    exact ⟨y, ⟨hy, hyt, hyk⟩, fun z ⟨hz, _, hzk⟩ =>
      h.ordered.eq_of_rank hz hy (hzk.trans hyk.symm)⟩
  iget_used x hx ht hroot := h.iget_of_used hroot hx ht rfl
  iget_unused ino hino hunused := h.iget_of_unused hino hunused

/-- A catalog with only the root. -/
theorem paired_root {r : CatalogRecord} (hr : r.recordType = .folder) :
    Paired comp [(rootKey, r)] where
  ordered := pairwise_singleton _ _
  root := ⟨r, mem_singleton_self _, .inl hr⟩
  attached _ hx hne := absurd (congrArg Prod.fst (mem_singleton.mp hx)) hne

/-- **The catalog keeps records and back links paired** in every run of sound calls from a
catalog with only the root. -/
theorem catalog_keeps_pairs {r : CatalogRecord} (hr : r.recordType = .folder)
    (hrun : Reaches (CatalogOp.Sound comp) (fun c op => some (catalogStep comp c op))
      [(rootKey, r)] c) : LinksExact comp c := by
  have hpaired : Paired comp c := hrun.invariant (paired_root hr) fun c op c' h hs hstep => by
    cases hstep
    exact h.step hs
  exact hpaired.linksExact

/-- A file, a directory with a file in it, a second name for the first file, and the file in the
directory removed; the tree refuses some insertions on the way. -/
def pairingOps : List CatalogOp :=
  let a := nameA
  let d := nameD
  let file : CatalogInode := ⟨.reg, 0, 1, 0, false, false, rootIno, a, .file, 0⟩
  [.place 2 rootIno a .file none (some .enospc),
    .place 2 rootIno a .file none none,
    .place 3 rootIno d .folder none none,
    .place 4 3 a .file none none,
    .transform 2 file (some .enospc) none none,
    .transform 2 file none none none,
    .place 2 3 d .hlink none none,
    .remove 4 3 a .file]

/-- The record of an empty root directory. -/
def emptyRoot : CatalogRecord := { CatalogRecord.blank .folder with fileMode := .dir }

theorem catalog_keeps_pairs_sample : ∃ c,
    guardedRun (CatalogOp.Sound .caseSensitive) (fun c op => some (catalogStep .caseSensitive c op))
      pairingOps [(rootKey, emptyRoot)] = some c ∧ c.length = 6 ∧ LinksExact .caseSensitive c := by
  have hrun : (guardedRun (CatalogOp.Sound .caseSensitive)
      (fun c op => some (catalogStep .caseSensitive c op)) pairingOps [(rootKey, emptyRoot)]).map
        length = some 6 := by decide +kernel
  obtain ⟨c, hc, hlen⟩ := Option.map_eq_some_iff.mp hrun
  exact ⟨c, hc, hlen, catalog_keeps_pairs rfl (reaches_of_guardedRun hc)⟩

/-- The volume is full when a file gets its second name: the body is refused, and so is the back
link that had been taken out. -/
def lostIlinkOps : List CatalogOp :=
  let a := nameA
  [.place 2 rootIno a .file none none,
    .transform 2 ⟨.reg, 0, 1, 0, false, false, rootIno, a, .file, 0⟩ (some .enospc) none
      (some .enospc)]

/-- What is left: the root and a file record. -/
def lostIlink : Catalog :=
  [(rootKey, emptyRoot), (⟨rootIno, nameA, 2⟩, .blank .file)]

/-- **A refused transformation loses the back link**, and the inode is not found any more. -/
theorem transform_loses_ilink :
    Reaches (fun _ _ => True) (fun c op => some (catalogStep .caseSensitive c op))
      [(rootKey, emptyRoot)] lostIlink ∧
      vdfs4Iget .caseSensitive lostIlink 2 = .error .enoent ∧
      ¬ LinksExact .caseSensitive lostIlink := by
  have hrun : guardedRun (fun _ _ => True) (fun c op => some (catalogStep .caseSensitive c op))
      lostIlinkOps [(rootKey, emptyRoot)] = some lostIlink := by decide +kernel
  have higet : vdfs4Iget .caseSensitive lostIlink 2 = .error .enoent := rfl
  refine ⟨reaches_of_guardedRun hrun, higet, fun h => ?_⟩
  obtain ⟨y, -, hy, -⟩ := h.iget_used (⟨rootIno, ⟨[97], by decide⟩, 2⟩, .blank .file)
    (by decide) (.inr rfl) (by decide)
  cases hy

end Vdfs4
