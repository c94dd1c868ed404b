import Vdfs4.Catalog.Tree
import Vdfs4.Lib.Run

/-!
# Records and their back links

An inode is found by its number only through its **back link**, so every file or folder record
needs one, every back link a record, and every hard link reference its body. Each update of the
catalog is two or three updates of the tree, and the tree may **refuse an insertion** in the
middle of it.

* `Companion` — what has to stand beside a record; `Paired` — everything is there.
-/

namespace Vdfs4

open OrderedMap Comparison List

/-! ### Companions -/

/-- What has to stand beside a record: the back link of a file or folder record, the record of
a back link, the body of a hard link reference. -/
def Companion (comp : Comparison) (x y : CattreeKey × CatalogRecord) : Prop :=
  match x.2.recordType with
  | .folder | .file => y.2.recordType = .ilink ∧ comp.rank y.1 = comp.rank x.1.ilinkKey
  | .ilink => y.2.IsInode ∧ comp.rank y.1 = comp.rank x.1.ilinkKey
  | .hlink => y.2.IsInode ∧ comp.rank y.1 = comp.rank (bodyKey x.1.objectId)

/-- The record has its companion, or it is a body, which needs none. -/
structure Attached (comp : Comparison) (c : Catalog) (x : CattreeKey × CatalogRecord) : Prop where
  objectId_ne : x.1.objectId ≠ 0
  parentId_ne : x.1.parentId ≠ 0
  self_isInode : x.1.objectId = x.1.parentId → x.2.IsInode
  companion : x.1.objectId ≠ x.1.parentId → ∃ y ∈ c, Companion comp x y

/-- **A paired catalog**: every record but the root's has its companion. -/
structure Paired (comp : Comparison) (c : Catalog) : Prop where
  ordered : c.Ordered comp
  root : ∃ r : CatalogRecord, (rootKey, r) ∈ c ∧ r.IsInode
  attached : ∀ x ∈ c, x.1 ≠ rootKey → Attached comp c x

instance (comp : Comparison) :
    ∀ x y : CattreeKey × CatalogRecord, Decidable (Companion comp x y)
  | (_, ⟨.folder, _, _, _, _, _, _⟩), _ => inferInstanceAs (Decidable (_ ∧ _))
  | (_, ⟨.file, _, _, _, _, _, _⟩), _ => inferInstanceAs (Decidable (_ ∧ _))
  | (_, ⟨.ilink, _, _, _, _, _, _⟩), _ => inferInstanceAs (Decidable (_ ∧ _))
  | (_, ⟨.hlink, _, _, _, _, _, _⟩), _ => inferInstanceAs (Decidable (_ ∧ _))

instance (comp : Comparison) (c : Catalog) (x : CattreeKey × CatalogRecord) :
    Decidable (Attached comp c x) :=
  decidable_of_iff
    (x.1.objectId ≠ 0 ∧ x.1.parentId ≠ 0 ∧ (x.1.objectId = x.1.parentId → x.2.IsInode) ∧
      (x.1.objectId ≠ x.1.parentId → ∃ y ∈ c, Companion comp x y))
    ⟨fun ⟨h₁, h₂, h₃, h₄⟩ => ⟨h₁, h₂, h₃, h₄⟩, fun h => ⟨h.1, h.2, h.3, h.4⟩⟩

instance (comp : Comparison) (c : Catalog) : Decidable (Paired comp c) :=
  decidable_of_iff
    ((c.Pairwise fun a b : CattreeKey × CatalogRecord => comp.rank a.1 < comp.rank b.1) ∧
      (∃ x ∈ c, x.1 = rootKey ∧ x.2.IsInode) ∧ ∀ x ∈ c, x.1 ≠ rootKey → Attached comp c x)
    ⟨fun ⟨h₁, ⟨x, hx, hk, ht⟩, h₃⟩ => ⟨h₁, ⟨x.2, hk ▸ hx, ht⟩, h₃⟩,
      fun h => ⟨h.1, h.2.elim fun r hr => ⟨(rootKey, r), hr.1, rfl, hr.2⟩, h.3⟩⟩

variable {comp : Comparison} {c c' c'' : Catalog} {x y : CattreeKey × CatalogRecord}
  {k : CattreeKey} {r : CatalogRecord} {t : RecordType}

theorem rank_ilinkKey_iff {a b : CattreeKey} :
    comp.rank a.ilinkKey = comp.rank b ↔ comp.rank a = comp.rank b.ilinkKey := by
  rw [rank_eq_iff, rank_eq_iff]
  exact ⟨fun ⟨h1, h2, h3⟩ => ⟨h3, h2, h1⟩, fun ⟨h1, h2, h3⟩ => ⟨h3, h2, h1⟩⟩

theorem rank_ilinkKey_inj {a b : CattreeKey} :
    comp.rank a.ilinkKey = comp.rank b.ilinkKey ↔ comp.rank a = comp.rank b :=
  rank_ilinkKey_iff

theorem CatalogRecord.IsInode.ne (h : r.IsInode) :
    r.recordType ≠ .hlink ∧ r.recordType ≠ .ilink := by
  rcases h with h | h <;> simp [h]

/-- The three record types that matter here. -/
theorem CatalogRecord.cases_type (r : CatalogRecord) :
    r.IsInode ∨ r.recordType = .hlink ∨ r.recordType = .ilink := by
  rw [CatalogRecord.IsInode]
  cases r.recordType <;> simp

theorem companion_inode (hx : x.2.IsInode) : Companion comp x y ↔
    y.2.recordType = .ilink ∧ comp.rank y.1 = comp.rank x.1.ilinkKey := by
  rw [Companion]
  rcases hx with h | h <;> rw [h]

theorem companion_ilink (hx : x.2.recordType = .ilink) : Companion comp x y ↔
    y.2.IsInode ∧ comp.rank y.1 = comp.rank x.1.ilinkKey := by
  rw [Companion, hx]

theorem companion_hlink (hx : x.2.recordType = .hlink) : Companion comp x y ↔
    y.2.IsInode ∧ comp.rank y.1 = comp.rank (bodyKey x.1.objectId) := by
  rw [Companion, hx]

/-- A companion is no reference, and it stands under the key of the back link or of the body. -/
theorem Companion.cases (h : Companion comp x y) :
    y.2.recordType ≠ .hlink ∧
      (comp.rank y.1 = comp.rank x.1.ilinkKey ∨
        x.2.recordType = .hlink ∧ comp.rank y.1 = comp.rank (bodyKey x.1.objectId)) := by
  rcases x.2.cases_type with hx | hx | hx
  · obtain ⟨hy, hrank⟩ := (companion_inode hx).mp h
    exact ⟨by simp [hy], .inl hrank⟩
  · obtain ⟨hy, hrank⟩ := (companion_hlink hx).mp h
    exact ⟨hy.ne.1, .inr ⟨hx, hrank⟩⟩
  · obtain ⟨hy, hrank⟩ := (companion_ilink hx).mp h
    exact ⟨hy.ne.1, .inl hrank⟩

/-- What every search needs: the records in order, the root's in front, and object numbers. -/
structure Rooted (comp : Comparison) (c : Catalog) : Prop where
  ordered : c.Ordered comp
  root : ∃ r : CatalogRecord, (rootKey, r) ∈ c
  objectId_ne : ∀ x ∈ c, x.1.objectId ≠ 0

instance (comp : Comparison) (c : Catalog) : Decidable (Rooted comp c) :=
  decidable_of_iff
    ((c.Pairwise fun a b : CattreeKey × CatalogRecord => comp.rank a.1 < comp.rank b.1) ∧
      (∃ x ∈ c, x.1 = rootKey) ∧ ∀ x ∈ c, x.1.objectId ≠ 0)
    ⟨fun ⟨h₁, ⟨x, hx, hk⟩, h₃⟩ => ⟨h₁, ⟨x.2, hk ▸ hx⟩, h₃⟩,
      fun h => ⟨h.1, h.2.elim fun r hr => ⟨(rootKey, r), hr, rfl⟩, h.3⟩⟩

/-- `vdfs4_cattree_get_first_child` stands in front of all records with this parent. -/
theorem Rooted.firstChild_eq (h : Rooted comp c) {ino : Nat} (hino : ino ≠ 0) :
    ∃ front hi : Catalog, c = front ++ hi ∧ (∀ x ∈ front, x.1.parentId < ino) ∧
      (∀ x ∈ hi, ino ≤ x.1.parentId) ∧
      vdfs4CattreeGetFirstChild comp c ino =
        match hi with
        | [] => .error .enoent
        | r :: rest => .ok (r, rest) := by
  have hbehind : ∀ x ∈ c, ino ≤ x.1.parentId →
      comp.rank ⟨ino, CString.empty, 0⟩ < comp.rank x.1 := by
    intro x hx hp
    rw [rank_lt_iff]
    refine hp.lt_or_eq.imp_right fun heq => ⟨heq, ?_⟩
    rw [show comp.nameRank CString.empty = [] from nameRank_empty_iff.mpr rfl]
    rcases Decidable.eq_or_ne (comp.nameRank x.1.name) [] with hnil | hnil
    · exact .inr ⟨hnil.symm, Nat.pos_of_ne_zero (h.objectId_ne x hx)⟩
    · obtain ⟨a, l, hal⟩ := exists_cons_of_ne_nil hnil
      rw [hal]
      exact .inl (nil_lt_cons a l)
  rcases h.ordered.seek_spec comp.rankedBy ⟨ino, CString.empty, 0⟩ with
    ⟨-, habove⟩ | ⟨lo, e, hi, hc, hseek, hle, hhi⟩
  · -- the record of the root is in front of every key with a parent
    obtain ⟨r, hr⟩ := h.root
    have hlt := rank_lt_iff.mp (habove _ hr)
    simp only [rootKey, Nat.not_lt_zero, hino, false_and, or_false] at hlt
  have hord := h.ordered
  rw [hc] at hord
  refine ⟨lo ++ [e], hi, by simp [hc], fun x hx => lt_of_not_ge fun hge => ?_, fun x hx => ?_, ?_⟩
  · have hxc : x ∈ c := by
      rw [hc]
      rcases mem_append.mp hx with hx | hx
      · exact mem_append_left _ hx
      · exact mem_append_right _ (mem_singleton.mp hx ▸ mem_cons_self)
    have hlt := hbehind x hxc hge
    rcases mem_append.mp hx with hx | hx
    · exact ((Sorted.append_iff.mp hord).2.2 x hx e mem_cons_self).trans_le hle |>.asymm hlt
    · exact (mem_singleton.mp hx ▸ hle).not_gt hlt
  · have hlt := rank_lt_iff.mp (hhi x hx)
    simp only at hlt
    omega
  · rw [vdfs4CattreeGetFirstChild, hseek]
    cases hi with
    | nil => rfl
    | cons r rest => rfl

namespace Paired

section

variable (h : Paired comp c)

include h

/-- Every record but the root's has nonzero numbers, and the root's object number is one. -/
theorem objectId_ne (hx : x ∈ c) : x.1.objectId ≠ 0 := by
  by_cases hroot : x.1 = rootKey
  · rw [hroot]
    decide
  · exact (h.attached x hx hroot).objectId_ne

theorem rooted : Rooted comp c :=
  ⟨h.ordered, h.root.imp fun _ hr => hr.1, fun _ hx => h.objectId_ne hx⟩

theorem ne_rootKey_of_ilink (hx : x ∈ c) (ht : x.2.recordType = .ilink) :
    x.1 ≠ rootKey := by
  rintro heq
  obtain ⟨r, hr, hinode⟩ := h.root
  have := h.ordered.eq_of_rank hx hr (by rw [heq])
  rw [this] at ht
  exact CatalogRecord.IsInode.ne hinode |>.2 ht

/-- A back link is between two different numbers and leads to an inode record. -/
theorem ilink_partner (hx : x ∈ c) (ht : x.2.recordType = .ilink) :
    x.1.objectId ≠ x.1.parentId ∧ ∃ y ∈ c, y.2.IsInode ∧
    comp.rank y.1 = comp.rank x.1.ilinkKey := by
  have hatt := h.attached x hx (h.ne_rootKey_of_ilink hx ht)
  have hne : x.1.objectId ≠ x.1.parentId := fun heq =>
    CatalogRecord.IsInode.ne (hatt.self_isInode heq) |>.2 ht
  obtain ⟨y, hy, hcomp⟩ := hatt.companion hne
  exact ⟨hne, y, hy, (companion_ilink ht).mp hcomp⟩

/-- A reference is between two different numbers and has a body. -/
theorem hlink_body (hx : x ∈ c) (ht : x.2.recordType = .hlink) :
    x.1.objectId ≠ x.1.parentId ∧
      ∃ y ∈ c, y.2.IsInode ∧ comp.rank y.1 = comp.rank (bodyKey x.1.objectId) := by
  have hroot : x.1 ≠ rootKey := by
    rintro heq
    obtain ⟨r, hr, hinode⟩ := h.root
    rw [h.ordered.eq_of_rank hx hr (by rw [heq])] at ht
    exact (CatalogRecord.IsInode.ne hinode).1 ht
  have hatt := h.attached x hx hroot
  have hne : x.1.objectId ≠ x.1.parentId := fun heq => (hatt.self_isInode heq).ne.1 ht
  obtain ⟨y, hy, hcomp⟩ := hatt.companion hne
  exact ⟨hne, y, hy, (companion_hlink ht).mp hcomp⟩

/-- **The one way to keep a catalog paired**: a record of the new catalog is attached there, or
it is an old one whose companions stayed. -/
theorem of_kept (hord : c'.Ordered comp)
    (hroot : ∀ r : CatalogRecord, (rootKey, r) ∈ c → (rootKey, r) ∈ c')
    (hkept : ∀ x ∈ c', x.1 ≠ rootKey → Attached comp c' x ∨
      x ∈ c ∧ (x.1.objectId ≠ x.1.parentId → ∀ y ∈ c, Companion comp x y → y ∈ c')) :
    Paired comp c' := by
  obtain ⟨r, hr, hinode⟩ := h.root
  refine ⟨hord, ⟨r, hroot r hr, hinode⟩, fun x hx hne => ?_⟩
  rcases hkept x hx hne with hatt | ⟨hold, hcomp⟩
  · exact hatt
  · have hatt := h.attached x hold hne
    refine { hatt with companion := fun hop => ?_ }
    obtain ⟨y, hy, hxy⟩ := hatt.companion hop
    exact ⟨y, hcomp hop y hy hxy, hxy⟩

end

/-! ### What may be removed alone -/

end Paired

/-- Nothing stands under the key that another record needs: a hard link reference, or a body
without references. -/
def Removable (comp : Comparison) (c : Catalog) (k : CattreeKey) : Prop :=
  ∀ x ∈ c, comp.rank x.1 = comp.rank k → x.2.recordType = .hlink ∨
    x.1.objectId = x.1.parentId ∧ (x.1.name = CString.empty →
      ∀ y ∈ c, y.2.recordType = .hlink → y.1.objectId ≠ x.1.objectId)

instance (comp : Comparison) (c : Catalog) (k : CattreeKey) : Decidable (Removable comp c k) :=
  inferInstanceAs (Decidable (∀ x ∈ c, _))

namespace Paired

/-- No companion of another record is removable. -/
theorem not_removable (hrem : Removable comp c k) (hx : x ∈ c) (hop : x.1.objectId ≠ x.1.parentId)
    (hy : y ∈ c) (hxy : Companion comp x y) :
    comp.rank y.1 ≠ comp.rank k := by
  intro hk
  obtain ⟨hne, hcase⟩ := hxy.cases
  rcases hrem y hy hk with ht | ⟨hself, hrefs⟩
  · exact hne ht
  rcases hcase with hrank | ⟨ht, hrank⟩
  · -- the key of a back link joins two different numbers
    obtain ⟨hp, -, ho⟩ := rank_eq_iff.mp hrank
    exact hop (hp.symm.trans (hself.symm.trans ho))
  · obtain ⟨-, hname, ho⟩ := rank_eq_iff.mp hrank
    have hempty : y.1.name = CString.empty :=
      nameRank_empty_iff.mp (hname.trans (nameRank_empty_iff.mpr rfl))
    exact hrefs hempty x hx ht ho.symm

theorem rootKey_not_removable (h : Paired comp c) (hrem : Removable comp c k) :
    comp.rank rootKey ≠ comp.rank k := by
  intro hk
  obtain ⟨r, hr, hinode⟩ := h.root
  rcases hrem _ hr hk with ht | ⟨hself, -⟩
  · exact (CatalogRecord.IsInode.ne hinode).1 ht
  · exact absurd hself (by show rootKey.objectId ≠ rootKey.parentId; decide)

theorem eraseAlone (h : Paired comp c) (hrem : Removable comp c k)
    (he : Erased comp c c' k) : Paired comp c' := by
  refine h.of_kept he.ordered (fun r hr => (he.mem_iff _).mpr ⟨hr, h.rootKey_not_removable hrem⟩)
    fun x hx _ => .inr ⟨((he.mem_iff x).mp hx).1, fun hop y hy hxy => ?_⟩
  exact (he.mem_iff y).mpr ⟨hy, not_removable hrem ((he.mem_iff x).mp hx).1 hop hy hxy⟩

/-! ### Pairs -/

variable {o p : Nat} {n : CString}

section

variable (h : Paired comp c) (hop : o ≠ p) (ho : o ≠ 0)

include h hop ho

/-- To remove a record together with its back link. -/
theorem erasePair (hp : p ≠ 0)
    (he : Erased comp c c' ⟨o, n, p⟩) (he' : Erased comp c' c'' ⟨p, n, o⟩) : Paired comp c'' := by
  have hmem : ∀ x, x ∈ c'' ↔ x ∈ c ∧ comp.rank x.1 ≠ comp.rank ⟨o, n, p⟩ ∧
      comp.rank x.1 ≠ comp.rank ⟨p, n, o⟩ := fun x => by
    rw [he'.mem_iff, he.mem_iff, and_assoc]
  refine h.of_kept he'.ordered (fun r hr => (hmem _).mpr ⟨hr, fun hk => ?_, fun hk => ?_⟩)
    fun x hx _ => .inr ⟨((hmem x).mp hx).1, fun _ y hy hxy => ?_⟩
  · exact ho (rank_eq_iff.mp hk).1.symm
  · exact hp (rank_eq_iff.mp hk).1.symm
  · obtain ⟨-, hx1, hx2⟩ := (hmem x).mp hx
    refine (hmem y).mpr ⟨hy, fun hk => ?_, fun hk => ?_⟩ <;>
      rcases hxy.cases.2 with hrank | ⟨-, hrank⟩
    · exact hx2 (rank_ilinkKey_iff.mp (hrank.symm.trans hk))
    · obtain ⟨h1, -, h2⟩ := rank_eq_iff.mp (hrank.symm.trans hk)
      exact hop (h1.symm.trans h2)
    · exact hx1 (rank_ilinkKey_iff.mp (hrank.symm.trans hk))
    · obtain ⟨h1, -, h2⟩ := rank_eq_iff.mp (hrank.symm.trans hk)
      exact hop (h2.symm.trans h1)

/-- A record whose back link key has no partner is a reference. -/
theorem removable_of_alone
    (habs : ∀ x ∈ c, comp.rank x.1 ≠ comp.rank ⟨p, n, o⟩) : Removable comp c ⟨o, n, p⟩ := by
  intro x hx hk
  have hrank : ∀ y ∈ c, comp.rank y.1 = comp.rank x.1.ilinkKey → False := fun y hy hrank =>
    habs y hy (hrank.trans (rank_ilinkKey_iff.mpr hk))
  obtain ⟨h1, -, h2⟩ := rank_eq_iff.mp hk
  have hxop : x.1.objectId ≠ x.1.parentId := by
    rw [h1, h2]
    exact hop.symm
  rcases x.2.cases_type with ht | ht | ht
  · have hroot : x.1 ≠ rootKey := fun heq => ho (by rw [heq] at h1; exact h1.symm)
    obtain ⟨y, hy, hxy⟩ := (h.attached x hx hroot).companion hxop
    exact (hrank y hy ((companion_inode ht).mp hxy).2).elim
  · exact .inl ht
  · obtain ⟨-, y, hy, -, hy'⟩ := h.ilink_partner hx ht
    exact (hrank y hy hy').elim

/-- To insert a record together with its back link. -/
theorem insertPair (hp : p ≠ 0)
    (ht : (CatalogRecord.blank t).IsInode) (hi : Inserted comp c c' ⟨o, n, p⟩ (.blank .ilink))
    (hi' : Inserted comp c' c'' ⟨p, n, o⟩ (.blank t)) : Paired comp c'' := by
  have hkeep : ∀ x ∈ c, x ∈ c'' := fun x hx =>
    (hi'.mem_iff x).mpr (.inr ((hi.mem_iff x).mpr (.inr hx)))
  have hlink := (hi'.mem_iff _).mpr (.inr ((hi.mem_iff _).mpr (.inl rfl)))
  have hrec := (hi'.mem_iff _).mpr (.inl rfl)
  refine h.of_kept hi'.ordered (fun r hr => hkeep _ hr) fun x hx _ => ?_
  rcases (hi'.mem_iff x).mp hx with rfl | hx'
  · exact .inl ⟨ho, hp, fun heq => absurd heq hop, fun _ =>
      ⟨_, hlink, (companion_inode ht).mpr ⟨rfl, rfl⟩⟩⟩
  · rcases (hi.mem_iff x).mp hx' with rfl | hx'
    · exact .inl ⟨hp, ho, fun heq => absurd heq.symm hop, fun _ =>
        ⟨_, hrec, (companion_ilink rfl).mpr ⟨ht, rfl⟩⟩⟩
    · exact .inr ⟨hx', fun _ y hy _ => hkeep y hy⟩

end

/-- To insert a body, or a reference whose body is there. -/
theorem insertAlone (h : Paired comp c) (hi : Inserted comp c c' k r)
    (hatt : Attached comp c' (k, r)) : Paired comp c' := by
  have hkeep : ∀ x ∈ c, x ∈ c' := fun x hx => (hi.mem_iff x).mpr (.inr hx)
  refine h.of_kept hi.ordered (fun r hr => hkeep _ hr) fun x hx _ => ?_
  rcases (hi.mem_iff x).mp hx with rfl | hx
  · exact .inl hatt
  · exact .inr ⟨hx, fun _ y hy _ => hkeep y hy⟩

/-! ### Transformation into a hard link -/

section

variable (h : Paired comp c) (hx : x ∈ c) (ht : x.2.recordType = .ilink)
  (hk : comp.rank x.1 = comp.rank ⟨o, n, p⟩)

include h hx ht hk

/-- **The undone transformation**: the back link was taken out and put back, and a body that
nothing referred to may be gone. -/
theorem relink (hord : c'.Ordered comp)
    (hold : ∀ y ∈ c', y ∈ c ∧ comp.rank y.1 ≠ comp.rank ⟨o, n, p⟩)
    (hkeep : ∀ y ∈ c, comp.rank y.1 ≠ comp.rank ⟨o, n, p⟩ →
      y ∈ c' ∨ comp.rank y.1 = comp.rank (bodyKey o) ∧ Removable comp c (bodyKey o)) :
    Paired comp (vdfs4CattreeInsertIlink comp none c' o p n).2 := by
  obtain ⟨hxop, z, hz, hzt, hzk⟩ := h.ilink_partner hx ht
  have hatt := h.attached x hx (h.ne_rootKey_of_ilink hx ht)
  obtain ⟨hxp, -, hxo⟩ := rank_eq_iff.mp hk
  simp only at hxp hxo
  have hop : o ≠ p := by rw [← hxp, ← hxo]; exact hxop.symm
  have hzk' : comp.rank z.1 = comp.rank ⟨p, n, o⟩ := hzk.trans (rank_ilinkKey_iff.mpr hk)
  obtain ⟨hzp, -, -⟩ := rank_eq_iff.mp hzk'
  rw [vdfs4CattreeInsertIlink]
  rcases placeData_cases hord none ⟨o, n, p⟩ (.blank .ilink) with
    ⟨c2, h2, -, hi⟩ | ⟨e, -, hf | ⟨-, y, hy, hyk⟩⟩
  · rw [h2]
    have hnew := (hi.mem_iff _).mpr (.inl rfl)
    have hzc : z ∈ c2 := by
      refine (hi.mem_iff z).mpr (.inr ?_)
      rcases hkeep z hz (fun heq => hop ((rank_eq_iff.mp heq).1.symm.trans hzp)) with
        hz' | ⟨hself, -⟩
      · exact hz'
      · exact absurd ((rank_eq_iff.mp hself).1.symm.trans hzp) hop
    refine h.of_kept hi.ordered (fun r hr => ?_) fun y hy hne => ?_
    · refine (hi.mem_iff _).mpr (.inr ?_)
      have hrk : comp.rank rootKey ≠ comp.rank ⟨o, n, p⟩ := fun heq =>
        hatt.parentId_ne (hxp.trans (rank_eq_iff.mp heq).1.symm)
      rcases hkeep _ hr hrk with hr' | ⟨hself, -⟩
      · exact hr'
      · obtain ⟨h1, -, h2⟩ := rank_eq_iff.mp hself
        have hne : rootKey.parentId ≠ rootKey.objectId := by decide
        exact absurd (h1.trans h2.symm) hne
    · rcases (hi.mem_iff y).mp hy with rfl | hy'
      · refine .inl ⟨hxo ▸ hatt.objectId_ne, hxp ▸ hatt.parentId_ne, fun heq => absurd heq.symm hop,
          fun _ => ⟨z, hzc, (companion_ilink rfl).mpr ⟨hzt, hzk'⟩⟩⟩
      obtain ⟨hyc, hyk⟩ := hold y hy'
      by_cases hlink : comp.rank y.1.ilinkKey = comp.rank ⟨o, n, p⟩
      · -- the record of this back link
        obtain rfl : y = z := h.ordered.eq_of_rank hyc hz
          ((rank_ilinkKey_iff.mp hlink).trans hzk'.symm)
        exact .inl { h.attached y hz hne with
          companion := fun _ => ⟨_, hnew, (companion_inode hzt).mpr ⟨rfl, hlink.symm⟩⟩ }
      refine .inr ⟨hyc, fun hyop w hw hyw => (hi.mem_iff w).mpr (.inr ?_)⟩
      have hwk : comp.rank w.1 ≠ comp.rank ⟨o, n, p⟩ := by
        intro heq
        rcases hyw.cases.2 with hrank | ⟨-, hrank⟩
        · exact hlink (hrank.symm.trans heq)
        · obtain ⟨h1, -, h2⟩ := rank_eq_iff.mp (hrank.symm.trans heq)
          exact hop (h1.symm.trans h2)
      rcases hkeep w hw hwk with hw' | ⟨hself, hrem⟩
      · exact hw'
      · exact absurd hself (not_removable hrem hyc hyop hw hyw)
  · cases hf
  · exact absurd hyk (hold y hy).2

/-- **The transformation**: the record becomes a reference and the new body carries its value. -/
theorem moved {i : CatalogInode} (he : Erased comp c c' ⟨o, n, p⟩)
    (hbody : (CatalogRecord.blank t).IsInode) (hi : Inserted comp c' c'' (bodyKey o) (.blank t))
    (hy : y ∈ c'') (hyk : comp.rank y.1 = comp.rank ⟨p, n, o⟩) :
    Paired comp (moveToBody comp c'' o i y).2.1 := by
  obtain ⟨hxop, -⟩ := h.ilink_partner hx ht
  have hatt := h.attached x hx (h.ne_rootKey_of_ilink hx ht)
  obtain ⟨hxp, -, hxo⟩ := rank_eq_iff.mp hk
  obtain ⟨hyp, -, hyo⟩ := rank_eq_iff.mp hyk
  simp only at hxp hxo hyp hyo
  have hop : o ≠ p := by rw [← hxp, ← hxo]; exact hxop.symm
  have hne : comp.rank (bodyKey o) ≠ comp.rank y.1 := fun heq => by
    rw [hyk] at heq
    exact hop (rank_eq_iff.mp heq).1
  -- the records of the new catalog
  have hmem : ∀ w, w ∈ (moveToBody comp c'' o i y).2.1 ↔
      (w ∈ c ∧ comp.rank w.1 ≠ comp.rank ⟨o, n, p⟩ ∧ comp.rank w.1 ≠ comp.rank y.1) ∨
        w = (bodyKey o, { y.2 with recordType := t }) ∨
        w = (y.1, { CatalogRecord.blank .hlink with fileMode := i.kind }) := by
    intro w
    have hord : c''.Ordered comp := hi.ordered
    simp only [moveToBody, mem_modify comp.rankedBy, hi.mem_iff, he.mem_iff]
    constructor
    · rintro (⟨⟨rfl | ⟨hw, hwk⟩, hwb⟩ | ⟨e, rfl | ⟨hec, hek⟩, heb, rfl⟩, hwy⟩ | ⟨e, hce, hey, rfl⟩)
      · exact absurd rfl hwb
      · exact .inl ⟨hw, hwk, hwy⟩
      · exact .inr (.inl rfl)
      · exact absurd heb (hi.fresh e ((he.mem_iff e).mpr ⟨hec, hek⟩))
      · rcases hce with ⟨hce, heb⟩ | ⟨e', -, heb, rfl⟩
        · have : e = y := hord.eq_of_rank ((hi.mem_iff e).mpr (hce.imp_right (he.mem_iff e).mpr))
            hy hey
          rw [this]
          exact .inr (.inr rfl)
        · exact absurd (heb.symm.trans hey) hne
    · rintro (⟨hw, hwk, hwy⟩ | rfl | rfl)
      · exact .inl ⟨.inl ⟨.inr ⟨hw, hwk⟩, hi.fresh w ((he.mem_iff w).mpr ⟨hw, hwk⟩)⟩, hwy⟩
      · exact .inl ⟨.inr ⟨_, .inl rfl, rfl, rfl⟩, hne⟩
      · refine .inr ⟨y, .inl ⟨?_, hne.symm⟩, rfl, rfl⟩
        exact ((hi.mem_iff y).mp hy).imp_right (he.mem_iff y).mp
  have hnew : { y.2 with recordType := t }.IsInode := hbody
  have hbodyMem := (hmem _).mpr (.inr (.inl rfl))
  have ho : o ≠ 0 := hxp ▸ hatt.parentId_ne
  have hp : p ≠ 0 := hxo ▸ hatt.objectId_ne
  have hord : (moveToBody comp c'' o i y).2.1.Ordered comp := by
    simp only [moveToBody]
    exact Sorted.modify (Sorted.modify hi.ordered _ _) _ _
  refine h.of_kept hord (fun r hr => ?_) fun w hw _ => ?_
  · refine (hmem _).mpr (.inl ⟨hr, fun heq => ?_, fun heq => ?_⟩)
    · exact ho (rank_eq_iff.mp heq).1.symm
    · exact hp (hyp ▸ (rank_eq_iff.mp heq).1.symm)
  rcases (hmem w).mp hw with ⟨hwc, hwk, hwy⟩ | rfl | rfl
  · refine .inr ⟨hwc, fun _ v hv hwv => (hmem v).mpr (.inl ⟨hv, fun heq => ?_, fun heq => ?_⟩)⟩ <;>
      rcases hwv.cases.2 with hrank | ⟨-, hrank⟩
    · exact hwy ((rank_ilinkKey_iff.mp (hrank.symm.trans heq)).trans hyk.symm)
    · obtain ⟨h1, -, h2⟩ := rank_eq_iff.mp (hrank.symm.trans heq)
      exact hop (h1.symm.trans h2)
    · exact hwk (rank_ilinkKey_iff.mp ((hrank.symm.trans heq).trans hyk))
    · obtain ⟨h1, -, h2⟩ := rank_eq_iff.mp ((hrank.symm.trans heq).trans hyk)
      exact hop (h2.symm.trans h1)
  · exact .inl ⟨ho, ho, fun _ => hnew, fun hself => absurd rfl hself⟩
  · refine .inl ⟨hyo ▸ ho, hyp ▸ hp, fun heq => absurd (hyo.symm.trans (heq.trans hyp)) hop,
      fun _ => ⟨_, hbodyMem, (companion_hlink rfl).mpr ⟨hnew, ?_⟩⟩⟩
    rw [hyo]

end

end Paired

end Vdfs4
