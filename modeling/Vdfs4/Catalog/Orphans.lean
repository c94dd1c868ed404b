import Vdfs4.Catalog.Volume
import Vdfs4.Catalog.PairingRun
import Vdfs4.Lib.Chain

/-!
# The chain of orphans

The orphan list of a volume is kept in memory, and for the next mount also **in the records**: the
root's `next_orphan_id` is the number of the first orphan, and so on to 0. `vdfs4_add_to_orphan`
and `vdfs4_del_from_orphan` write the record of the **predecessor** only; the new last orphan's own
record is written by `vdfs4_unlink`, its caller.

* `recordOf`, `nextOnDisk` — the record of a number, as a mount finds it, and its successor;
* `OrphanOp`, `orphanCall`, `orphanStep` — the two calls, alone and with the caller's write;
* `Recorded` — the invariant: the list in memory is a chain, and the records agree with it.
-/

namespace Vdfs4

open OrderedMap GuardedRun Chain Volume Option Comparison

/-! ### Records by number -/

/-- The record from which `vdfs4_get_root_inode` or `vdfs4_iget` makes an inode. -/
def recordOf (comp : Comparison) (c : Catalog) (ino : Nat) :
    Except Errno (CattreeKey × CatalogRecord) :=
  if ino = rootIno then
    (vdfs4CattreeFindInode comp c rootIno rootKey.parentId rootKey.name).map Prod.fst
  else vdfs4Iget comp c ino

/-- `next_orphan_id` in the record of a number. -/
def nextOnDisk (comp : Comparison) (c : Catalog) (ino : Nat) : Option Nat :=
  (recordOf comp c ino).toOption.map fun x => x.2.nextOrphanId

/-- `next_orphan_id` in memory. -/
def nextInMemory (v : Volume) (ino : Nat) : Option Nat :=
  (v.inodes ino).map CatalogInode.nextOrphanId

/-- The walk of `__vdfs4_iget` ends at such a record. -/
def Lead (ino : Nat) (x : CattreeKey × CatalogRecord) : Prop :=
  x.1.parentId = ino ∧ (x.2.recordType = .ilink ∨ x.1.objectId = ino)

/-- Where `__vdfs4_iget` comes from there: over a back link to its record. -/
def Led (comp : Comparison) (c : Catalog) (ino : Nat) (x y : CattreeKey × CatalogRecord) : Prop :=
  (x.2.recordType = .ilink ∧ y ∈ c ∧ comp.rank y.1 = comp.rank ⟨x.1.objectId, x.1.name, ino⟩) ∨
    x.2.recordType ≠ .ilink ∧ y = x

variable {comp : Comparison} {c c' : Catalog} {x y : CattreeKey × CatalogRecord} {o ino : Nat}

theorem findInode_eq_ok_iff (hc : c.Ordered comp) (o p : Nat) (n : CString) :
    (vdfs4CattreeFindInode comp c o p n).map Prod.fst = .ok y ↔
      y ∈ c ∧ comp.rank y.1 = comp.rank ⟨p, n, o⟩ := by
  rcases findInode_cases hc o p n with ⟨x, hx, rest, hrank, heq⟩ | ⟨habs, heq⟩
  · rw [heq]
    constructor
    · intro h
      obtain rfl : x = y := Except.ok.inj h
      exact ⟨hx, hrank⟩
    · rintro ⟨hy, hyrank⟩
      rw [hc.eq_of_rank hy hx (hyrank.trans hrank.symm)]
      rfl
  · rw [heq]
    constructor
    · intro h
      cases h
    · rintro ⟨hy, hyrank⟩
      exact absurd hyrank (habs y hy)

/-- The walk ends at the first lead. -/
theorem igetLoop_eq_ok_iff (hc : c.Ordered comp) {l : Catalog} (hl : l.Ordered comp)
    (hmem : ∀ x ∈ l, ino ≤ x.1.parentId) :
    igetLoop comp c ino l = .ok y ↔
      ∃ x ∈ l, Lead ino x ∧ (∀ z ∈ l, Lead ino z → comp.rank x.1 ≤ comp.rank z.1) ∧
        Led comp c ino x y := by
  induction l with
  | nil => simp [igetLoop]
  | cons a l ih =>
    obtain ⟨hfirst, hl'⟩ := Sorted.cons_iff.mp hl
    have ih := ih hl' fun x hx => hmem x (List.mem_cons_of_mem a hx)
    rw [igetLoop]
    by_cases hp : a.1.parentId = ino
    · rw [if_neg (not_not.mpr hp)]
      by_cases hlead : Lead ino a
      · -- the first record is a lead
        have hres : (if a.2.recordType = .ilink then
            (vdfs4CattreeFindInode comp c ino a.1.objectId a.1.name).map Prod.fst
            else if a.1.objectId = ino then .ok a else igetLoop comp c ino l) = .ok y ↔
              Led comp c ino a y := by
          rw [Led]
          by_cases ht : a.2.recordType = .ilink
          · rw [if_pos ht, findInode_eq_ok_iff hc]
            simp [ht]
          · rw [if_neg ht, if_pos (hlead.2.resolve_left ht)]
            simp [ht, eq_comm]
        rw [hres]
        constructor
        · intro h
          refine ⟨a, List.mem_cons_self, hlead, fun z hz _ => ?_, h⟩
          rcases List.mem_cons.mp hz with rfl | hz
          · exact le_rfl
          · exact (hfirst z hz).le
        · rintro ⟨x, hx, -, hleast, hled⟩
          rcases List.mem_cons.mp hx with rfl | hx
          · exact hled
          · exact absurd (hleast a List.mem_cons_self hlead) (hfirst x hx).not_ge
      · have ht : a.2.recordType ≠ .ilink := fun ht => hlead ⟨hp, .inl ht⟩
        have ho : a.1.objectId ≠ ino := fun ho => hlead ⟨hp, .inr ho⟩
        rw [if_neg ht, if_neg ho, ih]
        simp [hlead]
    · -- no record from here on has this parent
      rw [if_pos hp]
      constructor
      · intro h
        cases h
      rintro ⟨x, hx, hlead, -⟩
      have hlt : ino < a.1.parentId := lt_of_le_of_ne (hmem a List.mem_cons_self) (Ne.symm hp)
      rcases List.mem_cons.mp hx with rfl | hx
      · exact absurd hlead.1 hp
      · have := rank_lt_iff.mp (hfirst x hx)
        have := hlead.1
        omega

/-- **What `__vdfs4_iget` finds**: the record that the first lead leads to. -/
theorem Rooted.iget_eq_ok_iff (h : Rooted comp c) (hino : ino ≠ 0) :
    vdfs4Iget comp c ino = .ok y ↔
      ∃ x ∈ c, Lead ino x ∧ (∀ z ∈ c, Lead ino z → comp.rank x.1 ≤ comp.rank z.1) ∧
        Led comp c ino x y := by
  obtain ⟨front, hi, hc, hfront, hhi, hfirst⟩ := h.firstChild_eq hino
  have hord : Catalog.Ordered comp hi := by
    have := h.ordered
    rw [hc] at this
    exact (Sorted.append_iff.mp this).2.1
  have hloop : vdfs4Iget comp c ino = igetLoop comp c ino hi := by
    rw [vdfs4Iget, hfirst]
    cases hi with
    | nil => rfl
    | cons a l => rfl
  -- every lead is behind the records of smaller parents
  have hlead : ∀ x, Lead ino x → (x ∈ c ↔ x ∈ hi) := by
    intro x hx
    rw [hc, List.mem_append, or_iff_right fun hmem => (hfront x hmem).ne hx.1]
  rw [hloop, igetLoop_eq_ok_iff h.ordered hord hhi]
  constructor
  · rintro ⟨x, hx, hxl, hleast, hled⟩
    exact ⟨x, (hlead x hxl).mpr hx, hxl, fun z hz hzl => hleast z ((hlead z hzl).mp hz) hzl, hled⟩
  · rintro ⟨x, hx, hxl, hleast, hled⟩
    exact ⟨x, (hlead x hxl).mp hx, hxl, fun z hz hzl => hleast z ((hlead z hzl).mpr hz) hzl, hled⟩

theorem Led.object_eq (hlead : Lead ino x) (hled : Led comp c ino x y) : y.1.objectId = ino := by
  rcases hled with ⟨-, -, hrank⟩ | ⟨ht, rfl⟩
  · exact (rank_eq_iff.mp hrank).2.2
  · exact hlead.2.resolve_left ht

theorem Rooted.recordOf_root (h : Rooted comp c) {r : CatalogRecord} (hr : (rootKey, r) ∈ c) :
    recordOf comp c rootIno = .ok (rootKey, r) := by
  rw [recordOf, if_pos rfl, findInode_eq_ok_iff h.ordered]
  exact ⟨hr, rfl⟩

/-- The record of a number is one of the catalog, and of this number. -/
theorem Rooted.recordOf_mem (h : Rooted comp c) (hino : ino ≠ 0)
    (hy : recordOf comp c ino = .ok y) : y ∈ c ∧ y.1.objectId = ino := by
  rw [recordOf] at hy
  split at hy
  · rename_i heq
    obtain ⟨hmem, hrank⟩ := (findInode_eq_ok_iff h.ordered _ _ _).mp hy
    exact ⟨hmem, heq ▸ (rank_eq_iff.mp hrank).2.2⟩
  · obtain ⟨x, hx, hlead, -, hled⟩ := (h.iget_eq_ok_iff hino).mp hy
    refine ⟨?_, hled.object_eq hlead⟩
    rcases hled with ⟨-, hmem, -⟩ | ⟨-, rfl⟩
    · exact hmem
    · exact hx

section

variable {f : CattreeKey × CatalogRecord → CattreeKey × CatalogRecord}

section

variable (h : Rooted comp c) (h' : Rooted comp c') (hino : ino ≠ 0) (hkey : ∀ x, (f x).1 = x.1)
  (htype : ∀ x, (f x).2.recordType = x.2.recordType) (hsub : ∀ x' ∈ c', ∃ x ∈ c, x' = f x)
  (hkeep : ∀ x ∈ c, Lead ino x ∨ x = y → f x ∈ c')

include h h' hino hkey htype hsub hkeep

/-- **A number keeps its record** when the leads to it and the record stay, whatever values
change. -/
theorem Rooted.iget_transfer
    (hy : vdfs4Iget comp c ino = .ok y) : vdfs4Iget comp c' ino = .ok (f y) := by
  have hlead : ∀ x, Lead ino (f x) ↔ Lead ino x := by
    intro x
    rw [Lead, Lead, hkey, htype]
  obtain ⟨x, hx, hxl, hleast, hled⟩ := (h.iget_eq_ok_iff hino).mp hy
  refine (h'.iget_eq_ok_iff hino).mpr
    ⟨f x, hkeep x hx (.inl hxl), (hlead x).mpr hxl, fun z' hz' hzl => ?_, ?_⟩
  · obtain ⟨z, hz, rfl⟩ := hsub z' hz'
    rw [hkey, hkey]
    exact hleast z hz ((hlead z).mp hzl)
  · rw [Led, htype, hkey, hkey]
    rcases hled with ⟨ht, hmem, hrank⟩ | ⟨ht, rfl⟩
    · exact .inl ⟨ht, hkeep y hmem (.inr rfl), hrank⟩
    · exact .inr ⟨ht, rfl⟩

theorem Rooted.recordOf_transfer
    (hy : recordOf comp c ino = .ok y) : recordOf comp c' ino = .ok (f y) := by
  rw [recordOf] at hy ⊢
  split at hy
  · rename_i hroot
    obtain ⟨hmem, hrank⟩ := (findInode_eq_ok_iff h.ordered _ _ _).mp hy
    rw [if_pos hroot, findInode_eq_ok_iff h'.ordered, hkey]
    exact ⟨hkeep y hmem (.inr rfl), hrank⟩
  · rename_i hroot
    rw [if_neg hroot]
    exact h.iget_transfer h' hino hkey htype hsub hkeep hy

end

end

theorem rooted_modify (h : Rooted comp c) (k : CattreeKey) (g : CatalogRecord → CatalogRecord) :
    Rooted comp (modify comp.compFn k g c) where
  ordered := Sorted.modify h.ordered k g
  root := by
    obtain ⟨r, hr⟩ := h.root
    by_cases hrank : comp.rank rootKey = comp.rank k
    · exact ⟨g r, (mem_modify comp.rankedBy _).mpr (.inr ⟨_, hr, hrank, rfl⟩)⟩
    · exact ⟨r, (mem_modify comp.rankedBy _).mpr (.inl ⟨hr, hrank⟩)⟩
  objectId_ne x hx := by
    rcases (mem_modify comp.rankedBy x).mp hx with ⟨hx, -⟩ | ⟨e, he, -, rfl⟩
    · exact h.objectId_ne x hx
    · exact h.objectId_ne e he

/-! ### Writing an inode -/

variable {v v' : Volume} {i : CatalogInode} {fault : Option Errno}

theorem CatalogInode.recordKey_objectId (ino : Nat) (i : CatalogInode) :
    (i.recordKey ino).objectId = ino := by
  rw [recordKey]
  split <;> rfl

theorem CatalogInode.recordKey_eq (ino : Nat) (i : CatalogInode) :
    (⟨(i.recordKey ino).parentId, (i.recordKey ino).name, ino⟩ : CattreeKey) = i.recordKey ino := by
  rw [recordKey]
  split <;> rfl

/-- A write is done, or it is a **fatal error** and nothing else. -/
theorem writeInode_cases (hc : v.catalog.Ordered comp) (fault : Option Errno) (ino : Nat)
    (i : CatalogInode) :
    (∃ e, vdfs4WriteInode comp fault v ino i = (some e, v.fatalError) ∧
        (fault ≠ none ∨ ∀ x ∈ v.catalog, comp.rank x.1 ≠ comp.rank (i.recordKey ino))) ∨
      vdfs4WriteInode comp fault v ino i = (none, { v with
        catalog := modify comp.compFn (i.recordKey ino) i.fillCattreeValue v.catalog }) := by
  cases fault with
  | some e => exact .inl ⟨e, rfl, .inl (by simp)⟩
  | none =>
    rw [vdfs4WriteInode]
    rcases findInode_cases hc ino (i.recordKey ino).parentId (i.recordKey ino).name with
      ⟨x, hx, rest, hrank, heq⟩ | ⟨habs, heq⟩
    · right
      rw [i.recordKey_eq] at hrank
      simp only [elim_none, heq]
      rw [modify_congr comp.rankedBy hrank]
    · left
      rw [i.recordKey_eq] at habs
      exact ⟨.enoent, by simp only [elim_none, heq], .inr habs⟩

/-! ### The list in memory -/

variable {a p : Nat} {l l₁ l₂ : List Nat} {prev : CatalogInode}

/-- What `vdfs4_add_to_orphan` does behind the last orphan `p`. -/
structure OrphanAdded (comp : Comparison) (v v' : Volume) (p : Nat) (prev : CatalogInode)
    (ino : Nat) (i : CatalogInode) : Prop where
  catalog : v'.catalog = modify comp.compFn (prev.recordKey p)
    { prev with nextOrphanId := ino }.fillCattreeValue v.catalog
  list : v'.orphanInodes = v.orphanInodes ++ [ino]
  readOnly : v'.readOnly = v.readOnly
  prev_eq : v'.inodes p = some { prev with nextOrphanId := ino }
  ino_eq : v'.inodes ino = some { i with orphan := true, nextOrphanId := 0 }
  others : ∀ n, n ≠ p → n ≠ ino → v'.inodes n = v.inodes n

/-- What it leaves when the write of `p` fails. -/
structure OrphanRefused (v v' : Volume) (ino : Nat) (i : CatalogInode) : Prop where
  catalog : v'.catalog = v.catalog
  list : v'.orphanInodes = v.orphanInodes
  readOnly : v'.readOnly = true
  ino_eq : v'.inodes ino = some { i with orphan := false, nextOrphanId := 0 }
  others : ∀ n, n ≠ ino → v'.inodes n = v.inodes n

theorem addToOrphan_cases (hc : v.catalog.Ordered comp) (hlist : v.orphanInodes = a :: l)
    (hprev : v.inodes (last a l) = some prev) (hend : prev.nextOrphanId = 0)
    (hi : v.inodes ino = some i) (hne : ino ≠ last a l) (fault : Option Errno) :
    (∃ e v', vdfs4AddToOrphan comp fault v ino = some (some e, v') ∧
        (fault ≠ none ∨ ∀ x ∈ v.catalog, comp.rank x.1 ≠ comp.rank (prev.recordKey (last a l))) ∧
        OrphanRefused v v' ino i) ∨
      ∃ v', vdfs4AddToOrphan comp fault v ino = some (none, v') ∧
        OrphanAdded comp v v' (last a l) prev ino i := by
  have hne' : last a l ≠ ino := hne.symm
  have hbefore : (v.withOrphan ino).inodes (last a l) = some prev :=
    (modifyInode_of_ne _ _ hne').trans hprev
  have hother : ∀ n, n ≠ ino → (v.withOrphan ino).inodes n = v.inodes n := fun n hn =>
    modifyInode_of_ne _ _ hn
  have hself : (v.withOrphan ino).inodes ino = some { i with orphan := true, nextOrphanId := 0 } :=
    (modifyInode_self _ _).trans (by rw [hi]; rfl)
  rw [vdfs4AddToOrphan, hlist, getLast?_cons]
  simp only [hbefore, hend, ne_eq, not_true_eq_false, if_false]
  rcases writeInode_cases (v := (v.withOrphan ino).setInode (last a l)
      { prev with nextOrphanId := ino }) hc fault (last a l) { prev with nextOrphanId := ino } with
    ⟨e, heq, hwhy⟩ | heq
  · left
    rw [heq]
    refine ⟨e, _, rfl, hwhy, rfl, ?_, rfl, ?_, fun n hn => ?_⟩
    · exact List.dropLast_concat
    · rw [withoutOrphan, modifyInode_self, modifyInode_of_ne _ _ hne]
      change Option.map _ ((setInode _ _ _).inodes ino) = _
      rw [setInode_of_ne _ _ hne, hself]
      rfl
    · rw [withoutOrphan, modifyInode_of_ne _ _ hn]
      by_cases hp : n = last a l
      · subst hp
        rw [modifyInode_self, hprev]
        change Option.map _ ((setInode _ _ _).inodes _) = _
        rw [setInode_self, map_some, ← hend]
      · rw [modifyInode_of_ne _ _ hp]
        exact (setInode_of_ne _ _ hp).trans (hother n hn)
  · right
    rw [heq]
    exact ⟨_, rfl, rfl, rfl, rfl, setInode_self _ _, (setInode_of_ne _ _ hne).trans hself,
      fun n hp hn => (setInode_of_ne _ _ hp).trans (hother n hn)⟩

/-- What `vdfs4_del_from_orphan` does to an orphan behind `p`; the write of `p` may fail. -/
structure OrphanDeleted (comp : Comparison) (fault : Option Errno) (v v' : Volume) (p : Nat)
    (prev : CatalogInode) (ino : Nat) (i : CatalogInode) : Prop where
  list : v'.orphanInodes = v.orphanInodes.erase ino
  prev_eq : v'.inodes p = some { prev with nextOrphanId := i.nextOrphanId }
  ino_eq : v'.inodes ino = some { i with orphan := false, nextOrphanId := finalOrphanId }
  others : ∀ n, n ≠ p → n ≠ ino → v'.inodes n = v.inodes n
  written : (v'.catalog = modify comp.compFn (prev.recordKey p)
      { prev with nextOrphanId := i.nextOrphanId }.fillCattreeValue v.catalog ∧
        v'.readOnly = v.readOnly) ∨
    v'.catalog = v.catalog ∧ v'.readOnly = true ∧
      (fault ≠ none ∨ ∀ x ∈ v.catalog, comp.rank x.1 ≠ comp.rank (prev.recordKey p))

theorem prevOrphan_eq (hl : ino ∉ l₁) :
    prevOrphan ino (a :: (l₁ ++ ino :: l₂)) = some (last a l₁) := by
  induction l₁ generalizing a with
  | nil => exact if_pos rfl
  | cons b l₁ ih =>
    obtain ⟨hb, hl⟩ := List.ne_and_not_mem_of_not_mem_cons hl
    exact (if_neg hb.symm).trans (ih hl)

theorem delFromOrphan_cases (hc : v.catalog.Ordered comp)
    (hlist : v.orphanInodes = a :: (l₁ ++ ino :: l₂)) (hnodup : v.orphanInodes.Nodup)
    (hprev : v.inodes (last a l₁) = some prev) (hnext : prev.nextOrphanId = ino)
    (hi : v.inodes ino = some i) (fault : Option Errno) :
    ∃ v', vdfs4DelFromOrphan comp fault v ino = some v' ∧
      OrphanDeleted comp fault v v' (last a l₁) prev ino i := by
  rw [hlist, ← List.cons_append] at hnodup
  have hfront : ino ∉ a :: l₁ := fun hmem =>
    (List.nodup_append.mp hnodup).2.2 ino hmem ino List.mem_cons_self rfl
  have hne : last a l₁ ≠ ino := fun heq => hfront (heq ▸ last_mem a l₁)
  have hmem : ino ∈ v.orphanInodes := by simp [hlist]
  rw [vdfs4DelFromOrphan, if_pos hmem, hlist,
    prevOrphan_eq fun hmem => hfront (List.mem_cons_of_mem a hmem)]
  simp only [hprev, hi, hnext, ne_eq, not_true_eq_false, if_false]
  -- the inodes, whether the write failed or not
  have hinodes : ∀ w : Volume,
      w.inodes = (v.setInode (last a l₁) { prev with nextOrphanId := i.nextOrphanId }).inodes →
      let v' := w.modifyInode ino fun i => { i with orphan := false, nextOrphanId := finalOrphanId }
      v'.inodes (last a l₁) = some { prev with nextOrphanId := i.nextOrphanId } ∧
        v'.inodes ino = some { i with orphan := false, nextOrphanId := finalOrphanId } ∧
        ∀ n, n ≠ last a l₁ → n ≠ ino → v'.inodes n = v.inodes n := by
    intro w hw
    refine ⟨?_, ?_, fun n hp hn => ?_⟩
    · rw [modifyInode_of_ne _ _ hne, hw, setInode_self]
    · rw [modifyInode_self, hw, setInode_of_ne _ _ hne.symm, hi]
      rfl
    · rw [modifyInode_of_ne _ _ hn, hw, setInode_of_ne _ _ hp]
  rcases writeInode_cases (v := v.setInode (last a l₁) { prev with nextOrphanId := i.nextOrphanId })
      hc fault (last a l₁) { prev with nextOrphanId := i.nextOrphanId } with ⟨e, heq, hwhy⟩ | heq
  · rw [heq]
    obtain ⟨h1, h2, h3⟩ := hinodes (v.setInode _ _).fatalError rfl
    exact ⟨_, rfl, rfl, h1, h2, h3, .inr ⟨rfl, rfl, hwhy⟩⟩
  · rw [heq]
    obtain ⟨h1, h2, h3⟩ := hinodes { v.setInode _ _ with catalog := _ } rfl
    exact ⟨_, rfl, rfl, h1, h2, h3, .inl ⟨rfl, rfl⟩⟩

/-! ### Calls and their records -/

/-- A call of `vdfs4_add_to_orphan`, in which the write of the predecessor may fail, or of
`vdfs4_del_from_orphan`. -/
inductive OrphanOp where
  | add (fault : Option Errno) (ino : Nat)
  | del (ino : Nat)

/-- The call alone. -/
def orphanCall (comp : Comparison) (v : Volume) : OrphanOp → Option Volume
  | .add fault ino => (vdfs4AddToOrphan comp fault v ino).map Prod.snd
  | .del ino => vdfs4DelFromOrphan comp none v ino

/-- The call as `vdfs4_unlink` and `vdfs4_evict_inode` make it: an inode that was added is
written. -/
def orphanStep (comp : Comparison) (v : Volume) : OrphanOp → Option Volume
  | .add fault ino =>
    match vdfs4AddToOrphan comp fault v ino with
    | none => none
    | some (some _, v) => some v
    | some (none, v) => (v.inodes ino).map fun i => (vdfs4WriteInode comp none v ino i).2
  | .del ino => vdfs4DelFromOrphan comp none v ino

/-- An inode in memory is added that is not on the list. -/
def OrphanOp.Fresh (v : Volume) : OrphanOp → Prop
  | .add _ ino => (v.inodes ino).isSome ∧ ino ∉ v.orphanInodes
  | .del _ => True

instance (v : Volume) : ∀ op : OrphanOp, Decidable (op.Fresh v)
  | .add _ _ => inferInstanceAs (Decidable (_ ∧ _))
  | .del _ => inferInstanceAs (Decidable True)

/-- **The chain of the records is the list**: from the root on, in order, without repetition, and
to its end. -/
def Mirrors (comp : Comparison) (v : Volume) : Prop :=
  ∃ l, v.orphanInodes = rootIno :: l ∧ (rootIno :: l).Nodup ∧
    Follows (nextOnDisk comp v.catalog) 0 rootIno l

instance (comp : Comparison) (v : Volume) : Decidable (Mirrors comp v) :=
  decidable_of_iff
    (v.orphanInodes = rootIno :: v.orphanInodes.tail ∧ v.orphanInodes.Nodup ∧
      Follows (nextOnDisk comp v.catalog) 0 rootIno v.orphanInodes.tail)
    ⟨fun ⟨h₁, h₂, h₃⟩ => ⟨_, h₁, h₁ ▸ h₂, h₃⟩, fun ⟨l, h₁, h₂, h₃⟩ => by
      rw [h₁]
      exact ⟨rfl, h₂, h₃⟩⟩

/-- The inodes in memory, each with the record of its number. -/
structure Known (comp : Comparison) (v : Volume) : Prop where
  rooted : Rooted comp v.catalog
  found : ∀ ino i, v.inodes ino = some i → ino ≠ 0 ∧
    ∃ x, recordOf comp v.catalog ino = .ok x ∧ comp.rank x.1 = comp.rank (i.recordKey ino)

/-- A volume after the mount: no orphan but the root in front. -/
structure Mounted (comp : Comparison) (v : Volume) : Prop extends Known comp v where
  list : v.orphanInodes = [rootIno]
  root : nextInMemory v rootIno = some 0
  root_disk : nextOnDisk comp v.catalog rootIno = some 0

/-- **The invariant of the calls**: the list in memory is a chain, and so it stands in the
records. -/
structure Recorded (comp : Comparison) (v : Volume) : Prop extends Known comp v where
  list : ∃ l, v.orphanInodes = rootIno :: l ∧ Follows (nextInMemory v) 0 rootIno l
  synced : ∀ ino ∈ v.orphanInodes, nextOnDisk comp v.catalog ino = nextInMemory v ino

theorem Mounted.recorded (h : Mounted comp v) : Recorded comp v where
  toKnown := h.toKnown
  list := ⟨[], h.list, h.root⟩
  synced ino hino := by
    rw [h.list, List.mem_singleton] at hino
    rw [hino, h.root, h.root_disk]

theorem Recorded.mirrors (h : Recorded comp v) : Mirrors comp v := by
  obtain ⟨l, hlist, hfollows⟩ := h.list
  refine ⟨l, hlist, hfollows.nodup, hfollows.congr fun x hx => ?_⟩
  exact h.synced x (hlist ▸ hx)

/-- The record of a number in memory is found, and what it says is its successor on disk. -/
theorem nextOnDisk_eq (hx : recordOf comp c ino = .ok x) :
    nextOnDisk comp c ino = some x.2.nextOrphanId := by
  rw [nextOnDisk, hx]
  rfl

/-- **A write** changes the record of the inode, and no other number's. -/
theorem Rooted.write (h : Rooted comp c) (hino : ino ≠ 0) (hx : recordOf comp c ino = .ok x)
    (hkey : comp.rank x.1 = comp.rank (i.recordKey ino)) :
    let c' := modify comp.compFn (i.recordKey ino) i.fillCattreeValue c
    Rooted comp c' ∧ recordOf comp c' ino = .ok (x.1, i.fillCattreeValue x.2) ∧
      ∀ o y, o ≠ ino → o ≠ 0 → recordOf comp c o = .ok y → recordOf comp c' o = .ok y := by
  intro c'
  let f : CattreeKey × CatalogRecord → CattreeKey × CatalogRecord := fun e =>
    if comp.compFn e.1 (i.recordKey ino) = 0 then (e.1, i.fillCattreeValue e.2) else e
  have hf : ∀ e, (f e).1 = e.1 ∧ (f e).2.recordType = e.2.recordType := by
    intro e
    simp only [f]
    split <;> exact ⟨rfl, rfl⟩
  have hrooted : Rooted comp c' := rooted_modify h _ _
  have htransfer : ∀ o y, o ≠ 0 → recordOf comp c o = .ok y →
      recordOf comp c' o = .ok (f y) := by
    intro o y ho hy
    refine h.recordOf_transfer hrooted ho (fun e => (hf e).1) (fun e => (hf e).2)
      (fun e he => ?_) (fun e he _ => List.mem_map_of_mem he) hy
    obtain ⟨e', he', rfl⟩ := List.mem_map.mp he
    exact ⟨e', he', rfl⟩
  refine ⟨hrooted, ?_, fun o y ho ho' hy => ?_⟩
  · rw [htransfer ino x hino hx]
    simp only [f, if_pos ((comp.rankedBy.eq_zero_iff _ _).mpr hkey)]
  have hobj := (h.recordOf_mem ho' hy).2
  have hne : comp.compFn y.1 (i.recordKey ino) ≠ 0 := by
    rw [ne_eq, comp.rankedBy.eq_zero_iff, rank_eq_iff, i.recordKey_objectId]
    rintro ⟨-, -, heq⟩
    exact ho (hobj.symm.trans heq)
  rw [htransfer o y ho' hy]
  simp only [f, if_neg hne]

/-- The inodes of `v'` are inodes of `v` and stand under the same keys. -/
def SameKeys (v v' : Volume) : Prop :=
  ∀ n i', v'.inodes n = some i' → ∃ i, v.inodes n = some i ∧ i'.recordKey n = i.recordKey n

theorem Known.of_sameKeys (h : Known comp v) (hcat : v'.catalog = v.catalog)
    (hkeys : SameKeys v v') : Known comp v' := by
  refine ⟨hcat ▸ h.rooted, fun n i' hi' => ?_⟩
  obtain ⟨i, hi, hkey⟩ := hkeys n i' hi'
  rw [hcat, hkey]
  exact h.found n i hi

/-- A write keeps every number known. -/
theorem Known.of_written {w : CatalogInode} (h : Known comp v) (hi : v.inodes p = some i)
    (hkey : w.recordKey p = i.recordKey p)
    (hcat : v'.catalog = modify comp.compFn (w.recordKey p) w.fillCattreeValue v.catalog)
    (hkeys : SameKeys v v') :
    Known comp v' ∧ nextOnDisk comp v'.catalog p = some w.nextOrphanId ∧
      ∀ n j, n ≠ p → v.inodes n = some j →
        nextOnDisk comp v'.catalog n = nextOnDisk comp v.catalog n := by
  obtain ⟨hp, x, hx, hrank⟩ := h.found p i hi
  obtain ⟨hrooted, hself, hothers⟩ := h.rooted.write hp hx (hrank.trans (by rw [hkey]))
  rw [← hcat] at hrooted hself hothers
  refine ⟨⟨hrooted, fun n j' hj' => ?_⟩, nextOnDisk_eq hself, fun n j hn hj => ?_⟩
  · obtain ⟨j, hj, hjkey⟩ := hkeys n j' hj'
    obtain ⟨hn, y, hy, hyrank⟩ := h.found n j hj
    refine ⟨hn, ?_⟩
    rw [hjkey]
    by_cases hnp : n = p
    · subst hnp
      obtain rfl : j = i := mem_unique hj hi
      exact ⟨_, hself, hrank⟩
    · exact ⟨y, hothers n y hnp hn hy, hyrank⟩
  · obtain ⟨hn', y, hy, -⟩ := h.found n j hj
    rw [nextOnDisk_eq (hothers n y hn hn' hy), nextOnDisk_eq hy]

theorem nextInMemory_of_some (hi : v.inodes ino = some i) :
    nextInMemory v ino = some i.nextOrphanId := by
  rw [nextInMemory, hi]
  rfl

theorem exists_of_nextInMemory {n : Nat} (h : nextInMemory v ino = some n) :
    ∃ i, v.inodes ino = some i ∧ i.nextOrphanId = n :=
  map_eq_some_iff.mp h

/-- The members of a chain in memory are in memory. -/
theorem exists_of_follows (h : Follows (nextInMemory v) 0 a l) (hino : ino ∈ a :: l) :
    ∃ i, v.inodes ino = some i := by
  induction l generalizing a with
  | nil =>
    obtain rfl := List.mem_singleton.mp hino
    exact (exists_of_nextInMemory h).imp fun _ hi => hi.1
  | cons b l ih =>
    rcases List.mem_cons.mp hino with rfl | hino
    · exact (exists_of_nextInMemory h.1).imp fun _ hi => hi.1
    · exact ih h.2.2 hino

/-- The write of an inode that is known is done. -/
theorem Known.writeInode (h : Known comp v) (hi : v.inodes ino = some i)
    (hv : (vdfs4WriteInode comp none v ino i).2 = v') :
    v'.inodes = v.inodes ∧ v'.orphanInodes = v.orphanInodes ∧ Known comp v' ∧
      nextOnDisk comp v'.catalog ino = some i.nextOrphanId ∧
      ∀ n j, n ≠ ino → v.inodes n = some j →
        nextOnDisk comp v'.catalog n = nextOnDisk comp v.catalog n := by
  obtain ⟨hino, y, hy, hkey⟩ := h.found ino i hi
  rcases writeInode_cases h.rooted.ordered none ino i with ⟨e, -, hwhy⟩ | hwrite
  · rcases hwhy with hwhy | hwhy
    · exact absurd rfl hwhy
    · exact absurd hkey (hwhy y (h.rooted.recordOf_mem hino hy).1)
  · rw [hwrite] at hv
    subst hv
    exact ⟨rfl, rfl, h.of_written hi rfl rfl fun n j hj => ⟨j, hj, rfl⟩⟩

/-- An addition that failed has changed nothing on the list. -/
theorem Recorded.of_refused (h : Recorded comp v) (hi : v.inodes ino = some i)
    (hnew : ino ∉ v.orphanInodes) (hr : OrphanRefused v v' ino i) : Recorded comp v' := by
  obtain ⟨l, hlist, hfollows⟩ := h.list
  have hsame : ∀ n ∈ v.orphanInodes, nextInMemory v' n = nextInMemory v n := by
    intro n hn
    rw [nextInMemory, hr.others n fun heq => hnew (heq ▸ hn), nextInMemory]
  refine ⟨h.of_sameKeys hr.catalog fun n j hj => ?_, ⟨l, hr.list.trans hlist, ?_⟩, fun n hn => ?_⟩
  · by_cases hn : n = ino
    · subst hn
      rw [hr.ino_eq] at hj
      cases hj
      exact ⟨i, hi, rfl⟩
    · exact ⟨j, (hr.others n hn).symm.trans hj, rfl⟩
  · exact hfollows.congr fun n hn => hsame n (hlist ▸ hn)
  · rw [hr.list] at hn
    rw [hr.catalog, hsame n hn, h.synced n hn]

theorem OrphanAdded.sameKeys (ha : OrphanAdded comp v v' p prev ino i)
    (hprev : v.inodes p = some prev) (hi : v.inodes ino = some i) : SameKeys v v' := by
  intro n j hj
  by_cases hp : n = p
  · subst hp
    rw [ha.prev_eq] at hj
    cases hj
    exact ⟨prev, hprev, rfl⟩
  by_cases hn : n = ino
  · subst hn
    rw [ha.ino_eq] at hj
    cases hj
    exact ⟨i, hi, rfl⟩
  · exact ⟨j, (ha.others n hp hn).symm.trans hj, rfl⟩

/-- The chain in memory after an addition. -/
theorem OrphanAdded.follows (ha : OrphanAdded comp v v' (last a l) prev ino i) (hino : ino ≠ 0)
    (hfollows : Follows (nextInMemory v) 0 a l) (hnew : ino ∉ a :: l) :
    Follows (nextInMemory v') 0 a (l ++ [ino]) := by
  refine hfollows.snoc hino (nextInMemory_of_some ha.prev_eq) (nextInMemory_of_some ha.ino_eq)
    fun n hn hp => ?_
  exact congrArg _ (ha.others n hp fun heq => hnew (heq ▸ hn))

/-- After an addition the predecessor's record leads to the inode, and the write of the inode ends
the chain. -/
theorem Recorded.of_added (h : Recorded comp v) (hlist : v.orphanInodes = rootIno :: l)
    (hfollows : Follows (nextInMemory v) 0 rootIno l)
    (hprev : v.inodes (last rootIno l) = some prev) (hi : v.inodes ino = some i)
    (hnew : ino ∉ v.orphanInodes) {v1 : Volume}
    (ha : OrphanAdded comp v v1 (last rootIno l) prev ino i)
    (hv : (vdfs4WriteInode comp none v1 ino { i with orphan := true, nextOrphanId := 0 }).2 = v') :
    Recorded comp v' := by
  obtain ⟨hknown1, hself1, hothers1⟩ := h.of_written
    (w := { prev with nextOrphanId := ino }) hprev rfl ha.catalog (ha.sameKeys hprev hi)
  obtain ⟨hinodes, hlist2, hknown2, hself2, hothers2⟩ := hknown1.writeInode ha.ino_eq hv
  have hmem : ∀ n, nextInMemory v' n = nextInMemory v1 n := fun n => by
    rw [nextInMemory, nextInMemory, hinodes]
  refine ⟨hknown2, ⟨l ++ [ino], by simp [hlist2, ha.list, hlist], ?_⟩, fun n hn => ?_⟩
  · refine (ha.follows (h.found ino i hi).1 hfollows (hlist ▸ hnew)).congr fun n _ => hmem n
  rw [hmem]
  rw [hlist2, ha.list] at hn
  rcases List.mem_append.mp hn with hn | hn
  · have hnino : n ≠ ino := fun heq => hnew (heq ▸ hn)
    obtain ⟨j, hj⟩ := exists_of_follows hfollows (hlist ▸ hn)
    by_cases hp : n = last rootIno l
    · subst hp
      rw [hothers2 _ _ hnino ha.prev_eq, hself1, nextInMemory_of_some ha.prev_eq]
    · have hj1 := (ha.others n hp hnino).trans hj
      rw [hothers2 n j hnino hj1, hothers1 n j hp hj, h.synced n hn, nextInMemory_of_some hj,
        nextInMemory_of_some hj1]
  · obtain rfl := List.mem_singleton.mp hn
    rw [hself2, nextInMemory_of_some ha.ino_eq]

/-- **Addition keeps the records and the list together**, also one that fails. -/
theorem Recorded.add (h : Recorded comp v) (fault : Option Errno) (hi : v.inodes ino = some i)
    (hnew : ino ∉ v.orphanInodes) (hstep : orphanStep comp v (.add fault ino) = some v') :
    Recorded comp v' := by
  obtain ⟨l, hlist, hfollows⟩ := h.list
  obtain ⟨prev, hprev, hend⟩ := exists_of_nextInMemory hfollows.next_last
  have hne : ino ≠ last rootIno l := fun heq => hnew (by rw [heq, hlist]; exact last_mem rootIno l)
  rw [orphanStep] at hstep
  rcases addToOrphan_cases h.rooted.ordered hlist hprev hend hi hne fault with
    ⟨e, v1, heq, -, hr⟩ | ⟨v1, heq, ha⟩
  · rw [heq] at hstep
    cases hstep
    exact h.of_refused hi hnew hr
  · rw [heq] at hstep
    simp only [ha.ino_eq, map_some] at hstep
    exact h.of_added hlist hfollows hprev hi hnew ha (some.inj hstep)

/-- The chain in memory after a deletion. -/
theorem OrphanDeleted.follows (hd : OrphanDeleted comp fault v v' (last a l₁) prev ino i)
    (hi : v.inodes ino = some i) (hfollows : Follows (nextInMemory v) 0 a (l₁ ++ ino :: l₂)) :
    Follows (nextInMemory v') 0 a (l₁ ++ l₂) := by
  have hnodup : (a :: l₁ ++ ino :: l₂).Nodup := hfollows.nodup
  refine hfollows.unlink ?_ fun n hn hp => ?_
  · rw [nextInMemory_of_some hd.prev_eq, nextInMemory_of_some hi]
  refine congrArg _ (hd.others n hp ?_)
  rintro rfl
  obtain ⟨-, hnodup2, hdisj⟩ := List.nodup_append.mp hnodup
  rcases List.mem_append.mp (List.cons_append ▸ hn) with hn | hn
  · exact hdisj n hn n List.mem_cons_self rfl
  · exact (List.nodup_cons.mp hnodup2).1 hn

/-- The element in front of an orphan leads to it. -/
theorem follows_prev (hfollows : Follows (nextInMemory v) 0 a (l₁ ++ ino :: l₂)) :
    ∃ prev, v.inodes (last a l₁) = some prev ∧ prev.nextOrphanId = ino := by
  induction l₁ generalizing a with
  | nil => exact exists_of_nextInMemory hfollows.1
  | cons b l₁ ih => exact ih hfollows.2.2

theorem prevOrphan_eq_none (hl : ino ∉ l) : prevOrphan ino (a :: l) = none := by
  induction l generalizing a with
  | nil => rfl
  | cons b l ih =>
    obtain ⟨hb, hl⟩ := List.ne_and_not_mem_of_not_mem_cons hl
    exact (if_neg hb.symm).trans (ih hl)

theorem OrphanDeleted.sameKeys (hd : OrphanDeleted comp fault v v' p prev ino i)
    (hprev : v.inodes p = some prev) (hi : v.inodes ino = some i) : SameKeys v v' := by
  intro n j hj
  by_cases hp : n = p
  · subst hp
    rw [hd.prev_eq] at hj
    cases hj
    exact ⟨prev, hprev, rfl⟩
  by_cases hn : n = ino
  · subst hn
    rw [hd.ino_eq] at hj
    cases hj
    exact ⟨i, hi, rfl⟩
  · exact ⟨j, (hd.others n hp hn).symm.trans hj, rfl⟩

/-- After a deletion the predecessor's record leads past the inode. -/
theorem Recorded.of_deleted (h : Recorded comp v) (hlist : v.orphanInodes = rootIno ::
    (l₁ ++ ino :: l₂)) (hfollows : Follows (nextInMemory v) 0 rootIno (l₁ ++ ino :: l₂))
    (hprev : v.inodes (last rootIno l₁) = some prev) (hi : v.inodes ino = some i)
    (hd : OrphanDeleted comp none v v' (last rootIno l₁) prev ino i) : Recorded comp v' := by
  have hwritten := hd.written.resolve_right fun ⟨_, _, hwhy⟩ => by
    obtain ⟨hp, x, hx, hkey⟩ := h.found _ _ hprev
    rcases hwhy with hwhy | hwhy
    · exact hwhy rfl
    · exact hwhy x (h.rooted.recordOf_mem hp hx).1 hkey
  obtain ⟨hknown, hself, hothers⟩ := h.of_written
    (w := { prev with nextOrphanId := i.nextOrphanId }) hprev rfl hwritten.1
    (hd.sameKeys hprev hi)
  have hnodup : v.orphanInodes.Nodup := hlist ▸ hfollows.nodup
  have hrest : v'.orphanInodes = rootIno :: (l₁ ++ l₂) := by
    rw [hd.list, hlist, ← List.cons_append, List.erase_append_right, List.erase_cons_head,
      List.cons_append]
    intro hmem
    rw [hlist, ← List.cons_append] at hnodup
    exact (List.nodup_append.mp hnodup).2.2 ino hmem ino List.mem_cons_self rfl
  refine ⟨hknown, ⟨l₁ ++ l₂, hrest, hd.follows hi hfollows⟩, fun n hn => ?_⟩
  rw [hd.list, hnodup.mem_erase_iff] at hn
  obtain ⟨j, hj⟩ := exists_of_follows hfollows (hlist ▸ hn.2)
  by_cases hp : n = last rootIno l₁
  · subst hp
    rw [hself, nextInMemory_of_some hd.prev_eq]
  · rw [hothers n j hp hj, h.synced n hn.2, nextInMemory, nextInMemory, hd.others n hp hn.1]

/-- **Deletion keeps the records and the list together.** -/
theorem Recorded.del (h : Recorded comp v) (hstep : orphanStep comp v (.del ino) = some v') :
    Recorded comp v' := by
  rw [orphanStep] at hstep
  by_cases hmem : ino ∈ v.orphanInodes
  · obtain ⟨l, hlist, hfollows⟩ := h.list
    have hnodup := hfollows.nodup
    rcases List.mem_cons.mp (hlist ▸ hmem) with rfl | hmem
    · -- the root is in front and stays there
      rw [vdfs4DelFromOrphan, if_pos hmem, hlist,
        prevOrphan_eq_none (List.nodup_cons.mp hnodup).1] at hstep
      cases hstep
    obtain ⟨l₁, l₂, rfl⟩ := List.append_of_mem hmem
    obtain ⟨prev, hprev, hnext⟩ := follows_prev hfollows
    obtain ⟨i, hi⟩ := exists_of_follows hfollows (List.mem_cons_of_mem _ hmem)
    obtain ⟨v1, heq, hd⟩ := delFromOrphan_cases h.rooted.ordered hlist (hlist ▸ hnodup) hprev
      hnext hi none
    rw [heq] at hstep
    exact some.inj hstep ▸ h.of_deleted hlist hfollows hprev hi hd
  · rw [vdfs4DelFromOrphan, if_neg hmem] at hstep
    exact some.inj hstep ▸ h

/-- One call keeps the invariant. -/
theorem Recorded.step (h : Recorded comp v) {op : OrphanOp} (hop : op.Fresh v)
    (hstep : orphanStep comp v op = some v') : Recorded comp v' := by
  cases op with
  | add fault ino =>
    obtain ⟨i, hi⟩ := isSome_iff_exists.mp hop.1
    exact h.add fault hi hop.2 hstep
  | del ino => exact h.del hstep

/-- **In every run the records mirror the list.** -/
theorem Mounted.mirrors_of_reaches (h : Mounted comp v)
    (hrun : Reaches OrphanOp.Fresh (orphanStep comp) v v') : Mirrors comp v' :=
  (hrun.invariant h.recorded fun _ _ _ h hop hstep => h.step hop hstep).mirrors

end Vdfs4
