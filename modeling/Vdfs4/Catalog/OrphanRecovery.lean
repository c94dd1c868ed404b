import Vdfs4.Catalog.Orphans
import Vdfs4.Catalog.Entries

/-!
# Orphans at the next mount

A mount follows the chain of orphans that the last one left and **evicts every inode** on it. The
chain is consumed from its front: each eviction makes the root lead to the next orphan.

* `vdfs4ProcessOrphanInodes` — the loop, with a bound on its rounds;
* `OrphanRecord` — an orphan that can be evicted; `Recovering` — the state between two rounds;
* `Recovering.round`, `Recovering.run` — one round, and **all of them**.
-/

namespace Vdfs4

open OrderedMap GuardedRun Chain Volume CatalogInode List Comparison

section

variable (comp : Comparison) {f : Nat → EvictFaults}

/-- `vdfs4_iget`, of inodes whose data can be loaded. -/
def igetInode (v : Volume) (ino : Nat) : Except Errno CatalogInode :=
  match v.inodes ino with
  | some i => .ok i
  | none =>
    match vdfs4Iget comp v.catalog ino with
    | .error e => .error e
    | .ok record => vdfs4GetInodeFromRecord comp (fun _ => {}) v.catalog record

/-- An inode of the chain comes into memory and at the end of the list. -/
def Volume.listOrphan (v : Volume) (ino : Nat) (i : CatalogInode) : Volume :=
  { v.setInode ino i with orphanInodes := v.orphanInodes ++ [ino] }

/-- `vdfs4_process_orphan_inodes`; `f` are the failures of the evictions. The loop of the code has
no bound, so `none` is also a loop that goes on after all rounds. -/
def vdfs4ProcessOrphanInodes (f : Nat → EvictFaults) : Nat → Volume → Outcome
  | 0, _ => none
  | rounds + 1, v =>
    match v.inodes rootIno with
    | none => none
    | some root =>
      let ino := root.nextOrphanId
      if ino = 0 then some (none, v)
      else
        match igetInode comp v ino with
        | .error _ => some (some .einval, v)
        | .ok inode =>
          if inode.nlink ≠ 0 ∨ inode.orphan = false then
            some (some .einval, (v.setInode ino inode).fatalError)
          else
            match vdfs4EvictInode comp (f ino) (v.listOrphan ino inode) ino with
            | none => none
            | some v => vdfs4ProcessOrphanInodes f rounds v

end

/-! ### A chain that can be evicted -/

/-- The record of an orphan without links, which stands where its flags say. -/
structure OrphanRecord (comp : Comparison) (c : Catalog) (ino : Nat)
    (y : CattreeKey × CatalogRecord) : Prop where
  ne_root : ino ≠ rootIno
  found : vdfs4Iget comp c ino = .ok y
  isInode : y.2.IsInode
  kind : y.2.fileMode ≠ .other
  orphan : y.2.orphan = true
  links : y.2.linksCount = 0
  body : y.2.hardLink = true → comp.rank y.1 = comp.rank (bodyKey ino)

/-- The state before a round: the root alone on the list, and its record leads to the rest of the
chain. -/
structure Recovering (comp : Comparison) (v : Volume) (l : List Nat) : Prop where
  rooted : Rooted comp v.catalog
  list : v.orphanInodes = [rootIno]
  root : ∃ root, v.inodes rootIno = some root ∧
    comp.rank (root.recordKey rootIno) = comp.rank rootKey ∧
    nextOnDisk comp v.catalog rootIno = some root.nextOrphanId
  chain : Follows (nextOnDisk comp v.catalog) 0 rootIno l
  orphans : ∀ o ∈ l, v.inodes o = none ∧ ∃ y, OrphanRecord comp v.catalog o y

/-- The record goes with an inode of the list: it is the inode's own record or its back link. -/
def GoesWith (comp : Comparison) (c : Catalog) (l : List Nat) (x : CattreeKey × CatalogRecord) :
    Prop :=
  ∃ o ∈ l, ∃ y, vdfs4Iget comp c o = .ok y ∧
    (comp.rank x.1 = comp.rank y.1 ∨ comp.rank x.1 = comp.rank y.1.ilinkKey)

variable {comp : Comparison} {c c' : Catalog} {v v' : Volume} {x y : CattreeKey × CatalogRecord}
  {o ino : Nat} {l : List Nat}

theorem OrphanRecord.object_eq (h : OrphanRecord comp c ino y) (hc : Rooted comp c)
    (hino : ino ≠ 0) : y ∈ c ∧ y.1.objectId = ino := by
  refine hc.recordOf_mem hino ?_
  rw [recordOf, if_neg h.ne_root]
  exact h.found

/-- The inode's own key is the key of its record. -/
theorem OrphanRecord.recordKey_rank (h : OrphanRecord comp c ino y) (hobj : y.1.objectId = ino) :
    comp.rank ((ofRecord y).recordKey ino) = comp.rank y.1 := by
  rw [recordKey]
  split
  · rename_i hlink
    exact (h.body hlink).symm
  · rw [← hobj]
    rfl

section

variable (h : OrphanRecord comp c ino y) (hc : Rooted comp c) (hino : ino ≠ 0)

include h hc hino

/-- The back link through which the inode is found. -/
theorem OrphanRecord.ilink_mem (hne : y.1.parentId ≠ ino) :
    ∃ x ∈ c, x.2.recordType = .ilink ∧ comp.rank x.1 = comp.rank y.1.ilinkKey := by
  obtain ⟨x, hx, hlead, -, hled⟩ := (hc.iget_eq_ok_iff hino).mp h.found
  rcases hled with ⟨ht, -, hrank⟩ | ⟨-, rfl⟩
  · refine ⟨x, hx, ht, ?_⟩
    obtain ⟨hp, hn, ho⟩ := rank_eq_iff.mp hrank
    exact rank_eq_iff.mpr ⟨hlead.1.trans ho.symm, hn.symm, hp.symm⟩
  · exact absurd hlead.1 hne

/-- **The removal at an eviction** takes the record and its back link. -/
theorem OrphanRecord.remove :
    let key := (ofRecord y).recordKey ino
    ∃ c', vdfs4CattreeRemove comp {} c ino key.parentId key.name y.2.recordType = (none, c') ∧
      c'.Ordered comp ∧ ∀ x, x ∈ c' ↔ x ∈ c ∧ comp.rank x.1 ≠ comp.rank y.1 ∧
        comp.rank x.1 ≠ comp.rank y.1.ilinkKey := by
  intro key
  obtain ⟨hy, hobj⟩ := h.object_eq hc hino
  have hkey : comp.rank ⟨key.parentId, key.name, ino⟩ = comp.rank y.1 := by
    rw [recordKey_eq]
    exact h.recordKey_rank hobj
  have hparent : key.parentId = y.1.parentId := (rank_eq_iff.mp hkey).1
  have hilink : comp.rank (CattreeKey.ilinkKey ⟨key.parentId, key.name, ino⟩) =
      comp.rank y.1.ilinkKey := by
    rw [rank_ilinkKey_iff]
    exact hkey
  obtain ⟨hnh, hni⟩ := h.isInode.ne
  by_cases hop : ino = key.parentId
  · -- a body has no back link
    have hself : comp.rank y.1.ilinkKey = comp.rank y.1 :=
      rank_eq_iff.mpr ⟨hobj.trans (hop.trans hparent), rfl, (hobj.trans (hop.trans hparent)).symm⟩
    rcases cattreeRemove_single hc.ordered {} key.name
        (show ¬ (ino ≠ key.parentId ∧ y.2.recordType ≠ .hlink ∧ y.2.recordType ≠ .ilink) from
          fun hn => hn.1 hop) with ⟨e, -, hwhy⟩ | ⟨c', heq, he⟩
    · rcases hwhy with hwhy | hwhy | hwhy
      · cases hwhy
      · exact absurd rfl hwhy
      · exact absurd hkey.symm (hwhy y hy)
    · refine ⟨c', heq, he.ordered, fun x => ?_⟩
      rw [he.mem_iff, hkey, hself, and_self]
  · rcases remove_cases hc.ordered {} hop hni ⟨y, hy, hkey.symm⟩ with
      ⟨e, c', -, -, -, hwhy⟩ | ⟨c', heq, hr⟩
    · obtain ⟨-, habs⟩ := hwhy.resolve_left (not_not.mpr rfl)
      obtain ⟨x, hx, -, hrank⟩ := h.ilink_mem hc hino fun heq => hop (heq.symm.trans hparent.symm)
      exact absurd (hrank.trans hilink.symm) (habs x hx)
    · refine ⟨c', heq, hr.ordered, fun x => ?_⟩
      rw [hr.mem_iff, hkey, hilink]
      simp [hnh]

/-- What the removal leaves: the leads to every other number, and its record. -/
theorem OrphanRecord.kept (hne : o ≠ ino) {z : CattreeKey × CatalogRecord} (hobj : z.1.objectId = o)
    (hz : z.2.recordType ≠ .ilink ∨ z.1.parentId ≠ ino) (hx : x ∈ c) (hxz : Lead o x ∨ x = z) :
    comp.rank x.1 ≠ comp.rank y.1 ∧ comp.rank x.1 ≠ comp.rank y.1.ilinkKey := by
  obtain ⟨hy, hyobj⟩ := h.object_eq hc hino
  constructor
  · intro hrank
    obtain rfl := hc.ordered.eq_of_rank hx hy hrank
    rcases hxz with ⟨-, ht | ho⟩ | rfl
    · exact h.isInode.ne.2 ht
    · exact hne (ho.symm.trans hyobj)
    · exact hne (hobj.symm.trans hyobj)
  · intro hrank
    obtain ⟨hp, -, ho⟩ := rank_eq_iff.mp hrank
    rcases hxz with hlead | rfl
    · exact hne (hlead.1.symm.trans (hp.trans hyobj))
    -- under the key of the back link there is only the back link
    by_cases hself : y.1.parentId = ino
    · exact hne (hobj.symm.trans (ho.trans hself))
    · obtain ⟨w, hw, hwt, hwrank⟩ := h.ilink_mem hc hino hself
      obtain rfl := hc.ordered.eq_of_rank hx hw (hrank.trans hwrank.symm)
      exact hz.elim (fun hz => hz hwt) fun hz => hz (hp.trans hyobj)

end

/-- **An eviction on the chain**: the record goes, and the root leads to the next orphan. -/
theorem OrphanRecord.evict (h : OrphanRecord comp v.catalog ino y) (hc : Rooted comp v.catalog)
    (hino : ino ≠ 0) (hlist : v.orphanInodes = [rootIno]) {root : CatalogInode}
    (hroot : v.inodes rootIno = some root)
    (hkey : comp.rank (root.recordKey rootIno) = comp.rank rootKey)
    (hnext : root.nextOrphanId = ino) :
    ∃ v' c1, vdfs4EvictInode comp {} (v.listOrphan ino (.ofRecord y)) ino = some v' ∧
      v'.orphanInodes = [rootIno] ∧
      v'.inodes rootIno = some { root with nextOrphanId := y.2.nextOrphanId } ∧
      (∀ n, n ≠ rootIno → n ≠ ino → v'.inodes n = v.inodes n) ∧
      Rooted comp c1 ∧ (∀ x, x ∈ c1 ↔ x ∈ v.catalog ∧ comp.rank x.1 ≠ comp.rank y.1 ∧
        comp.rank x.1 ≠ comp.rank y.1.ilinkKey) ∧
      v'.catalog = modify comp.compFn (root.recordKey rootIno)
        { root with nextOrphanId := y.2.nextOrphanId }.fillCattreeValue c1 := by
  obtain ⟨c1, hremove, hord, hmem⟩ := h.remove hc hino
  -- the record of the root stays
  obtain ⟨r, hr⟩ := hc.root
  have hr1 : (rootKey, r) ∈ c1 := by
    refine (hmem _).mpr ⟨hr, h.kept hc hino (o := rootIno) h.ne_root.symm rfl (.inr hino.symm) hr
      (.inr rfl)⟩
  have hc1 : Rooted comp c1 := ⟨hord, ⟨r, hr1⟩, fun x hx => hc.objectId_ne x ((hmem x).mp hx).1⟩
  have hne := h.ne_root
  let w : Volume := { v.listOrphan ino (.ofRecord y) with catalog := c1 }
  have hwlist : w.orphanInodes = rootIno :: ([] ++ ino :: []) := by
    simp [w, listOrphan, hlist]
  obtain ⟨v1, hdel, hd⟩ := delFromOrphan_cases (v := w) hord hwlist
    (by rw [hwlist]; simp [hne.symm]) ((setInode_of_ne _ _ hne.symm).trans hroot) hnext
    (setInode_self _ _) none
  have hwritten := hd.written.resolve_right fun ⟨_, _, hwhy⟩ => by
    rcases hwhy with hwhy | hwhy
    · exact hwhy rfl
    · exact hwhy _ hr1 hkey.symm
  refine ⟨v1.dropInode ino, c1, ?_, ?_, ?_, fun n hn hn' => ?_, hc1, hmem, hwritten.1⟩
  · have hself : (v.listOrphan ino (.ofRecord y)).inodes ino = some (.ofRecord y) :=
      setInode_self _ _
    rw [vdfs4EvictInode, hself]
    have hlinks : (ofRecord y).nlink = 0 := h.links
    simp only [hlinks, ne_eq, not_true_eq_false, if_false, and_false]
    rw [show (v.listOrphan ino (.ofRecord y)).catalog = v.catalog from rfl,
      show (ofRecord y).recordType = y.2.recordType from rfl, hremove]
    simp only [hdel, w, Option.map_some]
  · refine hd.list.trans ?_
    rw [hwlist]
    simp [hne.symm]
  · exact (dropInode_of_ne _ hne.symm).trans hd.prev_eq
  · exact (dropInode_of_ne _ hn').trans ((hd.others n hn hn').trans (setInode_of_ne _ _ hn'))

/-- The inode of an orphan record passes the checks of the loop. -/
theorem OrphanRecord.igetInode_eq (h : OrphanRecord comp v.catalog ino y)
    (hv : v.inodes ino = none) : igetInode comp v ino = .ok (.ofRecord y) := by
  have hfill : vdfs4FillInode {} y = .ok (.ofRecord y) :=
    fillInode_of_loadable ⟨h.kind, fun _ => rfl, .inl (by rw [h.links]; omega), rfl⟩
  rw [igetInode, hv, h.found]
  change vdfs4GetInodeFromRecord comp _ v.catalog y = _
  rw [vdfs4GetInodeFromRecord]
  rcases h.isInode with ht | ht <;> rw [ht] <;> exact hfill

theorem OrphanRecord.recordOf_eq (h : OrphanRecord comp c ino y) : recordOf comp c ino = .ok y := by
  rw [recordOf, if_neg h.ne_root]
  exact h.found

/-- **The records after an eviction**: the root leads on, and the other orphans keep theirs. -/
theorem Recovering.records (h : Recovering comp v (o :: l)) (hy : OrphanRecord comp v.catalog o y)
    {i : CatalogInode} (hkey : comp.rank (i.recordKey rootIno) = comp.rank rootKey)
    {c1 : Catalog} (hc1 : Rooted comp c1)
    (hmem : ∀ x, x ∈ c1 ↔ x ∈ v.catalog ∧ comp.rank x.1 ≠ comp.rank y.1 ∧
      comp.rank x.1 ≠ comp.rank y.1.ilinkKey)
    (hcat : c' = modify comp.compFn (i.recordKey rootIno) i.fillCattreeValue c1) :
    Rooted comp c' ∧ nextOnDisk comp c' rootIno = some i.nextOrphanId ∧
      ∀ o' ∈ l, ∃ z, OrphanRecord comp v.catalog o' z ∧ OrphanRecord comp c' o' z := by
  have hino : o ≠ 0 := h.chain.2.1
  have hnodup := nodup_cons.mp (nodup_cons.mp h.chain.nodup).2
  have hkept : ∀ o' z, o' ≠ o → o' ≠ 0 → recordOf comp v.catalog o' = .ok z →
      (z.2.recordType ≠ .ilink ∨ z.1.parentId ≠ o) → recordOf comp c1 o' = .ok z := by
    intro o' z hne hzero hz htype
    refine h.rooted.recordOf_transfer (f := id) hc1 hzero (fun _ => rfl) (fun _ => rfl)
      (fun x hx => ⟨x, ((hmem x).mp hx).1, rfl⟩) (fun x hx hxz => ?_) hz
    exact (hmem x).mpr
      ⟨hx, hy.kept h.rooted hino hne (h.rooted.recordOf_mem hzero hz).2 htype hx hxz⟩
  -- the record of the root
  obtain ⟨r, hr⟩ := h.rooted.root
  have hz1 := hkept rootIno _ hy.ne_root.symm (by decide) (h.rooted.recordOf_root hr)
    (.inr fun heq => hino heq.symm)
  obtain ⟨hrooted, hself, hrest⟩ := hc1.write (by decide) hz1 hkey.symm
  rw [← hcat] at hrooted hself hrest
  refine ⟨hrooted, nextOnDisk_eq hself, fun o' ho' => ?_⟩
  obtain ⟨-, z, hoz⟩ := h.orphans o' (mem_cons_of_mem o ho')
  have hzero : o' ≠ 0 := h.chain.ne_stop o' (mem_cons_of_mem o ho')
  have hne : o' ≠ o := fun heq => hnodup.1 (heq ▸ ho')
  have hz' := hrest o' z hoz.ne_root hzero
    (hkept o' z hne hzero hoz.recordOf_eq (.inl hoz.isInode.ne.2))
  rw [recordOf, if_neg hoz.ne_root] at hz'
  exact ⟨z, hoz, { hoz with found := hz' }⟩

/-- **One round** evicts the first orphan of the chain and leaves the others. -/
theorem Recovering.round (h : Recovering comp v (o :: l)) (hf : f o = {}) :
    ∃ v' y, OrphanRecord comp v.catalog o y ∧
      (∀ n, vdfs4ProcessOrphanInodes comp f (n + 1) v = vdfs4ProcessOrphanInodes comp f n v') ∧
      Recovering comp v' l ∧
      (∀ x, comp.rank x.1 ≠ comp.rank rootKey → (x ∈ v'.catalog ↔ x ∈ v.catalog ∧
        comp.rank x.1 ≠ comp.rank y.1 ∧ comp.rank x.1 ≠ comp.rank y.1.ilinkKey)) ∧
      ∀ o' ∈ l, vdfs4Iget comp v'.catalog o' = vdfs4Iget comp v.catalog o' := by
  obtain ⟨root, hroot, hkey, hdisk⟩ := h.root
  obtain ⟨hnone, y, hy⟩ := h.orphans o mem_cons_self
  have hnext : root.nextOrphanId = o := Option.mem_unique hdisk h.chain.1
  have hino : o ≠ 0 := h.chain.2.1
  obtain ⟨v', c1, hevict, hlist, hroot', hothers, hc1, hmem, hcat⟩ :=
    hy.evict h.rooted hino h.list hroot hkey hnext
  obtain ⟨hrooted, hself, horphans⟩ := h.records hy
    (i := { root with nextOrphanId := y.2.nextOrphanId }) hkey hc1 hmem hcat
  have hnodup := nodup_cons.mp (nodup_cons.mp h.chain.nodup).2
  refine ⟨v', y, hy, fun n => ?_, ⟨hrooted, hlist, ⟨_, hroot', hkey, hself⟩, ?_,
    fun o' ho' => ?_⟩, fun x hx => ?_, fun o' ho' => ?_⟩
  · rw [vdfs4ProcessOrphanInodes, hroot]
    simp only [hnext, if_neg hino, hy.igetInode_eq hnone, hf, hevict]
    rw [if_neg]
    rintro (hlinks | horphan)
    · exact hlinks hy.links
    · exact absurd (horphan.symm.trans hy.orphan) (by decide)
  · change Follows (nextOnDisk comp v'.catalog) 0 rootIno ([] ++ l)
    refine Follows.unlink h.chain ?_ fun n hn hp => ?_
    · rw [nextOnDisk_eq hy.recordOf_eq]
      exact hself
    · obtain ⟨z, hoz, hoz'⟩ := horphans n ((mem_cons.mp hn).resolve_left hp)
      rw [nextOnDisk_eq hoz.recordOf_eq, nextOnDisk_eq hoz'.recordOf_eq]
  · obtain ⟨z, hoz, hoz'⟩ := horphans o' ho'
    refine ⟨?_, z, hoz'⟩
    rw [hothers o' hoz.ne_root fun heq => hnodup.1 (heq ▸ ho')]
    exact (h.orphans o' (mem_cons_of_mem o ho')).1
  · rw [hcat, mem_modify comp.rankedBy, ← hmem]
    constructor
    · rintro (⟨hx, -⟩ | ⟨e, -, he, rfl⟩)
      · exact hx
      · exact absurd (he.trans hkey) hx
    · intro hx1
      exact .inl ⟨hx1, fun heq => hx (heq.trans hkey)⟩
  · obtain ⟨z, hoz, hoz'⟩ := horphans o' ho'
    rw [hoz.found, hoz'.found]

/-- **All rounds**: the loop ends, the root leads nowhere, and exactly what goes with the inodes
of the chain has left the catalog. -/
theorem Recovering.run (h : Recovering comp v l) (hf : ∀ o ∈ l, f o = {}) :
    ∃ v', (∀ n, l.length < n → vdfs4ProcessOrphanInodes comp f n v = some (none, v')) ∧
      Recovering comp v' [] ∧
      ∀ x, comp.rank x.1 ≠ comp.rank rootKey →
        (x ∈ v'.catalog ↔ x ∈ v.catalog ∧ ¬ GoesWith comp v.catalog l x) := by
  induction l generalizing v with
  | nil =>
    obtain ⟨root, hroot, -, hdisk⟩ := h.root
    have hend : root.nextOrphanId = 0 := Option.mem_unique hdisk h.chain
    refine ⟨v, fun n hn => ?_, h, fun x _ => by simp [GoesWith]⟩
    obtain ⟨n, rfl⟩ := Nat.exists_eq_succ_of_ne_zero (Nat.ne_zero_of_lt hn)
    rw [vdfs4ProcessOrphanInodes, hroot]
    simp [hend]
  | cons o l ih =>
    obtain ⟨v1, y, hy, hround, h1, hmem1, higet⟩ := h.round (hf o mem_cons_self)
    obtain ⟨v', hrun, hend, hmem⟩ := ih h1 fun o' ho' => hf o' (mem_cons_of_mem o ho')
    refine ⟨v', fun n hn => ?_, hend, fun x hx => ?_⟩
    · obtain ⟨n, rfl⟩ := Nat.exists_eq_succ_of_ne_zero (Nat.ne_zero_of_lt hn)
      rw [hround]
      exact hrun n (Nat.lt_of_succ_lt_succ hn)
    rw [hmem x hx, hmem1 x hx]
    have hgoes : GoesWith comp v.catalog (o :: l) x ↔
        (comp.rank x.1 = comp.rank y.1 ∨ comp.rank x.1 = comp.rank y.1.ilinkKey) ∨
          GoesWith comp v1.catalog l x := by
      simp only [GoesWith, exists_mem_cons_iff, hy.found, Except.ok.injEq, exists_eq_left']
      refine or_congr_right (exists_congr fun o' => and_congr_right fun ho' => ?_)
      rw [higet o' ho']
    rw [hgoes]
    tauto

/-! ### From one mount to the next -/

/-- A volume when `vdfs4_fill_super` has read the root inode and put it in front of the list. -/
def mountVolume (c : Catalog) (r : CatalogRecord) : Volume where
  catalog := c
  inodes n := if n = rootIno then some (.ofRecord (rootKey, r)) else none
  orphanInodes := [rootIno]
  readOnly := false

/-- A catalog whose chain ends and consists of orphans that can be evicted. -/
structure Recoverable (comp : Comparison) (c : Catalog) (r : CatalogRecord) (l : List Nat) :
    Prop where
  rooted : Rooted comp c
  root : (rootKey, r) ∈ c
  root_single : r.hardLink = false
  chain : Follows (nextOnDisk comp c) 0 rootIno l
  orphans : ∀ o ∈ l, ∃ y, OrphanRecord comp c o y

theorem Recoverable.recovering {r : CatalogRecord} (h : Recoverable comp c r l) :
    Recovering comp (mountVolume c r) l where
  rooted := h.rooted
  list := rfl
  root := by
    refine ⟨.ofRecord (rootKey, r), rfl, ?_, ?_⟩
    · rw [recordKey, if_neg]
      · rfl
      · exact Bool.not_eq_true _ ▸ h.root_single
    · exact nextOnDisk_eq (h.rooted.recordOf_root h.root)
  chain := h.chain
  orphans o ho := by
    obtain ⟨y, hy⟩ := h.orphans o ho
    exact ⟨if_neg hy.ne_root, y, hy⟩

/-- **The records keep the list of orphans, and a mount consumes them.** The calls are those of
`vdfs4_unlink` and `vdfs4_evict_inode`; an inode is added when it is not on the list. -/
theorem orphan_chain_kept_and_consumed (comp : Comparison) :
    (∀ v v' : Volume, Mounted comp v → Reaches OrphanOp.Fresh (orphanStep comp) v v' →
      Mirrors comp v') ∧
    ∀ (c : Catalog) (r : CatalogRecord) (l : List Nat) (f : Nat → EvictFaults),
      Recoverable comp c r l → (∀ o ∈ l, f o = {}) →
      ∃ v', (∀ n, l.length < n →
          vdfs4ProcessOrphanInodes comp f n (mountVolume c r) = some (none, v')) ∧
        nextInMemory v' rootIno = some 0 ∧ nextOnDisk comp v'.catalog rootIno = some 0 ∧
        v'.orphanInodes = [rootIno] ∧
        ∀ x, comp.rank x.1 ≠ comp.rank rootKey →
          (x ∈ v'.catalog ↔ x ∈ c ∧ ¬ GoesWith comp c l x) := by
  refine ⟨fun v v' h hrun => h.mirrors_of_reaches hrun, fun c r l f h hf => ?_⟩
  obtain ⟨v', hrun, hend, hmem⟩ := h.recovering.run hf
  obtain ⟨root, hroot, -, hdisk⟩ := hend.root
  have hzero : root.nextOrphanId = 0 := Option.mem_unique hdisk hend.chain
  exact ⟨v', hrun, by rw [nextInMemory_of_some hroot, hzero], hend.chain, hend.list, hmem⟩

/-- A root directory with two files in it, which have been unlinked but for the last step. -/
def twoFiles : Catalog :=
  let file : CatalogRecord := ⟨.file, .reg, false, false, 0, 0, finalOrphanId⟩
  [(rootKey, emptyRoot), (⟨1, nameA, 2⟩, file), (⟨1, nameB, 3⟩, file),
    (⟨2, nameA, 1⟩, .blank .ilink), (⟨3, nameB, 1⟩, .blank .ilink)]

/-- The volume with the root and both files in memory. -/
def twoFilesVolume : Volume where
  catalog := twoFiles
  inodes n :=
    if n = 1 then some (.ofRecord (rootKey, emptyRoot))
    else if n = 2 then some ⟨.reg, 0, 0, 0, false, false, 1, nameA, .file, finalOrphanId⟩
    else if n = 3 then some ⟨.reg, 0, 0, 0, false, false, 1, nameB, .file, finalOrphanId⟩
    else none
  orphanInodes := [1]
  readOnly := false

theorem twoFilesVolume_mounted : Mounted .caseSensitive twoFilesVolume where
  rooted := by decide +kernel
  found ino i hi := by
    simp only [twoFilesVolume] at hi
    split at hi
    · subst ino
      exact ⟨by decide, (rootKey, emptyRoot), rfl, by rw [← Option.some.inj hi]; rfl⟩
    split at hi
    · subst ino
      exact ⟨by decide, _, rfl, by rw [← Option.some.inj hi]; rfl⟩
    · split at hi
      · subst ino
        exact ⟨by decide, _, rfl, by rw [← Option.some.inj hi]; rfl⟩
      · cases hi
  list := rfl
  root := rfl
  root_disk := rfl

/-- **The call alone leaves the chain open**: the record of the new last orphan still says what it
said before. -/
theorem addToOrphan_leaves_chain_open :
    Mounted .caseSensitive twoFilesVolume ∧ (OrphanOp.add none 2).Fresh twoFilesVolume ∧
      ∃ v', orphanCall .caseSensitive twoFilesVolume (.add none 2) = some v' ∧
        ¬ Mirrors .caseSensitive v' := by
  have hcall : (orphanCall .caseSensitive twoFilesVolume (.add none 2)).map
      (fun v' => decide (Mirrors .caseSensitive v')) = some false := by decide +kernel
  obtain ⟨v', hv', hopen⟩ := Option.map_eq_some_iff.mp hcall
  exact ⟨twoFilesVolume_mounted, by decide +kernel, v', hv', of_decide_eq_false hopen⟩

/-- Both files become orphans, the second one at the second try, and the first one goes. -/
def orphanOps : List OrphanOp :=
  [.add none 2, .add (some .enomem) 3, .add none 3, .del 2]

/-- The catalog of a volume that was not unmounted: two orphans. -/
def twoOrphans : Catalog :=
  let orphan : CatalogRecord := ⟨.file, .reg, true, false, 0, 0, 0⟩
  [(rootKey, { emptyRoot with nextOrphanId := 3 }),
    (⟨1, nameA, 2⟩, orphan), (⟨1, nameB, 3⟩, { orphan with nextOrphanId := 2 }),
    (⟨2, nameA, 1⟩, .blank .ilink), (⟨3, nameB, 1⟩, .blank .ilink)]

theorem twoOrphans_recoverable :
    Recoverable .caseSensitive twoOrphans { emptyRoot with nextOrphanId := 3 } [3, 2] where
  rooted := by decide +kernel
  root := by decide +kernel
  root_single := rfl
  chain := by decide +kernel
  orphans o ho := by
    rcases mem_cons.mp ho with rfl | ho
    · exact ⟨_, by decide, rfl, .inr rfl, by decide, rfl, rfl, by simp⟩
    · obtain rfl := mem_singleton.mp ho
      exact ⟨_, by decide, rfl, .inr rfl, by decide, rfl, rfl, by simp⟩

theorem orphan_chain_sample :
    (∃ v', guardedRun OrphanOp.Fresh (orphanStep .caseSensitive) orphanOps twoFilesVolume =
      some v' ∧ v'.orphanInodes = [1, 3] ∧ Mirrors .caseSensitive v') ∧
    ∃ v', (∀ n, 2 < n → vdfs4ProcessOrphanInodes .caseSensitive (fun _ => {}) n
        (mountVolume twoOrphans { emptyRoot with nextOrphanId := 3 }) = some (none, v')) ∧
      nextInMemory v' rootIno = some 0 := by
  constructor
  · have hrun : (guardedRun OrphanOp.Fresh (orphanStep .caseSensitive) orphanOps twoFilesVolume).map
        orphanInodes = some [1, 3] := by decide +kernel
    obtain ⟨v', hv', hlist⟩ := Option.map_eq_some_iff.mp hrun
    exact ⟨v', hv', hlist, (orphan_chain_kept_and_consumed .caseSensitive).1 _ _
      twoFilesVolume_mounted (reaches_of_guardedRun hv')⟩
  · obtain ⟨v', hrun, hnext, -⟩ := (orphan_chain_kept_and_consumed .caseSensitive).2 _ _ _
      (fun _ => {}) twoOrphans_recoverable fun _ _ => rfl
    exact ⟨v', hrun, hnext⟩

end Vdfs4
