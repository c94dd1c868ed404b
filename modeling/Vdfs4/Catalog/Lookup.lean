import Vdfs4.Catalog.Pairing

/-!
# Lookup of a name

Under one directory and one name the catalog may hold a **live** record, any number of
**orphans** (unlinked, still open) and the **back link** of the directory itself, ordered by
their object numbers only. `vdfs4_cattree_find` looks at the last of them, or else for the first
that is not an orphan; `vdfs4_lookup` steps back once when that is the back link.

* `vdfs4GetInodeFromRecord`, `vdfs4Lookup` — the code, for both comparison functions;
* `NameGroup` — the records of the name between the records in front and behind;
* `LookupSafe` — the orders of object numbers in which the two steps reach the live record.
-/

namespace Vdfs4

open OrderedMap List CatalogRecord Comparison CString

/-! ### Inodes from records -/

/-- The inode that `vdfs4_fill_inode` fills from a record. -/
def CatalogInode.ofRecord (x : CattreeKey × CatalogRecord) : CatalogInode :=
  let special := x.2.fileMode = .chr ∨ x.2.fileMode = .blk ∨ x.2.fileMode = .fifo ∨
    x.2.fileMode = .sock
  { kind := x.2.fileMode
    rdev := if special then x.2.totalItemsCount else 0
    nlink := x.2.linksCount
    isize := if special then 0 else x.2.totalItemsCount
    hardLink := x.2.hardLink
    orphan := x.2.orphan
    parentId := x.1.parentId
    name := x.1.name
    recordType := x.2.recordType
    nextOrphanId := x.2.nextOrphanId }

/-- What `vdfs4_parse_fork` and, for a compressed file, `vdfs4_prepare_compressed_file_inode` say of
the data of an inode, which is not in the model of a record. -/
structure LoadFaults where
  parseFork : Option Errno := none
  prepareCompressed : Option Errno := none

/-- The record has a fork that is loaded. -/
def CatalogRecord.HasFork (r : CatalogRecord) : Prop :=
  r.recordType = .file ∧ (r.fileMode = .lnk ∨ r.fileMode = .reg)

instance (r : CatalogRecord) : Decidable r.HasFork := inferInstanceAs (Decidable (_ ∧ _))

/-- `vdfs4_fill_inode`, and what follows it: the fork, the check of the link count and the
descriptor of a compressed file. -/
def vdfs4FillInode (load : LoadFaults) (x : CattreeKey × CatalogRecord) :
    Except Errno CatalogInode :=
  if x.2.fileMode = .other then .error .einval
  else
    match if x.2.HasFork then load.parseFork else none with
    | some e => .error e
    | none =>
      if 1 < x.2.linksCount ∧ x.2.hardLink = false then .error .efault
      else
        match load.prepareCompressed with
        | some e => .error e
        | none => .ok (.ofRecord x)

/-- An inode can be made of the record. -/
structure Loadable (load : LoadFaults) (r : CatalogRecord) : Prop where
  kind : r.fileMode ≠ .other
  parseFork : r.HasFork → load.parseFork = none
  links : r.linksCount ≤ 1 ∨ r.hardLink = true
  prepareCompressed : load.prepareCompressed = none

instance (load : LoadFaults) (r : CatalogRecord) : Decidable (Loadable load r) :=
  decidable_of_iff (r.fileMode ≠ .other ∧ (r.HasFork → load.parseFork = none) ∧
    (r.linksCount ≤ 1 ∨ r.hardLink = true) ∧ load.prepareCompressed = none)
    ⟨fun h => ⟨h.1, h.2.1, h.2.2.1, h.2.2.2⟩, fun h => ⟨h.1, h.2, h.3, h.4⟩⟩

theorem fillInode_of_loadable {load : LoadFaults} {x : CattreeKey × CatalogRecord}
    (h : Loadable load x.2) : vdfs4FillInode load x = .ok (.ofRecord x) := by
  have hfork : (if x.2.HasFork then load.parseFork else none) = none := by
    split
    · next hf => exact h.parseFork hf
    · rfl
  have hlinks : ¬ (1 < x.2.linksCount ∧ x.2.hardLink = false) := by
    rintro ⟨hlt, hno⟩
    rcases h.links with hle | hyes
    · omega
    · exact absurd (hyes.symm.trans hno) (by decide)
  simp only [vdfs4FillInode, if_neg h.kind, hfork, if_neg hlinks, h.prepareCompressed]

theorem loadable_of_fillInode {load : LoadFaults} {x : CattreeKey × CatalogRecord}
    {i : CatalogInode} (h : vdfs4FillInode load x = .ok i) : Loadable load x.2 := by
  rw [vdfs4FillInode] at h
  split at h
  · cases h
  next hkind =>
  split at h
  · cases h
  next hfork =>
  split at h
  · cases h
  next hlinks =>
  split at h
  · cases h
  next hprepare =>
  refine ⟨hkind, fun hf => by rwa [if_pos hf] at hfork, ?_, hprepare⟩
  by_contra hne
  rw [not_or, not_le, Bool.not_eq_true] at hne
  exact hlinks hne

section

variable (comp : Comparison) {e : CattreeKey × CatalogRecord} {o : Nat}

/-- `vdfs4_get_inode_from_record` for an inode that is not in memory: a reference leads to the
body, and then the inode gets neither a name nor a parent. -/
def vdfs4GetInodeFromRecord (load : Nat → LoadFaults) (c : Catalog)
    (record : CattreeKey × CatalogRecord) : Except Errno CatalogInode :=
  let ino := record.1.objectId
  match record.2.recordType with
  | .ilink => .error .efault
  | .hlink =>
    match vdfs4CattreeFindInode comp c ino ino CString.empty with
    | .error e => .error e
    | .ok (body, _) =>
      if body.2.recordType = .hlink then .error .emlink
      else if body.2.recordType = .ilink then .error .efault
      else vdfs4FillInode (load ino) (⟨0, CString.empty, ino⟩, body.2)
  | _ => vdfs4FillInode (load ino) record

/-- `VDFS4_FILE_NAME_LEN`. -/
def vdfs4FileNameLen : Nat := 255

/-- The second search of `vdfs4_lookup`, after the first one ended at a back link: the record in
front of it, if its name is **byte by byte** the name looked for. -/
def lookupBehindIlink (c : Catalog) (dir : Nat) (name : CString) (ilink : CattreeKey) :
    Except Errno (CattreeKey × CatalogRecord) :=
  match seek comp.compFn ⟨dir, name, (ilink.objectId + (2 ^ 64 - 1)) % 2 ^ 64⟩ c with
  | none => .error .enoent
  | some (record, _) =>
    if record.1.parentId ≠ dir ∨ record.1.name.length ≠ name.length ∨
        CString.memcmp record.1.name.bytes name.bytes record.1.name.length ≠ 0 then .error .enoent
    else .ok record

/-- The record `vdfs4_lookup` ends at. -/
def lookupRecord (c : Catalog) (dir : Nat) (name : CString) :
    Except Errno (CattreeKey × CatalogRecord) :=
  match vdfs4CattreeFind comp c dir name with
  | .error e => .error e
  | .ok (record, _) =>
    if record.2.recordType = .ilink then lookupBehindIlink comp c dir name record.1 else .ok record

/-- `vdfs4_lookup`: the number of the inode, which is in memory (`cached`) or made from the record,
or `none` for a negative dentry. -/
def vdfs4Lookup (load : Nat → LoadFaults) (cached : Nat → Bool) (c : Catalog) (dir : Nat)
    (name : CString) : Except Errno (Option Nat) :=
  if vdfs4FileNameLen < name.length then .error .enametoolong
  else
    match lookupRecord comp c dir name with
    | .ok record =>
      if record.2.recordType = .ilink ∨ record.2.isOrphan = true then .ok none
      else if cached record.1.objectId then .ok (some record.1.objectId)
      else (vdfs4GetInodeFromRecord comp load c record).map fun _ => some record.1.objectId
    | .error .enoent => .ok none
    | .error e => .error e

end

/-! ### The records of a name -/

/-- The record stands under the directory and the name. -/
def Named (comp : Comparison) (dir : Nat) (name : CString) (x : CattreeKey × CatalogRecord) :
    Prop :=
  comp.SameName x.1 ⟨dir, name, 0⟩

instance (comp : Comparison) (dir : Nat) (name : CString) (x : CattreeKey × CatalogRecord) :
    Decidable (Named comp dir name x) :=
  inferInstanceAs (Decidable (_ ∧ _))

/-- The records of a name, and those in front of them and behind. -/
structure NameGroup (comp : Comparison) (c : Catalog) (dir : Nat) (name : CString)
    (lo g hi : Catalog) : Prop where
  eq : c = lo ++ g ++ hi
  named : ∀ x ∈ g, Named comp dir name x
  front : ∀ x ∈ lo, ∀ o, comp.rank x.1 < comp.rank ⟨dir, name, o⟩
  behind : ∀ x ∈ hi, ∀ o, comp.rank ⟨dir, name, o⟩ < comp.rank x.1

variable {comp : Comparison} {c lo g hi : Catalog} {dir : Nat} {name : CString}
  {x y : CattreeKey × CatalogRecord}

theorem Named.sameName (h : Named comp dir name x) (o : Nat) : comp.SameName x.1 ⟨dir, name, o⟩ := h

/-- Every catalog in order splits so. -/
theorem Catalog.Ordered.exists_group (hc : c.Ordered comp) (dir : Nat) (name : CString) :
    ∃ lo g hi, NameGroup comp c dir name lo g hi := by
  -- a record of another name is in front of all keys of the name or behind all of them
  have hother : ∀ x ∈ c, ¬ Named comp dir name x →
      (∀ o, comp.rank x.1 < comp.rank ⟨dir, name, o⟩) ∨
        ∀ o, comp.rank ⟨dir, name, o⟩ < comp.rank x.1 := by
    intro x _ hx
    rcases lt_or_ge (comp.rank x.1) (comp.rank ⟨dir, name, 0⟩) with hlt | hge
    · refine .inl fun o => hlt.trans_le ?_
      exact (show comp.SameName ⟨dir, name, 0⟩ ⟨dir, name, o⟩ from ⟨rfl, rfl⟩).rank_le_iff.mpr
        (Nat.zero_le o)
    · refine .inr fun o => lt_of_not_ge fun hle => hx ?_
      exact ((show comp.SameName ⟨dir, name, 0⟩ ⟨dir, name, o⟩ from ⟨rfl, rfl⟩).of_between hge
        hle).symm
  have hsub : ∀ q : CattreeKey × CatalogRecord → Bool, Catalog.Ordered comp (c.filter q) := fun q =>
    List.Pairwise.sublist filter_sublist hc
  let front : CattreeKey × CatalogRecord → Bool := fun x =>
    decide (comp.rank x.1 < comp.rank ⟨dir, name, 0⟩)
  let inside : CattreeKey × CatalogRecord → Bool := fun x => decide (Named comp dir name x)
  let behind : CattreeKey × CatalogRecord → Bool := fun x => !front x && !inside x
  have hfront : ∀ x ∈ c.filter front, ∀ o, comp.rank x.1 < comp.rank ⟨dir, name, o⟩ := by
    intro x hx o
    obtain ⟨-, hlt⟩ := mem_filter.mp hx
    refine (of_decide_eq_true hlt).trans_le ?_
    exact (show comp.SameName ⟨dir, name, 0⟩ ⟨dir, name, o⟩ from ⟨rfl, rfl⟩).rank_le_iff.mpr
      (Nat.zero_le o)
  have hnamed : ∀ x ∈ c.filter inside, Named comp dir name x := fun x hx =>
    of_decide_eq_true (mem_filter.mp hx).2
  have hbehind : ∀ x ∈ c.filter behind, ∀ o, comp.rank ⟨dir, name, o⟩ < comp.rank x.1 := by
    intro x hx
    obtain ⟨hxc, hq⟩ := mem_filter.mp hx
    simp only [behind, front, inside, Bool.and_eq_true, Bool.not_eq_true', decide_eq_false_iff_not]
      at hq
    exact (hother x hxc hq.2).resolve_left fun hlt => hq.1 (hlt 0)
  have hkey : ∀ x ∈ c.filter inside, comp.rank x.1 = comp.rank ⟨dir, name, x.1.objectId⟩ :=
    fun x hx => rank_eq_iff.mpr ⟨(hnamed x hx).1, (hnamed x hx).2, rfl⟩
  refine ⟨c.filter front, c.filter inside, c.filter behind, ?_, hnamed, hfront, hbehind⟩
  refine Sorted.ext hc (Sorted.append_iff.mpr ⟨Sorted.append_iff.mpr ⟨hsub _, hsub _, ?_⟩, hsub _,
    ?_⟩) fun x => ?_
  · intro a ha b hb
    rw [hkey b hb]
    exact hfront a ha _
  · intro a ha b hb
    rcases mem_append.mp ha with ha | ha
    · exact (hfront a ha 0).trans (hbehind b hb 0)
    · rw [hkey a ha]
      exact hbehind b hb _
  · simp only [mem_append, mem_filter]
    constructor
    · intro hx
      cases hf : front x with
      | true => exact .inl (.inl ⟨hx, rfl⟩)
      | false =>
        cases hi : inside x with
        | true => exact .inl (.inr ⟨hx, rfl⟩)
        | false => exact .inr ⟨hx, by simp [behind, hf, hi]⟩
    · rintro ((⟨hx, -⟩ | ⟨hx, -⟩) | ⟨hx, -⟩) <;> exact hx

namespace NameGroup

section

variable (hg : NameGroup comp c dir name lo g hi)

include hg

/-- The group holds all records of the name. -/
theorem mem_iff : x ∈ g ↔ x ∈ c ∧ Named comp dir name x := by
  constructor
  · intro hx
    exact ⟨by rw [hg.eq]; simp [hx], hg.named x hx⟩
  rintro ⟨hx, hn⟩
  have hrank : comp.rank x.1 = comp.rank ⟨dir, name, x.1.objectId⟩ :=
    rank_eq_iff.mpr ⟨hn.1, hn.2, rfl⟩
  rw [hg.eq] at hx
  rcases mem_append.mp hx with hx | hx
  · rcases mem_append.mp hx with hx | hx
    · exact absurd hrank (hg.front x hx _).ne
    · exact hx
  · exact absurd hrank (hg.behind x hx _).ne'

/-- The record of the root is in front of the group. -/
theorem exists_front (h : Rooted comp c) (hdir : dir ≠ 0) :
    ∃ lo' z, lo = lo' ++ [z] := by
  obtain ⟨r, hr⟩ := h.root
  have hrlo : (rootKey, r) ∈ lo := by
    rw [hg.eq, mem_append, mem_append] at hr
    rcases hr with (hr | hr) | hr
    · exact hr
    · exact absurd (hg.named _ hr).1.symm hdir
    · have := rank_lt_iff.mp (hg.behind _ hr 0)
      simp only [rootKey, Nat.not_lt_zero, hdir, false_and, or_false] at this
  rcases eq_nil_or_concat lo with rfl | ⟨lo', z, rfl⟩
  · exact absurd hrlo not_mem_nil
  · exact ⟨lo', z, concat_eq_append⟩

/-- Inside the group the object numbers rise. -/
theorem pairwise (hc : c.Ordered comp) :
    g.Pairwise fun a b => a.1.objectId < b.1.objectId := by
  have hsort : Sorted comp.rank g := by
    have := hc
    rw [hg.eq] at this
    exact (Sorted.append_iff.mp (Sorted.append_iff.mp this).1).2.1
  refine List.Pairwise.imp_of_mem (fun {a b} ha hb hlt => ?_) hsort
  exact (((hg.named a ha).sameName 0).trans ((hg.named b hb).sameName 0).symm).rank_lt_iff.mp hlt

/-- The group around one of its records: smaller numbers in front, greater ones behind. -/
theorem around (hc : c.Ordered comp) {a b : Catalog} (hsplit : g = a ++ x :: b) :
    (∀ z ∈ a, z.1.objectId < x.1.objectId) ∧ (∀ z ∈ b, x.1.objectId < z.1.objectId) ∧
      ∀ z ∈ c, Named comp dir name z → z ∈ a ∨ z = x ∨ z ∈ b := by
  have hrise := hg.pairwise hc
  rw [hsplit] at hrise
  obtain ⟨-, hrise2, hcross⟩ := pairwise_append.mp hrise
  refine ⟨fun z hz => hcross z hz x mem_cons_self, (pairwise_cons.mp hrise2).1,
    fun z hz hn => ?_⟩
  have := hg.mem_iff.mpr ⟨hz, hn⟩
  rw [hsplit] at this
  simpa using this

/-- The search of a key of the name ends at the last record of the group not above it. -/
theorem seek_at (hc : c.Ordered comp) {a b : Catalog}
    (hsplit : g = a ++ x :: b) (hle : x.1.objectId ≤ o) (hlt : ∀ y ∈ b, o < y.1.objectId) :
    seek comp.compFn ⟨dir, name, o⟩ c = some (x, b ++ hi) := by
  have hmem : ∀ y, y ∈ a ∨ y = x ∨ y ∈ b → y ∈ g := by
    intro y hy
    rw [hsplit]
    simpa using hy
  have hrise := hg.pairwise hc
  rw [hsplit] at hrise
  rw [hg.eq, hsplit, show lo ++ (a ++ x :: b) ++ hi = (lo ++ a) ++ x :: (b ++ hi) by simp]
  refine OrderedMap.seek_at comp.rankedBy (fun y hy => ?_) ?_ fun y hy => ?_
  · rcases mem_append.mp hy with hy | hy
    · exact (hg.front y hy o).le
    · refine ((hg.named y (hmem y (.inl hy))).sameName o).rank_le_iff.mpr ?_
      exact ((pairwise_append.mp hrise).2.2 y hy x mem_cons_self).le.trans hle
  · exact ((hg.named x (hmem x (.inr (.inl rfl)))).sameName o).rank_le_iff.mpr hle
  · rcases mem_append.mp hy with hy | hy
    · exact ((hg.named y (hmem y (.inr (.inr hy)))).sameName o).symm.rank_lt_iff.mpr (hlt y hy)
    · exact hg.behind y hy o

end

/-- The search of a key of the name below the whole group ends in front of the group. -/
theorem seek_front (hg : NameGroup comp c dir name (lo ++ [y]) g hi)
    (hlt : ∀ x ∈ g, o < x.1.objectId) :
    seek comp.compFn ⟨dir, name, o⟩ c = some (y, g ++ hi) := by
  rw [hg.eq, show lo ++ [y] ++ g ++ hi = lo ++ y :: (g ++ hi) by simp]
  refine OrderedMap.seek_at comp.rankedBy (fun x hx => (hg.front x (by simp [hx]) o).le)
    (hg.front y (by simp) o).le fun x hx => ?_
  rcases mem_append.mp hx with hx | hx
  · exact ((hg.named x hx).sameName o).symm.rank_lt_iff.mpr (hlt x hx)
  · exact hg.behind x hx o

end NameGroup

/-! ### What the searches find -/

/-- The loop of `vdfs4_cattree_find` over the group. -/
theorem findLoop_group (hnamed : ∀ x ∈ g, Named comp dir name x)
    (hbehind : ∀ x ∈ hi, ∀ o, comp.rank ⟨dir, name, o⟩ < comp.rank x.1) :
    (∀ x ∈ g, x.2.isOrphan = true) ∧ findLoop comp ⟨dir, name, o⟩ (g ++ hi) = .error .enoent ∨
      ∃ a x b, g = a ++ x :: b ∧ (∀ y ∈ a, y.2.isOrphan = true) ∧ x.2.isOrphan = false ∧
        findLoop comp ⟨dir, name, o⟩ (g ++ hi) = .ok (x, b ++ hi) := by
  induction g with
  | nil =>
    refine .inl ⟨fun x hx => absurd hx not_mem_nil, ?_⟩
    rw [nil_append]
    cases hi with
    | nil => rfl
    | cons x hi =>
      -- the first record behind the group has another name
      have hne : comp.compFn x.1 ⟨dir, name, x.1.objectId⟩ ≠ 0 := fun hzero =>
        (hbehind x mem_cons_self _).ne' ((comp.rankedBy.eq_zero_iff _ _).mp hzero)
      rw [findLoop, if_pos hne]
  | cons x g ih =>
    have hzero : comp.compFn x.1 ⟨dir, name, x.1.objectId⟩ = 0 :=
      (comp.compFn_withObject x.1 ⟨dir, name, o⟩).mpr (hnamed x mem_cons_self)
    rw [cons_append, findLoop, if_neg (not_not.mpr hzero)]
    cases horphan : x.2.isOrphan with
    | false => exact .inr ⟨[], x, g, rfl, by simp, horphan, rfl⟩
    | true =>
      rcases ih fun y hy => hnamed y (mem_cons_of_mem _ hy) with
        ⟨hall, heq⟩ | ⟨a, y, b, hsplit, ha, hy, heq⟩
      · refine .inl ⟨fun y hy => ?_, heq⟩
        rcases mem_cons.mp hy with rfl | hy
        · exact horphan
        · exact hall y hy
      · refine .inr ⟨x :: a, y, b, by rw [hsplit]; rfl, fun z hz => ?_, hy, heq⟩
        rcases mem_cons.mp hz with rfl | hz
        · exact horphan
        · exact ha z hz

namespace NameGroup

section

variable (hg : NameGroup comp c dir name (lo ++ [y]) g hi) (hc : c.Ordered comp)
  (hids : ∀ x ∈ g, 0 < x.1.objectId ∧ x.1.objectId < 2 ^ 64)

include hg hc hids

/-- **`vdfs4_cattree_find`**: the last record of the group, or the first that is not an orphan
when the last one is. -/
theorem find_cases :
    (∀ x ∈ g, x.2.isOrphan = true) ∧ vdfs4CattreeFind comp c dir name = .error .enoent ∨
      ∃ a x b, g = a ++ x :: b ∧ x.2.isOrphan = false ∧
        vdfs4CattreeFind comp c dir name = .ok (x, b ++ hi) ∧
        (b = [] ∨ (∀ z ∈ a, z.2.isOrphan = true) ∧ ∃ b' m, b = b' ++ [m] ∧
          m.2.isOrphan = true) := by
  rcases eq_nil_or_concat g with rfl | ⟨a, m, hsplit⟩
  · -- no record of the name
    refine .inl ⟨fun x hx => absurd hx not_mem_nil, ?_⟩
    have hseek := hg.seek_front (o := greatestAvailId) fun x hx => absurd hx not_mem_nil
    have hne : comp.compFn y.1 ⟨dir, name, y.1.objectId⟩ ≠ 0 := fun hzero =>
      (hg.front y (by simp) _).ne ((comp.rankedBy.eq_zero_iff _ _).mp hzero)
    simp only [vdfs4CattreeFind, hseek, if_pos hne]
  · rw [concat_eq_append] at hsplit
    have hm : m ∈ g := by simp [hsplit]
    have hseek := hg.seek_at hc hsplit (o := greatestAvailId)
      (by have := (hids m hm).2; rw [greatestAvailId]; omega)
      fun z hz => absurd hz not_mem_nil
    have hzero : comp.compFn m.1 ⟨dir, name, m.1.objectId⟩ = 0 :=
      (comp.compFn_withObject m.1 ⟨dir, name, 0⟩).mpr (hg.named m hm)
    cases horphan : m.2.isOrphan with
    | false =>
      refine .inr ⟨a, m, [], hsplit, horphan, ?_, .inl rfl⟩
      simp [vdfs4CattreeFind, hseek, hzero, horphan]
    | true =>
      -- the second search starts in front of the group
      have hfront := hg.seek_front (o := 0) fun x hx => (hids x hx).1
      have heq : vdfs4CattreeFind comp c dir name =
          findLoop comp ⟨dir, name, greatestAvailId⟩ (g ++ hi) := by
        simp [vdfs4CattreeFind, hseek, hzero, horphan, hfront]
      rw [heq]
      rcases findLoop_group (o := greatestAvailId) hg.named hg.behind with
        ⟨hall, hres⟩ | ⟨a', x, b, hsplit', ha', hx, hres⟩
      · exact .inl ⟨hall, hres⟩
      refine .inr ⟨a', x, b, hsplit', hx, hres, .inr ⟨ha', ?_⟩⟩
      rcases eq_nil_or_concat b with rfl | ⟨b', m', rfl⟩
      · have : m = x := by
          have hlast := congrArg getLast? (hsplit.symm.trans hsplit')
          simpa using hlast
        rw [this, hx] at horphan
        cases horphan
      · rw [concat_eq_append] at hsplit' ⊢
        have hboth : a ++ [m] = (a' ++ x :: b') ++ [m'] := by
          simpa using hsplit.symm.trans hsplit'
        obtain rfl : m = m' := singleton_inj.mp (append_inj' hboth rfl).2
        exact ⟨b', m, rfl, horphan⟩

/-- **The step back from a back link**: to the record in front of it in the group, if the bytes
of its name are those looked for. -/
theorem behindIlink_eq {a b : Catalog} (hsplit : g = a ++ x :: b) :
    lookupBehindIlink comp c dir name x.1 =
      match a.getLast? with
      | none => .error .enoent
      | some z => if z.1.name = name then .ok z else .error .enoent := by
  have hx : x ∈ g := by simp [hsplit]
  obtain ⟨hpos, hlt⟩ := hids x hx
  have hpred : (x.1.objectId + (2 ^ 64 - 1)) % 2 ^ 64 = x.1.objectId - 1 := by
    rw [show x.1.objectId + (2 ^ 64 - 1) = (x.1.objectId - 1) + 2 ^ 64 by omega,
      Nat.add_mod_right, Nat.mod_eq_of_lt (by omega)]
  have hrise := hg.pairwise hc
  rw [hsplit] at hrise
  obtain ⟨hrise1, hrise2, hcross⟩ := pairwise_append.mp hrise
  rw [lookupBehindIlink, hpred]
  -- the name of a record, compared as `vdfs4_lookup` does
  have hbytes : ∀ z : CattreeKey × CatalogRecord, z.1.parentId = dir →
      ((z.1.parentId ≠ dir ∨ z.1.name.length ≠ name.length ∨
        memcmp z.1.name.bytes name.bytes z.1.name.length ≠ 0) ↔ z.1.name ≠ name) := by
    intro z hz
    constructor
    · rintro (hp | hlen | hcmp) hn
      · exact hp hz
      · exact hlen (by rw [hn])
      · rw [hn] at hcmp
        exact hcmp ((memcmp_eq_zero_iff rfl).mpr rfl)
    · intro hn
      by_contra hall
      simp only [not_or, not_not] at hall
      exact hn (CString.ext ((CString.memcmp_eq_zero_iff hall.2.1).mp hall.2.2))
  rcases eq_nil_or_concat a with rfl | ⟨a', z, rfl⟩
  · -- the back link is the first record of its name
    rw [hg.seek_front (o := x.1.objectId - 1) fun w hw => ?_]
    · have hnot : y.1.parentId ≠ dir ∨ y.1.name.length ≠ name.length ∨
          memcmp y.1.name.bytes name.bytes y.1.name.length ≠ 0 := by
        by_cases hp : y.1.parentId = dir
        · refine (hbytes y hp).mpr fun hn => ?_
          refine (hg.front y (by simp) y.1.objectId).ne (rank_eq_iff.mpr ⟨hp, ?_, rfl⟩)
          rw [hn]
        · exact .inl hp
      simp only [if_pos hnot]
      rfl
    · rw [hsplit] at hw
      rcases mem_cons.mp hw with rfl | hw
      · omega
      · have := (pairwise_cons.mp hrise2).1 w hw
        omega
  · have hz : z ∈ g := by simp [hsplit]
    have hzx : z.1.objectId < x.1.objectId := hcross z (by simp) x mem_cons_self
    have hsplit' : g = a' ++ z :: (x :: b) := by simp [hsplit]
    rw [hg.seek_at hc hsplit' (o := x.1.objectId - 1) (by omega) fun w hw => ?_]
    · simp only [concat_eq_append, getLast?_concat]
      have hiff := hbytes z (hg.named z hz).1
      by_cases hn : z.1.name = name
      · rw [if_neg (mt hiff.mp (not_not.mpr hn)), if_pos hn]
      · rw [if_pos (hiff.mpr hn), if_neg hn]
    · rcases mem_cons.mp hw with rfl | hw
      · omega
      · have := (pairwise_cons.mp hrise2).1 w hw
        omega

end

end NameGroup

/-! ### Exactness -/

/-- The two searches get from the name to the record: nothing of the name has a greater object
number; or only the back link has, and the bytes of the names agree; or the greatest number
belongs to an orphan and the back link is not below the record. -/
def Reached (comp : Comparison) (c : Catalog) (dir : Nat) (name : CString)
    (e : CattreeKey × CatalogRecord) : Prop :=
  (∀ x ∈ c, Named comp dir name x → x.1.objectId ≤ e.1.objectId) ∨
    (e.1.name = name ∧ ∃ i ∈ c, Named comp dir name i ∧ i.2.recordType = .ilink ∧
      e.1.objectId < i.1.objectId ∧
      ∀ x ∈ c, Named comp dir name x → e.1.objectId < x.1.objectId → x = i) ∨
    ((∃ m ∈ c, Named comp dir name m ∧ m.2.isOrphan = true ∧
        ∀ x ∈ c, Named comp dir name x → x.1.objectId ≤ m.1.objectId) ∧
      ∀ x ∈ c, Named comp dir name x → x.1.objectId < e.1.objectId → x.2.recordType ≠ .ilink)

instance (comp : Comparison) (c : Catalog) (dir : Nat) (name : CString)
    (e : CattreeKey × CatalogRecord) : Decidable (Reached comp c dir name e) :=
  inferInstanceAs (Decidable (_ ∨ _))

/-- The inode is in memory, or it can be made of its own record or of the body a reference leads
to. -/
def Openable (comp : Comparison) (load : Nat → LoadFaults) (cached : Nat → Bool) (c : Catalog)
    (e : CattreeKey × CatalogRecord) : Prop :=
  cached e.1.objectId = true ∨
    if e.2.recordType = .hlink then
      ∀ z ∈ c, comp.rank z.1 = comp.rank (bodyKey e.1.objectId) → Loadable (load e.1.objectId) z.2
    else Loadable (load e.1.objectId) e.2

instance (comp : Comparison) (load : Nat → LoadFaults) (cached : Nat → Bool) (c : Catalog)
    (e : CattreeKey × CatalogRecord) : Decidable (Openable comp load cached c e) :=
  inferInstanceAs (Decidable (_ ∨ ite (e.2.recordType = .hlink) _ _))

/-- **The catalogs in which a name is found.** -/
def LookupSafe (comp : Comparison) (load : Nat → LoadFaults) (cached : Nat → Bool) (c : Catalog)
    (dir : Nat) (name : CString) : Prop :=
  ∀ e ∈ c, e.2.Live → Named comp dir name e →
    Openable comp load cached c e ∧ Reached comp c dir name e

instance (comp : Comparison) (load : Nat → LoadFaults) (cached : Nat → Bool) (c : Catalog)
    (dir : Nat) (name : CString) : Decidable (LookupSafe comp load cached c dir name) :=
  inferInstanceAs (Decidable (∀ e ∈ c, _))

/-- **Lookup is exact**: the inode of the live record of the name, or a negative dentry. -/
def LookupExact (comp : Comparison) (load : Nat → LoadFaults) (cached : Nat → Bool) (c : Catalog)
    (dir : Nat) (name : CString) : Prop :=
  (∀ e ∈ c, e.2.Live → Named comp dir name e →
      vdfs4Lookup comp load cached c dir name = .ok (some e.1.objectId)) ∧
    ((∀ e ∈ c, Named comp dir name e → ¬ e.2.Live) →
      vdfs4Lookup comp load cached c dir name = .ok none)

theorem CatalogRecord.isOrphan_of_ilink {r : CatalogRecord} (h : r.recordType = .ilink) :
    r.isOrphan = false := by
  rw [isOrphan, h]

theorem CatalogRecord.eq_ilink_of_not_live {r : CatalogRecord} (hlive : ¬ r.Live)
    (horphan : r.isOrphan = false) : r.recordType = .ilink := by
  by_contra hne
  exact hlive ⟨hne, horphan⟩

section

variable (hg : NameGroup comp c dir name (lo ++ [y]) g hi) (hc : c.Ordered comp)
  (hids : ∀ x ∈ g, 0 < x.1.objectId ∧ x.1.objectId < 2 ^ 64)

include hg hc hids

/-- The record of `vdfs4_lookup` is a record of the name, or there is none. -/
theorem lookupRecord_cases :
    lookupRecord comp c dir name = .error .enoent ∨
      ∃ x ∈ g, lookupRecord comp c dir name = .ok x := by
  rw [lookupRecord]
  rcases hg.find_cases hc hids with ⟨-, hfind⟩ | ⟨a, x, b, hsplit, -, hfind, -⟩
  · exact .inl (by rw [hfind])
  rw [hfind]
  by_cases ht : x.2.recordType = .ilink
  · simp only [if_pos ht, hg.behindIlink_eq hc hids hsplit]
    cases hlast : a.getLast? with
    | none => exact .inl rfl
    | some z =>
      have hz : z ∈ g := by
        rw [hsplit]
        exact mem_append_left _ (mem_of_getLast? hlast)
      by_cases hn : z.1.name = name
      · exact .inr ⟨z, hz, by simp [hn]⟩
      · exact .inl (by simp [hn])
  · exact .inr ⟨x, by simp [hsplit], by simp [ht]⟩

omit hids in
/-- **The first search ends at the live record.** -/
theorem reached_of_find {a b : Catalog} (hsplit : g = a ++ x :: b)
    (hcase : b = [] ∨ (∀ z ∈ a, z.2.isOrphan = true) ∧ ∃ b' m, b = b' ++ [m] ∧
      m.2.isOrphan = true) :
    Reached comp c dir name x := by
  obtain ⟨hbelow, habove, hparts⟩ := hg.around hc hsplit
  rcases hcase with rfl | ⟨ha, b', m, rfl, hm⟩
  · refine .inl fun z hz hn => ?_
    rcases hparts z hz hn with hz | rfl | hz
    · exact (hbelow z hz).le
    · exact le_rfl
    · exact absurd hz not_mem_nil
  -- an orphan is the last record of the name
  have hsplit' : g = (a ++ x :: b') ++ m :: [] := by simp [hsplit]
  obtain ⟨hbelow', -, hparts'⟩ := hg.around hc hsplit'
  obtain ⟨hmc, hmn⟩ := hg.mem_iff.mp (show m ∈ g by simp [hsplit])
  refine .inr (.inr ⟨⟨m, hmc, hmn, hm, fun z hz hn => ?_⟩, fun z hz hn hlt => ?_⟩)
  · rcases hparts' z hz hn with hz | rfl | hz
    · exact (hbelow' z hz).le
    · exact le_rfl
    · exact absurd hz not_mem_nil
  rcases hparts z hz hn with hz | rfl | hz
  · intro ht
    have := ha z hz
    rw [isOrphan_of_ilink ht] at this
    cases this
  · exact absurd hlt (lt_irrefl _)
  · exact absurd hlt (habove z hz).asymm

omit hids in
/-- **The back link is the last record**: the live record is reached when it is next to it and
its name agrees. -/
theorem reached_before_ilink {a : Catalog} (hsplit : g = a ++ [x]) (ht : x.2.recordType = .ilink)
    (hea : e ∈ a) :
    Reached comp c dir name e ↔ a.getLast? = some e ∧ e.1.name = name := by
  obtain ⟨hbelow, -, hparts⟩ := hg.around hc hsplit
  obtain ⟨hxc, hxn⟩ := hg.mem_iff.mp (show x ∈ g by simp [hsplit])
  obtain ⟨a1, a2, rfl⟩ := append_of_mem hea
  have hsplit' : g = a1 ++ e :: (a2 ++ [x]) := by simp [hsplit]
  obtain ⟨hbelow', habove', hparts'⟩ := hg.around hc hsplit'
  constructor
  · rintro (hmax | ⟨hn, i, -, -, -, -, honly⟩ | ⟨⟨m, hm, hmn, hmo, hmax⟩, -⟩)
    · exact absurd (hbelow e hea) (hmax x hxc hxn).not_gt
    · refine ⟨?_, hn⟩
      -- a record between the two would be a second one above
      cases a2 with
      | nil => simp
      | cons z a2 =>
        obtain ⟨hzc, hzn⟩ := hg.mem_iff.mp (show z ∈ g by simp [hsplit])
        have hzx := hbelow z (by simp)
        have h1 := honly z hzc hzn (habove' z (by simp))
        rw [h1, ← honly x hxc hxn (hbelow e hea)] at hzx
        exact absurd hzx (lt_irrefl _)
    · have hmx : m = x := by
        rcases hparts m hm hmn with h | h | h
        · exact absurd (hbelow m h) (hmax x hxc hxn).not_gt
        · exact h
        · exact absurd h not_mem_nil
      rw [hmx, isOrphan_of_ilink ht] at hmo
      cases hmo
  · rintro ⟨hlast, hn⟩
    refine .inr (.inl ⟨hn, x, hxc, hxn, ht, hbelow e hea, fun z hz hzn hlt => ?_⟩)
    cases a2 with
    | nil =>
      rcases hparts' z hz hzn with h | rfl | h
      · exact absurd hlt (hbelow' z h).asymm
      · exact absurd hlt (lt_irrefl _)
      · simpa using h
    | cons w a2 =>
      -- the last record in front of the back link would be the live one itself
      have hmem : e ∈ w :: a2 := by
        rw [getLast?_append_of_ne_nil _ (by simp), getLast?_cons_cons] at hlast
        exact mem_of_getLast? hlast
      exact absurd (habove' e (by rw [mem_append]; exact .inl hmem)) (lt_irrefl _)

omit hids in
/-- **The back link is below the live record and an orphan above it**: not reached. -/
theorem not_reached_behind_ilink {a b : Catalog} {m : CattreeKey × CatalogRecord}
    (hsplit : g = a ++ x :: (b ++ [m])) (ht : x.2.recordType = .ilink) (hm : m.2.isOrphan = true)
    (heb : e ∈ b) : ¬ Reached comp c dir name e := by
  obtain ⟨-, habove, -⟩ := hg.around hc hsplit
  obtain ⟨hbelow', -, -⟩ := hg.around hc (show g = (a ++ x :: b) ++ m :: [] by simp [hsplit])
  obtain ⟨hxc, hxn⟩ := hg.mem_iff.mp (show x ∈ g by simp [hsplit])
  obtain ⟨hmc, hmn⟩ := hg.mem_iff.mp (show m ∈ g by simp [hsplit])
  have hem := hbelow' e (by simp [heb])
  rintro (hmax | ⟨-, i, -, -, hit, -, honly⟩ | ⟨-, hnone⟩)
  · exact absurd hem (hmax m hmc hmn).not_gt
  · rw [← honly m hmc hmn hem] at hit
    rw [isOrphan_of_ilink hit] at hm
    cases hm
  · exact hnone x hxc hxn (habove e (by simp [heb])) ht

/-- **The searches end at the live record exactly when it is `Reached`.** -/
theorem lookupRecord_eq_iff (he : e ∈ g) (hlive : e.2.Live) (hone : ∀ x ∈ g, x.2.Live → x = e) :
    lookupRecord comp c dir name = .ok e ↔ Reached comp c dir name e := by
  rw [lookupRecord]
  rcases hg.find_cases hc hids with ⟨hall, -⟩ | ⟨a, x, b, hsplit, hx, hfind, hcase⟩
  · exact absurd (hall e he) (by simp [hlive.2])
  rw [hfind]
  by_cases hxlive : x.2.Live
  · obtain rfl := hone x (by simp [hsplit]) hxlive
    simp only [if_neg hxlive.1, true_iff]
    exact reached_of_find hg hc hsplit hcase
  have hxt := eq_ilink_of_not_live hxlive hx
  have hxe : e ≠ x := fun heq => hxlive (heq ▸ hlive)
  have heg : e ∈ a ∨ e ∈ b := by
    rw [hsplit] at he
    simpa [hxe] using he
  simp only [if_pos hxt, hg.behindIlink_eq hc hids hsplit]
  rcases hcase with rfl | ⟨ha, b', m, rfl, hm⟩
  · have hea := heg.resolve_right not_mem_nil
    rw [reached_before_ilink hg hc hsplit hxt hea]
    cases hlast : a.getLast? with
    | none => simp
    | some z =>
      by_cases hn : z.1.name = name
      · simp only [if_pos hn, Except.ok.injEq, Option.some.injEq]
        exact ⟨fun hze => ⟨hze, hze ▸ hn⟩, fun h => h.1⟩
      · simp only [if_neg hn, reduceCtorEq, Option.some.injEq, false_iff]
        rintro ⟨rfl, hn'⟩
        exact hn hn'
  · have heb : e ∈ b' := by
      rcases heg with h | h
      · exact absurd (ha e h) (by simp [hlive.2])
      · rcases mem_append.mp h with h | h
        · exact h
        · rw [← mem_singleton.mp h, hlive.2] at hm
          cases hm
    refine iff_of_false ?_ (not_reached_behind_ilink hg hc hsplit hxt hm heb)
    -- in front of the back link there are only orphans
    cases hlast : a.getLast? with
    | none => simp
    | some z =>
      have hzo := ha z (mem_of_getLast? hlast)
      by_cases hn : z.1.name = name
      · simp only [if_pos hn, Except.ok.injEq]
        rintro rfl
        rw [hlive.2] at hzo
        cases hzo
      · simp [hn]

end

/-- A live record that is not in memory gives an inode exactly when it is `Openable`. -/
theorem Paired.getInode_ok_iff (h : Paired comp c) (load : Nat → LoadFaults) {cached : Nat → Bool}
    (he : e ∈ c) (hlive : e.2.Live) (hcached : ¬ cached e.1.objectId = true) :
    (∃ i, vdfs4GetInodeFromRecord comp load c e = .ok i) ↔ Openable comp load cached c e := by
  have hfill : ∀ x : CattreeKey × CatalogRecord,
    (∃ i, vdfs4FillInode (load e.1.objectId) x = .ok i) ↔
      Loadable (load e.1.objectId) x.2 := fun x =>
    ⟨fun ⟨_, hi⟩ => loadable_of_fillInode hi, fun hl => ⟨_, fillInode_of_loadable hl⟩⟩
  rw [Openable, or_iff_right hcached, vdfs4GetInodeFromRecord]
  cases ht : e.2.recordType with
  | ilink => exact absurd ht hlive.1
  | folder => simpa using hfill e
  | file => simpa using hfill e
  | hlink =>
    obtain ⟨-, z, hz, hzt, hzk⟩ := h.hlink_body he ht
    rcases findInode_cases h.ordered e.1.objectId e.1.objectId empty with
      ⟨w, hw, rest, hwk, hfind⟩ | ⟨habs, -⟩
    · obtain rfl : w = z := h.ordered.eq_of_rank hw hz (hwk.trans hzk.symm)
      simp only [hfind, if_neg hzt.ne.1, if_neg hzt.ne.2, if_true, hfill]
      refine ⟨fun hl x hx hxk => ?_, fun hall => hall w hw hzk⟩
      rwa [h.ordered.eq_of_rank hx hw (hxk.trans hzk.symm)]
    · exact absurd hzk (habs z hz)

/-- **Name lookup is exact if and only if** the name is not too long and every live record of
it is reached. -/
theorem lookup_exact_iff (h : Paired comp c) (hids : ∀ x ∈ c, x.1.objectId < 2 ^ 64)
    (hdir : dir ≠ 0) (name : CString) (load : Nat → LoadFaults) (cached : Nat → Bool)
    (hone : ∀ x ∈ c, ∀ y ∈ c, x.2.Live → y.2.Live → Named comp dir name x →
      Named comp dir name y → x = y) :
    LookupExact comp load cached c dir name ↔
      name.length ≤ vdfs4FileNameLen ∧ LookupSafe comp load cached c dir name := by
  obtain ⟨lo, g, hi, hg⟩ := h.ordered.exists_group dir name
  obtain ⟨lo, z, rfl⟩ := hg.exists_front h.rooted hdir
  have hgids : ∀ x ∈ g, 0 < x.1.objectId ∧ x.1.objectId < 2 ^ 64 := fun x hx =>
    ⟨Nat.pos_of_ne_zero (h.objectId_ne (hg.mem_iff.mp hx).1), hids x (hg.mem_iff.mp hx).1⟩
  have hcases := lookupRecord_cases hg h.ordered hgids
  by_cases hlen : vdfs4FileNameLen < name.length
  · -- the name is too long
    have herr : vdfs4Lookup comp load cached c dir name = .error .enametoolong := by
      rw [vdfs4Lookup, if_pos hlen]
    refine iff_of_false (fun hexact => ?_) fun hsafe => absurd hsafe.1 hlen.not_ge
    by_cases hlive : ∃ e ∈ c, e.2.Live ∧ Named comp dir name e
    · obtain ⟨e, he, hl, hn⟩ := hlive
      have := herr.symm.trans (hexact.1 e he hl hn)
      cases this
    · have := herr.symm.trans (hexact.2 fun e he hn hl => hlive ⟨e, he, hl, hn⟩)
      cases this
  · -- without a live record at the end of the searches the dentry is negative
    have hnone : (∀ x ∈ g, x.2.Live → lookupRecord comp c dir name ≠ .ok x) →
        vdfs4Lookup comp load cached c dir name = .ok none := by
      intro hno
      rw [vdfs4Lookup, if_neg hlen]
      rcases hcases with herr | ⟨x, hx, hok⟩
      · rw [herr]
      rw [hok]
      have hnot : x.2.recordType = .ilink ∨ x.2.isOrphan = true := by
        by_contra hcon
        rw [not_or, Bool.not_eq_true] at hcon
        exact hno x hx hcon hok
      simp [hnot]
    have hsome : ∀ e ∈ c, e.2.Live → Named comp dir name e →
        (vdfs4Lookup comp load cached c dir name = .ok (some e.1.objectId) ↔
          Openable comp load cached c e ∧ Reached comp c dir name e) := by
      intro e he hlive hn
      have heg : e ∈ g := hg.mem_iff.mpr ⟨he, hn⟩
      have honly : ∀ x ∈ g, x.2.Live → x = e := fun x hx hl =>
        hone x (hg.mem_iff.mp hx).1 e he hl hlive (hg.mem_iff.mp hx).2 hn
      have hiff := lookupRecord_eq_iff hg h.ordered hgids heg hlive honly
      by_cases hrec : lookupRecord comp c dir name = .ok e
      · rw [vdfs4Lookup, if_neg hlen, hrec, ← hiff, and_iff_left hrec]
        simp only [hlive.1, hlive.2, Bool.false_eq_true, or_self, if_false]
        by_cases hcached : cached e.1.objectId = true
        · exact iff_of_true (if_pos hcached) (.inl hcached)
        rw [if_neg hcached, ← h.getInode_ok_iff load he hlive hcached]
        cases vdfs4GetInodeFromRecord comp load c e <;> simp [Except.map]
      · rw [hnone fun x hx hl => by rw [honly x hx hl]; exact hrec, ← hiff]
        simp [hrec]
    constructor
    · intro hexact
      exact ⟨not_lt.mp hlen, fun e he hlive hn => (hsome e he hlive hn).mp (hexact.1 e he hlive hn)⟩
    · rintro ⟨-, hsafe⟩
      refine ⟨fun e he hlive hn => (hsome e he hlive hn).mpr (hsafe e he hlive hn), fun hno => ?_⟩
      exact hnone fun x hx hl => absurd hl (hno x (hg.mem_iff.mp hx).1 (hg.mem_iff.mp hx).2)

/-- The records of directories and files with one link. -/
def folderRecord : CatalogRecord :=
    { CatalogRecord.blank .folder with fileMode := .dir, linksCount := 1 }

def fileRecord : CatalogRecord :=
    { CatalogRecord.blank .file with fileMode := .reg, linksCount := 1 }

/-- The directory 3, named `a` in the directory 10, with a file `a` of its own. -/
def lookupSample : Catalog :=
  let a := nameA
  let p := nameP
  [(rootKey, folderRecord), (⟨1, p, 10⟩, folderRecord), (⟨3, a, 4⟩, fileRecord),
    (⟨3, a, 10⟩, .blank .ilink), (⟨4, a, 3⟩, .blank .ilink), (⟨10, a, 3⟩, folderRecord),
    (⟨10, p, 1⟩, .blank .ilink)]

theorem lookup_exact_sample :
    LookupExact .caseSensitive (fun _ => {}) (fun _ => false) lookupSample 3 ⟨[97], by decide⟩ :=
  (lookup_exact_iff (by decide +kernel) (by decide +kernel) (by decide) _ _ _
    (by decide +kernel)).mpr (by decide +kernel)

/-- The same directory, from which an open file 6 named `a` was unlinked before. -/
def orphanSample : Catalog :=
  let a := nameA
  let p := nameP
  [(rootKey, folderRecord), (⟨1, p, 10⟩, folderRecord), (⟨3, a, 4⟩, fileRecord),
    (⟨3, a, 6⟩, { fileRecord with orphan := true, linksCount := 0 }),
    (⟨3, a, 10⟩, .blank .ilink), (⟨4, a, 3⟩, .blank .ilink), (⟨6, a, 3⟩, .blank .ilink),
    (⟨10, a, 3⟩, folderRecord), (⟨10, p, 1⟩, .blank .ilink)]

/-- **A live file is not found**: the orphan stands between it and the back link of its
directory. -/
theorem lookup_misses_live : Paired .caseSensitive orphanSample ∧
    (∀ x ∈ orphanSample, x.1.objectId < 2 ^ 64) ∧
    (∃ e ∈ orphanSample, e.2.Live ∧ Named .caseSensitive 3 ⟨[97], by decide⟩ e) ∧
    vdfs4Lookup .caseSensitive (fun _ => {}) (fun _ => false) orphanSample 3 ⟨[97], by decide⟩ =
      .ok none := by
  refine ⟨by decide +kernel, by decide +kernel, by decide +kernel, rfl⟩

end Vdfs4
