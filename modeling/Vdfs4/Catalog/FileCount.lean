import Vdfs4.Catalog.TreeRun

/-!
# The counters of files and folders

`files_count` and `folders_count` should say **how many inodes there are**. They grow when an inode
gets its first entry and shrink when it is evicted. Two operations step out of line: a link counts
as a file although no inode comes with it, and a creation that fails late evicts an inode that was
never counted.

* `Counters`, `TreeOp.counts` — what every operation does to the counters, `countedStep` — a step
  with them;
* `TreeOp.Even` — the operations without those two; `Tally` — **what such an operation does** to the
  inodes and to the counters;
* `file_counters_follow_inodes` — a run that comes back to the same inodes comes back to the same
  counters.
-/

namespace Vdfs4

open OrderedMap GuardedRun Option CatalogInode

variable {comp : Comparison} {v v' v₀ : Volume} {o : Nat} {i : CatalogInode} {kind : FileKind}
  {f : RenameFaults} {e : Option Errno} {c : Counters} {whiteout : Option Nat} {op : TreeOp}
  {dir : Bool}

/-! ### The counters -/

/-- `files_count` and `folders_count`, both `unsigned long long`. -/
@[ext] structure Counters where
  files : UInt64
  folders : UInt64
deriving DecidableEq

/-- One inode more. -/
def Counters.born (c : Counters) (kind : FileKind) : Counters :=
  if kind = .dir then { c with folders := c.folders + 1 } else { c with files := c.files + 1 }

/-- One inode less. -/
def Counters.gone (c : Counters) (kind : FileKind) : Counters :=
  if kind = .dir then { c with folders := c.folders - 1 } else { c with files := c.files - 1 }

section

variable (comp : Comparison)

/-- The counters after `vdfs4_evict_inode`. -/
def evictCounts (f : EvictFaults) (v : Volume) (ino : Nat) (c : Counters) : Counters :=
  match v.inodes ino with
  | none => c
  | some i =>
    if i.nlink ≠ 0 then c
    else if f.xattr ≠ none then c
    else if (i.kind = .reg ∨ i.kind = .lnk) ∧ f.truncate ≠ none then c
    else
      let key := i.recordKey ino
      match vdfs4CattreeRemove comp f.remove v.catalog ino key.parentId key.name i.recordType with
      | (some _, _) => c
      | (none, _) => c.gone i.kind

/-- The counters after `vdfs4_create`. An inode whose record was refused has lost its number and is
evicted without a trace. -/
def createCounts (f : CreateFaults) (v : Volume) (dir : Nat) (name : CString) (kind : FileKind)
    (ino : Nat) (c : Counters) : Counters :=
  if vdfs4FileNameLen < name.length then c
  else if f.name then c
  else
    match f.inode with
    | some _ => c
    | none =>
      let i : CatalogInode := ⟨kind, 0, 1, 0, false, false, dir, name, .file, finalOrphanId⟩
      match i.getRecordTypeOnMode with
      | .error _ => c
      | .ok recordType =>
        match placeAndFill comp f.place (v.setInode ino i) ino i dir name recordType with
        | (some _, _) => c
        | (none, v) =>
          match f.late with
          | some _ => evictCounts comp f.evict (v.modifyInode ino fun i =>
              { i with nlink := 0 }) ino c
          | none => c.born kind

/-- The counters after `vdfs4_link`. -/
def linkCounts (f : LinkFaults) (v : Volume) (dir : Nat) (name : CString) (ino : Nat)
    (c : Counters) : Counters :=
  match vdfs4Link comp f v dir name ino with
  | some (none, _) => { c with files := c.files + 1 }
  | _ => c

/-- The counters after the part of `vdfs4_rename` behind the removal of a target. -/
def renameTailCounts (f : RenameFaults) (v : Volume) (old : Dentry) (newDir : Nat)
    (newName : CString) (whiteout : Option Nat) (c : Counters) : Counters :=
  match v.inodes old.ino with
  | none => c
  | some i =>
    if i.hardLink = false ∧ f.name = true then c
    else
      match i.getRecordTypeOnMode with
      | .error _ => c
      | .ok recordType =>
        match placeAndFill comp f.place v old.ino i newDir newName recordType with
        | (some _, _) => c
        | (none, v) =>
          match vdfs4CattreeRemove comp f.remove v.catalog old.ino old.dir old.name recordType with
          | (some _, _) => c
          | (none, cat) =>
            let v := { v with catalog := cat }
            let v := if i.hardLink then v
              else v.modifyInode old.ino fun j => { j with parentId := newDir, name := newName }
            match whiteout with
            | none => c
            | some ino =>
              if f.dentry then c else createCounts comp f.whiteout v old.dir old.name .chr ino c

/-- The counters after `vdfs4_rename`. -/
def renameCounts (f : RenameFaults) (v : Volume) (old : Dentry) (newDir : Nat) (newName : CString)
    (target whiteout : Option Nat) (c : Counters) : Counters :=
  if vdfs4FileNameLen < newName.length then c
  else
    match target with
    | none => renameTailCounts comp f v old newDir newName whiteout c
    | some t =>
      match v.inodes t with
      | none => c
      | some j =>
        match if j.kind = .dir then vdfs4Rmdir comp f.target v newDir newName t
          else vdfs4Unlink comp f.target v newDir newName t with
        | some (none, v) => renameTailCounts comp f v old newDir newName whiteout c
        | _ => c

/-- The counters after an operation. -/
def TreeOp.counts (v : Volume) (c : Counters) : TreeOp → Counters
  | create f dir name kind ino => createCounts comp f v dir name kind ino c
  | link f dir name ino => linkCounts comp f v dir name ino c
  | rename f old newDir newName target whiteout =>
    renameCounts comp f v old newDir newName target whiteout c
  | evict f ino => evictCounts comp f v ino c
  | unlink _ _ | rmdir _ _ | crossRename _ _ _ => c

end

/-- A volume with its counters. -/
structure CountedVolume where
  volume : Volume
  counters : Counters

/-- A step with the counters. -/
def countedStep (comp : Comparison) (s : CountedVolume) (op : TreeOp) : Option CountedVolume :=
  (treeStep comp s.volume op).map fun v => ⟨v, op.counts comp s.volume s.counters⟩

/-! ### Operations that count right -/

/-- The links whose reference is not inserted. -/
def LinkFaults.Refused (f : LinkFaults) (v : Volume) (name : CString) (ino : Nat) : Prop :=
  vdfs4FileNameLen < name.length ∨ f.place.insert ≠ none ∨ ∃ i ∈ v.inodes ino,
  vdfs4LinkMax ≤ i.nlink

instance (f : LinkFaults) (name : CString) : Decidable (f.Refused v name o) :=
  inferInstanceAs (Decidable (_ ∨ _ ∨ _))

/-- **The operations that count right**: no link gets through, and no creation fails after its
record was placed. -/
def TreeOp.Even (v : Volume) : TreeOp → Prop
  | create f _ _ _ _ => f.late = none
  | link f _ name ino => f.Refused v name ino
  | rename f _ _ _ _ _ => f.whiteout.late = none
  | unlink _ _ | rmdir _ _ | crossRename _ _ _ | evict _ _ => True

instance TreeOp.decidableEven (op : TreeOp) : Decidable (op.Even v) :=
  match op with
  | create f _ _ _ _ => inferInstanceAs (Decidable (f.late = none))
  | link f _ name ino => inferInstanceAs (Decidable (f.Refused v name ino))
  | rename f _ _ _ _ _ => inferInstanceAs (Decidable (f.whiteout.late = none))
  | unlink _ _ | rmdir _ _ | crossRename _ _ _ | evict _ _ => inferInstanceAs (Decidable True)

/-- A safe operation that counts right. -/
def EvenStep (comp : Comparison) (s : CountedVolume) (op : TreeOp) : Prop :=
  op.Sound comp s.volume ∧ op.Even s.volume

instance (s : CountedVolume) (op : TreeOp) : Decidable (EvenStep comp s op) :=
  inferInstanceAs (Decidable (_ ∧ _))

/-- A creation without a late failure counts its inode when it succeeds. -/
theorem createCounts_eq {f : CreateFaults} (hf : f.late = none) (dir : Nat) (name : CString)
    (c : Counters) : createCounts comp f v dir name kind o c =
      match vdfs4Create comp f v dir name kind o with
      | some (none, _) => c.born kind
      | _ => c := by
  rw [createCounts, vdfs4Create, hf]
  by_cases hlen : vdfs4FileNameLen < name.length
  · rw [if_pos hlen, if_pos hlen]
  by_cases hname : f.name = true
  · rw [if_neg hlen, if_neg hlen, if_pos hname, if_pos hname]
  rw [if_neg hlen, if_neg hlen, if_neg hname, if_neg hname]
  cases f.inode with
  | some e => rfl
  | none =>
    dsimp only
    cases getRecordTypeOnMode _ with
    | error e => rfl
    | ok t =>
      dsimp only
      generalize placeAndFill comp f.place _ o _ dir name t = r
      obtain ⟨_ | e, w⟩ := r <;> rfl

/-- The part of `vdfs4_rename` behind the removal of a target counts the whiteout when it
succeeds. -/
theorem renameTailCounts_eq (hf : f.whiteout.late = none) (old : Dentry) (newDir : Nat)
    (newName : CString) (whiteout : Option Nat) (c : Counters) :
    renameTailCounts comp f v old newDir newName whiteout c =
      match renameTail comp f v old newDir newName whiteout with
      | some (none, _) => if whiteout = none then c else c.born .chr
      | _ => c := by
  rw [renameTailCounts, renameTail]
  cases v.inodes old.ino with
  | none => rfl
  | some i =>
    dsimp only
    by_cases hname : i.hardLink = false ∧ f.name = true
    · rw [if_pos hname, if_pos hname]
    rw [if_neg hname, if_neg hname]
    cases i.getRecordTypeOnMode with
    | error e => rfl
    | ok t =>
      dsimp only
      obtain ⟨_ | e, w⟩ := placeAndFill comp f.place v old.ino i newDir newName t
      swap
      · rfl
      dsimp only
      obtain ⟨_ | e, cat⟩ := vdfs4CattreeRemove comp f.remove w.catalog old.ino old.dir old.name t
      swap
      · rfl
      cases whiteout with
      | none => rfl
      | some u =>
        dsimp only
        rw [vdfs4CreateWhiteout, createCounts_eq hf]
        by_cases hdentry : f.dentry = true
        · rw [if_pos hdentry, if_pos hdentry]
          dsimp only
          rw [errorWhiteout]
          obtain ⟨_ | e, w⟩ := placeAndFill comp f.replace _ old.ino i old.dir old.name t <;> rfl
        rw [if_neg hdentry, if_neg hdentry]
        generalize vdfs4Create comp f.whiteout _ old.dir old.name .chr u = r
        obtain _ | ⟨_ | e, w⟩ := r
        · rfl
        · rfl
        · dsimp only
          rw [errorWhiteout]
          obtain ⟨_ | e, w⟩ := placeAndFill comp f.replace w old.ino i old.dir old.name t <;> rfl

/-- `vdfs4_rename` counts the whiteout when it succeeds. -/
theorem renameCounts_eq (hf : f.whiteout.late = none) (old : Dentry) (newDir : Nat)
    (newName : CString) (target whiteout : Option Nat) (c : Counters) :
    renameCounts comp f v old newDir newName target whiteout c =
      match vdfs4Rename comp f v old newDir newName target whiteout with
      | some (none, _) => if whiteout = none then c else c.born .chr
      | _ => c := by
  rw [renameCounts.eq_def, vdfs4Rename.eq_def]
  by_cases hlen : vdfs4FileNameLen < newName.length
  · rw [if_pos hlen, if_pos hlen]
  rw [if_neg hlen, if_neg hlen]
  cases target with
  | none => exact renameTailCounts_eq hf old newDir newName whiteout c
  | some t =>
    dsimp only
    cases v.inodes t with
    | none => rfl
    | some j =>
      dsimp only
      generalize (if j.kind = .dir then vdfs4Rmdir comp f.target v newDir newName t
        else vdfs4Unlink comp f.target v newDir newName t) = r
      obtain _ | ⟨_ | e, w⟩ := r
      · rfl
      · exact renameTailCounts_eq hf old newDir newName whiteout c
      · rfl

theorem renameCounts_of_call (hf : f.whiteout.late = none) {old : Dentry} {newDir : Nat}
    {newName : CString} {target : Option Nat}
    (hcall : vdfs4Rename comp f v old newDir newName target whiteout = some (e, v')) :
    renameCounts comp f v old newDir newName target whiteout c =
      if e = none ∧ whiteout ≠ none then c.born .chr else c := by
  rw [renameCounts_eq hf, hcall]
  cases e <;> cases whiteout <;> rfl

/-- `transform_into_hlink` keeps the kind of the inode. -/
theorem transformIntoHlink_kind (comp : Comparison) (f : TransformFaults) (c : Catalog) (o : Nat)
    (i : CatalogInode) : (transformIntoHlink comp f c o i).2.2.kind = i.kind := by
  rw [transformIntoHlink]
  obtain ⟨_ | e, c⟩ := vdfs4CattreeRemoveIlink comp f.ilink c o i.parentId i.name
  swap
  · rfl
  cases i.getRecordTypeOnMode with
  | error e => rfl
  | ok t =>
    dsimp only
    obtain ⟨_ | e, c⟩ := vdfs4CattreePlaceRecord comp f.body c o o CString.empty t
    swap
    · rfl
    dsimp only
    cases Option.elim f.find _ _ with
    | error e => rfl
    | ok x => rfl

/-- A reference whose insertion fails is not placed. -/
theorem linkTail_refused (comp : Comparison) {f : LinkFaults} (hf : f.place.insert ≠ none)
    (v : Volume) (dir : Nat) (name : CString) (o : Nat) (kind : FileKind) :
    ∃ e c, linkTail comp f v dir name o kind = some (some e, { v with catalog := c }) := by
  obtain ⟨e, he⟩ := ne_none_iff_exists'.mp hf
  rw [linkTail, vdfs4CattreePlaceRecord, if_neg (by simp), placeMain, he]
  exact ⟨e, _, rfl⟩

/-- A refused link is an error and changes no kind. -/
theorem link_refused {f : LinkFaults} {dir : Nat} {name : CString} (hf : f.Refused v name o)
    (hcall : vdfs4Link comp f v dir name o = some (e, v')) :
    e ≠ none ∧ ∀ m, (v'.inodes m).map CatalogInode.kind = (v.inodes m).map CatalogInode.kind := by
  have hset : ∀ (c : Catalog) (i j : CatalogInode), v.inodes o = some i → j.kind = i.kind →
      ∀ m, ((Volume.setInode { v with catalog := c } o j).inodes m).map kind =
        (v.inodes m).map kind := by
    intro c i j hi hj m
    by_cases hm : m = o
    · rw [hm, Volume.setInode_self, hi, map_some, map_some, hj]
    · rw [Volume.setInode_of_ne _ _ hm]
  rw [vdfs4Link] at hcall
  cases hi : v.inodes o with
  | none =>
    rw [hi] at hcall
    cases hcall
  | some i =>
    rw [hi] at hcall
    dsimp only at hcall
    by_cases hlen : vdfs4FileNameLen < name.length
    · rw [if_pos hlen] at hcall
      cases hcall
      exact ⟨by simp, fun _ => rfl⟩
    by_cases hmax : vdfs4LinkMax ≤ i.nlink
    · rw [if_neg hlen, if_pos hmax] at hcall
      cases hcall
      exact ⟨by simp, fun _ => rfl⟩
    rw [if_neg hlen, if_neg hmax] at hcall
    have hinsert : f.place.insert ≠ none := by
      refine (hf.resolve_left hlen).resolve_right ?_
      rintro ⟨j, hj, hmax'⟩
      exact hmax (mem_unique hi hj ▸ hmax')
    by_cases hh : i.hardLink = true
    · rw [if_pos hh] at hcall
      obtain ⟨e', c, heq⟩ := linkTail_refused comp hinsert v dir name o i.kind
      rw [heq] at hcall
      cases hcall
      exact ⟨by simp, fun _ => rfl⟩
    rw [if_neg hh] at hcall
    have hkind := transformIntoHlink_kind comp f.transform v.catalog o i
    generalize transformIntoHlink comp f.transform v.catalog o i = r at hcall hkind
    obtain ⟨_ | e', c, j⟩ := r
    · dsimp only at hcall hkind
      obtain ⟨e', c', heq⟩ := linkTail_refused comp hinsert
        (Volume.setInode { v with catalog := c } o j) dir name o j.kind
      rw [heq] at hcall
      cases hcall
      exact ⟨by simp, hset c i j hi hkind⟩
    · cases hcall
      exact ⟨by simp, hset c i j hi hkind⟩

/-- The numbers of the inodes that the catalog has a record of. -/
def inodeNumbers (c : Catalog) : Set Nat := {o | ∃ x ∈ c, x.2.IsInode ∧ x.1.objectId = o}

/-- An inode of a consistent volume has a record. -/
theorem Consistent.mem_inodeNumbers_iff (h : Consistent comp v) :
    o ∈ inodeNumbers v.catalog ↔ ∃ i, v.inodes o = some i := by
  constructor
  · rintro ⟨x, hx, hinode, rfl⟩
    have howned := h.owned x hx
    rwa [owner_of_ne hinode.ne.2] at howned
  · rintro ⟨i, hi⟩
    obtain ⟨x, hx, hinode, hrank⟩ := (h.settled o i hi).located
    exact ⟨x, hx, hinode, (Comparison.rank_eq_iff.mp hrank).2.2.trans (recordKey_objectId o i)⟩

/-- The eviction of an orphan counts it, or its record stays on a volume that is read-only. -/
theorem Consistent.evictCounts_cases (h : Consistent comp v) (hi : v.inodes o = some i)
    (hz : i.nlink = 0) {f : EvictFaults} (c : Counters)
    (hcall : Volume.vdfs4EvictInode comp f v o = some v') :
    evictCounts comp f v o c = c.gone i.kind ∨
      evictCounts comp f v o c = c ∧ v'.readOnly = true ∧ o ∈ inodeNumbers v'.catalog := by
  have hmem : o ∈ inodeNumbers v.catalog := h.mem_inodeNumbers_iff.mpr ⟨i, hi⟩
  rw [Volume.vdfs4EvictInode, hi] at hcall
  rw [evictCounts, hi]
  dsimp only at hcall ⊢
  rw [if_neg (not_not.mpr hz)] at hcall ⊢
  by_cases hx : f.xattr ≠ none
  · rw [if_pos hx] at hcall ⊢
    cases hcall
    exact .inr ⟨rfl, rfl, hmem⟩
  rw [if_neg hx] at hcall ⊢
  by_cases ht : (i.kind = .reg ∨ i.kind = .lnk) ∧ f.truncate ≠ none
  · rw [if_pos ht] at hcall ⊢
    cases hcall
    exact .inr ⟨rfl, rfl, hmem⟩
  rw [if_neg ht] at hcall ⊢
  rcases h.evictRemove_cases hi f.remove with ⟨e, c', heq, -, -, -, hkeep⟩ | ⟨c', heq, -⟩ <;>
    rw [heq] at hcall ⊢
  · cases hcall
    obtain ⟨x, hx, hinode, hxo⟩ := hmem
    exact .inr ⟨rfl, rfl, x, hkeep x hx hinode, hinode, hxo⟩
  · exact .inl rfl

/-! ### What one operation does -/

/-- What an operation does to the inodes and to the counters: nothing; one inode comes; one goes; or
one leaves the memory of a volume that is read-only and stays in the catalog. -/
inductive Tally (v : Volume) (c : Counters) (v' : Volume) (c' : Counters) : Prop
  | same (kinds : ∀ m, (v'.inodes m).map CatalogInode.kind = (v.inodes m).map CatalogInode.kind)
      (counts : c' = c)
  | born (o : Nat) (kind : FileKind) (unused : v.inodes o = none)
      (kinds : ∀ m, (v'.inodes m).map CatalogInode.kind =
        if m = o then some kind else (v.inodes m).map CatalogInode.kind)
      (counts : c' = c.born kind)
  | gone (o : Nat) (i : CatalogInode) (used : v.inodes o = some i) (left : v'.inodes o = none)
      (kinds : ∀ m, m ≠ o → (v'.inodes m).map CatalogInode.kind =
        (v.inodes m).map CatalogInode.kind)
      (counts : c' = c.gone i.kind)
  | kept (o : Nat) (readOnly : v'.readOnly = true) (left : v'.inodes o = none)
      (record : o ∈ inodeNumbers v'.catalog)

theorem InodeCreated.kinds {d : Nat} {n : CString} (h : InodeCreated comp v v' d n o kind)
    (m : Nat) : (v'.inodes m).map CatalogInode.kind =
      if m = o then some kind else (v.inodes m).map CatalogInode.kind := by
  by_cases hm : m = o
  · obtain ⟨j, hj, -, hkind⟩ := h.inode
    rw [if_pos hm, hm, hj, map_some, hkind]
  rw [if_neg hm]
  by_cases hd : m = d
  · rw [hd, h.dir, map_map]
    rfl
  · rw [h.others m hm hd]

/-- The kinds after a rename, and its counters. -/
theorem KindsBut.tally (h : KindsBut v v' (if e = none then whiteout else none))
    (hunused : ∀ w, whiteout = some w → w ≠ 0 ∧ v.inodes w = none) :
    Tally v c v' (if e = none ∧ whiteout ≠ none then c.born .chr else c) := by
  cases e with
  | some e => exact .same (fun m => (h m).trans (if_neg nofun)) (if_neg (by simp))
  | none =>
    cases whiteout with
    | none => exact .same (fun m => (h m).trans (if_neg nofun)) (if_neg (by simp))
    | some w =>
      refine .born w .chr (hunused w rfl).2 (fun m => (h m).trans ?_) (if_pos (by simp))
      by_cases hm : m = w
      · simp [hm]
      · simp [hm]

/-- **What one even operation does.** -/
theorem Leaves.tally (h : Leaves comp v) (hop : op.Sound comp v) (heven : op.Even v)
    (hstep : treeStep comp v op = some v') (c : Counters) : Tally v c v' (op.counts comp v c) := by
  obtain ⟨⟨hro, hissued⟩, hsafe⟩ := hop
  have hc := h.consistent hro
  have hs := h.sized
  rw [treeStep] at hstep
  -- unlinking moves no inode
  have hremove : ∀ {e : Dentry} {kind : FileKind → Prop} (f : UnlinkFaults), e.Held comp v kind →
      f.Safe v e.ino → ∀ {i : CatalogInode}, v.inodes e.ino = some i → ∀ {out : Outcome},
      (if i.kind = .dir then vdfs4Rmdir comp f v e.dir e.name e.ino
        else vdfs4Unlink comp f v e.dir e.name e.ino) = out → out.map Prod.snd = some v' →
      Tally v c v' c := by
    intro e kind f he hf i hi out hout hend
    rcases hc.removeInode_cases hs (hc.liveDir_ne_zero he.dir) he.entry hi f hout with
      ⟨rfl, -⟩ | ⟨_, w, rfl, -, hsame, -⟩ | ⟨w, rfl, hdrop, -⟩ | ⟨_, w, rfl, -, hlost, -⟩
    · cases hend
    · cases hend
      exact .same hsame.kinds rfl
    · cases hend
      exact .same hdrop.kinds rfl
    · exact absurd hlost (hf.not_lost hi)
  cases op with
  | create f dir name kind ino =>
    obtain ⟨hdir, hino, hnone⟩ := hissued
    change Tally v c v' (createCounts comp f v dir name kind ino c)
    rw [createCounts_eq heven]
    rcases hc.create_cases hdir hino hnone (fun _ => hsafe.1) hsafe.2 name kind with
      ⟨e, heq⟩ | ⟨w, heq, hnew⟩ <;> rw [TreeOp.call, heq] at hstep <;> cases hstep <;> rw [heq]
    · exact .same (fun _ => rfl) rfl
    · exact .born ino kind hnone hnew.kinds rfl
  | link f dir name ino =>
    obtain ⟨⟨e, w⟩, hcall, rfl⟩ := map_eq_some_iff.mp hstep
    obtain ⟨he, hkinds⟩ := link_refused heven hcall
    refine .same hkinds ?_
    change linkCounts comp f v dir name ino c = c
    rw [linkCounts, show vdfs4Link comp f v dir name ino = some (e, w) from hcall]
    cases e with
    | none => exact absurd rfl he
    | some e => rfl
  | unlink f e =>
    obtain ⟨i, hi, hkind⟩ := hissued.inode
    exact hremove f hissued hsafe hi (if_neg hkind) hstep
  | rmdir f e =>
    obtain ⟨i, hi, hkind⟩ := hissued.inode
    exact hremove f hissued hsafe hi (if_pos hkind) hstep
  | rename f old newDir newName target whiteout =>
    obtain ⟨hr, ht⟩ := hissued
    obtain ⟨⟨e, w⟩, hcall, rfl⟩ := map_eq_some_iff.mp hstep
    change Tally v c w (renameCounts comp f v old newDir newName target whiteout c)
    rw [renameCounts_of_call heven hcall]
    rcases hc.rename_cases hs hr ht hsafe.1 hcall with
      ⟨-, -, -, hkinds⟩ | ⟨t, j, htarget, hj, -, -, -, ⟨-, hkinds⟩ | hlost⟩
    · exact hkinds.tally hr.unused
    · exact hkinds.tally hr.unused
    · exact absurd hlost ((hsafe.2 t htarget).not_lost hj)
  | crossRename f old new =>
    obtain ⟨e, w, heq, hren⟩ := hc.crossRename_spec hs hissued.1 hissued.2 hsafe
    rw [TreeOp.call, heq] at hstep
    cases hstep
    refine .same (fun m => (hren.kinds m).trans (if_neg ?_)) rfl
    cases e <;> simp
  | evict f ino =>
    obtain ⟨i, hi, hz⟩ := hissued
    rw [TreeOp.call, map_map] at hstep
    obtain ⟨w, hcall, rfl⟩ := map_eq_some_iff.mp hstep
    obtain ⟨-, hleft, hkinds⟩ := hc.evict_leaves hs hi hz hcall
    rcases hc.evictCounts_cases hi hz c hcall with hcounts | ⟨-, hread, hrecord⟩
    · exact .gone ino i hi hleft hkinds hcounts
    · exact .kept ino hread hleft hrecord

/-! ### What a run keeps -/

/-- The inodes that are directories, or those that are not. -/
def population (v : Volume) (dir : Bool) : Set Nat :=
    {m | ∃ i ∈ v.inodes m, decide (i.kind = .dir) = dir}

/-- The counter of the one or the other. -/
def Counters.of (c : Counters) (dir : Bool) : UInt64 := if dir then c.folders else c.files

theorem mem_population {m : Nat} : m ∈ population v dir ↔
    ∃ k ∈ (v.inodes m).map CatalogInode.kind, decide (k = .dir) = dir := by
  simp only [population, Set.mem_ofPred_eq, mem_def, map_eq_some_iff]
  exact ⟨fun ⟨i, hi, hk⟩ => ⟨_, ⟨i, hi, rfl⟩, hk⟩, fun ⟨_, ⟨i, hi, rfl⟩, hk⟩ => ⟨i, hi, hk⟩⟩

/-- There are finitely many inodes. -/
theorem Consistent.finite_population (h : Consistent comp v) (dir : Bool) :
    (population v dir).Finite := by
  refine ((v.catalog.map fun x => x.1.objectId).toFinset.finite_toSet).subset ?_
  rintro m ⟨i, hi, -⟩
  obtain ⟨x, hx, -, rfl⟩ := h.mem_inodeNumbers_iff.mpr ⟨i, hi⟩
  simp only [List.coe_toFinset, Set.mem_ofPred_eq, List.mem_map]
  exact ⟨x, hx, rfl⟩

theorem Counters.born_of (c : Counters) (kind : FileKind) (dir : Bool) :
    (c.born kind).of dir = if decide (kind = .dir) = dir then c.of dir + 1 else c.of dir := by
  by_cases hk : kind = .dir <;> cases dir <;> simp [Counters.born, Counters.of, hk]

theorem Counters.gone_of (c : Counters) (kind : FileKind) (dir : Bool) :
    (c.gone kind).of dir = if decide (kind = .dir) = dir then c.of dir - 1 else c.of dir := by
  by_cases hk : kind = .dir <;> cases dir <;> simp [Counters.gone, Counters.of, hk]

/-- **The counter has changed as the number of inodes has.** -/
def EvenlyCounted (v₀ : Volume) (c₀ : Counters) (v : Volume) (c : Counters) (dir : Bool) : Prop :=
  c.of dir + .ofNat (population v₀ dir).ncard = c₀.of dir + .ofNat (population v dir).ncard

/-- One operation keeps the balance, unless a record stays without its inode. -/
theorem EvenlyCounted.step {c0 c' : Counters} (h : EvenlyCounted v₀ c0 v c dir)
    (hfin : (population v dir).Finite) (ht : Tally v c v' c') :
    EvenlyCounted v₀ c0 v' c' dir ∨
      v'.readOnly = true ∧ ∃ o, v'.inodes o = none ∧ o ∈ inodeNumbers v'.catalog := by
  rw [EvenlyCounted] at h ⊢
  cases ht with
  | same kinds counts =>
    have hpop : population v' dir = population v dir := by
      ext m
      rw [mem_population, mem_population, kinds]
    rw [hpop, counts]
    exact .inl h
  | born o kind unused kinds counts =>
    left
    have hnot : o ∉ population v dir := fun ⟨i, hi, _⟩ => by
      rw [unused] at hi
      cases hi
    have hother : ∀ m, m ≠ o → (m ∈ population v' dir ↔ m ∈ population v dir) := fun m hm => by
      rw [mem_population, mem_population, kinds, if_neg hm]
    have hself : o ∈ population v' dir ↔ decide (kind = .dir) = dir := by
      rw [mem_population, kinds, if_pos rfl]
      simp
    rw [counts, Counters.born_of]
    by_cases hk : decide (kind = .dir) = dir
    · have hpop : population v' dir = insert o (population v dir) := by
        ext m
        by_cases hm : m = o
        · simp [hm, hself, hk]
        · simp [hother m hm, hm]
      rw [if_pos hk, hpop, Set.ncard_insert_of_notMem hnot hfin, UInt64.ofNat_add]
      grind
    · have hpop : population v' dir = population v dir := by
        ext m
        by_cases hm : m = o
        · simp [hm, hself, hk, hnot]
        · exact hother m hm
      rw [if_neg hk, hpop]
      exact h
  | gone o i used left kinds counts =>
    apply Or.inl
    have hnot : o ∉ population v' dir := fun ⟨j, hj, _⟩ => by
      rw [left] at hj
      cases hj
    have hother : ∀ m, m ≠ o → (m ∈ population v dir ↔ m ∈ population v' dir) := fun m hm => by
      rw [mem_population, mem_population, kinds m hm]
    have hself : o ∈ population v dir ↔ decide (i.kind = .dir) = dir := by
      rw [mem_population, used]
      simp
    rw [counts, Counters.gone_of]
    by_cases hk : decide (i.kind = .dir) = dir
    · have hpop : population v dir = insert o (population v' dir) := by
        ext m
        by_cases hm : m = o
        · simp [hm, hself, hk]
        · simp [hother m hm, hm]
      have hfin' : (population v' dir).Finite :=
        hfin.subset (by rw [hpop]; exact Set.subset_insert _ _)
      rw [hpop, Set.ncard_insert_of_notMem hnot hfin', UInt64.ofNat_add] at h
      rw [if_pos hk]
      grind
    · have hpop : population v dir = population v' dir := by
        ext m
        by_cases hm : m = o
        · simp [hm, hself, hk, hnot]
        · exact hother m hm
      rw [if_neg hk, ← hpop]
      exact h
  | kept o readOnly left record => exact .inr ⟨readOnly, o, left, record⟩

/-- The invariant of a run: both counters are balanced, or an eviction has failed. -/
structure Tallied (comp : Comparison) (s s' : CountedVolume) : Prop where
  leaves : Leaves comp s'.volume
  balanced : (∀ dir, EvenlyCounted s.volume s.counters s'.volume s'.counters dir) ∨
    s'.volume.readOnly = true ∧
      ∃ o, s'.volume.inodes o = none ∧ o ∈ inodeNumbers s'.volume.catalog

theorem Tallied.step {s t u : CountedVolume} (h : Tallied comp s t) (hop : EvenStep comp t op)
    (hstep : countedStep comp t op = some u) : Tallied comp s u := by
  obtain ⟨v, hv, rfl⟩ := map_eq_some_iff.mp hstep
  obtain ⟨hsound, heven⟩ := hop
  have hro := hsound.1.1
  refine ⟨h.leaves.step hsound hv, ?_⟩
  rcases h.balanced with hb | ⟨hread, -⟩
  · have ht := h.leaves.tally hsound heven hv t.counters
    have hfin := (h.leaves.consistent hro).finite_population
    rcases (hb true).step (hfin true) ht with ht' | hbad
    · rcases (hb false).step (hfin false) ht with hf' | hbad
      · exact .inl fun dir => by cases dir <;> assumption
      · exact .inr hbad
    · exact .inr hbad
  · rw [hro] at hread
    cases hread

/-- **The same contents**: the same inodes, in memory and in the catalog, and the same entries. -/
structure SameContents (comp : Comparison) (v v' : Volume) : Prop where
  kinds : ∀ m, (v'.inodes m).map CatalogInode.kind = (v.inodes m).map CatalogInode.kind
  numbers : inodeNumbers v'.catalog = inodeNumbers v.catalog
  entries : entries comp v'.catalog = entries comp v.catalog

/-- **The counters depend only on the files that exist**, in every run of operations that count
right: the same contents, the same counters. -/
theorem file_counters_follow_inodes {s s' : CountedVolume} (h : Leaves comp s.volume)
    (hrun : Reaches (EvenStep comp) (countedStep comp) s s')
    (hsame : SameContents comp s.volume s'.volume) : s'.counters = s.counters := by
  rcases Relation.ReflTransGen.cases_head hrun with rfl | ⟨_, ⟨_, ⟨⟨⟨hro, -⟩, -⟩, -⟩, -⟩, -⟩
  · rfl
  have htallied : Tallied comp s s' :=
    hrun.invariant ⟨h, .inl fun _ => rfl⟩ fun _ _ _ ht hop hstep => ht.step hop hstep
  rcases htallied.balanced with hb | ⟨-, o, hnone, hmem⟩
  · have hof : ∀ dir, s'.counters.of dir = s.counters.of dir := by
      intro dir
      have hpop : population s'.volume dir = population s.volume dir := by
        ext m
        rw [mem_population, mem_population, hsame.kinds]
      have hdir := hb dir
      rw [EvenlyCounted, hpop] at hdir
      exact (UInt64.add_left_inj _).mp hdir
    exact Counters.ext (hof false) (hof true)
  · -- the record of the failed eviction was there at the start, and so was its inode
    rw [hsame.numbers, (h.consistent hro).mem_inodeNumbers_iff] at hmem
    obtain ⟨i, hi⟩ := hmem
    have hkind := hsame.kinds o
    rw [hnone, hi] at hkind
    cases hkind

/-- The counters do not change what a run leaves. -/
theorem leaves_of_countedRun {ok : CountedVolume → TreeOp → Prop} {s s' : CountedVolume}
    (h : Leaves comp s.volume) (hok : ∀ s op, ok s op → op.Sound comp s.volume)
    (hrun : Reaches ok (countedStep comp) s s') : Leaves comp s'.volume := by
  refine hrun.invariant (I := fun s => Leaves comp s.volume) h fun t op u ht hop hstep => ?_
  obtain ⟨v, hv, rfl⟩ := map_eq_some_iff.mp hstep
  exact ht.step (hok t op hop) hv

/-- A consistent volume with the catalog of an empty one has its contents. -/
theorem Consistent.sameContents_empty (h : Consistent comp v)
    (hcat : v.catalog = emptyVolume.catalog) : SameContents comp emptyVolume v := by
  refine ⟨fun m => ?_, by rw [hcat], by rw [hcat]⟩
  by_cases hm : m = rootIno
  · obtain ⟨i, hi, hroot⟩ := h.root
    rw [hm, hi, map_some, hroot.dir]
    rfl
  have hnone : v.inodes m = none := by
    by_contra hsome
    have hmem := h.mem_inodeNumbers_iff.mpr (ne_none_iff_exists'.mp hsome)
    rw [hcat] at hmem
    obtain ⟨x, hx, -, ho⟩ := hmem
    rw [List.mem_singleton.mp hx] at ho
    exact hm ho.symm
  rw [hnone]
  exact (congrArg _ (if_neg hm)).symm

/-- The volume of an empty root with its counters. -/
def emptyCounted : CountedVolume := ⟨emptyVolume, ⟨0, 1⟩⟩

/-- A file that comes and goes, with a failed creation, a link that is refused and a whiteout that
goes too. -/
def evenOps : List TreeOp :=
  let a := nameA
  let b := nameB
  [.create {} 1 a .reg 2, .create { inode := some .enospc } 1 b .dir 3,
    .link { place := { insert := some .enomem } } 1 b 2, .rename {} ⟨1, a, 2⟩ 1 b none (some 3),
    .unlink {} ⟨1, a, 3⟩, .evict {} 3, .unlink {} ⟨1, b, 2⟩, .evict {} 2]

theorem file_counters_sample :
    ∃ s, Reaches (EvenStep .caseSensitive) (countedStep .caseSensitive) emptyCounted s ∧
      SameContents .caseSensitive emptyVolume s.volume ∧ s.counters = ⟨0, 1⟩ := by
  have hrun : (guardedRun (EvenStep .caseSensitive) (countedStep .caseSensitive) evenOps
    emptyCounted).map
      (fun s => (s.volume.catalog, s.volume.readOnly)) = some (emptyVolume.catalog, false) := by
    decide +kernel
  obtain ⟨s, hs, heq⟩ := map_eq_some_iff.mp hrun
  obtain ⟨hcat, hro⟩ := Prod.mk.inj heq
  have hreach := reaches_of_guardedRun hs
  have hleaves : Leaves .caseSensitive s.volume :=
    leaves_of_countedRun emptyVolume_leaves (fun _ _ h => h.1) hreach
  have hsame := (hleaves.consistent hro).sameContents_empty hcat
  exact ⟨s, hreach, hsame, file_counters_follow_inodes emptyVolume_leaves hreach hsame⟩

/-- A file gets a second name, loses both and is evicted. -/
def linkedOps : List TreeOp :=
  let a := nameA
  let b := nameB
  [.create {} 1 a .reg 2, .link {} 1 b 2, .unlink {} ⟨1, a, 2⟩, .unlink {} ⟨1, b, 2⟩, .evict {} 2]

/-- **A link leaves a file behind in the counter**: no operation fails, the contents are those of
the start, and there is one file. -/
theorem link_leaks_file_count :
    ∃ s, Reaches (fun s op => op.Sound .caseSensitive s.volume) (countedStep .caseSensitive)
    emptyCounted s ∧
      SameContents .caseSensitive emptyVolume s.volume ∧ s.counters = ⟨1, 1⟩ := by
  have hrun : (guardedRun (fun s op => op.Sound .caseSensitive s.volume)
    (countedStep .caseSensitive)
      linkedOps emptyCounted).map (fun s => (s.volume.catalog, s.volume.readOnly, s.counters)) =
        some (emptyVolume.catalog, false, ⟨1, 1⟩) := by decide +kernel
  obtain ⟨s, hs, heq⟩ := map_eq_some_iff.mp hrun
  obtain ⟨hcat, hrest⟩ := Prod.mk.inj heq
  obtain ⟨hro, hcounts⟩ := Prod.mk.inj hrest
  have hreach := reaches_of_guardedRun hs
  have hleaves : Leaves .caseSensitive s.volume :=
    leaves_of_countedRun emptyVolume_leaves (fun _ _ h => h) hreach
  exact ⟨s, hreach, (hleaves.consistent hro).sameContents_empty hcat, hcounts⟩

end Vdfs4
