import Vdfs4.Lib.Run
import Vdfs4.Xattr.Store

/-!
# The attribute store as a map

Seen through `vdfs4_getxattr` the store is a **map** from inodes and names to values. A
replacement first removes the old record and then inserts the new one; the first length check
lets a value of `VDFS4_XATTR_VAL_MAX_LEN - 1` bytes pass and the insertion refuses it, **after
the removal**.

* `WellFormed` — the invariant of every run: sorted, behind the record of mkfs, every value
  behind its length;
* `setxattr_present`, `setxattr_absent` — all that a set can do;
* `SetActsAsMap` — what a map asks of a set, and `SetBreaks`, the sets that do otherwise;
* `xattr_store_is_map` — in every state that is reached, a set acts as on a map **exactly**
  when it is not one of those, and listing and removal of all attributes are exact.
-/

namespace Vdfs4

open OrderedMap GuardedRun XattrtreeKey List
open CString (empty)

namespace XattrTree

/-- The inode has an attribute of this name. -/
def Present (tree : XattrTree) (ino : Nat) (name : CString) : Prop :=
  ∃ value, (⟨ino, name⟩, value) ∈ tree

/-- A record as `xattrtree_insert` writes it for an accepted name. -/
structure Encoded (record : XattrtreeKey × List UInt8) : Prop where
  shortName : record.1.name.length < xattrNameMaxLen
  named : record.1.name ≠ empty
  value : ∃ v : List UInt8, record.2 = UInt8.ofNat v.length :: v ∧ v.length < xattrValMaxLen - 1

/-- **The invariant of the tree.** -/
structure WellFormed (tree : XattrTree) : Prop where
  sorted : Sorted rank tree
  root : (⟨0, xattrRootName⟩, []) ∈ tree
  encoded : ∀ record ∈ tree, record.1.objectId ≠ 0 → Encoded record

theorem wellFormed_xattrRoot : WellFormed xattrRoot where
  sorted := pairwise_singleton _ _
  root := mem_singleton.mpr rfl
  encoded := by
    intro record hmem hne
    rw [mem_singleton.mp hmem] at hne
    exact absurd rfl hne

/-! ### Search -/

theorem find_long {tree : XattrTree} {ino : Nat} {name : CString}
    (h : xattrNameMaxLen ≤ name.length) : vdfs4XattrtreeFind tree ino name = .error .einval := by
  rw [vdfs4XattrtreeFind, xattrtreeAllocKey, if_pos h]

variable {tree tree' l : XattrTree} {ino ino' : Nat} {name name' : CString} {v : List UInt8}

/-- The search of a name that is there ends at its record. -/
theorem find_of_mem (hs : Sorted rank tree) (hlen : name.length < xattrNameMaxLen)
    {value : List UInt8} (hmem : (⟨ino, name⟩, value) ∈ tree) :
    ∃ rest, vdfs4XattrtreeFind tree ino name = .ok ((⟨ino, name⟩, value), rest) := by
  obtain ⟨lo, hi, rfl⟩ := append_of_mem hmem
  obtain ⟨-, hcons, hlo⟩ := Sorted.append_iff.mp hs
  have hseek := seek_at xattrtree_rankedBy
    (fun x hx => (hlo x hx _ mem_cons_self).le) le_rfl (Sorted.cons_iff.mp hcons).1
  refine ⟨hi, ?_⟩
  rw [vdfs4XattrtreeFind, xattrtreeAllocKey, if_neg (not_le.mpr hlen)]
  simp only [hseek]
  rw [if_neg]
  rintro ⟨-, hne⟩
  exact hne ((xattrtree_rankedBy.eq_zero_iff _ _).mpr rfl)

/-- The search of a name that is not there. -/
theorem find_of_absent (hs : Sorted rank tree)
    (hlen : name.length < xattrNameMaxLen) (hne : name ≠ empty)
    (habs : ¬ Present tree ino name) : vdfs4XattrtreeFind tree ino name = .error .enodata := by
  rw [vdfs4XattrtreeFind, xattrtreeAllocKey, if_neg (not_le.mpr hlen)]
  rcases hs.seek_spec xattrtree_rankedBy ⟨ino, name⟩ with
    ⟨hseek, -⟩ | ⟨lo, record, hi, rfl, hseek, -, -⟩
  · simp only [hseek]
  simp only [hseek]
  rw [if_pos]
  refine ⟨hne, fun h0 => habs ⟨record.2, ?_⟩⟩
  have hkey := rank_inj.mp ((xattrtree_rankedBy.eq_zero_iff _ _).mp h0)
  rw [hkey]
  exact mem_append_right _ mem_cons_self

/-! ### Reading a value -/

/-- A name that `vdfs4_setxattr` and `vdfs4_getxattr` take to the tree. -/
structure Accepted (name : CString) : Prop where
  prefixed : checkXattrPrefix name = true
  notAcl : isAclName name = false

theorem Accepted.ne_empty (h : Accepted name) : name ≠ empty := by
  rintro rfl
  exact absurd h.prefixed (by decide)

theorem getxattr_accepted (h : Accepted name) (buffer : Option Nat) :
    vdfs4Getxattr tree ino name buffer =
      (vdfs4XattrtreeFind tree ino name).bind (copyXattr buffer) := by
  rw [vdfs4Getxattr, if_neg h.ne_empty, if_neg (by simp [h.prefixed]), if_neg (by simp [h.notAcl])]

theorem getxattr_absent (hs : Sorted rank tree) (h : Accepted name)
    (hlen : name.length < xattrNameMaxLen) (habs : ¬ Present tree ino name)
    (buffer : Option Nat) : vdfs4Getxattr tree ino name buffer = .error .enodata := by
  rw [getxattr_accepted h, find_of_absent hs hlen h.ne_empty habs]
  rfl

/-- A value behind its length byte is read back as it is. -/
theorem getxattr_of_mem (hs : Sorted rank tree) (h : Accepted name)
    (hlen : name.length < xattrNameMaxLen) (hv : v.length < xattrValMaxLen - 1)
    (hmem : (⟨ino, name⟩, UInt8.ofNat v.length :: v) ∈ tree) {bufSize : Nat}
    (hbuf : v.length ≤ bufSize) :
    vdfs4Getxattr tree ino name (some bufSize) = .ok (v.length, v) := by
  obtain ⟨rest, hfind⟩ := find_of_mem hs hlen hmem
  have hbyte : (UInt8.ofNat v.length).toNat = v.length := by
    rw [UInt8.toNat_ofNat']
    exact Nat.mod_eq_of_lt (hv.trans (by decide))
  rw [getxattr_accepted h, hfind, Except.bind, copyXattr]
  simp [hbyte, hbuf]

/-- A read depends on the record of its key only. -/
theorem getxattr_congr (hs : Sorted rank tree) (hs' : Sorted rank tree')
    (h : ∀ value, (⟨ino, name⟩, value) ∈ tree' ↔ (⟨ino, name⟩, value) ∈ tree)
    (buffer : Option Nat) :
    vdfs4Getxattr tree' ino name buffer = vdfs4Getxattr tree ino name buffer := by
  by_cases hacc : checkXattrPrefix name = true ∧ isAclName name = false
  · have hname : Accepted name := ⟨hacc.1, hacc.2⟩
    by_cases hlen : name.length < xattrNameMaxLen
    · by_cases hp : Present tree ino name
      · obtain ⟨value, hmem⟩ := hp
        obtain ⟨rest, hfind⟩ := find_of_mem hs hlen hmem
        obtain ⟨rest', hfind'⟩ := find_of_mem hs' hlen ((h value).mpr hmem)
        rw [getxattr_accepted hname, getxattr_accepted hname, hfind, hfind']
        rfl
      · have hp' : ¬ Present tree' ino name := fun ⟨value, hmem⟩ => hp ⟨value, (h value).mp hmem⟩
        rw [getxattr_absent hs hname hlen hp, getxattr_absent hs' hname hlen hp']
    · rw [getxattr_accepted hname, getxattr_accepted hname, find_long (not_lt.mp hlen),
        find_long (not_lt.mp hlen)]
  · -- the name does not reach the tree
    rw [vdfs4Getxattr, vdfs4Getxattr]
    by_cases hp : checkXattrPrefix name = true
    · have hacl : isAclName name = true := by
        by_contra hn
        exact hacc ⟨hp, by simpa using hn⟩
      simp [hp, hacl]
    · simp [hp]

/-! ### What a set can do -/

/-- The tree after the insertion of a value. -/
structure Stored (tree tree' : XattrTree) (ino : Nat) (name : CString) (v : List UInt8) : Prop where
  short : v.length < xattrValMaxLen - 1
  sorted : Sorted rank tree'
  mem_iff : ∀ record, record ∈ tree' ↔
    record = (⟨ino, name⟩, UInt8.ofNat v.length :: v) ∨ record ∈ tree

/-- The tree after the removal of a key. -/
structure Dropped (tree tree' : XattrTree) (ino : Nat) (name : CString) : Prop where
  sorted : Sorted rank tree'
  mem_iff : ∀ record, record ∈ tree' ↔ record ∈ tree ∧ record.1 ≠ ⟨ino, name⟩

theorem Dropped.absent (h : Dropped tree tree' ino name) : ¬ Present tree' ino name :=
  fun ⟨_, hmem⟩ => ((h.mem_iff _).mp hmem).2 rfl

/-- An insertion under a free key stores the value or refuses it for its length. -/
theorem insertXattr_cases (hs : Sorted rank tree)
    (hlen : name.length < xattrNameMaxLen) (habs : ¬ Present tree ino name) (value : XattrValue) :
    (∃ size, value = .null size ∧ insertXattr tree ino name value = (none, tree)) ∨
      (∃ v, value = .bytes v ∧ xattrValMaxLen - 1 ≤ v.length ∧
        insertXattr tree ino name value = (some .einval, tree)) ∨
      ∃ v tree', value = .bytes v ∧ insertXattr tree ino name value = (none, tree') ∧
        Stored tree tree' ino name v := by
  cases value with
  | null size => exact .inl ⟨size, rfl, rfl⟩
  | bytes v =>
    right
    rw [insertXattr, xattrtreeInsert]
    by_cases hv : xattrValMaxLen - 1 ≤ v.length
    · left
      rw [if_pos (.inr hv)]
      exact ⟨v, rfl, hv, rfl⟩
    right
    rw [if_neg (not_or.mpr ⟨not_le.mpr hlen, hv⟩)]
    cases hplace : place vdfs4XattrtreeCmpfn ⟨ino, name⟩ (UInt8.ofNat v.length :: v) tree with
    | none =>
      obtain ⟨record, hmem, hrank⟩ := (hs.place_eq_none_iff xattrtree_rankedBy _ _).mp hplace
      refine absurd ⟨record.2, ?_⟩ habs
      rw [← rank_inj.mp hrank]
      exact hmem
    | some tree' =>
      exact ⟨v, tree', rfl, rfl, not_le.mp hv, hs.place xattrtree_rankedBy hplace,
        fun record => mem_place hplace record⟩

theorem removeRecord_of_present (hs : Sorted rank tree)
    (hlen : name.length < xattrNameMaxLen) (hp : Present tree ino name) :
    ∃ tree', xattrtreeRemoveRecord tree ino name = .ok tree' ∧ Dropped tree tree' ino name := by
  rw [xattrtreeRemoveRecord, xattrtreeAllocKey, if_neg (not_le.mpr hlen)]
  cases hrem : remove vdfs4XattrtreeCmpfn ⟨ino, name⟩ tree with
  | none =>
    obtain ⟨value, hmem⟩ := hp
    exact absurd rfl ((remove_eq_none_iff xattrtree_rankedBy _ _).mp hrem _ hmem)
  | some tree' =>
    refine ⟨tree', by simp only [hrem], hs.remove hrem, fun record => ?_⟩
    rw [hs.mem_remove xattrtree_rankedBy hrem, Ne, rank_inj]

variable {value : XattrValue} {flags : XattrFlags}

theorem setxattr_long (tree : XattrTree) (ino : Nat) (flags : XattrFlags)
    (h : xattrNameMaxLen ≤ name.length ∨ xattrValMaxLen ≤ value.size) :
    vdfs4Setxattr tree ino name value flags = (some .einval, tree) := by
  rw [vdfs4Setxattr, if_pos h]

section

variable (hs : Sorted rank tree) (hname : Accepted name) (hlen : name.length < xattrNameMaxLen)
  (hsize : value.size < xattrValMaxLen) (flags : XattrFlags)

include hs hname hlen hsize

/-- A set of a name that is there: refused, or removal and insertion. -/
theorem setxattr_present (hp : Present tree ino name) :
    (flags.create = true ∧ vdfs4Setxattr tree ino name value flags = (some .eexist, tree)) ∨
      flags.create = false ∧ ∃ tree', Dropped tree tree' ino name ∧
        vdfs4Setxattr tree ino name value flags = insertXattr tree' ino name value := by
  obtain ⟨v, hmem⟩ := hp
  obtain ⟨rest, hfind⟩ := find_of_mem hs hlen hmem
  rw [vdfs4Setxattr, if_neg (not_or.mpr ⟨not_le.mpr hlen, not_le.mpr hsize⟩),
    if_neg (by simp [hname.prefixed]), if_neg (by simp [hname.notAcl]), hfind]
  cases hcreate : flags.create with
  | true => exact .inl ⟨rfl, rfl⟩
  | false =>
    obtain ⟨tree', hrem, hdrop⟩ := removeRecord_of_present hs hlen ⟨v, hmem⟩
    refine .inr ⟨rfl, tree', hdrop, ?_⟩
    simp [hrem]

/-- A set of a name that is not there: refused, or an insertion. -/
theorem setxattr_absent (habs : ¬ Present tree ino name) :
    (flags.replace = true ∧ vdfs4Setxattr tree ino name value flags = (some .enodata, tree)) ∨
      flags.replace = false ∧
        vdfs4Setxattr tree ino name value flags = insertXattr tree ino name value := by
  rw [vdfs4Setxattr, if_neg (not_or.mpr ⟨not_le.mpr hlen, not_le.mpr hsize⟩),
    if_neg (by simp [hname.prefixed]), if_neg (by simp [hname.notAcl]),
    find_of_absent hs hlen hname.ne_empty habs]
  cases hreplace : flags.replace with
  | true => exact .inl ⟨rfl, rfl⟩
  | false => exact .inr ⟨rfl, rfl⟩

end

/-! ### The invariant -/

section

variable (hw : WellFormed tree)

include hw

theorem WellFormed.stored (hname : Accepted name)
    (hlen : name.length < xattrNameMaxLen) (h : Stored tree tree' ino name v) :
    WellFormed tree' where
  sorted := h.sorted
  root := (h.mem_iff _).mpr (.inr hw.root)
  encoded := by
    intro record hmem hne
    rcases (h.mem_iff record).mp hmem with rfl | hmem
    · exact ⟨hlen, hname.ne_empty, v, rfl, h.short⟩
    · exact hw.encoded record hmem hne

theorem WellFormed.dropped (hino : ino ≠ 0)
    (h : Dropped tree tree' ino name) : WellFormed tree' where
  sorted := h.sorted
  root := (h.mem_iff _).mpr ⟨hw.root, fun heq => hino (congrArg objectId heq).symm⟩
  encoded := fun record hmem => hw.encoded record ((h.mem_iff record).mp hmem).1

theorem WellFormed.insertXattr (hname : Accepted name)
    (hlen : name.length < xattrNameMaxLen) (habs : ¬ Present tree ino name)
    (value : XattrValue) : WellFormed (insertXattr tree ino name value).2 := by
  rcases insertXattr_cases hw.sorted hlen habs value with
    ⟨_, _, h⟩ | ⟨_, _, _, h⟩ | ⟨v, tree', _, h, hstored⟩
  · rw [h]
    exact hw
  · rw [h]
    exact hw
  · rw [h]
    exact hw.stored hname hlen hstored

/-- Every set keeps the invariant, also one that fails. -/
theorem WellFormed.setxattr (hino : ino ≠ 0) (hname : Accepted name) :
    WellFormed (vdfs4Setxattr tree ino name value flags).2 := by
  by_cases hlong : xattrNameMaxLen ≤ name.length ∨ xattrValMaxLen ≤ value.size
  · rw [setxattr_long _ _ _ hlong]
    exact hw
  obtain ⟨hlen, hsize⟩ := not_or.mp hlong
  rw [not_le] at hlen hsize
  by_cases hp : Present tree ino name
  · rcases setxattr_present hw.sorted hname hlen hsize flags hp with
      ⟨-, h⟩ | ⟨-, tree', hdrop, h⟩
    · rw [h]
      exact hw
    · rw [h]
      exact (hw.dropped hino hdrop).insertXattr hname hlen hdrop.absent value
  · rcases setxattr_absent hw.sorted hname hlen hsize flags hp with ⟨-, h⟩ | ⟨-, h⟩
    · rw [h]
      exact hw
    · rw [h]
      exact hw.insertXattr hname hlen hp value

/-- Only short names are ever present. -/
theorem WellFormed.length_lt (hino : ino ≠ 0)
    (hp : Present tree ino name) : name.length < xattrNameMaxLen := by
  obtain ⟨value, hmem⟩ := hp
  exact (hw.encoded _ hmem hino).shortName

end

/-! ### A set on a map -/

/-- What a map asks of a set: success stores the value (or leaves no value for a null
pointer), an error changes nothing, other keys keep their values, and the two flags refuse
exactly the present and the absent names. -/
structure SetActsAsMap (tree : XattrTree) (ino : Nat) (name : CString) (value : XattrValue)
    (flags : XattrFlags) : Prop where
  stored : ∀ v, value = .bytes v → (vdfs4Setxattr tree ino name value flags).1 = none →
    ∀ bufSize, v.length ≤ bufSize →
      vdfs4Getxattr (vdfs4Setxattr tree ino name value flags).2 ino name (some bufSize) =
        .ok (v.length, v)
  dropped : ∀ size, value = .null size → (vdfs4Setxattr tree ino name value flags).1 = none →
    ∀ buffer, vdfs4Getxattr (vdfs4Setxattr tree ino name value flags).2 ino name buffer =
      .error .enodata
  unchanged : (vdfs4Setxattr tree ino name value flags).1 ≠ none → ∀ ino' name' buffer,
    vdfs4Getxattr (vdfs4Setxattr tree ino name value flags).2 ino' name' buffer =
      vdfs4Getxattr tree ino' name' buffer
  others : ∀ ino' name', (ino', name') ≠ (ino, name) → ∀ buffer,
    vdfs4Getxattr (vdfs4Setxattr tree ino name value flags).2 ino' name' buffer =
      vdfs4Getxattr tree ino' name' buffer
  create_iff : flags.create = true →
    ((vdfs4Setxattr tree ino name value flags).1 = some .eexist ↔ Present tree ino name)
  replace_iff : flags.replace = true →
    ((vdfs4Setxattr tree ino name value flags).1 = some .enodata ↔ ¬ Present tree ino name)

/-- The sets that do not act as on a map: a replacement by a value of one byte less than the
limit, which loses the old value, and a name or value over the limit, which is refused as
such before the flags are looked at. -/
def SetBreaks (tree : XattrTree) (ino : Nat) (name : CString) (value : XattrValue)
    (flags : XattrFlags) : Prop :=
  (Present tree ino name ∧ flags.create = false ∧
      ∃ v, value = .bytes v ∧ v.length = xattrValMaxLen - 1) ∨
    ((xattrNameMaxLen ≤ name.length ∨ xattrValMaxLen ≤ value.size) ∧
      (flags.create = true ∧ Present tree ino name ∨
        flags.replace = true ∧ ¬ Present tree ino name))

/-- The other keys keep their values, if they keep their records. -/
theorem getxattr_others (hs : Sorted rank tree) (hs' : Sorted rank tree')
    (h : ∀ record, record.1 ≠ ⟨ino, name⟩ → (record ∈ tree' ↔ record ∈ tree))
    (hne : (ino', name') ≠ (ino, name)) (buffer : Option Nat) :
    vdfs4Getxattr tree' ino' name' buffer = vdfs4Getxattr tree ino' name' buffer := by
  refine getxattr_congr hs hs' (fun value => h _ fun heq => hne ?_) buffer
  obtain ⟨h1, h2⟩ := mk.inj heq
  rw [h1, h2]

/-- A set that leaves the tree alone and returns an error acts as on a map when the error is
the one the flags ask for. -/
theorem SetActsAsMap.of_refused {e : Errno}
    (h : vdfs4Setxattr tree ino name value flags = (some e, tree))
    (hcreate : flags.create = true → (e = .eexist ↔ Present tree ino name))
    (hreplace : flags.replace = true → (e = .enodata ↔ ¬ Present tree ino name)) :
    SetActsAsMap tree ino name value flags where
  stored := by simp [h]
  dropped := by simp [h]
  unchanged := by simp [h]
  others := by simp [h]
  create_iff := by simpa [h] using hcreate
  replace_iff := by simpa [h] using hreplace

/-- The end of a set, after the record of the name, if there was one, has been removed. -/
theorem SetActsAsMap.of_insert (hs : Sorted rank tree)
    (hs' : Sorted rank tree') (hname : Accepted name)
    (hlen : name.length < xattrNameMaxLen) (habs : ¬ Present tree' ino name)
    (h : vdfs4Setxattr tree ino name value flags = insertXattr tree' ino name value)
    (hothers : ∀ ino' name', (ino', name') ≠ (ino, name) → ∀ buffer,
      vdfs4Getxattr tree' ino' name' buffer = vdfs4Getxattr tree ino' name' buffer)
    (hsize : ∀ v, value = .bytes v → v.length ≠ xattrValMaxLen - 1 ∨ tree' = tree)
    (hlimit : value.size < xattrValMaxLen)
    (hcreate : flags.create = true → ¬ Present tree ino name)
    (hreplace : flags.replace = true → Present tree ino name) :
    SetActsAsMap tree ino name value flags := by
  rcases insertXattr_cases hs' hlen habs value with
    ⟨size, rfl, hins⟩ | ⟨v, rfl, hv, hins⟩ | ⟨v, tree2, rfl, hins, hstored⟩
  · -- a null pointer: nothing is inserted
    rw [hins] at h
    exact {
      stored := by simp
      dropped := fun _ _ _ buffer => by
        rw [h]
        exact getxattr_absent hs' hname hlen habs buffer
      unchanged := by simp [h]
      others := by simpa [h] using hothers
      create_iff := fun hc => by simp [h, hcreate hc]
      replace_iff := fun hr => by simp [h, hreplace hr] }
  · -- the insertion refuses the length; then nothing had been removed
    have heq : v.length = xattrValMaxLen - 1 := by
      have := hlimit
      rw [XattrValue.size] at this
      omega
    obtain rfl := (hsize v rfl).resolve_left (not_not.mpr heq)
    rw [hins] at h
    refine SetActsAsMap.of_refused h (fun hc => ?_) (fun hr => ?_)
    · simp [hcreate hc]
    · simp [hreplace hr]
  · rw [hins] at h
    have hmem : (⟨ino, name⟩, UInt8.ofNat v.length :: v) ∈ tree2 :=
      (hstored.mem_iff _).mpr (.inl rfl)
    exact {
      stored := by
        intro v' hv' _ bufSize hbuf
        obtain rfl := XattrValue.bytes.inj hv'
        rw [h]
        exact getxattr_of_mem hstored.sorted hname hlen hstored.short hmem hbuf
      dropped := by simp
      unchanged := by simp [h]
      others := by
        intro ino' name' hne buffer
        rw [h, getxattr_others hs' hstored.sorted (fun record hkey => ?_) hne,
          hothers ino' name' hne]
        exact (hstored.mem_iff record).trans (or_iff_right fun heq => hkey (by rw [heq]))
      create_iff := fun hc => by simp [h, hcreate hc]
      replace_iff := fun hr => by simp [h, hreplace hr] }

/-- **A set acts as on a map exactly when it does not break it.** -/
theorem setActsAsMap_iff (hw : WellFormed tree) (hino : ino ≠ 0) (hname : Accepted name)
    (value : XattrValue) (flags : XattrFlags) :
    SetActsAsMap tree ino name value flags ↔ ¬ SetBreaks tree ino name value flags := by
  constructor
  · rintro hmap (⟨hp, hcreate, v, rfl, hv⟩ | ⟨hlong, hflags⟩)
    · -- the old value is gone although the set fails
      have hlen := hw.length_lt hino hp
      have hsize : (XattrValue.bytes v).size < xattrValMaxLen := by
        rw [XattrValue.size, hv]
        decide
      obtain ⟨-, tree', hdrop, h⟩ := (setxattr_present hw.sorted hname hlen hsize flags
        hp).resolve_left fun hc => by simp [hcreate] at hc
      obtain ⟨v', hv', hlong, hins⟩ := ((insertXattr_cases hdrop.sorted hlen hdrop.absent
        (.bytes v)).resolve_left (by simp)).resolve_right (by
          rintro ⟨v', tree2, hv', -, hstored⟩
          obtain rfl := XattrValue.bytes.inj hv'
          exact absurd hstored.short (by omega))
      rw [hins] at h
      have hget := hmap.unchanged (by simp [h]) ino name none
      obtain ⟨old, hmem⟩ := hp
      obtain ⟨rest, hfind⟩ := find_of_mem hw.sorted hlen hmem
      rw [h, getxattr_absent hdrop.sorted hname hlen hdrop.absent, getxattr_accepted hname,
        hfind] at hget
      cases hget
    · have h := setxattr_long tree ino flags hlong
      rcases hflags with ⟨hc, hp⟩ | ⟨hr, hp⟩
      · simpa [h] using (hmap.create_iff hc).mpr hp
      · simpa [h] using (hmap.replace_iff hr).mpr hp
  · intro hok
    rw [SetBreaks, not_or] at hok
    obtain ⟨hsize, hflags⟩ := hok
    by_cases hlong : xattrNameMaxLen ≤ name.length ∨ xattrValMaxLen ≤ value.size
    · refine SetActsAsMap.of_refused (setxattr_long tree ino flags hlong) (fun hc => ?_)
        (fun hr => ?_)
      · simpa using fun hp => hflags ⟨hlong, .inl ⟨hc, hp⟩⟩
      · simpa using fun hp => hflags ⟨hlong, .inr ⟨hr, hp⟩⟩
    obtain ⟨hlen, hlimit⟩ := not_or.mp hlong
    rw [not_le] at hlen hlimit
    by_cases hp : Present tree ino name
    · rcases setxattr_present hw.sorted hname hlen hlimit flags hp with
        ⟨hc, h⟩ | ⟨hc, tree', hdrop, h⟩
      · exact SetActsAsMap.of_refused h (fun _ => by simp [hp]) (fun _ => by simp [hp])
      · refine SetActsAsMap.of_insert hw.sorted hdrop.sorted hname hlen hdrop.absent h
          (fun ino' name' => getxattr_others hw.sorted hdrop.sorted fun record hkey =>
            (hdrop.mem_iff record).trans (and_iff_left hkey)) (fun v hv => .inl fun hlen' => ?_)
          hlimit (fun hc' => absurd hc' (by simp [hc])) (fun _ => hp)
        exact hsize ⟨hp, hc, v, hv, hlen'⟩
    · rcases setxattr_absent hw.sorted hname hlen hlimit flags hp with
        ⟨hr, h⟩ | ⟨hr, h⟩
      · exact SetActsAsMap.of_refused h (fun _ => by simp [hp]) (fun _ => by simp [hp])
      · exact SetActsAsMap.of_insert hw.sorted hw.sorted hname hlen hp h (fun _ _ _ _ => rfl)
          (fun _ _ => .inr rfl) hlimit (fun _ => hp) (fun hr' => absurd hr' (by simp [hr]))

/-! ### Listing and removal of all attributes -/

/-- The records of one inode. -/
def records (tree : XattrTree) (ino : Nat) : XattrTree :=
  tree.filter fun record => record.1.objectId = ino

/-- The names of an inode's attributes, in the order of the tree. -/
def names (tree : XattrTree) (ino : Nat) : List CString :=
  (records tree ino).map fun record => record.1.name

/-- The room the names take in a buffer, each with its terminating zero. -/
def namesSize (tree : XattrTree) (ino : Nat) : Nat :=
  ((names tree ino).map fun name => name.length + 1).sum

theorem mem_names : name ∈ names tree ino ↔ Present tree ino name := by
  simp only [names, records, mem_map, mem_filter, decide_eq_true_eq, Present]
  constructor
  · rintro ⟨⟨⟨_, _⟩, value⟩, ⟨hmem, rfl⟩, rfl⟩
    exact ⟨value, hmem⟩
  · rintro ⟨value, hmem⟩
    exact ⟨_, ⟨hmem, rfl⟩, rfl⟩

theorem nodup_names (hs : Sorted rank tree) : (names tree ino).Nodup := by
  refine pairwise_map.mpr ((List.Pairwise.filter _ hs).imp_of_mem ?_)
  intro a b ha hb hlt heq
  have hida : a.1.objectId = ino := by simpa using (mem_filter.mp ha).2
  have hidb : b.1.objectId = ino := by simpa using (mem_filter.mp hb).2
  have hkey : a.1 = b.1 := by
    rw [mk.injEq, hida, hidb]
    exact ⟨rfl, heq⟩
  exact hlt.ne (congrArg rank hkey)

theorem objectId_le_of_rank_lt {a b : XattrtreeKey} (h : a.rank < b.rank) :
    a.objectId ≤ b.objectId := by
  rcases Prod.Lex.toLex_lt_toLex.mp h with h | ⟨h, -⟩
  · exact h.le
  · exact h.le

/-- Where the records of an inode begin. -/
theorem WellFormed.split (hw : WellFormed tree) (hino : ino ≠ 0) :
    ∃ lo record hi, tree = lo ++ record :: hi ∧
      vdfs4XattrtreeFind tree ino empty = .ok (record, hi) ∧
      (∀ r ∈ lo ++ [record], r.1.objectId < ino) ∧ ∀ r ∈ hi, ino ≤ r.1.objectId := by
  have hroot : rank ⟨0, xattrRootName⟩ ≤ rank ⟨ino, empty⟩ :=
    (Prod.Lex.toLex_lt_toLex.mpr (.inl (Nat.pos_of_ne_zero hino))).le
  obtain ⟨-, habove⟩ | ⟨lo, record, hi, rfl, hseek, hle, hhi⟩ :=
    hw.sorted.seek_spec xattrtree_rankedBy ⟨ino, empty⟩
  · exact absurd (habove _ hw.root) (not_lt.mpr hroot)
  refine ⟨lo, record, hi, rfl, ?_, fun r hr => ?_, fun r hr => objectId_le_of_rank_lt (hhi r hr)⟩
  · rw [vdfs4XattrtreeFind, xattrtreeAllocKey, if_neg (by decide)]
    simp only [hseek]
    rw [if_neg]
    rintro ⟨hne, -⟩
    exact hne rfl
  -- no record of the inode has the empty name
  have hmem : r ∈ lo ++ record :: hi := by
    rw [append_cons]
    exact mem_append_left _ hr
  have hrank : r.1.rank ≤ rank ⟨ino, empty⟩ := by
    rcases mem_append.mp hr with hr | hr
    · exact ((Sorted.append_iff.mp hw.sorted).2.2 r hr _ mem_cons_self).le.trans hle
    · rw [mem_singleton.mp hr]
      exact hle
  rcases Prod.Lex.toLex_le_toLex.mp hrank with hlt | ⟨hid, hname⟩
  · exact hlt
  have hempty : r.1.name = empty := by
    rw [CString.mk.injEq]
    cases hbytes : r.1.name.bytes with
    | nil => rfl
    | cons c l =>
      rw [hbytes] at hname
      exact absurd (nil_lt_cons _ _) (not_lt.mpr hname)
  have hne : r.1.objectId ≠ 0 := fun h => hino (hid.symm.trans h)
  exact absurd hempty (hw.encoded r hmem hne).named

/-- The records from a place on where the inode's may begin. -/
theorem records_tail {r : XattrtreeKey × List UInt8} (hs : Sorted rank (r :: l))
    (hr : ino < r.1.objectId) :
    records (r :: l) ino = [] := by
  refine filter_eq_nil_iff.mpr fun x hx => ?_
  have hle : r.1.objectId ≤ x.1.objectId := by
    rcases mem_cons.mp hx with rfl | hx
    · exact le_rfl
    · exact objectId_le_of_rank_lt ((Sorted.cons_iff.mp hs).1 x hx)
  simpa using (hr.trans_le hle).ne'

/-- The loop of the listing writes the names of the inode's records. -/
theorem listxattrLoop_eq (hs : Sorted rank l) (hge : ∀ r ∈ l, ino ≤ r.1.objectId) :
    listxattrLoop ino none l = .ok (namesSize l ino, []) ∧
      ∀ n, namesSize l ino ≤ n →
        listxattrLoop ino (some n) l = .ok (namesSize l ino, names l ino) := by
  induction l with
  | nil => exact ⟨rfl, fun _ _ => rfl⟩
  | cons r l ih =>
    obtain ⟨-, hs'⟩ := Sorted.cons_iff.mp hs
    by_cases hr : r.1.objectId = ino
    · have hnames : names (r :: l) ino = r.1.name :: names l ino := by
        simp [names, records, hr]
      have hsize : namesSize (r :: l) ino = r.1.name.length + 1 + namesSize l ino := by
        simp [namesSize, hnames]
      obtain ⟨ih1, ih2⟩ := ih hs' fun x hx => hge x (mem_cons_of_mem _ hx)
      constructor
      · simp [listxattrLoop, hr, ih1, hsize, Except.map]
      · intro n hn
        have hrest := ih2 (n - (r.1.name.length + 1)) (by omega)
        have hroom : ¬ n < r.1.name.length + 1 := by omega
        simp [listxattrLoop, hr, hroom, hrest, hsize, hnames, Except.map]
    · have hlt : ino < r.1.objectId := lt_of_le_of_ne (hge r mem_cons_self) (Ne.symm hr)
      have hnil : names (r :: l) ino = [] := by rw [names, records_tail hs hlt, map_nil]
      have hzero : namesSize (r :: l) ino = 0 := by rw [namesSize, hnil]; rfl
      constructor
      · simp [listxattrLoop, hr, hzero]
      · intro n _
        simp [listxattrLoop, hr, hzero, hnil]

section

variable (hw : WellFormed tree) (hino : ino ≠ 0)

include hw hino

/-- The first record of an inode, or that there is none. -/
theorem WellFormed.firstRecord :
    (xattrtreeGetFirstRecord tree ino = .error .enoent ∧ records tree ino = []) ∨
      ∃ lo r hi, tree = lo ++ r :: hi ∧ xattrtreeGetFirstRecord tree ino = .ok (r, hi) ∧
        r.1.objectId = ino ∧ records tree ino = records (r :: hi) ino ∧
        ∀ x ∈ r :: hi, ino ≤ x.1.objectId := by
  obtain ⟨lo, e, hi, rfl, hfind, hlo, hhi⟩ := hw.split hino
  have hs : Sorted rank hi :=
    (Sorted.cons_iff.mp (Sorted.append_iff.mp hw.sorted).2.1).2
  have hrecords : records (lo ++ e :: hi) ino = records hi ino := by
    rw [append_cons, records, filter_append, filter_eq_nil_iff.mpr, nil_append]
    · rfl
    · intro x hx
      simpa using (hlo x hx).ne
  rw [xattrtreeGetFirstRecord, hfind, hrecords]
  cases hi with
  | nil => exact .inl ⟨rfl, rfl⟩
  | cons r hi =>
    by_cases hr : r.1.objectId = ino
    · refine .inr ⟨lo ++ [e], r, hi, by simp, ?_, hr, rfl, hhi⟩
      simp [OrderedMap.next, hr]
    · have hlt : ino < r.1.objectId := lt_of_le_of_ne (hhi r mem_cons_self) (Ne.symm hr)
      refine .inl ⟨?_, records_tail hs hlt⟩
      simp [OrderedMap.next, hr]

/-- **Listing is exact**: the names of the inode's attributes, and the room they take. -/
theorem WellFormed.listxattr :
    vdfs4Listxattr tree ino none = .ok (namesSize tree ino, []) ∧
      ∀ n, namesSize tree ino ≤ n →
        vdfs4Listxattr tree ino (some n) = .ok (namesSize tree ino, names tree ino) := by
  rcases hw.firstRecord hino with ⟨hfirst, hnil⟩ | ⟨lo, r, hi, rfl, hfirst, hr, hrecords, hge⟩
  · have hnames : names tree ino = [] := by rw [names, hnil, map_nil]
    simp [vdfs4Listxattr, hfirst, namesSize, hnames]
  have hs := (Sorted.append_iff.mp hw.sorted).2.1
  have hnames : names (lo ++ r :: hi) ino = names (r :: hi) ino := by
    rw [names, hrecords, names]
  rw [vdfs4Listxattr, hfirst, namesSize, hnames]
  obtain ⟨h1, h2⟩ := listxattrLoop_eq hs hge
  refine ⟨h1, fun n hn => ?_⟩
  rw [vdfs4Listxattr, hfirst]
  exact h2 n hn

/-- The rounds of the removal of all attributes. -/
theorem WellFormed.removeAllLoop {fuel : Nat} (hfuel : tree.length < fuel) :
    ∃ tree', removeAllLoop ino fuel tree = some (none, tree') ∧ WellFormed tree' ∧
      ∀ record, record ∈ tree' ↔ record ∈ tree ∧ record.1.objectId ≠ ino := by
  induction fuel generalizing tree with
  | zero => exact absurd hfuel (Nat.not_lt_zero _)
  | succ fuel ih =>
    rw [Vdfs4.removeAllLoop]
    rcases hw.firstRecord hino with ⟨hfirst, hnil⟩ | ⟨lo, r, hi, htree, hfirst, hr, -, -⟩
    · refine ⟨tree, by simp [hfirst], hw, fun record => (and_iff_left_of_imp fun hmem => ?_).symm⟩
      simpa using filter_eq_nil_iff.mp hnil record hmem
    -- one record less, and the rest by induction
    have hmem : r ∈ tree := by simp [htree]
    cases hrem : remove vdfs4XattrtreeCmpfn r.1 tree with
    | none => exact absurd rfl ((remove_eq_none_iff xattrtree_rankedBy _ _).mp hrem r hmem)
    | some tree1 =>
      have hdrop : Dropped tree tree1 ino r.1.name := by
        refine ⟨hw.sorted.remove hrem, fun record => ?_⟩
        rw [hw.sorted.mem_remove xattrtree_rankedBy hrem, Ne, rank_inj, ← hr]
      obtain ⟨tree', hloop, hw', hiff⟩ := ih (hw.dropped hino hdrop) (by
        have := length_remove hrem
        omega)
      refine ⟨tree', by simpa [hfirst, hrem] using hloop, hw', fun record => ?_⟩
      rw [hiff, hdrop.mem_iff, and_assoc]
      refine and_congr_right fun _ => and_iff_right_of_imp fun hne heq => hne ?_
      rw [heq]

/-- **Removal of all attributes is exact**, and ends. -/
theorem WellFormed.removeAll :
    ∃ tree', vdfs4XattrtreeRemoveAll tree ino = some (none, tree') ∧ WellFormed tree' ∧
      (∀ name, ¬ Present tree' ino name) ∧ ∀ ino' name buffer, ino' ≠ ino →
        vdfs4Getxattr tree' ino' name buffer = vdfs4Getxattr tree ino' name buffer := by
  obtain ⟨tree', hloop, hw', hiff⟩ := hw.removeAllLoop hino (Nat.lt_succ_self _)
  refine ⟨tree', hloop, hw', fun name hp => ?_, fun ino' name buffer hne => ?_⟩
  · obtain ⟨value, hmem⟩ := hp
    exact ((hiff _).mp hmem).2 rfl
  · exact getxattr_congr hw.sorted hw'.sorted
      (fun value => (hiff _).trans (and_iff_left hne)) buffer

/-- A name is present when a read finds it. -/
theorem WellFormed.present_iff (hname : Accepted name) :
    Present tree ino name ↔ ∃ r, vdfs4Getxattr tree ino name none = .ok r := by
  constructor
  · intro hp
    have hlen := hw.length_lt hino hp
    obtain ⟨value, hmem⟩ := hp
    obtain ⟨rest, hfind⟩ := find_of_mem hw.sorted hlen hmem
    rw [getxattr_accepted hname, hfind]
    exact ⟨_, rfl⟩
  · rintro ⟨r, hget⟩
    by_contra habs
    by_cases hlen : name.length < xattrNameMaxLen
    · rw [getxattr_absent hw.sorted hname hlen habs] at hget
      cases hget
    · rw [getxattr_accepted hname, find_long (not_lt.mp hlen)] at hget
      cases hget

end

end XattrTree

/-! ### Runs -/

open XattrTree

/-- The calls on the store. -/
inductive XattrOp where
  | set (ino : Nat) (name : CString) (value : XattrValue) (flags : XattrFlags)
  | get (ino : Nat) (name : CString) (buffer : Option Nat)
  | list (ino : Nat) (buffer : Option Nat)
  | removeAll (ino : Nat)

/-- Calls for inodes, whose numbers begin at 1; sets with an accepted prefix that are not for
the ACL functions. -/
def XattrOp.Admitted : XattrOp → Prop
  | .set ino name _ _ => ino ≠ 0 ∧ checkXattrPrefix name = true ∧ isAclName name = false
  | .get _ _ _ => True
  | .list _ _ => True
  | .removeAll ino => ino ≠ 0

instance (op : XattrOp) : Decidable op.Admitted :=
  match op with
  | .set ino name _ _ =>
    inferInstanceAs (Decidable (ino ≠ 0 ∧ checkXattrPrefix name = true ∧ isAclName name = false))
  | .get _ _ _ => inferInstanceAs (Decidable True)
  | .list _ _ => inferInstanceAs (Decidable True)
  | .removeAll ino => inferInstanceAs (Decidable (ino ≠ 0))

/-- One call; only sets and removals change the tree. -/
def xattrStep (tree : XattrTree) : XattrOp → Option XattrTree
  | .set ino name value flags => some (vdfs4Setxattr tree ino name value flags).2
  | .get _ _ _ => some tree
  | .list _ _ => some tree
  | .removeAll ino => (vdfs4XattrtreeRemoveAll tree ino).map Prod.snd

theorem wellFormed_xattrStep {tree tree' : XattrTree} {op : XattrOp} (hw : WellFormed tree)
    (hop : op.Admitted) (hstep : xattrStep tree op = some tree') : WellFormed tree' := by
  cases op with
  | set ino name value flags =>
    obtain ⟨hino, hstart, hacl⟩ := hop
    obtain rfl := Option.some.inj hstep
    exact hw.setxattr hino ⟨hstart, hacl⟩
  | get ino name buffer =>
    obtain rfl := Option.some.inj hstep
    exact hw
  | list ino buffer =>
    obtain rfl := Option.some.inj hstep
    exact hw
  | removeAll ino =>
    obtain ⟨tree1, hrem, hw1, -⟩ := hw.removeAll hop
    rw [xattrStep, hrem] at hstep
    obtain rfl := Option.some.inj hstep
    exact hw1

/-- **The attribute store is a map**, in every state that calls can reach, except for the sets
of `SetBreaks`; a name is present when `vdfs4_getxattr` finds it, `vdfs4_listxattr` returns
every present name once, and `vdfs4_xattrtree_remove_all` removes the names of its inode and
nothing else. -/
theorem xattr_store_is_map {tree : XattrTree}
    (h : Reaches (fun _ => XattrOp.Admitted) xattrStep xattrRoot tree) (ino : Nat)
    (hino : ino ≠ 0) :
    (∀ name value flags, Accepted name →
      (SetActsAsMap tree ino name value flags ↔ ¬ SetBreaks tree ino name value flags)) ∧
    (∀ name, Accepted name →
      (Present tree ino name ↔ ∃ r, vdfs4Getxattr tree ino name none = .ok r)) ∧
    (∃ names : List CString, names.Nodup ∧ (∀ name, name ∈ names ↔ Present tree ino name) ∧
      ∀ size, (names.map fun name => name.length + 1).sum ≤ size →
        vdfs4Listxattr tree ino (some size) =
          .ok ((names.map fun name => name.length + 1).sum, names)) ∧
    ∃ tree', vdfs4XattrtreeRemoveAll tree ino = some (none, tree') ∧
      (∀ name, ¬ Present tree' ino name) ∧ ∀ ino' name buffer, ino' ≠ ino →
        vdfs4Getxattr tree' ino' name buffer = vdfs4Getxattr tree ino' name buffer := by
  have hw : WellFormed tree := h.invariant wellFormed_xattrRoot
    fun _ _ _ hw hop hstep => wellFormed_xattrStep hw hop hstep
  obtain ⟨tree', hrem, -, hgone, hothers⟩ := hw.removeAll hino
  refine ⟨fun name value flags hname => setActsAsMap_iff hw hino hname value flags,
    fun name hname => hw.present_iff hino hname,
    ⟨names tree ino, nodup_names hw.sorted, fun name => mem_names, ?_⟩, tree', hrem, hgone, hothers⟩
  exact (hw.listxattr hino).2

/-- `user.a`. -/
def sampleXattrName : CString := ⟨[117, 115, 101, 114, 46, 97], by decide⟩

/-- One attribute of inode 17. -/
def sampleXattrTree : XattrTree := [(⟨0, xattrRootName⟩, []), (⟨17, sampleXattrName⟩, [1, 7])]

/-- The attribute is set once and read. -/
def sampleXattrOps : List XattrOp :=
  [.set 17 sampleXattrName (.bytes [7]) ⟨false, false⟩, .get 17 sampleXattrName none]

theorem guardedRun_sampleXattrOps :
    guardedRun (fun _ => XattrOp.Admitted) xattrStep sampleXattrOps xattrRoot =
      some sampleXattrTree := by
  decide +kernel

theorem xattr_store_is_map_sample :
    ¬ SetBreaks sampleXattrTree 17 sampleXattrName (.bytes [8]) ⟨false, true⟩ ∧
      SetActsAsMap sampleXattrTree 17 sampleXattrName (.bytes [8]) ⟨false, true⟩ := by
  have hok : ¬ SetBreaks sampleXattrTree 17 sampleXattrName (.bytes [8]) ⟨false, true⟩ := by
    rintro (⟨-, -, v, hv, hlen⟩ | ⟨hlong, -⟩)
    · obtain rfl := XattrValue.bytes.inj hv
      exact absurd hlen (by decide)
    · exact absurd hlong (by decide)
  have hmap := xattr_store_is_map (reaches_of_guardedRun guardedRun_sampleXattrOps) 17 (by decide)
  exact ⟨hok, (hmap.1 sampleXattrName _ _ ⟨by decide, by decide⟩).mpr hok⟩

/-- **A failed replacement that loses the value**: the attribute `user.a` of inode 17 is
replaced by 199 bytes; the call returns `-EINVAL` and the attribute is gone. -/
theorem failed_set_loses_value :
    guardedRun (fun _ => XattrOp.Admitted) xattrStep sampleXattrOps xattrRoot =
        some sampleXattrTree ∧
      vdfs4Getxattr sampleXattrTree 17 sampleXattrName none = .ok (1, []) ∧
      vdfs4Setxattr sampleXattrTree 17 sampleXattrName (.bytes (List.replicate 199 0))
        ⟨false, true⟩ = (some .einval, xattrRoot) ∧
      vdfs4Getxattr xattrRoot 17 sampleXattrName none = .error .enodata := by
  decide +kernel

end Vdfs4
