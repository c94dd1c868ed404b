import Vdfs4.Lib.CString
import Vdfs4.Lib.OrderedMap

/-!
# Keys of the catalog tree

A record of the catalog tree is found under the **parent's inode number**, the **name** and
the **object's own inode number**, compared in this order. A volume compares names as they
are or with the letter case folded.

* `CattreeKey`, `vdfs4CattreeCmpfn`, `vdfs4CattreeCmpfnCi` — the keys and the two comparison
  functions;
* `Comparison` — which of the two a tree uses; `Comparison.rank` — the order it decides;
* `SameName` — equal parents and equal names, whatever the object: the records that only
  their object numbers put in order.
-/

namespace Vdfs4

open OrderedMap CString

/-- `struct vdfs4_cattree_key`, without the record type. -/
structure CattreeKey where
  parentId : Nat
  name : CString
  objectId : Nat
deriving DecidableEq

/-- `struct vdfs4_cattree_key` with any bytes as its name. -/
structure CattreeKeyBytes where
  parentId : Nat
  name : List UInt8
  objectId : Nat

/-- The common shape of the two comparison functions; `cmpN` compares two names over a
length. -/
def cattreeCmpfnBytes (cmpN : List UInt8 → List UInt8 → Nat → Int) (key1 key2 : CattreeKeyBytes) :
    Int :=
  if key1.parentId < key2.parentId then -1
  else if key2.parentId < key1.parentId then 1
  else
    let ret := compareLengths cmpN key1.name key2.name
    if ret ≠ 0 then ret
    else if key1.objectId < key2.objectId then -1
    else if key2.objectId < key1.objectId then 1
    else 0

/-- The functions on names without zero bytes. -/
def cattreeCmpfn (cmpN : List UInt8 → List UInt8 → Nat → Int) (key1 key2 : CattreeKey) : Int :=
  cattreeCmpfnBytes cmpN ⟨key1.parentId, key1.name.bytes, key1.objectId⟩
    ⟨key2.parentId, key2.name.bytes, key2.objectId⟩

/-- `vdfs4_cattree_cmpfn`. -/
def vdfs4CattreeCmpfn : CattreeKey → CattreeKey → Int := cattreeCmpfn memcmp

/-- `vdfs4_cattree_cmpfn_ci`. -/
def vdfs4CattreeCmpfnCi : CattreeKey → CattreeKey → Int := cattreeCmpfn strncasecmp

/-- The comparison function of a catalog tree. -/
inductive Comparison where
  | caseSensitive
  | caseInsensitive
deriving DecidableEq

namespace Comparison

/-- `comp_fn` of the tree. -/
def compFn : Comparison → CattreeKey → CattreeKey → Int
  | caseSensitive => vdfs4CattreeCmpfn
  | caseInsensitive => vdfs4CattreeCmpfnCi

/-- What the comparison does to each byte of a name. -/
def fold : Comparison → UInt8 → UInt8
  | caseSensitive => id
  | caseInsensitive => toLower

/-- A name as the comparison sees it. -/
def nameRank (comp : Comparison) (name : CString) : List ℕ := codes comp.fold name.bytes

/-- The order a comparison decides. -/
abbrev Rank := ℕ ×ₗ (List ℕ ×ₗ ℕ)

/-- The rank of a key. -/
def rank (comp : Comparison) (k : CattreeKey) : Rank :=
  toLex (k.parentId, toLex (comp.nameRank k.name, k.objectId))

variable {comp : Comparison} {a b c : CattreeKey}

theorem nameRank_empty_iff {name : CString} : comp.nameRank name = [] ↔ name = empty := by
  rw [nameRank, codes, List.map_eq_nil_iff, mk.injEq]
  rfl

theorem rank_eq_iff : comp.rank a = comp.rank b ↔
    a.parentId = b.parentId ∧ comp.nameRank a.name = comp.nameRank b.name ∧
      a.objectId = b.objectId := by
  rw [rank, rank, toLex_inj, Prod.mk.injEq, toLex_inj, Prod.mk.injEq]

theorem rank_lt_iff : comp.rank a < comp.rank b ↔
    a.parentId < b.parentId ∨ a.parentId = b.parentId ∧
      (comp.nameRank a.name < comp.nameRank b.name ∨
        comp.nameRank a.name = comp.nameRank b.name ∧ a.objectId < b.objectId) := by
  rw [rank, rank, Prod.Lex.toLex_lt_toLex, Prod.Lex.toLex_lt_toLex]

/-- On names the two library functions compare the folded bytes. -/
theorem compFn_eq (comp : Comparison) (a b : CattreeKey) :
    comp.compFn a b = cattreeCmpfn (firstDiff comp.fold) a b := by
  cases comp with
  | caseSensitive => rfl
  | caseInsensitive =>
    have hname : compareLengths strncasecmp a.name.bytes b.name.bytes =
        compareLengths (firstDiff toLower) a.name.bytes b.name.bytes := by
      rw [compareLengths, compareLengths,
        strncasecmp_eq_firstDiff a.name.nulFree b.name.nulFree]
    simp only [compFn, vdfs4CattreeCmpfnCi, cattreeCmpfn, cattreeCmpfnBytes, hname]
    rfl

/-- **Both comparison functions decide the order of the ranks.** -/
theorem rankedBy (comp : Comparison) : RankedBy comp.compFn comp.rank := by
  have hnames : RankedBy (fun a b : CattreeKey =>
      compareLengths (firstDiff comp.fold) a.name.bytes b.name.bytes) (comp.nameRank ·.name) :=
    .of_neg_of_zero (fun _ _ => compareLengths_lt_iff ..) fun _ _ => compareLengths_eq_iff ..
  have hkeys := RankedBy.byNat CattreeKey.parentId (hnames.andThen (.nat CattreeKey.objectId))
  rwa [show comp.compFn = cattreeCmpfn (firstDiff comp.fold) from funext₂ (compFn_eq comp)]

/-! ### Records of one name -/

/-- Equal parents and equal names. -/
def SameName (comp : Comparison) (a b : CattreeKey) : Prop :=
  a.parentId = b.parentId ∧ comp.nameRank a.name = comp.nameRank b.name

instance (comp : Comparison) (a b : CattreeKey) : Decidable (comp.SameName a b) :=
  inferInstanceAs (Decidable (_ ∧ _))

theorem SameName.symm (h : comp.SameName a b) : comp.SameName b a := ⟨h.1.symm, h.2.symm⟩

theorem SameName.trans (h : comp.SameName a b) (h' : comp.SameName b c) :
    comp.SameName a c :=
  ⟨h.1.trans h'.1, h.2.trans h'.2⟩

theorem SameName.rank_lt_iff (h : comp.SameName a b) :
    comp.rank a < comp.rank b ↔ a.objectId < b.objectId := by
  rw [Comparison.rank_lt_iff]
  simp [h.1, h.2]

theorem SameName.rank_le_iff (h : comp.SameName a b) :
    comp.rank a ≤ comp.rank b ↔ a.objectId ≤ b.objectId := by
  rw [← not_lt, h.symm.rank_lt_iff, not_lt]

/-- The search functions compare a record with the key they look for, given the record's own
object number: the result is zero for the records of one name. -/
theorem compFn_withObject (comp : Comparison) (a k : CattreeKey) :
    comp.compFn a { k with objectId := a.objectId } = 0 ↔ comp.SameName a k := by
  rw [comp.rankedBy.eq_zero_iff, rank_eq_iff]
  simp [SameName]

/-- The records of one name stand together. -/
theorem SameName.of_between (h : comp.SameName a c) (hab : comp.rank a ≤ comp.rank b)
    (hbc : comp.rank b ≤ comp.rank c) : comp.SameName a b := by
  rw [rank, rank, Prod.Lex.toLex_le_toLex, Prod.Lex.toLex_le_toLex] at hab hbc
  have hp : a.parentId = b.parentId := by
    have := h.1
    omega
  refine ⟨hp, ?_⟩
  have hab' : comp.nameRank a.name ≤ comp.nameRank b.name := by
    rcases hab.resolve_left hp.not_lt with ⟨-, hlt | ⟨heq, -⟩⟩
    · exact hlt.le
    · exact heq.le
  have hbc' : comp.nameRank b.name ≤ comp.nameRank a.name := by
    rw [h.2]
    rcases hbc.resolve_left (hp ▸ h.1).not_lt with ⟨-, hlt | ⟨heq, -⟩⟩
    · exact hlt.le
    · exact heq.le
  exact le_antisymm hab' hbc'

end Comparison

end Vdfs4
