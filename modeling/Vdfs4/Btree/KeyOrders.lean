import Vdfs4.Catalog.Key
import Vdfs4.Xattr.Store

/-!
# The comparison functions of the trees

Every search in a tree trusts its **comparison function**. The functions work on keys as they stand
in a bnode, where a name is a length and **any bytes**; zero bytes stop `strncasecmp`, and the
kernel's table of characters folds the letters of Latin-1 with those of ASCII.

* `CattreeKeyBytes`, `XattrtreeKeyBytes`, `ExttreeKey` — the keys;
* `OrdersKeys` — a strict total preorder whose ties are given;
* `comparators_order_keys` — all four functions.
-/

namespace Vdfs4

open OrderedMap CString

/-- `struct vdfs4_exttree_key`. -/
structure ExttreeKey where
  objectId : Nat
  iblock : Nat

/-- `cmp_2_le64`. -/
def cmp2Le64 (a b : Nat) : Int := if a = b then 0 else if b < a then 1 else -1

/-- `vdfs4_exttree_cmpfn`. -/
def vdfs4ExttreeCmpfn (key1 key2 : ExttreeKey) : Int :=
  if key1.objectId ≠ key2.objectId then cmp2Le64 key1.objectId key2.objectId
  else cmp2Le64 key1.iblock key2.iblock

/-! ### What `strncasecmp` sees -/

/-- A name with zeros behind its first zero byte. -/
def muted : List UInt8 → List UInt8
  | [] => []
  | c :: l => if c = 0 then List.replicate (l.length + 1) 0 else c :: muted l

@[simp] theorem length_muted (l : List UInt8) : (muted l).length = l.length := by
  induction l with
  | nil => rfl
  | cons c l ih =>
    rw [muted]
    split <;> simp [ih]

theorem firstDiff_zeros (fold : UInt8 → UInt8) (i j n : Nat) :
    firstDiff fold (List.replicate i 0) (List.replicate j 0) n = 0 := by
  induction n generalizing i j with
  | zero => cases i <;> cases j <;> rfl
  | succ n ih => cases i <;> cases j <;> simp [List.replicate_succ, firstDiff, ih]

theorem toLower_pos {c : UInt8} (h : c ≠ 0) : 0 < c.toNat ∧ 0 < (toLower c).toNat := by
  have hpos : 0 < c.toNat := Nat.pos_of_ne_zero fun hz => h (UInt8.toNat_inj.mp hz)
  refine ⟨hpos, ?_⟩
  rw [toLower]
  split
  · rename_i hup
    simp only [isUpper, Bool.or_eq_true, Bool.and_eq_true, decide_eq_true_eq, UInt8.le_iff_toNat_le,
      UInt8.toNat_add, UInt8.reduceToNat] at hup ⊢
    omega
  · exact hpos

/-- `strncasecmp` has the sign of the comparison of the muted names. -/
theorem strncasecmp_sign (a b : List UInt8) (n : Nat) :
    (strncasecmp a b n < 0 ↔ firstDiff toLower (muted a) (muted b) n < 0) ∧
      (strncasecmp a b n = 0 ↔ firstDiff toLower (muted a) (muted b) n = 0) := by
  induction a generalizing b n with
  | nil => simp [strncasecmp, firstDiff, muted]
  | cons x a ih =>
    obtain _ | ⟨y, b⟩ := b
    · simp [strncasecmp, firstDiff, muted]
    obtain _ | n := n
    · simp [strncasecmp, firstDiff]
    rw [strncasecmp, muted, muted]
    by_cases hx : x = 0 <;> by_cases hy : y = 0
    · simp [hx, hy, firstDiff_zeros]
    · have hpos := toLower_pos hy
      have hlow : (toLower 0).toNat = 0 := rfl
      have hne : toLower 0 ≠ toLower y := fun h => by rw [← h] at hpos; omega
      rw [if_pos (.inl hx), if_pos hx, if_neg hy, List.replicate_succ, firstDiff,
        if_neg hne, hlow, hx]
      simp only [UInt8.toNat_zero]
      omega
    · have hpos := toLower_pos hx
      have hlow : (toLower 0).toNat = 0 := rfl
      have hne : toLower x ≠ toLower 0 := fun h => by rw [h] at hpos; omega
      rw [if_pos (.inr hy), if_pos hy, if_neg hx, List.replicate_succ, firstDiff,
        if_neg hne, hlow, hy]
      simp only [UInt8.toNat_zero]
      omega
    · rw [if_neg (by simp [hx, hy]), if_neg hx, if_neg hy, firstDiff]
      by_cases hl : toLower x = toLower y
      · rw [if_neg (not_not.mpr hl), if_pos hl, ite_self]
        exact ih b n
      · have hxy : x ≠ y := fun h => hl (congrArg toLower h)
        rw [if_neg hxy, if_pos hl, if_neg hl]
        exact ⟨Iff.rfl, Iff.rfl⟩

theorem strncasecmp_rankedBy :
    RankedBy (compareLengths strncasecmp) (codes toLower <| muted ·) := by
  have hsign : ∀ a b, (compareLengths strncasecmp a b < 0 ↔
      compareLengths (firstDiff toLower) (muted a) (muted b) < 0) ∧
      (compareLengths strncasecmp a b = 0 ↔
        compareLengths (firstDiff toLower) (muted a) (muted b) = 0) := fun a b => by
    obtain ⟨hneg, hzero⟩ := strncasecmp_sign a b (min a.length b.length)
    simp only [compareLengths, length_muted]
    split_ifs <;> omega
  refine .of_neg_of_zero (fun a b => ?_) fun a b => ?_
  · rw [(hsign a b).1, compareLengths_lt_iff]
  · rw [(hsign a b).2, compareLengths_eq_iff]

/-! ### The four functions -/

/-- **A comparison function fit for a tree**: the signs are opposite, both `<` and `≤` are
transitive, and exactly the keys that are the `same` tie. -/
structure OrdersKeys {κ : Type*} (cmp : κ → κ → Int) (same : κ → κ → Prop) : Prop where
  swap : ∀ x y, cmp x y < 0 ↔ 0 < cmp y x
  lt_trans : ∀ x y z, cmp x y < 0 → cmp y z < 0 → cmp x z < 0
  le_trans : ∀ x y z, cmp x y ≤ 0 → cmp y z ≤ 0 → cmp x z ≤ 0
  tie : ∀ x y, cmp x y = 0 ↔ same x y

theorem OrdersKeys.of_rankedBy {κ ι : Type*} [LinearOrder ι] {cmp : κ → κ → Int} {rank : κ → ι}
    {same : κ → κ → Prop} (h : RankedBy cmp rank) (htie : ∀ x y, rank x = rank y ↔ same x y) :
    OrdersKeys cmp same where
  swap x y := by rw [h.neg_iff, h.pos_iff]
  lt_trans x y z hxy hyz := by
    rw [h.neg_iff] at *
    exact hxy.trans hyz
  le_trans x y z hxy hyz := by
    rw [← not_lt, h.pos_iff, not_lt] at *
    exact hxy.trans hyz
  tie x y := by rw [h.eq_zero_iff, htie]

theorem codes_eq_iff {fold : UInt8 → UInt8} {a b : List UInt8} :
    codes fold a = codes fold b ↔ a.map fold = b.map fold := by
  have hcodes : ∀ l, codes fold l = (l.map fold).map UInt8.toNat := fun l => by
    rw [List.map_map]
    rfl
  rw [hcodes, hcodes]
  exact (List.map_injective_iff.mpr fun _ _ => UInt8.toNat_inj.mp).eq_iff

theorem memcmp_rankedBy : RankedBy (compareLengths memcmp) (codes id) :=
  .of_neg_of_zero (compareLengths_lt_iff id) (compareLengths_eq_iff id)

/-- The catalog functions, from what they make of the names. -/
theorem cattreeCmpfnBytes_orders {ι : Type*} [LinearOrder ι] {rank : List UInt8 → ι}
    {cmpN : List UInt8 → List UInt8 → Nat → Int} (h : RankedBy (compareLengths cmpN) rank)
    {same : List UInt8 → List UInt8 → Prop} (htie : ∀ a b, rank a = rank b ↔ same a b) :
    OrdersKeys (cattreeCmpfnBytes cmpN) fun x y =>
      x.parentId = y.parentId ∧ same x.name y.name ∧ x.objectId = y.objectId := by
  have hnames : RankedBy (fun a b : CattreeKeyBytes => compareLengths cmpN a.name b.name)
      (rank ·.name) := ⟨fun _ _ => h.neg_iff .., fun _ _ => h.pos_iff ..⟩
  have hkeys := (hnames.andThen (.nat CattreeKeyBytes.objectId)).byNat CattreeKeyBytes.parentId
  refine .of_rankedBy hkeys fun x y => ?_
  simp only [toLex_inj, Prod.mk.injEq, htie]

theorem vdfs4ExttreeCmpfn_rankedBy :
    RankedBy vdfs4ExttreeCmpfn fun k => toLex (k.objectId, k.iblock) := by
  have hkeys := (RankedBy.nat ExttreeKey.iblock).byNat ExttreeKey.objectId
  refine ⟨fun a b => ?_, fun a b => ?_⟩
  · rw [← hkeys.neg_iff, vdfs4ExttreeCmpfn, cmp2Le64, cmp2Le64]
    split_ifs <;> omega
  · rw [← hkeys.pos_iff, vdfs4ExttreeCmpfn, cmp2Le64, cmp2Le64]
    split_ifs <;> omega

theorem xattrtreeCmpfnBytes_rankedBy :
    RankedBy xattrtreeCmpfnBytes fun k => toLex (k.objectId, codes id k.name) := by
  have hnames : RankedBy (fun a b : XattrtreeKeyBytes => compareLengths memcmp a.name b.name)
      (codes id ·.name) :=
      ⟨fun _ _ => memcmp_rankedBy.neg_iff .., fun _ _ => memcmp_rankedBy.pos_iff ..⟩
  exact hnames.byNat XattrtreeKeyBytes.objectId

/-- **All four comparison functions order the keys.** -/
theorem comparators_order_keys :
    OrdersKeys (cattreeCmpfnBytes memcmp) (fun x y =>
      x.parentId = y.parentId ∧ x.name = y.name ∧ x.objectId = y.objectId) ∧
    OrdersKeys (cattreeCmpfnBytes strncasecmp) (fun x y => x.parentId = y.parentId ∧
      (muted x.name).map toLower = (muted y.name).map toLower ∧ x.objectId = y.objectId) ∧
    OrdersKeys vdfs4ExttreeCmpfn (fun x y => x.objectId = y.objectId ∧ x.iblock = y.iblock) ∧
    OrdersKeys xattrtreeCmpfnBytes (fun x y => x.objectId = y.objectId ∧ x.name = y.name) := by
  have hbytes : ∀ a b : List UInt8, codes id a = codes id b ↔ a = b := fun a b => by
    rw [codes_eq_iff, List.map_id, List.map_id]
  refine ⟨cattreeCmpfnBytes_orders memcmp_rankedBy hbytes,
    cattreeCmpfnBytes_orders strncasecmp_rankedBy fun _ _ => codes_eq_iff,
    .of_rankedBy vdfs4ExttreeCmpfn_rankedBy fun x y => ?_,
    .of_rankedBy xattrtreeCmpfnBytes_rankedBy fun x y => ?_⟩
  · rw [toLex_inj, Prod.mk.injEq]
  · rw [toLex_inj, Prod.mk.injEq, hbytes]

/-- Lower case of the letters of ASCII. -/
def asciiLower (c : UInt8) : UInt8 := if 65 ≤ c ∧ c ≤ 90 then c + 32 else c

/-- **Names that tie without being equal up to the case of ASCII**: letters of Latin-1, and bytes
behind a zero byte. -/
theorem different_names_tie :
    cattreeCmpfnBytes strncasecmp ⟨1, [192], 2⟩ ⟨1, [224], 2⟩ = 0 ∧
      [192].map asciiLower ≠ [224].map asciiLower ∧
    cattreeCmpfnBytes strncasecmp ⟨1, [0, 97], 2⟩ ⟨1, [0, 98], 2⟩ = 0 ∧
      [0, 97].map asciiLower ≠ [0, 98].map asciiLower := by
  decide

end Vdfs4
