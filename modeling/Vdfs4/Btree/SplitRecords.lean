import Vdfs4.Btree.Split

/-!
# What a split does to the records

The loop of `split_bnode` deals the records and the new one out to two bnodes. `Dealt` is its
invariant: the left and the right bnode hold lists `A` and `B`, and `A ++ B` is what was dealt
out so far.

* `Dealt.round` — one round appends one record to the bnode of its part, or runs into
  `VDFS4_BUG` where the bnode has no room for it.
-/

namespace Vdfs4

open ByteMemory List SplitState Nat

/-- An insertion into the front part of a list. -/
theorem insertIdx_append_of_le {α : Type*} {l m : List α} {p : Nat} {a : α} (h : p ≤ l.length) :
    (l ++ m).insertIdx p a = l.insertIdx p a ++ m := by
  induction l generalizing p with
  | nil =>
    obtain rfl : p = 0 := le_zero.mp h
    rfl
  | cons x l ih =>
    cases p with
    | zero => rfl
    | succ p =>
      rw [cons_append, insertIdx_succ_cons, insertIdx_succ_cons, cons_append,
        ih (le_of_succ_le_succ h)]

variable {t : BtreeInfo} {slack : Nat} {orig b : Bnode} {L A B : List Record} {s s' : SplitState}
  {newKey : ByteMemory} {newRecLen p : Nat} {item : Record}

@[simp] theorem recordsSize_nil : recordsSize [] = 0 := rfl

@[simp] theorem recordsSize_cons (r : Record) (L : List Record) :
    recordsSize (r :: L) = r.len + 4 + recordsSize L := by
  simp [recordsSize]

@[simp] theorem recordsSize_append (L M : List Record) :
    recordsSize (L ++ M) = recordsSize L + recordsSize M := by
  simp [recordsSize]

/-- A record needs at least twelve bytes. -/
theorem twelve_mul_length_le (L : List Record) : 12 * L.length ≤ recordsSize L := by
  induction L with
  | nil => exact le_refl 0
  | cons r L ih =>
    have hr : 8 ≤ r.len := r.header
    rw [recordsSize_cons, length_cons]
    omega

/-- The info points at record `r` of the two lists. -/
def RecordInfo.PointsTo (t : BtreeInfo) (info : RecordInfo) (left right : Bnode)
    (A B : List Record) (r : Record) : Prop :=
  if info.inRight then B[info.pos]? = some r ∧ info.key = cell t right.mem info.pos
  else A[info.pos]? = some r ∧ info.key = cell t left.mem info.pos

/-- What was dealt out so far: `A` to the left and `B` to the right bnode. -/
structure Dealt (t : BtreeInfo) (slack : Nat) (L : List Record) (newKey : ByteMemory)
    (newRecLen p : Nat) (s : SplitState) (A B : List Record) : Prop where
  left : Stores t slack s.left A
  right : Stores t slack s.right B
  bound : s.i ≤ L.length
  part : s.partToInsert = false → B = []
  before : s.inserted = false → s.i ≤ p ∧ A ++ B = L.take s.i
  after : s.inserted = true → p ≤ s.i ∧ ∃ r info,
    PlacedRecord newKey newRecLen (keyLenAt newKey 0) r ∧ A ++ B = (L.take s.i).insertIdx p r ∧
    s.info = some info ∧ info.PointsTo t s.left s.right A B r

namespace Dealt

/-- The list of the bnode that is filled. -/
def target (s : SplitState) (A B : List Record) : List Record := if s.partToInsert then B else A

theorem stores (h : Dealt t slack L newKey newRecLen p s A B) :
    Stores t slack s.insBnode (target s A B) := by
  rw [insBnode, target]
  split
  · exact h.right
  · exact h.left

/-- The 16 bit counter has room for another record. -/
theorem length_lt (h : Stores t slack orig L) (hslack : t.nodeSizeBytes < slack + 65576) :
    L.length < 65535 := by
  have hspace := h.space
  have hlen := twelve_mul_length_le L
  omega

/-- The key of the next round and the record it stands for. -/
theorem key_eq (h : Dealt t slack L newKey newRecLen p s A B) (horig : Represents t orig L)
    (hmore : s.i < L.length ∨ s.inserted = false) (hp : p ≤ L.length)
    (hsel : newRecSelect p s = false) :
    ∃ hi : s.i < L.length, splitKey t orig newKey p s =
      some (.ok (orig.mem.view (cell t orig.mem s.i))) ∧
      window (orig.mem.view (cell t orig.mem s.i)) 0 (L[s.i]).len = (L[s.i]).bytes := by
  have hi : s.i < L.length := by
    rcases hmore with hi | hins
    · exact hi
    · have hle := (h.before hins).1
      simp only [newRecSelect, hins, Bool.not_false, Bool.and_true, beq_eq_false_iff_ne] at hsel
      omega
  refine ⟨hi, ?_, ?_⟩
  · rw [splitKey, hsel, if_neg Bool.false_ne_true, horig.getRecord_eq hi]
    rfl
  · rw [window_view, add_zero]
    exact horig.shows s.i hi

/-- A round that has placed `item`: the contents and the info. -/
theorem placed (h : Dealt t slack L newKey newRecLen p s A B)
    (hb : Stores t slack b (target s A B ++ [item]))
    (hcells : ∀ j < (target s A B).length, cell t b.mem j = cell t s.insBnode.mem j)
    (hleft : s'.left = (s.setInsBnode b).left) (hright : s'.right = (s.setInsBnode b).right)
    (hpart : s'.partToInsert = false → s.partToInsert = false) (hbound : s'.i ≤ L.length)
    (hbefore : s'.inserted = false → s'.i ≤ p ∧ (A ++ B) ++ [item] = L.take s'.i)
    (hafter : s'.inserted = true → p ≤ s'.i ∧ ∃ r info,
      PlacedRecord newKey newRecLen (keyLenAt newKey 0) r ∧
      (A ++ B) ++ [item] = (L.take s'.i).insertIdx p r ∧ s'.info = some info ∧
      (info.PointsTo t s.left s.right A B r ∨ r = item ∧ info.inRight = s.partToInsert ∧
        info.pos = (target s A B).length ∧ info.key = cell t b.mem info.pos)) :
    Dealt t slack L newKey newRecLen p s' (if s.partToInsert then A else A ++ [item])
      (if s.partToInsert then B ++ [item] else B) := by
  cases hs : s.partToInsert with
  | true =>
    simp only [setInsBnode, insBnode, target, hs, if_true] at *
    refine ⟨hleft ▸ h.left, hright ▸ hb, hbound, fun hf => absurd (hpart hf) Bool.noConfusion,
      fun hins => ?_, fun hins => ?_⟩
    · rw [← append_assoc]
      exact hbefore hins
    obtain ⟨hle, r, info, hplaced, hcat, hinfo, hpoints⟩ := hafter hins
    refine ⟨hle, r, info, hplaced, by rw [← append_assoc, hcat], hinfo, ?_⟩
    rw [RecordInfo.PointsTo, hleft, hright]
    obtain hold | ⟨rfl, hin, hpos, hkey⟩ := hpoints
    · rw [RecordInfo.PointsTo] at hold
      split
      · rename_i hr
        rw [if_pos hr] at hold
        have hlt : info.pos < B.length := (List.getElem?_eq_some_iff.mp hold.1).1
        rw [getElem?_append_left hlt, hcells _ hlt]
        exact hold
      · rename_i hr
        rwa [if_neg hr] at hold
    · rw [if_pos hin, hpos]
      exact ⟨by simp, hpos ▸ hkey⟩
  | false =>
    obtain rfl := h.part hs
    simp only [setInsBnode, insBnode, target, hs, if_false,
      Bool.false_eq_true, append_nil] at *
    refine ⟨hleft ▸ hb, hright ▸ h.right, hbound, fun _ => rfl, ?_, ?_⟩
    · simpa using hbefore
    intro hins
    obtain ⟨hle, r, info, hplaced, hcat, hinfo, hpoints⟩ := hafter hins
    refine ⟨hle, r, info, hplaced, by rw [append_nil, hcat], hinfo, ?_⟩
    rw [RecordInfo.PointsTo, hleft, hright]
    obtain hold | ⟨rfl, hin, hpos, hkey⟩ := hpoints
    · rw [RecordInfo.PointsTo] at hold
      split
      · rename_i hr
        rwa [if_pos hr] at hold
      · rename_i hr
        rw [if_neg hr] at hold
        have hlt : info.pos < A.length := (List.getElem?_eq_some_iff.mp hold.1).1
        rw [getElem?_append_left hlt, hcells _ hlt]
        exact hold
    · rw [hin, if_neg Bool.false_ne_true, hpos]
      exact ⟨by simp, hpos ▸ hkey⟩

end Dealt

/-! ### One round -/

/-- The length of the record of the next round. -/
def roundLen (L : List Record) (newRecLen p : Nat) (s : SplitState) : Nat :=
  if newRecSelect p s then newRecLen else (L[s.i]?).elim 0 Record.len

/-- The length by which the round counts it: `record_len` of its key. -/
def roundCount (L : List Record) (newKey : ByteMemory) (p : Nat) (s : SplitState) : Nat :=
  if newRecSelect p s then recordLenAt newKey 0 else (L[s.i]?).elim 0 Record.len

/-- What a round does to the other variables. -/
structure Advances (t : BtreeInfo) (L : List Record) (newKey : ByteMemory) (p : Nat)
    (s s' : SplitState) : Prop where
  used : s'.usedSpace = s.usedSpace + roundCount L newKey p s + 4
  part : s'.partToInsert = (s.partToInsert || decide (t.nodeSizeBytes / 2 < s'.usedSpace))
  inserted : s'.inserted = (s.inserted || newRecSelect p s)
  i : s'.i = if newRecSelect p s then s.i else s.i + 1
  leftId : s'.left.descrNodeId = s.left.descrNodeId
  rightId : s'.right.descrNodeId = s.right.descrNodeId

/-- The bnode that was filled, written back. -/
theorem descrNodeId_setInsBnode (h : b.descrNodeId = s.insBnode.descrNodeId) :
    (s.setInsBnode b).left.descrNodeId = s.left.descrNodeId ∧
      (s.setInsBnode b).right.descrNodeId = s.right.descrNodeId := by
  rw [insBnode] at h
  rw [setInsBnode]
  split
  · rename_i hs
    rw [if_pos hs] at h
    exact ⟨rfl, h⟩
  · rename_i hs
    rw [if_neg hs] at h
    exact ⟨h, rfl⟩

theorem placeIntoNode_of_full {key : ByteMemory} {k pos : Nat} {onlyKey : Bool}
    (h : b.freeSpace.toNat < k + 4) : placeIntoNode t b key k pos onlyKey = none := by
  rw [placeIntoNode]
  exact if_pos h

/-- The variables after a round. -/
theorem advances_advance (hid : b.descrNodeId = s.insBnode.descrNodeId) :
    Advances t L newKey p s
      (s.advance t b (roundCount L newKey p s) (newRecSelect p s)) := by
  have hids := descrNodeId_setInsBnode hid
  exact ⟨rfl, rfl, rfl, rfl, hids.1, hids.2⟩

theorem Dealt.round_new (h : Dealt t slack L newKey newRecLen p s A B) (hp : p ≤ L.length)
    (hslack : t.nodeSizeBytes < slack + 65576) (h8 : 8 ≤ newRecLen)
    (hkey : keyLenAt newKey 0 ≤ newRecLen) (hsel : newRecSelect p s = true)
    (hroom : newRecLen + 4 ≤ s.insBnode.freeSpace.toNat) :
    ∃ s' item, splitRound t orig newKey newRecLen p s = some (none, s') ∧
      item.len = newRecLen ∧ Advances t L newKey p s s' ∧
      Dealt t slack L newKey newRecLen p s' (if s.partToInsert then A else A ++ [item])
        (if s.partToInsert then B ++ [item] else B) := by
  have hstores := h.stores
  obtain ⟨hi, hins⟩ : s.i = p ∧ s.inserted = false := by
    simpa [newRecSelect] using hsel
  obtain ⟨b, r, hplace, hplaced, hb, hsame, haddr, hcells⟩ := hstores.place newKey newRecLen true
    (le_refl _) hroom (length_lt hstores hslack) h8 hkey
  rw [insertIdx_length_self] at hb
  have hadv : Advances t L newKey p s
      (s.advance t b (roundCount L newKey p s) (newRecSelect p s)) :=
    advances_advance (by rw [hsame])
  have hcount : roundCount L newKey p s = recordLenAt newKey 0 := if_pos hsel
  rw [hcount] at hadv
  have hround : splitRound t orig newKey newRecLen p s =
      some (none, s.advance t b (recordLenAt newKey 0) (newRecSelect p s)) := by
    rw [splitRound, splitKey, if_pos hsel]
    dsimp only
    rw [if_pos hsel, hstores.count, hsel, hplace]
  refine ⟨_, r, hround, hplaced.len, hadv, h.placed hb hcells rfl rfl ?_ ?_ ?_ ?_⟩
  · intro hf
    exact (Bool.or_eq_false_iff.mp hf).1
  · rw [hadv.i, if_pos hsel]
    exact h.bound
  · intro hf
    rw [hadv.inserted, hsel, Bool.or_true] at hf
    cases hf
  · intro _
    rw [hadv.i, if_pos hsel]
    have hlen : (L.take p).length = p := length_take_of_le hp
    refine ⟨le_of_eq hi.symm, r, _, hplaced, ?_, if_pos hsel, .inr ⟨rfl, rfl, ?_, ?_⟩⟩
    · have happ := insertIdx_length_self (l := L.take p) (x := r)
      rw [hlen] at happ
      rw [(h.before hins).2, hi, happ]
    · exact hstores.count
    · rw [hstores.count, haddr, cell]
      simp only [bnodeFirstOffset, sizeofOffset]
      congr 1
      omega

section

variable (h : Dealt t slack L newKey newRecLen p s A B) (horig : Represents t orig L)
  (hmore : s.i < L.length ∨ s.inserted = false) (hp : p ≤ L.length)
  (hslack : t.nodeSizeBytes < slack + 65576)

include h horig hmore hp hslack

/-- A round with a record of the original bnode. -/
theorem Dealt.round_old (hsel : newRecSelect p s = false)
    (hroom : roundLen L newRecLen p s + 4 ≤ s.insBnode.freeSpace.toNat) :
    ∃ s' item, splitRound t orig newKey newRecLen p s = some (none, s') ∧
      item.len = roundLen L newRecLen p s ∧ Advances t L newKey p s s' ∧
      Dealt t slack L newKey newRecLen p s' (if s.partToInsert then A else A ++ [item])
        (if s.partToInsert then B ++ [item] else B) := by
  have hstores := h.stores
  obtain ⟨hi, hkey, hwin⟩ := h.key_eq horig hmore hp hsel
  have hget : L[s.i]? = some L[s.i] := getElem?_eq_getElem hi
  have hlen : roundLen L newRecLen p s = (L[s.i]).len := by
    rw [roundLen, hsel, if_neg Bool.false_ne_true, hget]
    rfl
  have hcount : roundCount L newKey p s = (L[s.i]).len := by
    rw [roundCount, hsel, if_neg Bool.false_ne_true, hget]
    rfl
  have hrec : recordLenAt (orig.mem.view (cell t orig.mem s.i)) 0 = (L[s.i]).len :=
    Record.recordLenAt_eq _ hwin
  rw [hlen] at hroom ⊢
  obtain ⟨b, r, hplace, hplaced, hb, hsame, _, hcells⟩ := hstores.place
    (orig.mem.view (cell t orig.mem s.i)) (L[s.i]).len false (le_refl _) hroom
    (length_lt hstores hslack) (L[s.i]).header (le_refl _)
  obtain rfl := hplaced.eq hwin
  rw [insertIdx_length_self] at hb
  have hadv : Advances t L newKey p s
      (s.advance t b (roundCount L newKey p s) (newRecSelect p s)) :=
    advances_advance (by rw [hsame])
  rw [hcount] at hadv
  have hround : splitRound t orig newKey newRecLen p s =
      some (none, s.advance t b (L[s.i]).len (newRecSelect p s)) := by
    rw [splitRound, hkey]
    dsimp only
    rw [hsel, if_neg Bool.false_ne_true, hrec, hstores.count, hplace]
  refine ⟨_, L[s.i], hround, rfl, hadv, h.placed hb hcells rfl rfl ?_ ?_ ?_ ?_⟩
  · intro hf
    exact (Bool.or_eq_false_iff.mp hf).1
  · rw [hadv.i, hsel, if_neg Bool.false_ne_true]
    exact hi
  · intro hf
    rw [hadv.inserted, hsel, Bool.or_false] at hf
    obtain ⟨hle, hcat⟩ := h.before hf
    rw [hadv.i, hsel, if_neg Bool.false_ne_true, hcat, take_concat_get' L s.i hi]
    refine ⟨?_, rfl⟩
    simp only [newRecSelect, hf, Bool.not_false, Bool.and_true, beq_eq_false_iff_ne] at hsel
    omega
  · intro hf
    rw [hadv.inserted, hsel, Bool.or_false] at hf
    obtain ⟨hle, r, info, hr, hcat, hinfo, hpoints⟩ := h.after hf
    rw [hadv.i, hsel, if_neg Bool.false_ne_true]
    refine ⟨le_succ_of_le hle, r, info, hr, ?_, hinfo, .inl hpoints⟩
    rw [hcat, ← take_concat_get' L s.i hi]
    exact (insertIdx_append_of_le (by rw [length_take]; omega)).symm

/-- A round without room runs into `VDFS4_BUG`; otherwise it appends one record. -/
theorem Dealt.round (h8 : 8 ≤ newRecLen) (hkey : keyLenAt newKey 0 ≤ newRecLen) :
    (s.insBnode.freeSpace.toNat < roundLen L newRecLen p s + 4 ∧
      splitRound t orig newKey newRecLen p s = none) ∨
    ∃ s' item, splitRound t orig newKey newRecLen p s = some (none, s') ∧
      item.len = roundLen L newRecLen p s ∧ Advances t L newKey p s s' ∧
      Dealt t slack L newKey newRecLen p s' (if s.partToInsert then A else A ++ [item])
        (if s.partToInsert then B ++ [item] else B) := by
  cases hsel : newRecSelect p s with
  | true =>
    have hlen : roundLen L newRecLen p s = newRecLen := if_pos hsel
    rw [hlen]
    by_cases hroom : newRecLen + 4 ≤ s.insBnode.freeSpace.toNat
    · exact .inr (h.round_new hp hslack h8 hkey hsel hroom)
    · refine .inl ⟨Nat.lt_of_not_le hroom, ?_⟩
      rw [splitRound, splitKey, if_pos hsel]
      dsimp only
      rw [if_pos hsel, placeIntoNode_of_full (Nat.lt_of_not_le hroom)]
  | false =>
    by_cases hroom : roundLen L newRecLen p s + 4 ≤ s.insBnode.freeSpace.toNat
    · exact .inr (h.round_old horig hmore hp hslack hsel hroom)
    refine .inl ⟨Nat.lt_of_not_le hroom, ?_⟩
    obtain ⟨hi, hkey', hwin⟩ := h.key_eq horig hmore hp hsel
    have hlen : roundLen L newRecLen p s = (L[s.i]).len := by
      rw [roundLen, hsel, if_neg Bool.false_ne_true, getElem?_eq_getElem hi]
      rfl
    rw [splitRound, hkey']
    dsimp only
    rw [hsel, if_neg Bool.false_ne_true, Record.recordLenAt_eq _ hwin, ← hlen,
      placeIntoNode_of_full (Nat.lt_of_not_le hroom)]

end

/-! ### The loop -/

/-- Every record and the new one are dealt out. -/
structure DealtAll (t : BtreeInfo) (slack : Nat) (L : List Record) (newKey : ByteMemory)
    (newRecLen p : Nat) (s s' : SplitState) (A B : List Record) : Prop
    extends Dealt t slack L newKey newRecLen p s' A B where
  allDealt : s'.i = L.length
  newDealt : s'.inserted = true
  leftId : s'.left.descrNodeId = s.left.descrNodeId
  rightId : s'.right.descrNodeId = s.right.descrNodeId

/-- The loop never returns an error; where it returns, everything is dealt out. -/
theorem splitLoop_cases (horig : Represents t orig L) (hp : p ≤ L.length)
    (hslack : t.nodeSizeBytes < slack + 65576) (h8 : 8 ≤ newRecLen)
    (hkey : keyLenAt newKey 0 ≤ newRecLen) (fuel : Nat)
    (h : Dealt t slack L newKey newRecLen p s A B) :
    splitLoop t orig newKey newRecLen p fuel s = none ∨
      ∃ s' A' B', splitLoop t orig newKey newRecLen p fuel s = some (none, s') ∧
        DealtAll t slack L newKey newRecLen p s s' A' B' := by
  induction fuel generalizing s A B with
  | zero => exact .inl rfl
  | succ fuel ih =>
    rw [splitLoop, horig.count]
    split
    · rename_i hmore
      obtain ⟨_, hbug⟩ | ⟨s1, item, hround, _, hadv, hdealt⟩ :=
        h.round horig hmore hp hslack h8 hkey
      · rw [hbug]
        exact .inl rfl
      · rw [hround]
        obtain hbug | ⟨s', A', B', hrun, hall⟩ := ih hdealt
        · exact .inl hbug
        · exact .inr ⟨s', A', B', hrun, hall.toDealt, hall.allDealt, hall.newDealt,
            hall.leftId.trans hadv.leftId, hall.rightId.trans hadv.rightId⟩
    · rename_i hend
      obtain ⟨hi, hins⟩ : ¬ s.i < L.length ∧ s.inserted = true := by simpa using hend
      exact .inr ⟨s, A, B, rfl, h, Nat.le_antisymm h.bound (Nat.le_of_not_lt hi), hins, rfl, rfl⟩

/-! ### The sizes -/

theorem BtreeType.maxRecordLen_le (y : BtreeType) : y.maxRecordLen ≤ 600 := by
  cases y <;> decide

theorem recordsSize_insertIdx {r : Record} (hp : p ≤ L.length) :
    recordsSize (L.insertIdx p r) = recordsSize L + (r.len + 4) := by
  have hperm := (perm_insertIdx r L hp).map fun r => r.len + 4
  rw [recordsSize, hperm.sum_eq, add_comm]
  rfl

theorem recordsSize_take_le (L : List Record) (i : Nat) :
    recordsSize (L.take i) ≤ recordsSize L := by
  conv => rhs; rw [← take_append_drop i L, recordsSize_append]
  exact le_add_right _ _

/-- What is dealt out and the record of the next round fit into what there is. -/
theorem Dealt.size_le (h : Dealt t slack L newKey newRecLen p s A B) (hp : p ≤ L.length)
    (hmore : s.i < L.length ∨ s.inserted = false) :
    recordsSize A + recordsSize B + (roundLen L newRecLen p s + 4) ≤
      recordsSize L + (newRecLen + 4) := by
  have hnext : newRecSelect p s = false → (hi : s.i < L.length) →
      recordsSize (L.take s.i) + (roundLen L newRecLen p s + 4) ≤ recordsSize L := by
    intro hsel hi
    have hle := recordsSize_take_le L (s.i + 1)
    rw [← take_concat_get' L s.i hi, recordsSize_append, recordsSize_cons,
      recordsSize_nil] at hle
    have hlen : roundLen L newRecLen p s = (L[s.i]).len := by
      rw [roundLen, hsel, if_neg Bool.false_ne_true, getElem?_eq_getElem hi]
      rfl
    omega
  rw [← recordsSize_append]
  cases hins : s.inserted with
  | false =>
    obtain ⟨hle, hcat⟩ := h.before hins
    rw [hcat]
    cases hsel : newRecSelect p s with
    | true =>
      have hlen : roundLen L newRecLen p s = newRecLen := if_pos hsel
      have := recordsSize_take_le L s.i
      omega
    | false =>
      have hne : s.i ≠ p := by simpa [newRecSelect, hins] using hsel
      have := hnext hsel (by omega)
      omega
  | true =>
    obtain ⟨hle, r, info, hr, hcat, -⟩ := h.after hins
    have hsel : newRecSelect p s = false := by simp [newRecSelect, hins]
    have hi : s.i < L.length := hmore.resolve_right (by simp [hins])
    have := hnext hsel hi
    rw [hcat, recordsSize_insertIdx (by rw [length_take]; omega), hr.len]
    omega

/-- The sizes of the two parts in a node of at most 64 KiB. Up to the cut, `used_space` counts the
left part, but for the difference of the two lengths of the new record. -/
structure CutInTheMiddle (t : BtreeInfo) (L : List Record) (newKey : ByteMemory) (newRecLen : Nat)
    (s : SplitState) (A : List Record) : Prop where
  beforeCut : s.partToInsert = false → s.usedSpace ≤ t.nodeSizeBytes / 2 ∧
    s.usedSpace + (if s.inserted then newRecLen + 4 else 0) =
      40 + recordsSize A + (if s.inserted then recordLenAt newKey 0 + 4 else 0)
  afterCut : s.partToInsert = true → A ≠ [] ∧ recordsSize A ≤ t.nodeSizeBytes / 2 + 1168 ∧
    recordsSize L + (newRecLen + 4) ≤ recordsSize A + (t.nodeSizeBytes - 40)

/-- Every round finds room for its record. -/
theorem Dealt.room (h : Dealt t 0 L newKey newRecLen p s A B)
    (hcut : CutInTheMiddle t L newKey newRecLen s A) (hp : p ≤ L.length)
    (hmore : s.i < L.length ∨ s.inserted = false) (hlen : newRecLen ≤ 600)
    (hround : roundLen L newRecLen p s ≤ 600) :
    roundLen L newRecLen p s + 4 ≤ s.insBnode.freeSpace.toNat := by
  have hsize := t.nodeSize_ge
  have hspace := h.stores.space
  rw [target] at hspace
  cases hpart : s.partToInsert with
  | true =>
    have htotal := h.size_le hp hmore
    have hafter := (hcut.afterCut hpart).2.2
    rw [hpart, if_pos rfl] at hspace
    omega
  | false =>
    obtain ⟨hused, heq⟩ := hcut.beforeCut hpart
    rw [hpart, if_neg Bool.false_ne_true] at hspace
    have hmax : recordsSize A ≤ t.nodeSizeBytes / 2 - 40 + 604 := by
      split at heq <;> omega
    omega

/-- The count of the left part, one record later. -/
theorem CutInTheMiddle.counted (hcut : CutInTheMiddle t L newKey newRecLen s A)
    (hpart : s.partToInsert = false) (hitem : item.len = roundLen L newRecLen p s)
    (hadv : Advances t L newKey p s s') :
    s'.usedSpace + (if s'.inserted then newRecLen + 4 else 0) =
      40 + recordsSize (A ++ [item]) + (if s'.inserted then recordLenAt newKey 0 + 4 else 0) := by
  obtain ⟨_, heq⟩ := hcut.beforeCut hpart
  rw [hadv.used, hadv.inserted, recordsSize_append, recordsSize_cons, recordsSize_nil, hitem]
  cases hsel : newRecSelect p s with
  | true =>
    -- the new record is counted with the length of its key
    have hins : s.inserted = false := by
      simp only [newRecSelect, Bool.and_eq_true, Bool.not_eq_true'] at hsel
      exact hsel.2
    have hlen : roundLen L newRecLen p s = newRecLen := if_pos hsel
    have hcount : roundCount L newKey p s = recordLenAt newKey 0 := if_pos hsel
    rw [hins] at heq ⊢
    simp only [Bool.false_or, if_true, Bool.false_eq_true, if_false] at heq ⊢
    omega
  | false =>
    have hsame : roundCount L newKey p s = roundLen L newRecLen p s := by
      rw [roundCount, roundLen, hsel, if_neg Bool.false_ne_true, if_neg Bool.false_ne_true]
    rw [Bool.or_false, hsame]
    omega

theorem CutInTheMiddle.round (hcut : CutInTheMiddle t L newKey newRecLen s A)
    (horig : Represents t orig L) (h : Dealt t 0 L newKey newRecLen p s A B)
    (hlen : newRecLen ≤ 600) (hround : roundLen L newRecLen p s ≤ 600) (hp : p ≤ L.length)
    (hitem : item.len = roundLen L newRecLen p s) (hadv : Advances t L newKey p s s')
    (hdealt : Dealt t 0 L newKey newRecLen p s' (if s.partToInsert then A else A ++ [item])
      (if s.partToInsert then B ++ [item] else B)) :
    CutInTheMiddle t L newKey newRecLen s' (if s.partToInsert then A else A ++ [item]) := by
  have hsize := t.nodeSize_ge
  cases hpart : s.partToInsert with
  | true =>
    refine ⟨fun hf => ?_, fun _ => hcut.afterCut hpart⟩
    rw [hadv.part, hpart] at hf
    cases hf
  | false =>
    obtain ⟨hused, heq⟩ := hcut.beforeCut hpart
    have hcount := hcut.counted hpart hitem hadv
    rw [hpart, if_neg Bool.false_ne_true, if_neg Bool.false_ne_true, h.part hpart] at hdealt
    rw [if_neg Bool.false_ne_true]
    have hpart' : s'.partToInsert = decide (t.nodeSizeBytes / 2 < s'.usedSpace) := by
      rw [hadv.part, hpart, Bool.false_or]
    refine ⟨fun hf => ⟨?_, hcount⟩, fun hc => ⟨by simp, ?_, ?_⟩⟩
    · rw [hpart', decide_eq_false_iff_not] at hf
      exact Nat.le_of_not_lt hf
    · -- the left part before this record, the new record and this one
      rw [recordsSize_append, recordsSize_cons, recordsSize_nil, hitem]
      split at heq <;> omega
    · have hmid : t.nodeSizeBytes / 2 < s'.usedSpace := by
        rw [hpart', decide_eq_true_iff] at hc
        exact hc
      have hspace := horig.space
      cases hins : s'.inserted with
      | true =>
        obtain ⟨hle, r, info, hr, hcat, -⟩ := hdealt.after hins
        have hnew := recordsSize_insertIdx (L := L.take s'.i) (p := p) (r := r)
          (by rw [length_take]; omega)
        rw [append_nil] at hcat
        rw [hcat, hnew, hr.len]
        omega
      | false =>
        rw [hins] at hcount
        simp only [Bool.false_eq_true, if_false] at hcount
        omega

theorem roundLen_le (hlen : newRecLen ≤ 600) (hL : ∀ r ∈ L, r.len ≤ 600) :
    roundLen L newRecLen p s ≤ 600 := by
  rw [roundLen]
  split
  · exact hlen
  · cases hget : L[s.i]? with
    | none => exact zero_le _
    | some r => exact hL r (mem_of_getElem? hget)

/-- In a node of at most 64 KiB the loop deals everything out. -/
theorem splitLoop_ends (horig : Represents t orig L) (hp : p ≤ L.length)
    (hsmall : t.nodeSizeBytes ≤ 65536) (h8 : 8 ≤ newRecLen) (hlen : newRecLen ≤ 600)
    (hkey : keyLenAt newKey 0 ≤ newRecLen) (hL : ∀ r ∈ L, r.len ≤ 600) (fuel : Nat)
    (h : Dealt t 0 L newKey newRecLen p s A B) (hcut : CutInTheMiddle t L newKey newRecLen s A)
    (hfuel : L.length - s.i + (if s.inserted then 0 else 1) < fuel) :
    ∃ s' A' B', splitLoop t orig newKey newRecLen p fuel s = some (none, s') ∧
      DealtAll t 0 L newKey newRecLen p s s' A' B' ∧
      CutInTheMiddle t L newKey newRecLen s' A' := by
  induction fuel generalizing s A B with
  | zero => exact absurd hfuel (not_lt_zero _)
  | succ fuel ih =>
    rw [splitLoop, horig.count]
    split
    · rename_i hmore
      have hround := roundLen_le (p := p) (s := s) hlen hL
      have hroom := h.room hcut hp hmore hlen hround
      obtain ⟨hfull, _⟩ | ⟨s1, item, hstep, hitem, hadv, hdealt⟩ :=
        h.round horig hmore hp (by omega) h8 hkey
      · omega
      rw [hstep]
      have hless : L.length - s1.i + (if s1.inserted then 0 else 1) < fuel := by
        rw [hadv.i, hadv.inserted]
        cases hsel : newRecSelect p s with
        | true =>
          have hins : s.inserted = false := by
            simp only [newRecSelect, Bool.and_eq_true, Bool.not_eq_true'] at hsel
            exact hsel.2
          simp only [hins, Bool.or_true, if_true, Bool.false_eq_true, if_false] at hfuel ⊢
          omega
        | false =>
          obtain ⟨hi, -⟩ := h.key_eq horig hmore hp hsel
          simp only [Bool.or_false, Bool.false_eq_true, if_false]
          omega
      obtain ⟨s', A', B', hrun, hall, hcut'⟩ := ih hdealt
        (hcut.round horig h hlen hround hp hitem hadv hdealt) hless
      exact ⟨s', A', B', hrun, ⟨hall.toDealt, hall.allDealt, hall.newDealt,
        hall.leftId.trans hadv.leftId, hall.rightId.trans hadv.rightId⟩, hcut'⟩
    · rename_i hend
      obtain ⟨hi, hins⟩ : ¬ s.i < L.length ∧ s.inserted = true := by simpa using hend
      exact ⟨s, A, B, rfl,
        ⟨h, Nat.le_antisymm h.bound (Nat.le_of_not_lt hi), hins, rfl, rfl⟩, hcut⟩

end Vdfs4
