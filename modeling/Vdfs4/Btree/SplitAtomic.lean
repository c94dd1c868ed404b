import Vdfs4.Btree.SplitRecords
import Vdfs4.Btree.BnodeEditing

/-!
# Splitting is all or nothing

A split should either deal all records and the new one out to two chained bnodes, or report an
error and leave everything as it was. It does, **except** where the old right neighbour cannot be
fetched: then the left bnode is restored, but the function returns zero.

* `SplitDone`, `SplitAllOrNothing` — what a split promises;
* `Stores.unique` — a bnode holds one list only;
* `split_all_or_nothing_iff` — when the promise is kept.
-/

namespace Vdfs4

open List

/-- A completed split: the records and the new one lie in two bnodes, in order, and the bnodes and
the old right neighbour are chained. -/
structure SplitDone (t : BtreeInfo) (left right : Bnode) (L : List Record) (newKey : ByteMemory)
    (newRecLen p : Nat) (nextRight : Except Errno Bnode) (res : SplitResult)
    (A B : List Record) (r : Record) : Prop where
  placed : PlacedRecord newKey newRecLen (keyLenAt newKey 0) r
  left_represents : Represents t res.left A
  right_represents : Represents t res.right B
  concat : A ++ B = L.insertIdx p r
  left_ne : A ≠ []
  right_ne : B ≠ []
  /-- left and right are chained to each other and to the old neighbours -/
  links : res.left.prevNodeId = left.prevNodeId ∧ res.left.nextNodeId = right.nodeId ∧
    res.right.prevNodeId = left.nodeId ∧ res.right.nextNodeId = left.nextNodeId
  /-- the old right neighbour points back to the right bnode -/
  neighbour : (left.nextNodeId = invalidNodeId ∧ res.next = none) ∨
    (left.nextNodeId ≠ invalidNodeId ∧
      ∃ next, nextRight = .ok next ∧ res.next = some { next with prevNodeId := right.nodeId })
  info : ∃ info, res.info = some info ∧ info.PointsTo t res.left res.right A B r

/-- The split returns: with zero after a completed split, with an error after it changed neither
the left bnode nor another one. -/
def SplitAllOrNothing (t : BtreeInfo) (left right : Bnode) (L : List Record) (newKey : ByteMemory)
    (newRecLen p : Nat) (nextRight : Except Errno Bnode) : Prop :=
  ∃ res, splitBnode t left right newKey newRecLen p nextRight = some res ∧
    (res.err = none →
      ∃ A B r, SplitDone t left right L newKey newRecLen p nextRight res A B r) ∧
    (res.err ≠ none → res.left = left ∧ res.next = none)

variable {t : BtreeInfo} {slack : Nat} {left right : Bnode} {L A B : List Record}
  {newKey : ByteMemory} {newRecLen p : Nat} {nextRight : Except Errno Bnode} {e : Errno}

/-- A bnode holds one list, with one slack. -/
theorem Stores.unique {b : Bnode} {slack' : Nat} {L' : List Record} (h : Stores t slack b L)
    (h' : Stores t slack' b L') : L = L' ∧ slack = slack' := by
  have hlen : L.length = L'.length := by rw [← h.count, h'.count]
  have hL : L = L' := by
    apply ext_getElem hlen
    intro i hi hi'
    have hrec : L[i].len = L'[i].len := by
      rw [← h.recordLenAt_eq hi, h'.recordLenAt_eq hi']
    have hbytes : L[i].bytes = L'[i].bytes := by
      rw [← h.shows i hi, hrec, h'.shows i hi']
    cases hr : L[i]
    cases hr' : L'[i]
    simp only [hr, hr'] at hbytes
    congr
  subst hL
  have hgap := h.gap
  have hgap' := h'.gap
  exact ⟨rfl, by omega⟩

/-- The loop starts with two empty bnodes. -/
theorem dealt_init {left0 right0 : Bnode} {type : NodeType} {used : Nat}
    (hleft : initNewNodeDescr t left type = some left0)
    (hright : initNewNodeDescr t right type = some right0) :
    Dealt t (t.nodeSizeBytes - 40 - (t.nodeSizeBytes - 40) % 65536) L newKey newRecLen p
      ⟨left0, right0, used, 0, false, false, none⟩ [] [] :=
  ⟨stores_init hleft, stores_init hright, Nat.zero_le _, fun _ => rfl,
    fun _ => ⟨Nat.zero_le _, rfl⟩, fun h => absurd h Bool.false_ne_true⟩

/-- Both parts of a full bnode are large: the left one is not empty and the right one has at least
two records. -/
theorem DealtAll.parts {s s' : SplitState} (h : DealtAll t 0 L newKey newRecLen p s s' A B)
    (hcut : CutInTheMiddle t L newKey newRecLen s' A) (hp : p ≤ L.length)
    (hfull : t.nodeSizeBytes < recordsSize L + (newRecLen + 4) + 40) (hlen : newRecLen ≤ 600)
    (hL : ∀ r ∈ L, r.len ≤ 600) : A ≠ [] ∧ 2 ≤ B.length := by
  have hsize := t.nodeSize_ge
  obtain ⟨-, r, info, hr, hcat, -⟩ := h.after h.newDealt
  rw [h.allDealt, take_length] at hcat
  have htotal : recordsSize A + recordsSize B = recordsSize L + (newRecLen + 4) := by
    rw [← recordsSize_append, hcat, recordsSize_insertIdx hp, hr.len]
  cases hpart : s'.partToInsert with
  | true =>
    obtain ⟨hne, hmax, -⟩ := hcut.afterCut hpart
    refine ⟨hne, ?_⟩
    by_contra hfew
    obtain hB | ⟨x, rfl⟩ : B = [] ∨ ∃ x, B = [x] := by
      obtain _ | ⟨x, _ | ⟨y, B⟩⟩ := B
      · exact .inl rfl
      · exact .inr ⟨x, rfl⟩
      · exact absurd (by simp) hfew
    · rw [hB, recordsSize_nil] at htotal
      omega
    have hx : x ∈ L.insertIdx p r := by
      rw [← hcat]
      simp
    have hxlen : x.len ≤ 600 := by
      obtain rfl | hx := (mem_insertIdx hp).mp hx
      · rw [hr.len]
        exact hlen
      · exact hL x hx
    rw [recordsSize_cons, recordsSize_nil] at htotal
    omega
  | false =>
    obtain ⟨hused, heq⟩ := hcut.beforeCut hpart
    rw [h.part hpart, recordsSize_nil] at htotal
    rw [h.newDealt] at heq
    simp only [if_true] at heq
    omega

/-- `split_bnode` from the start of its loop on. -/
theorem splitBnode_eq (right : Bnode) (newKey : ByteMemory) (newRecLen p : Nat)
    (nextRight : Except Errno Bnode) (hne : left.recsCount ≠ 0) :
    ∃ left0 right0, left0.descrNodeId = left.nodeId ∧ right0.descrNodeId = right.nodeId ∧
      initNewNodeDescr t left left.type = some left0 ∧
      initNewNodeDescr t right left.type = some right0 ∧
      left0.freeSpace.toNat = (t.nodeSizeBytes - 40) % 65536 ∧
      splitBnode t left right newKey newRecLen p nextRight =
        afterSplitLoop left nextRight
          (splitLoop t left newKey newRecLen p (left.recsCount.toNat + 2)
            ⟨left0, right0, t.nodeSizeBytes - left0.freeSpace.toNat, 0, false, false, none⟩) := by
  refine ⟨_, _, rfl, rfl, initNewNodeDescr_eq left left.type, initNewNodeDescr_eq right left.type,
    UInt16.toNat_ofNat', ?_⟩
  rw [splitBnode, initNewNodeDescr_eq, initNewNodeDescr_eq]
  dsimp only
  rw [if_neg hne]

/-- A completed loop and a fetched neighbour complete the split. -/
theorem DealtAll.done {s0 s : SplitState} (h : DealtAll t 0 L newKey newRecLen p s0 s A B)
    (hleft : s0.left.descrNodeId = left.nodeId) (hright : s0.right.descrNodeId = right.nodeId)
    (hA : A ≠ []) (hB : B ≠ [])
    (hnext : left.nextNodeId = invalidNodeId ∨ ∃ next, nextRight = .ok next) :
    (chainSplit left nextRight s).err = none ∧
      ∃ r, SplitDone t left right L newKey newRecLen p nextRight (chainSplit left nextRight s)
        A B r := by
  obtain ⟨-, r, info, hr, hcat, hinfo, hpoints⟩ := h.after h.newDealt
  rw [h.allDealt, take_length] at hcat
  have hl : s.left.descrNodeId = left.nodeId := h.leftId.trans hleft
  have hrt : s.right.descrNodeId = right.nodeId := h.rightId.trans hright
  rw [chainSplit.eq_def]
  by_cases hzero : left.nextNodeId = invalidNodeId
  · rw [if_pos hzero]
    exact ⟨rfl, r, ⟨hr, ⟨h.left.count, h.left.shows, h.left.tiled, h.left.gap⟩,
      ⟨h.right.count, h.right.shows, h.right.tiled, h.right.gap⟩, hcat, hA, hB,
      ⟨rfl, hrt, hl, rfl⟩, .inl ⟨hzero, rfl⟩, info, hinfo, hpoints⟩⟩
  · obtain ⟨next, rfl⟩ := hnext.resolve_left hzero
    rw [if_neg hzero]
    exact ⟨rfl, r, ⟨hr, ⟨h.left.count, h.left.shows, h.left.tiled, h.left.gap⟩,
      ⟨h.right.count, h.right.shows, h.right.tiled, h.right.gap⟩, hcat, hA, hB,
      ⟨rfl, hrt, hl, rfl⟩, .inr ⟨hzero, next, rfl, by rw [hrt]⟩, info, hinfo, hpoints⟩⟩

theorem chainSplit_err (s : SplitState) : (chainSplit left nextRight s).err = none := by
  rw [chainSplit.eq_def]
  split
  · rfl
  · split <;> rfl

/-- The right bnode keeps its records when it is chained. -/
theorem stores_chainSplit_right {s : SplitState} (h : Stores t slack s.right B) :
    Stores t slack (chainSplit left nextRight s).right B := by
  rw [chainSplit.eq_def]
  split
  · exact ⟨h.count, h.shows, h.tiled, h.gap⟩
  · split <;> exact ⟨h.count, h.shows, h.tiled, h.gap⟩

/-- A node size below 128 KiB is at most 64 KiB. -/
theorem BtreeInfo.nodeSize_le_of_lt (t : BtreeInfo) (h : t.nodeSizeBytes < 2 ^ 17) :
    t.nodeSizeBytes ≤ 65536 := by
  have hlog : pageShift + t.logPagesPerNode < 17 := (Nat.pow_lt_pow_iff_right (by decide)).mp h
  exact Nat.pow_le_pow_right (by decide) (Nat.le_of_lt_succ hlog)

/-- In a larger node the split never gives two bnodes whose free space is right. -/
theorem SplitAllOrNothing.small (h : Represents t left L) (hne : left.recsCount ≠ 0)
    (hp : p ≤ L.length) (h8 : 8 ≤ newRecLen) (hkey : keyLenAt newKey 0 ≤ newRecLen)
    (hall : SplitAllOrNothing t left right L newKey newRecLen p nextRight) :
    t.nodeSizeBytes ≤ 65536 := by
  obtain ⟨res, hres, hok, -⟩ := hall
  obtain ⟨left0, right0, -, -, hleft, hright, -, hsplit⟩ :=
    splitBnode_eq (t := t) right newKey newRecLen p nextRight hne
  rw [hsplit] at hres
  obtain hbug | ⟨s, A, B, hloop, hdealt⟩ := splitLoop_cases h hp (by omega) h8 hkey
    (left.recsCount.toNat + 2) (dealt_init hleft hright)
  · rw [hbug] at hres
    cases hres
  rw [hloop] at hres
  obtain rfl := Option.some.inj hres
  obtain ⟨A', B', r, hdone⟩ := hok (chainSplit_err s)
  have hslack := ((stores_chainSplit_right hdealt.right).unique hdone.right_represents).2
  apply t.nodeSize_le_of_lt
  omega

/-- An empty bnode has room for every record. -/
theorem Stores.count_ne_zero (h : Represents t left L) (hfull : isNodeFull left newRecLen = true)
    (hlen : newRecLen ≤ 600) : left.recsCount ≠ 0 := by
  intro hzero
  have hsize := t.nodeSize_ge
  have hspace := h.space
  have hfree : left.freeSpace.toNat < newRecLen + 4 := of_decide_eq_true hfull
  have hcount := h.count
  rw [hzero] at hcount
  rw [length_eq_zero_iff.mp hcount.symm, recordsSize_nil] at hspace
  omega

/-- In a node of at most 64 KiB the loop deals out everything, to two large parts. -/
theorem splitBnode_deals (right : Bnode) (newKey : ByteMemory) (newRecLen p : Nat)
    (nextRight : Except Errno Bnode) (h : Represents t left L) (hL : ∀ r ∈ L, r.len ≤ 600)
    (hfull : isNodeFull left newRecLen = true) (hp : p ≤ L.length) (h8 : 8 ≤ newRecLen)
    (hlen : newRecLen ≤ 600) (hkey : keyLenAt newKey 0 ≤ newRecLen)
    (hsmall : t.nodeSizeBytes ≤ 65536) :
    ∃ s0 s A B, splitBnode t left right newKey newRecLen p nextRight =
        some (chainSplit left nextRight s) ∧
      DealtAll t 0 L newKey newRecLen p s0 s A B ∧
      s0.left.descrNodeId = left.nodeId ∧ s0.right.descrNodeId = right.nodeId ∧
      A ≠ [] ∧ 2 ≤ B.length := by
  have hsize := t.nodeSize_ge
  have hspace := h.space
  have hfree : left.freeSpace.toNat < newRecLen + 4 := of_decide_eq_true hfull
  obtain ⟨left0, right0, hleftId, hrightId, hleft, hright, hfree0, hsplit⟩ :=
    splitBnode_eq (t := t) right newKey newRecLen p nextRight (h.count_ne_zero hfull hlen)
  have hinit : Dealt t 0 L newKey newRecLen p
      ⟨left0, right0, t.nodeSizeBytes - left0.freeSpace.toNat, 0, false, false, none⟩ [] [] := by
    have hslack : t.nodeSizeBytes - 40 - (t.nodeSizeBytes - 40) % 65536 = 0 := by
      rw [Nat.mod_eq_of_lt (by omega), Nat.sub_self]
    have hdealt : Dealt t _ L newKey newRecLen p
        ⟨left0, right0, t.nodeSizeBytes - left0.freeSpace.toNat, 0, false, false, none⟩ [] [] :=
      dealt_init hleft hright
    rwa [hslack] at hdealt
  have hcut0 : CutInTheMiddle t L newKey newRecLen
      ⟨left0, right0, t.nodeSizeBytes - left0.freeSpace.toNat, 0, false, false, none⟩ [] := by
    refine ⟨fun _ => ?_, fun hf => absurd hf Bool.false_ne_true⟩
    rw [hfree0, Nat.mod_eq_of_lt (by omega)]
    simp only [Bool.false_eq_true, if_false, recordsSize_nil]
    omega
  obtain ⟨s, A, B, hloop, hdealt, hcut⟩ := splitLoop_ends h hp hsmall h8 hlen hkey hL
    (left.recsCount.toNat + 2) hinit hcut0 (by
      rw [h.count]
      simp only [Bool.false_eq_true, if_false]
      omega)
  rw [hloop] at hsplit
  exact ⟨_, s, A, B, hsplit, hdealt, hleftId, hrightId,
    hdealt.parts hcut hp (by omega) hlen hL⟩

/-- A neighbour that cannot be fetched: the left bnode is restored. -/
theorem chainSplit_of_error (s : SplitState) (hzero : left.nextNodeId ≠ invalidNodeId) :
    (chainSplit left (.error e) s).left = left := by
  rw [chainSplit, if_neg hzero]

/-- Then nothing was inserted, although the function returns zero. -/
theorem not_splitDone_of_error {s0 s : SplitState} (h : Represents t left L)
    (hdealt : DealtAll t 0 L newKey newRecLen p s0 s A B) (hp : p ≤ L.length) (hB : 2 ≤ B.length)
    (hzero : left.nextNodeId ≠ invalidNodeId) {A' B' : List Record}
    {r : Record} : ¬ SplitDone t left right L newKey newRecLen p (.error e)
      (chainSplit left (.error e) s) A' B' r := by
  -- the left bnode holds all old records, so the right one would have to hold one record only
  intro hdone
  have hA' : A' = L := by
    have hleft := hdone.left_represents
    rw [chainSplit_of_error s hzero] at hleft
    exact (hleft.unique h).1
  have hB' : B = B' := ((stores_chainSplit_right hdealt.right).unique hdone.right_represents).1
  have hcount := congrArg length hdone.concat
  rw [length_append, length_insertIdx_of_le_length hp, hA', ← hB'] at hcount
  omega

/-- **Splitting is all or nothing**, exactly when the free space of a node fits into 16 bits and the
old right neighbour, if there is one, can be fetched. -/
theorem split_all_or_nothing_iff (t : BtreeInfo) (left right : Bnode) (L : List Record)
    (newKey : ByteMemory) (newRecLen p : Nat) (nextRight : Except Errno Bnode)
    (h : Represents t left L) (hL : ∀ r ∈ L, r.len ≤ t.maxRecordLen)
    (hfull : isNodeFull left newRecLen = true) (hp : p ≤ L.length) (h8 : 8 ≤ newRecLen)
    (hlen : newRecLen ≤ t.maxRecordLen) (hkey : keyLenAt newKey 0 ≤ newRecLen) :
    SplitAllOrNothing t left right L newKey newRecLen p nextRight ↔
      t.nodeSizeBytes ≤ 65536 ∧
        (left.nextNodeId = invalidNodeId ∨ ∃ next, nextRight = .ok next) := by
  have hmax : t.maxRecordLen ≤ 600 := t.btreeType.maxRecordLen_le
  have hL' : ∀ r ∈ L, r.len ≤ 600 := fun r hr => (hL r hr).trans hmax
  have hlen' : newRecLen ≤ 600 := hlen.trans hmax
  constructor
  · intro hall
    have hsmall := hall.small h (h.count_ne_zero hfull hlen') hp h8 hkey
    refine ⟨hsmall, ?_⟩
    obtain ⟨s0, s, A, B, hsplit, hdealt, -, -, -, hB⟩ :=
      splitBnode_deals right newKey newRecLen p nextRight h hL' hfull hp h8 hlen' hkey hsmall
    obtain ⟨res, hres, hok, -⟩ := hall
    rw [hsplit] at hres
    obtain rfl := Option.some.inj hres
    by_contra hfail
    obtain ⟨hzero, hnext⟩ := not_or.mp hfail
    cases nextRight with
    | ok next => exact hnext ⟨next, rfl⟩
    | error e =>
      obtain ⟨A', B', r, hdone⟩ := hok (chainSplit_err s)
      exact not_splitDone_of_error h hdealt hp hB hzero hdone
  · rintro ⟨hsmall, hnext⟩
    obtain ⟨s0, s, A, B, hsplit, hdealt, hleftId, hrightId, hA, hB⟩ :=
      splitBnode_deals right newKey newRecLen p nextRight h hL' hfull hp h8 hlen' hkey hsmall
    obtain ⟨herr, r, hdone⟩ := hdealt.done hleftId hrightId hA
      (ne_nil_of_length_pos (by omega)) hnext
    exact ⟨_, hsplit, fun _ => ⟨A, B, r, hdone⟩, fun hne => absurd herr hne⟩

/-- A full leaf of 4096 bytes with 112 short records is split for another one. -/
theorem split_all_or_nothing_sample : ∃ b, Represents (catalogInfo 0 (by decide)) b
      (List.replicate 112 shortRecord) ∧
    SplitAllOrNothing (catalogInfo 0 (by decide)) b (newLeaf (catalogInfo 0 (by decide)))
      (List.replicate 112 shortRecord) shortRecordMemory 32 1 (.error .eio) := by
  obtain ⟨b, -, hnext, hrep⟩ := exists_leaf_of_shortRecords (t := catalogInfo 0 (by decide))
    (by decide) 112 (by decide)
  have hspace := hrep.space
  have hsize : recordsSize (replicate 112 shortRecord) = 4032 := by decide +kernel
  have hnode : (catalogInfo 0 (by decide)).nodeSizeBytes = 4096 := by decide
  refine ⟨b, hrep, (split_all_or_nothing_iff _ b _ _ shortRecordMemory 32 1 (.error .eio) hrep ?_ ?_
    (by decide) (by decide) (by decide) (by decide)).mpr ⟨by decide, .inl hnext⟩⟩
  · intro r hr
    rw [eq_of_mem_replicate hr]
    decide
  · apply decide_eq_true
    rw [sizeofOffset]
    omega

/-- The same leaf with a right neighbour that cannot be read: the split returns zero, but the leaf
is as before and the new record is lost. -/
theorem split_reports_success_after_restore : ∃ b res,
    Represents (catalogInfo 0 (by decide)) b (List.replicate 112 shortRecord) ∧
    splitBnode (catalogInfo 0 (by decide)) b (newLeaf (catalogInfo 0 (by decide)))
      shortRecordMemory 32 1 (.error .eio) = some res ∧ res.err = none ∧ res.left = b ∧
    ¬ ∃ A B r, SplitDone (catalogInfo 0 (by decide)) b (newLeaf (catalogInfo 0 (by decide)))
      (List.replicate 112 shortRecord) shortRecordMemory 32 1 (.error .eio) res A B r := by
  obtain ⟨b, -, -, hrep⟩ := exists_leaf_of_shortRecords (t := catalogInfo 0 (by decide))
    (by decide) 112 (by decide)
  have hspace := hrep.space
  have hsize : recordsSize (replicate 112 shortRecord) = 4032 := by decide +kernel
  have hnode : (catalogInfo 0 (by decide)).nodeSizeBytes = 4096 := by decide
  have hrep' : Represents (catalogInfo 0 (by decide)) { b with nextNodeId := 2 }
      (replicate 112 shortRecord) := ⟨hrep.count, hrep.shows, hrep.tiled, hrep.gap⟩
  obtain ⟨s0, s, A, B, hsplit, hdealt, -, -, -, hB⟩ := splitBnode_deals
    (newLeaf (catalogInfo 0 (by decide))) shortRecordMemory 32 1 (.error .eio) hrep' (by
      intro r hr
      rw [eq_of_mem_replicate hr]
      decide) (by
      apply decide_eq_true
      change b.freeSpace.toNat < 32 + 4
      omega) (by decide) (by decide) (by decide) (by decide) (by decide)
  have hzero : (2 : Nat) ≠ invalidNodeId := by decide
  refine ⟨_, _, hrep', hsplit, chainSplit_err s, chainSplit_of_error s hzero, ?_⟩
  rintro ⟨A', B', r, hdone⟩
  exact not_splitDone_of_error hrep' hdealt (by decide) hB hzero hdone

end Vdfs4
