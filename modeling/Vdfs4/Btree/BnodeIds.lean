import Vdfs4.Btree.Tree

/-!
# The ids of bnodes

The bitmap of bnode ids is read once, when the tree is opened; from then on `first_free_id` and
`free_num` are kept beside it, moved forward by an allocation and backward by a release.

* `CountersExact` — the two counters say what the bitmap says;
* `Quiet` — what reading a bnode may change: nothing but the size of the special file;
* `allocNewBnode_cases`, `destroyBnode_cases` — what the two calls can do;
* `bnode_ids_distinct` — over every sequence of calls the counters stay exact, and **no id is handed
  out twice**.
-/

namespace Vdfs4

open List Bitmap

variable {b : Bitmap}

/-! ### Clear bits -/

/-- The clear bits below `n`. -/
def clearBits (b : Bitmap) (n : Nat) : Finset Nat := (Finset.range n).filter fun i => !b i

@[simp] theorem mem_clearBits {n i : Nat} : i ∈ clearBits b n ↔ i < n ∧ b i = false := by
  simp [clearBits]

theorem setRange_one (b : Bitmap) (i j : Nat) : b.setRange i 1 j = (decide (j = i) || b j) := by
  rw [Bool.eq_iff_iff, setRange_eq_true]
  simp only [Bool.or_eq_true, decide_eq_true_eq]
  constructor
  · rintro (h | h)
    · exact .inl (by omega)
    · exact .inr h
  · rintro (rfl | h)
    · exact .inl (by omega)
    · exact .inr h

theorem clearRange_one (b : Bitmap) (i j : Nat) :
    b.clearRange i 1 j = (!decide (j = i) && b j) := by
  rw [Bool.eq_iff_iff, clearRange_eq_true]
  simp only [Bool.and_eq_true, Bool.not_eq_true', decide_eq_false_iff_not]
  constructor
  · rintro ⟨h, hb⟩
    exact ⟨by omega, hb⟩
  · rintro ⟨h, hb⟩
    exact ⟨by omega, hb⟩

theorem clearBits_setRange (b : Bitmap) (n i : Nat) :
    clearBits (b.setRange i 1) n = (clearBits b n).erase i := by
  ext j
  rw [Finset.mem_erase, mem_clearBits, mem_clearBits, setRange_one]
  simp only [Bool.or_eq_false_iff, decide_eq_false_iff_not]
  tauto

theorem clearBits_clearRange {n i : Nat} (hi : i < n) :
    clearBits (b.clearRange i 1) n = insert i (clearBits b n) := by
  ext j
  rw [Finset.mem_insert, mem_clearBits, mem_clearBits, clearRange_one]
  simp only [Bool.and_eq_false_iff, Bool.not_eq_false', decide_eq_true_eq]
  constructor
  · rintro ⟨hj, rfl | hb⟩
    · exact .inl rfl
    · exact .inr ⟨hj, hb⟩
  · rintro (rfl | ⟨hj, hb⟩)
    · exact ⟨hi, .inl rfl⟩
    · exact ⟨hj, .inr hb⟩

/-! ### The counters -/

/-- `first_free_id` is the least clear bit, or `bits_num` without one, and `free_num` is the number
of clear bits. No bit is set behind the bitmap. -/
structure CountersExact (t : Btree) : Prop where
  first_le : t.firstFreeId ≤ t.bitsNum
  below_first : ∀ i < t.firstFreeId, t.used i = true
  first_clear : t.firstFreeId < t.bitsNum → t.used t.firstFreeId = false
  free_eq : t.freeNum = (clearBits t.used t.bitsNum).card
  inside : ∀ i, t.used i = true → i < t.bitsNum

namespace CountersExact

variable {t : Btree}

/-- A clear bit is there exactly if `free_num` says so. -/
theorem first_lt (h : CountersExact t) (hfree : t.freeNum ≠ 0) : t.firstFreeId < t.bitsNum := by
  rw [h.free_eq] at hfree
  obtain ⟨i, hi⟩ := Finset.card_pos.mp (Nat.pos_of_ne_zero hfree)
  obtain ⟨hlt, hclear⟩ := mem_clearBits.mp hi
  refine Nat.lt_of_le_of_ne h.first_le fun heq => ?_
  rw [h.below_first i (heq ▸ hlt)] at hclear
  cases hclear

/-- An allocation keeps the counters. -/
theorem takeId (h : CountersExact t) (hfree : t.freeNum ≠ 0) :
    CountersExact (t.takeId t.firstFreeId) := by
  have hlt := h.first_lt hfree
  have hclear := h.first_clear hlt
  refine ⟨findNext_le_size _, fun i hi => ?_, fun hi => ?_, ?_, fun i hi => ?_⟩
  · rcases Nat.lt_or_ge i t.firstFreeId with hlow | hhigh
    · exact (setRange_one ..).trans (by rw [h.below_first i hlow, Bool.or_true])
    · exact Bool.eq_true_of_not_eq_false' (findNext_false_of_lt _ hhigh hi)
  · exact Bool.eq_false_of_not_eq_true' (findNext_hit _ hi)
  · change t.freeNum - 1 = (clearBits (t.used.setRange t.firstFreeId 1) t.bitsNum).card
    rw [clearBits_setRange, Finset.card_erase_of_mem (mem_clearBits.mpr ⟨hlt, hclear⟩), h.free_eq]
  · rcases Bool.or_eq_true_iff.mp ((setRange_one ..).symm.trans hi) with heq | hused
    · exact of_decide_eq_true heq ▸ hlt
    · exact h.inside i hused

end CountersExact

/-- A release keeps the counters. -/
theorem CountersExact.releaseId {t : Btree} (h : CountersExact t) {id : Nat}
    (hused : t.used id = true) : CountersExact (t.releaseId id) := by
  have hlt := h.inside id hused
  have hnot : id ∉ clearBits t.used t.bitsNum := by
    rw [mem_clearBits, hused]
    simp
  refine ⟨?_, fun i hi => ?_, fun hi => ?_, ?_, fun i hi => ?_⟩
  · exact (Nat.min_le_left _ _).trans h.first_le
  · obtain ⟨hfirst, hid⟩ := Nat.lt_min.mp hi
    refine (clearRange_one ..).trans ?_
    rw [h.below_first i hfirst, decide_eq_false (Nat.ne_of_lt hid)]
    rfl
  · refine (clearRange_one ..).trans ?_
    change min t.firstFreeId id < t.bitsNum at hi
    change (!decide (min t.firstFreeId id = id) && t.used (min t.firstFreeId id)) = false
    rcases Nat.le_total t.firstFreeId id with hle | hle
    · rw [Nat.min_eq_left hle] at hi ⊢
      rw [h.first_clear hi, Bool.and_false]
    · rw [Nat.min_eq_right hle, decide_eq_true rfl]
      rfl
  · change t.freeNum + 1 = (clearBits (t.used.clearRange id 1) t.bitsNum).card
    rw [clearBits_clearRange hlt, Finset.card_insert_of_notMem hnot, h.free_eq]
  · exact h.inside i (Bool.and_eq_true_iff.mp ((clearRange_one ..).symm.trans hi)).2

/-! ### The calls -/

/-- Nothing but the size of the special file and the number of calls changes. -/
structure Quiet (t t' : Btree) : Prop where
  eq : t' = { t with calls := t'.calls, available := t'.available }
  grows : t.available ≤ t'.available

namespace Quiet

variable {t t' t'' : Btree}

theorem refl (t : Btree) : Quiet t t := ⟨rfl, Nat.le_refl _⟩

theorem trans (h : Quiet t t') (h' : Quiet t' t'') : Quiet t t'' :=
  ⟨by rw [h'.eq, h.eq], h.grows.trans h'.grows⟩

theorem counters (h : Quiet t t') (hc : CountersExact t) : CountersExact t' := by
  rw [h.eq]
  exact ⟨hc.first_le, hc.below_first, hc.first_clear, hc.free_eq, hc.inside⟩

end Quiet

open Comp Yields

theorem fallible_quiet (e : Errno) (t : Btree) :
    Yields (fallible e) t fun _ t' => Quiet t t' := by
  intro r t' h
  cases h
  exact ⟨rfl, Nat.le_refl _⟩

/-- Sequencing of two parts that change nothing. -/
theorem Quiet.bind {α β : Type} {x : TreeM α} {f : α → TreeM β} {t : Btree}
    (hx : Yields x t fun _ t' => Quiet t t')
    (hf : ∀ a t', Yields (f a) t' fun _ t'' => Quiet t' t'') :
    Yields (x >>= f) t fun _ t' => Quiet t t' :=
  hx.bind (fun a t' h => (hf a t').mono fun _ _ h' => h.trans h') fun _ _ h => h

theorem checkPageOffset_quiet (id : Nat) (t : Btree) :
    Yields (checkPageOffset id) t fun _ t' => Quiet t t' := by
  apply get_bind
  split
  · exact pure (Quiet.refl t)
  · rename_i hid
    refine (fallible_quiet .enospc t).bind (fun _ t' h => modify ?_) fun _ _ h => h
    refine ⟨by rw [h.eq], ?_⟩
    change t.available ≤ id + 1
    omega

theorem readOrCreateBnodeData_quiet (id : Nat) (t : Btree) :
    Yields (readOrCreateBnodeData id) t fun _ t' => Quiet t t' :=
  Quiet.bind (checkPageOffset_quiet id t) fun _ => fallible_quiet .eio

/-- **An allocation** changes nothing, or it takes the first free id. -/
theorem allocNewBnode_cases (t : Btree) :
    Yields allocNewBnode t fun r t' => match r with
      | .error _ => Quiet t t'
      | .ok id => id = t.firstFreeId ∧ t.freeNum ≠ 0 ∧ t.used id = false ∧
          ∃ t1, Quiet t t1 ∧ t' = t1.takeId id := by
  apply get_bind
  split
  · exact fail (Quiet.refl t)
  rename_i hfree
  split
  · exact fail (Quiet.refl t)
  rename_i hused
  refine (fallible_quiet .enomem t).bind (fun _ t1 h1 => ?_) fun _ _ h => h
  refine (readOrCreateBnodeData_quiet t.firstFreeId t1).bind (fun _ t2 h2 => ?_)
    fun _ _ h => h1.trans h
  apply modify_bind
  exact pure ⟨rfl, hfree, Bool.not_eq_true _ ▸ hused, t2, h1.trans h2, rfl⟩

/-- **A release** changes nothing, or it clears a set bit. -/
theorem destroyBnode_cases (id : Nat) (t : Btree) :
    Yields (destroyBnode id) t fun r t' => match r with
      | .error _ => t' = t
      | .ok () => t.used id = true ∧ t' = t.releaseId id := by
  apply get_bind
  split
  · exact fail rfl
  · split
    · exact fail rfl
    · rename_i hused
      exact modify ⟨Bool.not_eq_false _ ▸ hused, rfl⟩

/-! ### Sequences of calls -/

/-- `vdfs4_build_free_bnode_bitmap`, with `start_bnode_id` zero. -/
def buildFreeBnodeBitmap (t : Btree) (data : Bitmap) (sizeInBytes : Nat) : Btree :=
  let bitsNum := sizeInBytes * 8 % 2 ^ 32
  let used : Bitmap := fun i => decide (i < bitsNum) && data i
  { t with
    used := used
    bitsNum := bitsNum
    freeNum := bitsNum - ((List.range bitsNum).filter fun i => used i).length
    firstFreeId := used.findNextZeroBit bitsNum 0 }

/-- A call: an allocation, or the release of a bnode, by its last holder or not. -/
inductive IdCall where
  | alloc
  | destroy (id : Nat) (lastHolder : Bool)

/-- A tree and the ids of its live bnodes. -/
structure IdState where
  tree : Btree
  live : List Nat

/-- A bnode that was read from disk is live. -/
def IdState.opened (t : Btree) (data : Bitmap) (sizeInBytes : Nat) : IdState :=
  let t := buildFreeBnodeBitmap t data sizeInBytes
  ⟨t, (List.range t.bitsNum).filter fun i => t.used i⟩

/-- One call. A bnode that somebody else holds is not destroyed. -/
def IdState.step (s : IdState) : IdCall → IdState
  | .alloc =>
    match allocNewBnode s.tree with
    | some (.ok id, t) => ⟨t, id :: s.live⟩
    | some (.error _, t) => ⟨t, s.live⟩
    | none => s
  | .destroy _ false => s
  | .destroy id true =>
    match destroyBnode id s.tree with
    | some (.ok (), t) => ⟨t, s.live.erase id⟩
    | some (.error _, t) => ⟨t, s.live⟩
    | none => s

/-- The counters are exact, and the live bnodes are the set bits, each once. -/
structure IdState.Valid (s : IdState) : Prop where
  exact : CountersExact s.tree
  nodup : s.live.Nodup
  mem_iff : ∀ i, i ∈ s.live ↔ s.tree.used i = true

/-- Counting the set bits counts the clear ones. -/
theorem card_clearBits (b : Bitmap) (n : Nat) :
    (clearBits b n).card = n - ((range n).filter fun i => b i).length := by
  have hsum := length_eq_length_filter_add (l := range n) fun i => b i
  have hclear : (clearBits b n).card = ((range n).filter fun i => !b i).length := by
    simp [clearBits, Finset.card, Multiset.range]
  rw [length_range] at hsum
  omega

theorem IdState.opened_valid (t : Btree) (data : Bitmap) (sizeInBytes : Nat) :
    (IdState.opened t data sizeInBytes).Valid := by
  refine ⟨⟨findNext_le_size _, fun i hi => ?_, fun hi => ?_, ?_, fun i hi => ?_⟩,
    nodup_range.filter _, fun i => ?_⟩
  · exact Bool.eq_true_of_not_eq_false' (findNext_false_of_lt _ (Nat.zero_le i) hi)
  · exact Bool.eq_false_of_not_eq_true' (findNext_hit _ hi)
  · exact (card_clearBits _ _).symm
  · exact of_decide_eq_true (Bool.and_eq_true_iff.mp hi).1
  · rw [IdState.opened, mem_filter, mem_range]
    exact ⟨fun h => h.2, fun h => ⟨of_decide_eq_true (Bool.and_eq_true_iff.mp h).1, h⟩⟩

/-- **One call keeps it.** -/
theorem IdState.Valid.step {s : IdState} (h : s.Valid) (c : IdCall) : (s.step c).Valid := by
  cases c with
  | alloc =>
    rw [IdState.step]
    rcases hrun : allocNewBnode s.tree with _ | ⟨e | id, t⟩
    · exact h
    · have hquiet : Quiet s.tree t := allocNewBnode_cases s.tree _ _ hrun
      refine ⟨hquiet.counters h.exact, h.nodup, fun i => ?_⟩
      rw [hquiet.eq]
      exact h.mem_iff i
    · obtain ⟨hid, hfree, hclear, t1, hquiet, rfl⟩ := allocNewBnode_cases s.tree _ _ hrun
      have hexact := hquiet.counters h.exact
      have hfirst : t1.firstFreeId = id := by rw [hquiet.eq, hid]
      have hused : t1.used = s.tree.used := by rw [hquiet.eq]
      refine ⟨?_, ?_, fun i => ?_⟩
      · rw [← hfirst]
        refine hexact.takeId ?_
        rw [hquiet.eq]
        exact hfree
      · refine nodup_cons.mpr ⟨fun hlive => ?_, h.nodup⟩
        rw [(h.mem_iff id).mp hlive] at hclear
        cases hclear
      · rw [mem_cons, h.mem_iff]
        change _ ↔ t1.used.setRange id 1 i = true
        rw [setRange_one, hused]
        simp
  | destroy id lastHolder =>
    cases lastHolder with
    | false => exact h
    | true =>
      rw [IdState.step]
      rcases hrun : destroyBnode id s.tree with _ | ⟨e | _, t⟩
      · exact h
      · obtain rfl : t = s.tree := destroyBnode_cases id s.tree _ _ hrun
        exact h
      · obtain ⟨hused, rfl⟩ := destroyBnode_cases id s.tree _ _ hrun
        refine ⟨h.exact.releaseId hused, h.nodup.erase id, fun i => ?_⟩
        rw [h.nodup.mem_erase_iff, h.mem_iff]
        change _ ↔ s.tree.used.clearRange id 1 i = true
        rw [clearRange_one]
        simp

/-- **Each id is handed out once.** After any sequence of calls, whatever fails in them,
`first_free_id` and `free_num` say what the bitmap says, and the ids of live bnodes are distinct. -/
theorem bnode_ids_distinct (t : Btree) (data : Bitmap) (sizeInBytes : Nat) (calls : List IdCall) :
    CountersExact (calls.foldl IdState.step (IdState.opened t data sizeInBytes)).tree ∧
      (calls.foldl IdState.step (IdState.opened t data sizeInBytes)).live.Nodup := by
  have hvalid : (calls.foldl IdState.step (IdState.opened t data sizeInBytes)).Valid := by
    -- the invariant along the calls
    suffices hrun : ∀ s : IdState, s.Valid → (calls.foldl IdState.step s).Valid from
      hrun _ (IdState.opened_valid t data sizeInBytes)
    induction calls with
    | nil => exact fun s h => h
    | cons c calls ih => exact fun s h => ih (s.step c) (h.step c)
  exact ⟨hvalid.exact, hvalid.nodup⟩

end Vdfs4
