import Vdfs4.Btree.BnodeRecords

/-!
# Editing a bnode edits its list of records

The sanity check on a bnode that represents a list, and the editing functions together: each of
them does to the list what its name says, **exactly when** the counters of the descriptor can
hold the result.

* `Represents.sanity_iff` — the check accepts every such bnode of at most 1000 records;
* `Represents.length_lt_of_insertIdx` — the record counter has 16 bits;
* `bnode_edits_record_list` — all of it.
-/

namespace Vdfs4

open ByteMemory List

variable {t : BtreeInfo} {b : Bnode} {L : List Record}

/-! ### The sanity check -/

/-- The first loop of the check finds the start of the records. -/
theorem Represents.checkOffsets (h : Represents t b L) (hne : L ≠ []) :
    countedLoop (checkOffset t b) L.length 0 t.nodeSizeBytes = some (none, sizeofDescr) := by
  have hfit := h.table_fits
  have hdescr : 0 < sizeofDescr := by decide
  have hlt := h.free_lt
  -- after `r` rounds: the least of the first `r` offsets, or the node size before the first round
  have hround : ∀ r low, 0 ≤ r → r < 0 + L.length →
      (sizeofDescr ≤ low ∧ ∀ j < r, low ≤ cell t b.mem j) →
      ∃ low', checkOffset t b r low = some (none, low') ∧
        (sizeofDescr ≤ low' ∧ ∀ j < r + 1, low' ≤ cell t b.mem j) := by
    rintro r low - hr ⟨hge, hle⟩
    obtain ⟨hd, hdle⟩ := h.cell_bounds (j := r) (by omega)
    refine ⟨if cell t b.mem r < low then cell t b.mem r else low, ?_, ?_, ?_⟩
    · rw [checkOffset, getOffset_eq (by omega)]
      exact if_pos (isOffsetCorrect_iff.mpr ⟨by omega, by omega⟩)
    · split <;> omega
    · intro j hj
      obtain hj | rfl := Nat.lt_succ_iff_lt_or_eq.mp hj
      · have := hle j hj
        split <;> omega
      · split <;> omega
  have hstart : sizeofDescr ≤ t.nodeSizeBytes ∧ ∀ j < 0, t.nodeSizeBytes ≤ cell t b.mem j :=
    ⟨by have := h.free_ge; omega, fun j hj => absurd hj (Nat.not_lt_zero j)⟩
  obtain ⟨low, hloop, hge, hle⟩ := countedLoop_of_step hstart hround
  -- the first piece of the tiling starts behind the descriptor
  obtain ⟨j, hj, hfirst⟩ : ∃ j, j < L.length ∧ cell t b.mem j = sizeofDescr := by
    obtain ⟨ps, hperm, htiles⟩ := h.tiled
    obtain _ | ⟨q, qs⟩ := ps
    · have := hperm.length_eq
      exact absurd (length_eq_zero_iff.mp (by simpa using this.symm)) hne
    · obtain ⟨j, hj, hq⟩ := mem_iff_getElem.mp (hperm.mem_iff.mp mem_cons_self)
      rw [getElem_layout] at hq
      refine ⟨j, by simpa using hj, ?_⟩
      rw [← htiles.1, ← hq]
  have hlow : low = sizeofDescr := by
    have := hle j (by omega)
    omega
  rw [hloop, hlow]

/-- The second loop walks over all records to the free space. -/
theorem Represents.walkRecords (h : Represents t b L) :
    countedLoop (walkRecord t b) L.length 0 sizeofDescr =
      some (none, cell t b.mem L.length) := by
  have hlt := h.free_lt
  obtain ⟨ps, hperm, htiles⟩ := h.tiled
  have hlen : ps.length = L.length := by simpa using hperm.length_eq
  -- after `r` rounds the walk has passed the first `r` pieces
  have hround : ∀ r off, 0 ≤ r → r < 0 + L.length →
      (∃ pre post, ps = pre ++ post ∧ pre.length = r ∧ Tiles off post (cell t b.mem L.length)) →
      ∃ off', walkRecord t b r off = some (none, off') ∧ ∃ pre post, ps = pre ++ post ∧
        pre.length = r + 1 ∧ Tiles off' post (cell t b.mem L.length) := by
    rintro r off - hr ⟨pre, post, rfl, hpre, hrest⟩
    obtain _ | ⟨q, post⟩ := post
    · simp only [append_nil] at hlen
      omega
    obtain ⟨rfl, htail⟩ := hrest
    obtain ⟨j, hj, hq⟩ := mem_iff_getElem.mp
      (hperm.mem_iff.mp (mem_append_right pre mem_cons_self))
    rw [getElem_layout] at hq
    have hj' : j < L.length := by simpa using hj
    have hrec : recordLenAt b.mem q.1 = q.2 := by
      rw [← hq]
      exact h.recordLenAt_eq hj'
    have hle := htail.le
    have hpos : 0 < q.2 := by
      rw [← hq]
      exact Record.len_pos _
    refine ⟨q.1 + q.2, ?_, pre ++ [q], post, by simp, by simp [hpre], htail⟩
    rw [walkRecord, hrec]
    exact if_pos (isOffsetCorrect_iff.mpr ⟨by omega, by omega⟩)
  obtain ⟨off, hloop, pre, post, hps, hpre, hrest⟩ :=
    countedLoop_of_step (I := fun r off => ∃ pre post, ps = pre ++ post ∧ pre.length = r ∧
      Tiles off post (cell t b.mem L.length)) ⟨[], ps, rfl, rfl, htiles⟩ hround
  have hpost : post = [] := by
    have := congrArg length hps
    rw [length_append] at this
    exact length_eq_zero_iff.mp (by omega)
  subst hpost
  obtain rfl : off = cell t b.mem L.length := hrest
  exact hloop

/-- The check accepts a bnode that represents a list, unless it has more than 1000 records. -/
theorem Represents.sanity_iff (h : Represents t b L) :
    bnodeSanityCheck t b = some true ↔ b.nodeId = 0 ∨ L.length ≤ 1000 := by
  have hgap := h.gap
  have hfit := h.table_fits
  rw [bnodeSanityCheck]
  by_cases hid : b.nodeId = 0
  · simp [hid]
  simp only [hid, if_false, false_or]
  by_cases hne : L = []
  · have hzero : b.recsCount = 0 := UInt16.toNat_inj.mp (by rw [h.count, hne]; rfl)
    obtain ⟨ps, hperm, htiles⟩ := h.tiled
    subst hne
    obtain rfl := perm_nil.mp hperm
    have hcell : cell t b.mem 0 = sizeofDescr := htiles.symm
    rw [if_pos hzero, getOffset_eq (i := 0) hfit, hcell]
    simp
  · have hzero : b.recsCount ≠ 0 := by
      intro hz
      have := h.count
      rw [hz] at this
      exact hne (length_eq_zero_iff.mp this.symm)
    rw [if_neg hzero, if_neg (by omega), h.count]
    by_cases hmany : 1000 < L.length
    · rw [if_pos hmany]
      simp only [Option.some.injEq, Bool.false_eq_true, false_iff]
      omega
    rw [if_neg hmany, h.checkOffsets hne]
    dsimp only
    rw [h.walkRecords]
    rw [getOffset_eq hfit]
    simp only [Option.map_some, beq_self_eq_true, true_iff]
    omega

/-! ### The counter of the records -/

/-- The counter cannot count the 65536th record. -/
theorem Represents.length_lt_of_insertIdx {p : Nat} {r : Record} (hp : p ≤ L.length)
    (h : Represents t b (L.insertIdx p r)) : L.length < 65535 := by
  have hlt := b.recsCount.toNat_lt
  rw [h.count, length_insertIdx_of_le_length hp] at hlt
  exact Nat.lt_of_succ_lt_succ hlt

/-! ### All editing functions -/

/-- **Bnode editing implements a list of records**, exactly when the counters of the descriptor
and the limits of the functions allow it. For a bnode that represents `L`: a record or a key is
inserted unless there are 65535 records already; record `i` is deleted unless it is longer than
any record may be or the free space would need more than 16 bits; the sanity check accepts the
bnode unless it has more than 1000 records. -/
theorem bnode_edits_record_list (t : BtreeInfo) (b : Bnode) (L : List Record)
    (h : Represents t b L) :
    (∀ (r : Record) (src : ByteMemory) (p : Nat), p ≤ L.length →
      r.len + 4 ≤ b.freeSpace.toNat → window src 0 r.len = r.bytes →
      ((∃ b', insertIntoNode t b src p = some (none, b') ∧ Represents t b' (L.insertIdx p r)) ↔
        L.length < 65535)) ∧
    (∀ (key : ByteMemory) (newRecLen p : Nat) (onlyKey : Bool), p ≤ L.length →
      newRecLen + 4 ≤ b.freeSpace.toNat → 8 ≤ newRecLen →
      (if onlyKey then keyLenAt key 0 else newRecLen) ≤ newRecLen →
      ((∃ b' r, placeIntoNode t b key newRecLen p onlyKey = some (none, b') ∧
        PlacedRecord key newRecLen (if onlyKey then keyLenAt key 0 else newRecLen) r ∧
        Represents t b' (L.insertIdx p r)) ↔ L.length < 65535)) ∧
    (∀ (i : Nat) (hi : i < L.length),
      ((∃ b', deleteFromNode t b i = some (none, b') ∧ Represents t b' (L.eraseIdx i)) ↔
        L[i].len ≤ maxBtreeRecLen ∧ b.freeSpace.toNat + L[i].len + 4 < 65536)) ∧
    ((∀ r ∈ L, r.len ≤ t.maxRecordLen) →
      (bnodeSanityCheck t b = some true ↔ b.nodeId = 0 ∨ L.length ≤ 1000)) := by
  refine ⟨?_, ?_, ?_, ?_⟩
  · intro r src p hp hfree hsrc
    constructor
    · rintro ⟨b', _, hrep⟩
      exact hrep.length_lt_of_insertIdx hp
    · intro hwrap
      exact h.insert hp hfree hwrap hsrc
  · intro key newRecLen p onlyKey hp hfree h8 hkey
    constructor
    · rintro ⟨b', r, _, _, hrep⟩
      exact hrep.length_lt_of_insertIdx hp
    · intro hwrap
      obtain ⟨b', r, hplace, hplaced, hrep, _⟩ :=
        h.place key newRecLen onlyKey hp hfree hwrap h8 hkey
      exact ⟨b', r, hplace, hplaced, hrep⟩
  · intro i hi
    exact h.erase_iff hi
  · intro _
    exact h.sanity_iff

/-- A catalog tree of the given node size on a mounted volume. -/
def catalogInfo (logPagesPerNode : Nat) (fits : logPagesPerNode < 20) : BtreeInfo :=
  ⟨.catalog, logPagesPerNode, fits, true⟩

/-- A new leaf with id 1. -/
def newLeaf (t : BtreeInfo) : Bnode :=
  ⟨1, UInt16.ofNat (t.nodeSizeBytes - 40), 0, 1, 0, 0, .leaf, setCell t (fun _ => 0) 0 sizeofDescr⟩

theorem newLeaf_represents (hsmall : t.nodeSizeBytes ≤ 65536) : Represents t (newLeaf t) [] :=
  represents_init (b := ⟨1, 0, 0, 0, 0, 0, .leaf, fun _ => 0⟩) hsmall
    (initNewNodeDescr_eq _ .leaf)

/-- The shortest record of a catalog tree: a reference to a parent directory, with a name of at
most six bytes. -/
def shortRecord : Record where
  bytes := [0, 0, 0, 0, 32, 0, 32, 0] ++ List.replicate 24 0
  header := by decide
  recordLen := by decide

/-- The same record in memory. -/
def shortRecordMemory : ByteMemory := fun i => (shortRecord.bytes[i]?).getD 0

theorem window_shortRecordMemory :
    window shortRecordMemory 0 shortRecord.len = shortRecord.bytes := by
  decide

/-- A leaf with room for them can hold `n` short records. -/
theorem exists_leaf_of_shortRecords (hsmall : t.nodeSizeBytes ≤ 65536) :
    ∀ n : Nat, n * 36 + 40 ≤ t.nodeSizeBytes →
      ∃ b, b.nodeId = 1 ∧ b.nextNodeId = 0 ∧ Represents t b (replicate n shortRecord)
  | 0, _ => ⟨newLeaf t, rfl, rfl, newLeaf_represents hsmall⟩
  | n + 1, hroom => by
    obtain ⟨b, hid, hnext, hrep⟩ := exists_leaf_of_shortRecords hsmall n (by omega)
    have hspace := hrep.space
    have hlen : shortRecord.len = 32 := by decide
    have hsize : recordsSize (replicate n shortRecord) = n * 36 := by
      simp [recordsSize, hlen]
    obtain ⟨b', r, hplace, hplaced, hrep', hsame, _⟩ := hrep.place shortRecordMemory
      shortRecord.len false (Nat.zero_le _) (by omega) (by rw [length_replicate]; omega)
      (by decide) (Nat.le_refl _)
    obtain rfl := hplaced.eq window_shortRecordMemory
    refine ⟨b', by rw [hsame]; exact hid, by rw [hsame]; exact hnext, ?_⟩
    rwa [replicate_succ]

/-- A longer record. -/
def longRecord : Record where
  bytes := [0, 0, 0, 0, 40, 0, 48, 0] ++ List.replicate 40 1
  header := by decide
  recordLen := by decide

/-- A leaf of 4096 bytes with three records: a longer one is inserted behind the first, the second
one is deleted, and the check accepts the leaf. -/
theorem bnode_edits_record_list_sample : ∃ b,
    Represents (catalogInfo 0 (by decide)) b [shortRecord, shortRecord, shortRecord] ∧
    (∃ b', insertIntoNode (catalogInfo 0 (by decide)) b (fun i => (longRecord.bytes[i]?).getD 0) 1 =
        some (none, b') ∧
      Represents (catalogInfo 0 (by decide)) b' [shortRecord, longRecord, shortRecord,
        shortRecord]) ∧
    (∃ b', deleteFromNode (catalogInfo 0 (by decide)) b 1 = some (none, b') ∧
      Represents (catalogInfo 0 (by decide)) b' [shortRecord, shortRecord]) ∧
    bnodeSanityCheck (catalogInfo 0 (by decide)) b = some true := by
  obtain ⟨b, -, -, hrep⟩ := exists_leaf_of_shortRecords (t := catalogInfo 0 (by decide))
    (by decide) 3 (by decide)
  obtain ⟨hinsert, -, hdelete, hsanity⟩ := bnode_edits_record_list _ b _ hrep
  have hspace := hrep.space
  have hsize : recordsSize (replicate 3 shortRecord) = 108 := by decide
  have hnode : (catalogInfo 0 (by decide)).nodeSizeBytes = 4096 := by decide
  have hlong : longRecord.len = 48 := by decide
  have hshort : shortRecord.len = 32 := by decide
  refine ⟨b, hrep, ?_, ?_, ?_⟩
  · exact (hinsert longRecord _ 1 (by decide) (by omega) (by decide)).mpr (by decide)
  · refine (hdelete 1 (by decide)).mpr ⟨by decide, ?_⟩
    rw [getElem_replicate]
    omega
  · refine (hsanity fun r hr => ?_).mpr (.inr (by decide))
    rw [eq_of_mem_replicate hr]
    decide

/-- A leaf of 64 KiB with 1001 records of 32 bytes is well formed, and the sanity check refuses
it. -/
theorem sanity_check_refuses_full_bnode :
    ∃ b, Represents (catalogInfo 4 (by decide)) b (List.replicate 1001 shortRecord) ∧
      (∀ r ∈ List.replicate 1001 shortRecord, r.len ≤ (catalogInfo 4 (by decide)).maxRecordLen) ∧
      bnodeSanityCheck (catalogInfo 4 (by decide)) b ≠ some true := by
  obtain ⟨b, hid, -, hrep⟩ := exists_leaf_of_shortRecords (t := catalogInfo 4 (by decide))
    (by decide) 1001 (by decide)
  refine ⟨b, hrep, ?_, ?_⟩
  · intro r hr
    rw [eq_of_mem_replicate hr]
    decide
  · rw [Ne, hrep.sanity_iff, length_replicate, hid]
    decide

end Vdfs4
