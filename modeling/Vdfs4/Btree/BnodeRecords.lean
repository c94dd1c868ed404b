import Vdfs4.Btree.Bnode
import Vdfs4.Lib.Tiling

/-!
# A bnode is a list of records

What a bnode is for: a **list of records**. `Represents t b L` says that the offset table of `b`
gives the starts of the records of `L` in order, that the records **tile** the bytes from the
descriptor to the free space, and that `free_space` is the gap up to the table.

* `represents_init` — a new bnode represents the empty list;
* `enterOffset_spec`, `deleteFromNode_spec` — what the editing functions do to the cells and to
  the bytes below the table;
* `Stores.insert`, `Stores.place`, `Represents.erase_iff` — the list a bnode represents afterwards.

The free space is a 16 bit number, which a node above 64 KiB exceeds. `Stores t slack b L` is the
relation with this **slack**; `Represents` is the case without slack.
-/

namespace Vdfs4

open ByteMemory List UInt16 Nat

/-! ### Records -/

/-- A record: a key and a value, with the length of both in `record_len`. -/
structure Record where
  bytes : List UInt8
  header : 8 ≤ bytes.length
  recordLen : ofLE ((bytes.drop 6).take 2) = bytes.length

namespace Record

/-- `record_len`. -/
def len (r : Record) : Nat := r.bytes.length

theorem len_pos (r : Record) : 0 < r.len := lt_of_lt_of_le (by decide) r.header

/-- The length field of a record that lies in memory. -/
theorem recordLenAt_eq (r : Record) {m : ByteMemory} {a : Nat} (h : window m a r.len = r.bytes) :
    recordLenAt m a = r.len := by
  have hpart : window m (a + 6) 2 = (r.bytes.drop 6).take 2 := by
    rw [← h, take_drop_window]
    exact r.header
  rw [recordLenAt, loadLE, hpart, r.recordLen, len]

end Record

/-! ### Cells of the offset table -/

variable {t : BtreeInfo} {b b' : Bnode} {m m' : ByteMemory} {i j n v p f pos : Nat} {r : Record}
  {type : NodeType}

theorem BtreeInfo.nodeSize_ge (t : BtreeInfo) : 4096 ≤ t.nodeSizeBytes := by
  rw [nodeSizeBytes, pageShift, pow_add]
  have := Nat.one_le_two_pow (n := t.logPagesPerNode)
  omega

theorem BtreeInfo.nodeSize_le (t : BtreeInfo) : t.nodeSizeBytes ≤ 2 ^ 31 := by
  apply Nat.pow_le_pow_right (by decide)
  have := t.fits
  rw [pageShift]
  omega

/-- The number in cell `i` of the offset table. -/
def cell (t : BtreeInfo) (m : ByteMemory) (i : Nat) : Nat :=
  loadLE m (t.nodeSizeBytes - 4 * (i + 2)) 4

/-- The memory with `v` in cell `i`. -/
def setCell (t : BtreeInfo) (m : ByteMemory) (i v : Nat) : ByteMemory :=
  storeLE m (t.nodeSizeBytes - 4 * (i + 2)) 4 v

theorem offsetAddr_eq (h : 4 * (i + 2) ≤ t.nodeSizeBytes) :
    offsetAddr t i = some (.ok (t.nodeSizeBytes - 4 * (i + 2))) := by
  have hfit : bnodeFirstOffset + sizeofOffset * (i + 1) ≤ t.nodeSizeBytes := by
    simp only [bnodeFirstOffset, sizeofOffset]
    omega
  rw [offsetAddr, if_pos hfit]
  simp only [bnodeFirstOffset, sizeofOffset, Option.some.injEq, Except.ok.injEq]
  omega

theorem getOffset_eq (h : 4 * (i + 2) ≤ t.nodeSizeBytes) :
    getOffset t b i = some (cell t b.mem i) := by
  rw [getOffset, offsetAddr_eq h]
  rfl

theorem isOffsetCorrect_iff : isOffsetCorrect t v = true ↔ 0 < v ∧ v < t.nodeSizeBytes := by
  simp [isOffsetCorrect, pos_iff_ne_zero]

theorem checkSetOffset_eq (h : 4 * (i + 2) ≤ t.nodeSizeBytes) (hv : 0 < v)
    (hlt : v < t.nodeSizeBytes) :
    checkSetOffset t b i v = some (none, { b with mem := setCell t b.mem i v }) := by
  rw [checkSetOffset, offsetAddr_eq h]
  simp [isOffsetCorrect_iff.mpr ⟨hv, hlt⟩, setCell, sizeofOffset]

theorem cell_setCell (hv : v < t.nodeSizeBytes) : cell t (setCell t m i v) i = v := by
  apply loadLE_storeLE
  exact lt_of_lt_of_le hv (t.nodeSize_le.trans (by decide))

theorem cell_setCell_of_ne (hi : 4 * (i + 2) ≤ t.nodeSizeBytes)
    (hj : 4 * (j + 2) ≤ t.nodeSizeBytes) (hne : j ≠ i) :
    cell t (setCell t m i v) j = cell t m j := by
  apply loadLE_storeLE_of_disjoint
  omega

/-- The bytes below a cell that was set. -/
theorem window_setCell {a k : Nat} (h : a + k ≤ t.nodeSizeBytes - 4 * (i + 2)) :
    window (setCell t m i v) a k = window m a k :=
  window_storeLE_of_disjoint (.inl h)

/-! ### Opening a cell -/

/-- Cell `j` after a cell for the offset `off` was opened at `pos` among `n` cells. -/
def openedCell (c : Nat → Nat) (n pos off len j : Nat) : Nat :=
  if j = n + 1 then off + len else if j < pos then c j else if j = pos then off else c (j - 1)

/-- The cells from `pos` on after the `memmove` of both insertions. -/
theorem cell_memmove (hpos : pos ≤ n) (hn : 4 * (n + 2) ≤ t.nodeSizeBytes) (hj : j ≤ n)
    (hne : j ≠ pos) :
    cell t (memmove m (t.nodeSizeBytes - 4 * (n + 2)) (t.nodeSizeBytes - 4 * (n + 2) + 4)
      (4 * (n - pos))) j = if j < pos then cell t m j else cell t m (j - 1) := by
  split
  · -- the cells of smaller positions lie above the moved ones
    exact loadLE_memmove_of_disjoint (.inr (by omega))
  · have haddr : t.nodeSizeBytes - 4 * (j + 2) =
        t.nodeSizeBytes - 4 * (n + 2) + 4 * (n - j) := by omega
    rw [cell, haddr, loadLE_memmove_inside (by omega), cell]
    congr 1
    omega

/-- Both insertions end by opening a cell. -/
theorem enterOffset_spec {k : Nat} (hn : b.recsCount.toNat = n) (hpos : pos ≤ n) (hwrap : n < 65535)
    (hoff : 0 < f) (hroom : f + k + 4 * (n + 3) ≤ t.nodeSizeBytes)
    (hfree : k + 4 ≤ b.freeSpace.toNat) :
    ∃ m', enterOffset t b (t.nodeSizeBytes - 4 * (n + 2)) f k pos =
        some (none, { b with
          recsCount := b.recsCount + 1
          freeSpace := ofNat (b.freeSpace.toNat - (k + 4))
          mem := m' }) ∧
      (∀ j ≤ n + 1, cell t m' j = openedCell (cell t b.mem) n pos f k j) ∧
      ∀ a c, a + c ≤ t.nodeSizeBytes - 4 * (n + 3) → window m' a c = window b.mem a c := by
  let m1 := memmove b.mem (t.nodeSizeBytes - 4 * (n + 2)) (t.nodeSizeBytes - 4 * (n + 2) + 4)
    (4 * (n - pos))
  let m2 := setCell t m1 pos f
  refine ⟨setCell t m2 (n + 1) (f + k), ?_, ?_, ?_⟩
  · have hcount : (b.recsCount + 1).toNat = n + 1 := by
      rw [UInt16.toNat_add, hn]
      exact mod_eq_of_lt (by simpa using succ_lt_succ hwrap)
    have hfits : ¬ b.freeSpace.toNat < k + sizeofOffset := not_lt.mpr hfree
    rw [enterOffset, hn]
    rw [checkSetOffset_eq (by omega) hoff (by omega)]
    dsimp only
    rw [if_neg hfits, hcount, checkSetOffset_eq (by omega) (by omega) (by omega)]
    rfl
  · intro j hj
    rw [openedCell]
    split
    · subst j
      exact cell_setCell (by omega)
    rename_i hlast
    rw [cell_setCell_of_ne (by omega) (by omega) hlast]
    by_cases hp : j = pos
    · subst hp
      rw [if_neg (lt_irrefl j), if_pos rfl]
      exact cell_setCell (by omega)
    · rw [cell_setCell_of_ne (by omega) (by omega) hp, if_neg hp]
      exact cell_memmove hpos (by omega) (by omega) hp
  · intro a c hac
    rw [window_setCell hac, window_setCell (by omega)]
    exact window_memmove_of_disjoint (.inl (by omega))

/-! ### Representation -/

/-- Start and length of every record, in the order of the offset table. -/
def layout (t : BtreeInfo) (m : ByteMemory) (L : List Record) : List (Nat × Nat) :=
  L.mapIdx fun i r => (cell t m i, r.len)

variable {L : List Record} {slack : Nat}

@[simp] theorem length_layout : (layout t m L).length = L.length := by simp [layout]

@[simp] theorem getElem_layout (h : i < (layout t m L).length) :
    (layout t m L)[i] = (cell t m i, (L.get ⟨i, by simpa using h⟩).len) := by
  simp [layout]

/-- The bytes a list of records needs, with their cells. -/
def recordsSize (L : List Record) : Nat := (L.map fun r => r.len + 4).sum

/-- The bnode `b` holds the records `L`, and `free_space` falls short of the gap between the
records and the table by `slack` bytes. -/
structure Stores (t : BtreeInfo) (slack : Nat) (b : Bnode) (L : List Record) : Prop where
  count : b.recsCount.toNat = L.length
  /-- cell `i` gives the start of record `i` -/
  shows : ∀ i (h : i < L.length), window b.mem (cell t b.mem i) L[i].len = L[i].bytes
  /-- the records tile the bytes from the descriptor to the free space -/
  tiled : ∃ ps, ps.Perm (layout t b.mem L) ∧ Tiles sizeofDescr ps (cell t b.mem L.length)
  /-- between the free space and the table lies a gap of `free_space` bytes and the slack -/
  gap : cell t b.mem L.length + b.freeSpace.toNat + slack + 4 * (L.length + 2) = t.nodeSizeBytes

/-- The bnode `b` represents the list of records `L`: it holds them, and `free_space` is the gap
between the free space and the table. -/
abbrev Represents (t : BtreeInfo) (b : Bnode) (L : List Record) : Prop := Stores t 0 b L

namespace Stores

section

variable (h : Stores t slack b L)

include h

theorem table_fits : 4 * (L.length + 2) ≤ t.nodeSizeBytes := by
  have := h.gap
  omega

/-- Every record lies between the descriptor and the free space. -/
theorem bounds (hi : i < L.length) :
    sizeofDescr ≤ cell t b.mem i ∧ cell t b.mem i + L[i].len ≤ cell t b.mem L.length := by
  obtain ⟨ps, hperm, htiles⟩ := h.tiled
  have hmem : (cell t b.mem i, L[i].len) ∈ layout t b.mem L := by
    refine mem_iff_getElem.mpr ⟨i, by simpa [layout] using hi, ?_⟩
    simp [layout]
  exact htiles.bounds (hperm.mem_iff.mpr hmem)

theorem free_ge : sizeofDescr ≤ cell t b.mem L.length := by
  obtain ⟨ps, _, htiles⟩ := h.tiled
  exact htiles.le

/-- The free space is what the descriptor, the records and the table leave. -/
theorem space :
    b.freeSpace.toNat + slack + recordsSize L + 40 = t.nodeSizeBytes := by
  obtain ⟨ps, hperm, htiles⟩ := h.tiled
  have hlens : (layout t b.mem L).map Prod.snd = L.map Record.len := by
    apply ext_getElem <;> simp
  have hsum : sizeofDescr + (L.map Record.len).sum = cell t b.mem L.length := by
    rw [← htiles.sum_eq, (hperm.map Prod.snd).sum_eq, hlens]
  have hsize : recordsSize L = (L.map Record.len).sum + 4 * L.length := by
    simp [recordsSize, sum_map_add, mul_comm]
  have hgap := h.gap
  rw [sizeofDescr] at hsum
  omega

theorem free_lt : cell t b.mem L.length < t.nodeSizeBytes := by
  have := h.gap
  omega

/-- The address of a record and its length. -/
theorem recordLenAt_eq (hi : i < L.length) :
    recordLenAt b.mem (cell t b.mem i) = L[i].len :=
  L[i].recordLenAt_eq (h.shows i hi)

end

end Stores

/-! ### The empty bnode -/

/-- `vdfs4_init_new_node_descr` always completes. -/
theorem initNewNodeDescr_eq (b : Bnode) (type : NodeType) :
    initNewNodeDescr t b type = some { b with
      freeSpace := ofNat (t.nodeSizeBytes - 40)
      recsCount := 0
      descrNodeId := b.nodeId
      prevNodeId := invalidNodeId
      nextNodeId := invalidNodeId
      type := type
      mem := setCell t b.mem 0 sizeofDescr } := by
  have hsize := t.nodeSize_ge
  rw [initNewNodeDescr, checkSetOffset_eq (by omega) (by decide) (by rw [sizeofDescr]; omega)]
  simp only [sizeofDescr, sizeofOffset, bnodeFirstOffset, Option.some.injEq, Bnode.mk.injEq,
    and_self, and_true, true_and]
  rw [Nat.sub_sub, Nat.sub_sub]

/-- A new bnode holds no record; its free space is kept in 16 bits. -/
theorem stores_init (h : initNewNodeDescr t b type = some b') :
    Stores t (t.nodeSizeBytes - 40 - (t.nodeSizeBytes - 40) % 65536) b' [] := by
  have hsize := t.nodeSize_ge
  rw [initNewNodeDescr_eq] at h
  obtain rfl := Option.some.inj h
  have hcell : cell t (setCell t b.mem 0 sizeofDescr) 0 = sizeofDescr :=
    cell_setCell (by rw [sizeofDescr]; omega)
  refine ⟨rfl, fun i hi => absurd hi (not_lt_zero i), ⟨[], List.Perm.refl _, hcell.symm⟩, ?_⟩
  have hfree : (ofNat (t.nodeSizeBytes - 40)).toNat = (t.nodeSizeBytes - 40) % 65536 :=
    toNat_ofNat'
  have hmod := mod_le (t.nodeSizeBytes - 40) 65536
  change cell t (setCell t b.mem 0 sizeofDescr) 0 +
    (ofNat (t.nodeSizeBytes - 40)).toNat + _ + 8 = _
  rw [hcell, hfree, sizeofDescr]
  omega

/-- A new bnode represents the empty list, if 16 bits can hold its free space. -/
theorem represents_init (hsmall : t.nodeSizeBytes ≤ 65536)
    (h : initNewNodeDescr t b type = some b') : Represents t b' [] := by
  have hslack : t.nodeSizeBytes - 40 - (t.nodeSizeBytes - 40) % 65536 = 0 := by
    rw [Nat.mod_eq_of_lt (by omega), Nat.sub_self]
  have hstores := stores_init h
  rwa [hslack] at hstores

/-! ### Insertion -/

/-- The layout after a cell was opened. -/
theorem layout_insertIdx (hp : p ≤ L.length)
    (hcells : ∀ j ≤ L.length + 1, cell t m' j = openedCell (cell t m) L.length p f r.len j) :
    layout t m' (L.insertIdx p r) = (layout t m L).insertIdx p (f, r.len) := by
  apply ext_getElem
  · simp [layout, length_insertIdx, hp]
  intro i hi _
  have hi' : i < L.length + 1 := by
    simpa [layout, length_insertIdx, hp] using hi
  have hc := hcells i (by omega)
  rw [openedCell, if_neg (by omega)] at hc
  rw [getElem_insertIdx]
  simp only [layout, getElem_mapIdx, getElem_insertIdx, hc]
  split
  · rfl
  · split <;> rfl

/-- A bnode in which a cell was opened for a record written to the free space. -/
theorem Stores.opened (h : Stores t slack b L) (hp : p ≤ L.length)
    (hfree : r.len + 4 ≤ b.freeSpace.toNat) (hcount : b'.recsCount.toNat = L.length + 1)
    (hspace : b'.freeSpace.toNat = b.freeSpace.toNat - (r.len + 4))
    (hcells : ∀ j ≤ L.length + 1, cell t b'.mem j = openedCell (cell t b.mem) L.length p
      (cell t b.mem L.length) r.len j)
    (hold : ∀ a k, a + k ≤ cell t b.mem L.length → window b'.mem a k = window b.mem a k)
    (hnew : window b'.mem (cell t b.mem L.length) r.len = r.bytes) :
    Stores t slack b' (L.insertIdx p r) := by
  have hlen : (L.insertIdx p r).length = L.length + 1 := length_insertIdx_of_le_length hp r
  have hlast : cell t b'.mem (L.length + 1) = cell t b.mem L.length + r.len := by
    rw [hcells _ (le_refl _), openedCell, if_pos rfl]
  refine ⟨by rw [hcount, hlen], ?_, ?_, ?_⟩
  · intro i hi
    rw [hlen] at hi
    rw [hcells i (by omega), openedCell, if_neg (by omega)]
    simp only [getElem_insertIdx]
    split
    · rename_i hlt
      rw [hold _ _ (h.bounds (by omega)).2]
      exact h.shows i (by omega)
    · split
      · exact hnew
      · rw [hold _ _ (h.bounds (by omega)).2]
        exact h.shows (i - 1) (by omega)
  · obtain ⟨ps, hperm, htiles⟩ := h.tiled
    refine ⟨ps ++ [(cell t b.mem L.length, r.len)], ?_, ?_⟩
    · rw [layout_insertIdx hp hcells]
      have hnew : (ps ++ [(cell t b.mem L.length, r.len)]).Perm
          ((cell t b.mem L.length, r.len) :: layout t b.mem L) :=
        (perm_append_singleton _ _).trans (hperm.cons _)
      exact hnew.trans (perm_insertIdx _ _ (by simpa [layout] using hp)).symm
    · rw [hlen, hlast]
      exact htiles.snoc _
  · rw [hlen, hlast, hspace]
    have := h.gap
    omega

/-- Free space that was taken for a record. -/
theorem toNat_freeSpace_sub (c : UInt16) (k : Nat) :
    (ofNat (c.toNat - k)).toNat = c.toNat - k := by
  rw [toNat_ofNat']
  exact mod_eq_of_lt (lt_of_le_of_lt (sub_le _ _) c.toNat_lt)

section

variable (h : Stores t slack b L) (hp : p ≤ L.length) (hfree : r.len + 4 ≤ b.freeSpace.toNat)
  (hwrap : L.length < 65535)

include h hp hfree hwrap

/-- Both insertions: bytes are written to the free space and a cell is opened for them. -/
theorem Stores.enter {c : ByteMemory}
    (hm : ∀ a k, a + k ≤ cell t b.mem L.length ∨ cell t b.mem L.length + r.len ≤ a →
      window c a k = window b.mem a k)
    (hnew : window c (cell t b.mem L.length) r.len = r.bytes) :
    ∃ b', enterOffset t { b with mem := c } (t.nodeSizeBytes - 4 * (L.length + 2))
        (cell t b.mem L.length) r.len p = some (none, b') ∧
      Stores t slack b' (L.insertIdx p r) ∧
      b' = { b with freeSpace := b'.freeSpace, recsCount := b'.recsCount, mem := b'.mem } ∧
      cell t b'.mem p = cell t b.mem L.length ∧
      ∀ j < p, cell t b'.mem j = cell t b.mem j := by
  have hgap := h.gap
  have hge := h.free_ge
  have hcell : ∀ j ≤ L.length, cell t c j = cell t b.mem j := by
    intro j hj
    simp only [cell, loadLE]
    rw [hm _ _ (.inr (by omega))]
  obtain ⟨m'', heq, hcells, hold⟩ := enterOffset_spec (t := t) (b := { b with mem := c })
    (f := cell t b.mem L.length) (k := r.len) h.count hp hwrap
    (lt_of_lt_of_le (by decide) hge) (by omega) hfree
  refine ⟨_, heq, h.opened hp hfree ?_ (toNat_freeSpace_sub _ _) ?_ ?_ ?_, rfl, ?_, ?_⟩
  · rw [UInt16.toNat_add, h.count]
    exact mod_eq_of_lt (by simpa using succ_lt_succ hwrap)
  · intro j hj
    rw [hcells j hj]
    simp only [openedCell]
    split
    · rfl
    · split
      · exact hcell j (by omega)
      · split
        · rfl
        · exact hcell (j - 1) (by omega)
  · intro a k hak
    rw [hold a k (by omega)]
    exact hm a k (.inl hak)
  · rw [hold _ _ (by omega)]
    exact hnew
  · rw [hcells p (by omega), openedCell, if_neg (by omega), if_neg (lt_irrefl p), if_pos rfl]
  · intro j hj
    rw [hcells j (by omega), openedCell, if_neg (by omega), if_pos hj]
    exact hcell j (by omega)

/-- `vdfs4_insert_into_node` inserts the record. -/
theorem Stores.insert {src : ByteMemory} (hsrc : window src 0 r.len = r.bytes) :
    ∃ b', insertIntoNode t b src p = some (none, b') ∧ Stores t slack b' (L.insertIdx p r) := by
  have hge := h.free_ge
  have hoff : isOffsetCorrect t (cell t b.mem L.length) = true :=
    isOffsetCorrect_iff.mpr ⟨lt_of_lt_of_le (by decide) hge, h.free_lt⟩
  obtain ⟨b', heq, hrep, -⟩ :=
    h.enter (r := r) (c := memcpy b.mem (cell t b.mem L.length) src r.len) hp hfree hwrap
    (by
      intro a k hak
      exact window_store_of_disjoint (by simpa using hak))
    (by
      have hself := window_store_self (m := b.mem) (a := cell t b.mem L.length)
        (l := window src 0 r.len)
      rw [length_window] at hself
      rw [memcpy, hself, hsrc])
  refine ⟨b', ?_, hrep⟩
  rw [insertIntoNode, r.recordLenAt_eq hsrc, if_neg (by omega), h.count,
    offsetAddr_eq h.table_fits]
  exact (if_pos hoff).trans heq

end

/-- What `__place_into_node` makes of a key: a record of the new length that starts with the
`dataLen` bytes that were copied, its length field apart. -/
structure PlacedRecord (key : ByteMemory) (newRecLen dataLen : Nat) (r : Record) : Prop where
  len : r.len = newRecLen
  data : ∀ i < dataLen, i ≠ 6 → i ≠ 7 → r.bytes[i]? = some (key i)

/-- A record that is copied whole is that record. -/
theorem PlacedRecord.eq {key : ByteMemory} {s : Record} (h : PlacedRecord key s.len s.len r)
    (hkey : window key 0 s.len = s.bytes) : r = s := by
  have hlens : r.bytes.length = s.bytes.length := h.len
  have hfield : (r.bytes.drop 6).take 2 = (s.bytes.drop 6).take 2 := by
    apply eq_of_ofLE_eq
    · simp [hlens]
    · rw [r.recordLen, s.recordLen, hlens]
  have hbytes : r.bytes = s.bytes := by
    apply ext_getElem hlens
    intro i hi hi'
    by_cases h67 : i = 6 ∨ i = 7
    · -- the two bytes of the length
      have hget := congrArg (fun l => l[i - 6]?) hfield
      simp only [getElem?_take, getElem?_drop] at hget
      rw [if_pos (by omega), if_pos (by omega), show 6 + (i - 6) = i by omega,
        getElem?_eq_getElem hi, getElem?_eq_getElem hi'] at hget
      exact Option.some.inj hget
    · have hdata := h.data i hi' (by omega) (by omega)
      rw [getElem?_eq_getElem hi] at hdata
      have hsrc : s.bytes[i] = key i := by
        simp only [← hkey, getElem_window, zero_add]
      rw [hsrc]
      exact Option.some.inj hdata
  obtain ⟨_, _, _⟩ := r
  obtain ⟨_, _, _⟩ := s
  congr

/-- The record that the stores of `__place_into_node` leave at `f`. -/
theorem exists_placed (key : ByteMemory) {newRecLen dataLen : Nat} (h8 : 8 ≤ newRecLen)
    (hlt : newRecLen < 65536) (hdata : dataLen ≤ newRecLen) :
    ∃ r : Record, PlacedRecord key newRecLen dataLen r ∧
      window (storeLE (memcpy m f key dataLen) (f + 6) 2 newRecLen) f newRecLen = r.bytes := by
  have hfield : ((window (storeLE (memcpy m f key dataLen) (f + 6) 2 newRecLen) f
      newRecLen).drop 6).take 2 = window (storeLE (memcpy m f key dataLen) (f + 6) 2 newRecLen)
        (f + 6) 2 := take_drop_window h8
  refine ⟨⟨window (storeLE (memcpy m f key dataLen) (f + 6) 2 newRecLen) f newRecLen,
    by simpa using h8, ?_⟩, ⟨length_window, ?_⟩, rfl⟩
  · rw [hfield, length_window]
    exact loadLE_storeLE (by simpa using hlt)
  intro i hi h6 h7
  rw [getElem?_eq_getElem (by simpa using lt_of_lt_of_le hi hdata), getElem_window]
  congr 1
  have hlen : (window key 0 dataLen).length = dataLen := length_window
  rw [storeLE, store_outside (by rw [length_toLE]; omega), memcpy,
    store_inside (by rw [hlen]; exact hi), getElem_window, zero_add]

/-- `__place_into_node` inserts a record that starts with the key. -/
theorem Stores.place (h : Stores t slack b L) (key : ByteMemory) (newRecLen : Nat) (onlyKey : Bool)
    (hp : p ≤ L.length) (hfree : newRecLen + 4 ≤ b.freeSpace.toNat) (hwrap : L.length < 65535)
    (h8 : 8 ≤ newRecLen) (hkey : (if onlyKey then keyLenAt key 0 else newRecLen) ≤ newRecLen) :
    ∃ b' r, placeIntoNode t b key newRecLen p onlyKey = some (none, b') ∧
      PlacedRecord key newRecLen (if onlyKey then keyLenAt key 0 else newRecLen) r ∧
      Stores t slack b' (L.insertIdx p r) ∧
      b' = { b with freeSpace := b'.freeSpace, recsCount := b'.recsCount, mem := b'.mem } ∧
      cell t b'.mem p = cell t b.mem L.length ∧
      ∀ j < p, cell t b'.mem j = cell t b.mem j := by
  have hge := h.free_ge
  have hspace := b.freeSpace.toNat_lt
  have hoff : isOffsetCorrect t (cell t b.mem L.length) = true :=
    isOffsetCorrect_iff.mpr ⟨lt_of_lt_of_le (by decide) hge, h.free_lt⟩
  obtain ⟨r, hplaced, hbytes⟩ := exists_placed (m := b.mem) key
    (f := cell t b.mem L.length) h8 (by omega) hkey
  obtain rfl := hplaced.len
  obtain ⟨b', heq, hrep, hrest⟩ := h.enter (r := r) (c := storeLE (memcpy b.mem
      (cell t b.mem L.length) key (if onlyKey then keyLenAt key 0 else r.len))
      (cell t b.mem L.length + 6) 2 r.len) hp hfree hwrap
    (by
      intro a k hak
      rw [window_storeLE_of_disjoint (by omega)]
      exact window_store_of_disjoint (by rw [length_window]; omega))
    hbytes
  refine ⟨b', r, ?_, hplaced, hrep, hrest⟩
  rw [placeIntoNode]
  rw [if_neg (by simp only [sizeofOffset]; omega), h.count, offsetAddr_eq h.table_fits]
  exact (if_pos hoff).trans heq

/-! ### Deletion -/

theorem subU32_eq {x y : Nat} (hle : y ≤ x) (hlt : x < 2 ^ 32) : subU32 x y = x - y := by
  rw [subU32, show x + 2 ^ 32 - y = x - y + 2 ^ 32 by omega, add_mod_right]
  exact mod_eq_of_lt (by omega)

/-- An offset after the `k` bytes at `d` were taken out. -/
def lowered (d k c : Nat) : Nat := if d < c then c - k else c

/-- The memory of `u` differs from that of `b` in the first `n` cells only: cell `j` holds `c j`. -/
structure CellsAre (t : BtreeInfo) (b : Bnode) (n : Nat) (c : Nat → Nat) (u : Bnode) : Prop where
  same : u = { b with mem := u.mem }
  cells : ∀ j ≤ n, cell t u.mem j = c j
  below : ∀ a k, a + k ≤ t.nodeSizeBytes - 4 * (n + 2) → window u.mem a k = window b.mem a k

theorem CellsAre.set {c c' : Nat → Nat} {u : Bnode} (h : CellsAre t b n c u)
    (hfit : 4 * (n + 2) ≤ t.nodeSizeBytes) (hi : i ≤ n) (hpos : 0 < v) (hlt : v < t.nodeSizeBytes)
    (hself : c' i = v) (hne : ∀ j ≤ n, j ≠ i → c' j = c j) :
    ∃ w, checkSetOffset t u i v = some (none, w) ∧ CellsAre t b n c' w := by
  refine ⟨_, checkSetOffset_eq (by omega) hpos hlt, ?_, ?_, ?_⟩
  · rw [h.same]
  · intro j hj
    by_cases hji : j = i
    · subst hji
      rw [hself]
      exact cell_setCell hlt
    · rw [hne j hj hji, ← h.cells j hj]
      exact cell_setCell_of_ne (by omega) (by omega) hji
  · intro a k hak
    rw [← h.below a k hak]
    exact window_setCell (by omega)

/-- The first loop lowers every offset above the hole. -/
theorem lowerOffsets_spec {d k : Nat} (hn : b.recsCount.toNat = n)
    (hfit : 4 * (n + 2) ≤ t.nodeSizeBytes) (hd : 0 < d)
    (hcells : ∀ j < n, cell t b.mem j < t.nodeSizeBytes ∧
      (d < cell t b.mem j → d + k ≤ cell t b.mem j)) :
    ∃ u, lowerOffsets t b d k = some (none, u) ∧
      CellsAre t b n (fun j => if j < n then lowered d k (cell t b.mem j) else cell t b.mem j)
      u := by
  have hsize := t.nodeSize_le
  -- after `r` rounds the first `r` cells are lowered
  have hround : ∀ r u, 0 ≤ r → r < 0 + n →
      CellsAre t b n (fun j => if j < r then lowered d k (cell t b.mem j) else cell t b.mem j) u →
      ∃ w, lowerOffset t d k r u = some (none, w) ∧ CellsAre t b n
        (fun j => if j < r + 1 then lowered d k (cell t b.mem j) else cell t b.mem j) w := by
    intro r u _ hr hu
    obtain ⟨hlt, hhole⟩ := hcells r (by omega)
    have hcur : cell t u.mem r = cell t b.mem r := by
      rw [hu.cells r (by omega), if_neg (lt_irrefl r)]
    rw [lowerOffset, getOffset_eq (by omega)]
    dsimp only
    rw [hcur]
    split
    · rename_i habove
      have hle := hhole habove
      rw [subU32_eq (by omega) (by omega)]
      apply hu.set hfit (by omega) (by omega) (by omega)
      · rw [if_pos (lt_succ_self r), lowered, if_pos habove]
      · intro j _ hjr
        simp only [show j < r + 1 ↔ j < r by omega]
    · rename_i hbelow
      refine ⟨u, rfl, hu.same, ?_, hu.below⟩
      intro j hj
      rw [hu.cells j hj]
      by_cases hjr : j = r
      · subst hjr
        rw [if_neg (lt_irrefl j), if_pos (lt_succ_self j), lowered, if_neg hbelow]
      · simp only [show j < r + 1 ↔ j < r by omega]
  have hstart : CellsAre t b n
      (fun j => if j < 0 then lowered d k (cell t b.mem j) else cell t b.mem j) b :=
    ⟨rfl, fun j _ => by simp, fun _ _ _ => rfl⟩
  obtain ⟨u, hu, hend⟩ := countedLoop_of_step hstart hround
  rw [zero_add] at hend
  exact ⟨u, by rw [lowerOffsets, hn]; exact hu, hend⟩

/-- The second loop moves the cells above the deleted one. -/
theorem moveOffsets_spec (hn : b.recsCount.toNat = n) (hi : i < n)
    (hfit : 4 * (n + 2) ≤ t.nodeSizeBytes)
    (hcells : ∀ j ≤ n, 0 < cell t b.mem j ∧ cell t b.mem j < t.nodeSizeBytes) :
    ∃ u, moveOffsets t b i = some (none, u) ∧
      CellsAre t b n
        (fun j => if i ≤ j ∧ j < n then cell t b.mem (j + 1) else cell t b.mem j) u := by
  -- before round `r` the cells from `i` to `r - 1` hold the offsets of their successors
  have hround : ∀ r u, i ≤ r → r < i + (n - i) →
      CellsAre t b n
        (fun j => if i ≤ j ∧ j < r then cell t b.mem (j + 1) else cell t b.mem j) u →
      ∃ w, moveOffset t r u = some (none, w) ∧ CellsAre t b n
        (fun j => if i ≤ j ∧ j < r + 1 then cell t b.mem (j + 1) else cell t b.mem j) w := by
    intro r u hir hr hu
    have hnext : cell t u.mem (r + 1) = cell t b.mem (r + 1) := by
      rw [hu.cells (r + 1) (by omega), if_neg (by omega)]
    obtain ⟨hpos, hlt⟩ := hcells (r + 1) (by omega)
    rw [moveOffset, getOffset_eq (by omega)]
    rw [hnext]
    apply hu.set hfit (by omega) hpos hlt
    · rw [if_pos ⟨hir, lt_succ_self r⟩]
    · intro j _ hjr
      simp only [show j < r + 1 ↔ j < r by omega]
  have hstart : CellsAre t b n
      (fun j => if i ≤ j ∧ j < i then cell t b.mem (j + 1) else cell t b.mem j) b :=
    ⟨rfl, fun j _ => by rw [if_neg (by omega)], fun _ _ _ => rfl⟩
  obtain ⟨u, hu, hend⟩ := countedLoop_of_step hstart hround
  rw [show i + (n - i) = n by omega] at hend
  exact ⟨u, by rw [moveOffsets, hn]; exact hu, hend⟩

section erase

/-- The records around record `i`, in the order of their addresses. -/
theorem Stores.around (h : Stores t slack b L) (hi : i < L.length) :
    ∃ pre post, (pre ++ post).Perm ((layout t b.mem L).eraseIdx i) ∧
      Tiles sizeofDescr (pre ++ (cell t b.mem i, L[i].len) :: post) (cell t b.mem L.length) := by
  obtain ⟨ps, hperm, htiles⟩ := h.tiled
  have hi' : i < (layout t b.mem L).length := by simpa using hi
  have hcons : ((cell t b.mem i, L[i].len) :: (layout t b.mem L).eraseIdx i).Perm
      (layout t b.mem L) := by
    have := getElem_cons_eraseIdx_perm hi'
    rwa [getElem_layout] at this
  have hmem : (cell t b.mem i, L[i].len) ∈ ps :=
    hperm.mem_iff.mpr (hcons.mem_iff.mp mem_cons_self)
  obtain ⟨pre, post, rfl⟩ := append_of_mem hmem
  refine ⟨pre, post, ?_, htiles⟩
  exact (perm_cons _).mp (perm_middle.symm.trans (hperm.trans hcons.symm))

theorem layout_pos {q : Nat × Nat} (hq : q ∈ layout t m L) : 0 < q.2 := by
  obtain ⟨i, hi, rfl⟩ := mem_iff_getElem.mp hq
  rw [getElem_layout]
  exact Record.len_pos _

/-- Another record ends before record `i` or starts behind it. -/
theorem Stores.apart (h : Stores t slack b L) (hi : i < L.length) (hj : j < L.length)
    (hne : j ≠ i) : cell t b.mem j + L[j].len ≤ cell t b.mem i ∨
      cell t b.mem i + L[i].len ≤ cell t b.mem j := by
  obtain ⟨pre, post, hperm, htiles⟩ := h.around hi
  have hmem : (cell t b.mem j, L[j].len) ∈ (layout t b.mem L).eraseIdx i := by
    rw [mem_eraseIdx_iff_getElem]
    exact ⟨j, by simpa using hj, hne, by simp⟩
  obtain hpre | hpost := mem_append.mp (hperm.mem_iff.mpr hmem)
  · exact .inl (htiles.before hpre)
  · exact .inr (htiles.after hpost)

/-- Where record `j` of the shorter list was before. -/
def beforeErase (i j : Nat) : Nat := if j < i then j else j + 1

theorem getElem_eraseIdx_eq (hi : i < L.length) (hj : j < (L.eraseIdx i).length) :
    ∃ hlt : beforeErase i j < L.length, (L.eraseIdx i)[j] = L[beforeErase i j] := by
  have hlen := length_eraseIdx_of_lt hi
  have hlt : beforeErase i j < L.length := by
    rw [beforeErase]
    split <;> omega
  refine ⟨hlt, ?_⟩
  simp only [getElem_eraseIdx, beforeErase]
  split <;> rfl

/-- `get_record` finds record `i`. -/
theorem Stores.getRecord_eq (h : Stores t slack b L) (hi : i < L.length) :
    getRecord t b i = some (.ok (cell t b.mem i)) := by
  have hfit := h.table_fits
  obtain ⟨hge, hle⟩ := h.bounds hi
  have hlt := h.free_lt
  have hpos : 0 < sizeofDescr := by decide
  rw [getRecord, h.count, if_neg (by omega), getOffset_eq (by omega), Option.map_some,
    if_pos (isOffsetCorrect_iff.mpr ⟨by omega, by omega⟩)]

theorem Stores.count_pred (h : Stores t slack b L) (hi : i < L.length) :
    (b.recsCount - 1).toNat = L.length - 1 := by
  have hle : (1 : UInt16) ≤ b.recsCount := by
    rw [le_iff_toNat_le, h.count]
    exact succ_le_of_lt (zero_lt_of_lt hi)
  rw [UInt16.toNat_sub_of_le _ _ hle, h.count]
  rfl

/-- The bytes behind record `i` moved down over it. -/
def closedUp (t : BtreeInfo) (m : ByteMemory) (n i k : Nat) : ByteMemory :=
  memmove m (cell t m i) (cell t m i + k) (cell t m n - cell t m i - k)

/-- The cells lie between the descriptor and the free space. -/
theorem Stores.cell_bounds (h : Stores t slack b L) (hj : j ≤ L.length) :
    sizeofDescr ≤ cell t b.mem j ∧ cell t b.mem j ≤ cell t b.mem L.length := by
  obtain rfl | hj := eq_or_lt_of_le hj
  · exact ⟨h.free_ge, le_refl _⟩
  · have := h.bounds hj
    omega

section

variable (h : Stores t slack b L) (hi : i < L.length)

include h hi

/-- A cell above the hole is above all of it. -/
theorem Stores.above_hole (hj : j < L.length) (habove : cell t b.mem i < cell t b.mem j) :
    cell t b.mem i + L[i].len ≤ cell t b.mem j := by
  have hji : j ≠ i := by
    rintro rfl
    exact lt_irrefl _ habove
  have := h.apart hi hj hji
  omega

/-- Both loops of the deletion. -/
theorem Stores.eraseCells :
    ∃ u w, lowerOffsets t { b with mem := closedUp t b.mem L.length i L[i].len }
        (cell t b.mem i) L[i].len = some (none, u) ∧
      moveOffsets t u i = some (none, w) ∧ w = { b with mem := w.mem } ∧
      (∀ j, j + 1 < L.length →
        cell t w.mem j = lowered (cell t b.mem i) L[i].len (cell t b.mem (beforeErase i j))) ∧
      ∀ a k, a + k ≤ t.nodeSizeBytes - 4 * (L.length + 2) →
        window w.mem a k = window (closedUp t b.mem L.length i L[i].len) a k := by
  have hfit := h.table_fits
  have hgap := h.gap
  have hdescr : 0 < sizeofDescr := by decide
  obtain ⟨hd, hdle⟩ := h.bounds hi
  -- the bytes move below the table, so the cells stay
  have hcell : ∀ j ≤ L.length, cell t (closedUp t b.mem L.length i L[i].len) j = cell t b.mem j :=
    fun j hj => loadLE_memmove_of_disjoint (.inr (by omega))
  obtain ⟨u, hu, hlow⟩ := lowerOffsets_spec (t := t)
    (b := { b with mem := closedUp t b.mem L.length i L[i].len })
    (d := cell t b.mem i) (k := L[i].len) h.count hfit (by omega) (by
      intro j hj
      rw [hcell j (by omega)]
      have := h.cell_bounds (le_of_lt hj)
      exact ⟨by omega, h.above_hole hi hj⟩)
  have hlowered : ∀ j ≤ L.length, cell t u.mem j = if j < L.length then
      lowered (cell t b.mem i) L[i].len (cell t b.mem j) else cell t b.mem j := by
    intro j hj
    rw [hlow.cells j hj, hcell j hj]
  obtain ⟨w, hw, hmove⟩ := moveOffsets_spec (t := t) (b := u) (i := i) (n := L.length)
    (by rw [hlow.same]; exact h.count) hi hfit (by
      intro j hj
      have hb := h.cell_bounds hj
      rw [hlowered j hj]
      split
      · rename_i hj'
        rw [lowered]
        split
        · have := h.above_hole hi hj' ‹_›
          omega
        · omega
      · omega)
  refine ⟨u, w, hu, hw, by rw [hmove.same, hlow.same], ?_, ?_⟩
  · intro j hj
    rw [hmove.cells j (by omega), beforeErase]
    by_cases hji : j < i
    · rw [if_neg (by omega), hlowered j (by omega), if_pos (by omega), if_pos hji]
    · rw [if_pos (by omega), hlowered (j + 1) (by omega), if_pos hj, if_neg hji]
  · intro a k hak
    rw [hmove.below a k hak, hlow.below a k hak]

/-- `delete_from_node`, cell by cell. -/
theorem deleteFromNode_spec (hlen : L[i].len ≤ maxBtreeRecLen) :
    ∃ b', deleteFromNode t b i = some (none, b') ∧
      b' = { b with
        recsCount := b.recsCount - 1
        freeSpace := ofNat (b.freeSpace.toNat + L[i].len + sizeofOffset)
        mem := b'.mem } ∧
      (∀ j, j + 1 < L.length → cell t b'.mem j =
        lowered (cell t b.mem i) L[i].len (cell t b.mem (beforeErase i j))) ∧
      cell t b'.mem (L.length - 1) = cell t b.mem L.length - L[i].len ∧
      ∀ a k, a + k ≤ t.nodeSizeBytes - 4 * (L.length + 2) →
        window b'.mem a k = window (closedUp t b.mem L.length i L[i].len) a k := by
  have hfit := h.table_fits
  have hsize := t.nodeSize_le
  have hdescr : 0 < sizeofDescr := by decide
  have hlt := h.free_lt
  obtain ⟨hd, hdle⟩ := h.bounds hi
  obtain ⟨u, w, hu, hw, hsame, hcells, hbelow⟩ := h.eraseCells hi
  have hcount : (w.recsCount - 1).toNat = L.length - 1 := by
    rw [hsame]
    exact h.count_pred hi
  have hmoved : subU32 (subU32 (cell t b.mem L.length) (cell t b.mem i)) L[i].len =
      cell t b.mem L.length - cell t b.mem i - L[i].len := by
    rw [subU32_eq (x := cell t b.mem L.length) (by omega) (by omega),
      subU32_eq (by omega) (by omega)]
  have hoff : (!isOffsetCorrect t (cell t b.mem L.length) ||
      !isOffsetCorrect t (cell t b.mem i)) = false := by
    rw [isOffsetCorrect_iff.mpr ⟨by omega, by omega⟩, isOffsetCorrect_iff.mpr ⟨by omega, by omega⟩]
    rfl
  refine ⟨{ b with
    recsCount := b.recsCount - 1
    freeSpace := ofNat (b.freeSpace.toNat + L[i].len + sizeofOffset)
    mem := setCell t w.mem (L.length - 1) (cell t b.mem L.length - L[i].len) },
    ?_, rfl, ?_, cell_setCell (by omega), ?_⟩
  · rw [closedUp] at hu
    rw [deleteFromNode, h.getRecord_eq hi]
    dsimp only
    rw [h.recordLenAt_eq hi, h.count, getOffset_eq hfit, getOffset_eq (by omega)]
    dsimp only
    rw [hoff, if_neg Bool.false_ne_true, if_neg (not_lt.mpr hlen), hmoved, hu]
    dsimp only
    rw [hw]
    dsimp only
    rw [hcount, subU32_eq (by omega) (by omega), checkSetOffset_eq (by omega) (by omega) (by omega),
      hsame]
  · intro j hj
    rw [← hcells j hj]
    exact cell_setCell_of_ne (by omega) (by omega) (by omega)
  · intro a k hak
    rw [← hbelow a k hak]
    exact window_setCell (by omega)

end

/-- The layout after the deletion. -/
theorem layout_eraseIdx (hi : i < L.length)
    (hcells : ∀ j, j + 1 < L.length → cell t m' j = lowered (cell t m i) L[i].len
      (cell t m (beforeErase i j))) :
    layout t m' (L.eraseIdx i) =
      ((layout t m L).eraseIdx i).map (Tiles.closeGap (cell t m i, L[i].len)) := by
  have hlen := length_eraseIdx_of_lt hi
  apply ext_getElem
  · simp [length_eraseIdx_of_lt, hi]
  intro j hj _
  rw [length_layout] at hj
  obtain ⟨hlt, hget⟩ := getElem_eraseIdx_eq hi hj
  have hold : ∀ hb : j < ((layout t m L).eraseIdx i).length, ((layout t m L).eraseIdx i)[j] =
      (cell t m (beforeErase i j), L[beforeErase i j].len) := by
    intro hb
    simp only [getElem_eraseIdx, beforeErase, getElem_layout, get_eq_getElem]
    split <;> rfl
  rw [getElem_layout, getElem_map, hold, Tiles.closeGap, hcells j (by omega), lowered]
  simp only [get_eq_getElem, hget]
  split <;> rfl

/-- A bnode from which a record was deleted. -/
theorem Stores.erased (h : Stores t slack b L) (hi : i < L.length)
    (hcount : b'.recsCount.toNat = L.length - 1)
    (hspace : b'.freeSpace.toNat = b.freeSpace.toNat + L[i].len + 4)
    (hcells : ∀ j, j + 1 < L.length → cell t b'.mem j = lowered (cell t b.mem i) L[i].len
      (cell t b.mem (beforeErase i j)))
    (hlast : cell t b'.mem (L.length - 1) = cell t b.mem L.length - L[i].len)
    (hbelow : ∀ a k, a + k ≤ t.nodeSizeBytes - 4 * (L.length + 2) → window b'.mem a k = window
      (closedUp t b.mem L.length i L[i].len) a k) :
    Stores t slack b' (L.eraseIdx i) := by
  have hlen := length_eraseIdx_of_lt hi
  have hgap := h.gap
  obtain ⟨hd, hdle⟩ := h.bounds hi
  refine ⟨by rw [hcount, hlen], ?_, ?_, ?_⟩
  · intro j hj
    obtain ⟨hlt, hget⟩ := getElem_eraseIdx_eq hi hj
    have hne : beforeErase i j ≠ i := by
      rw [beforeErase]
      split <;> omega
    have hends := (h.bounds hlt).2
    rw [hget, hcells j (by omega), ← h.shows _ hlt, lowered]
    obtain hfront | hback := h.apart hi hlt hne
    · -- a record before the hole stays
      have := (L[beforeErase i j]).len_pos
      rw [if_neg (by omega), hbelow _ _ (by omega)]
      exact window_memmove_of_disjoint (.inl hfront)
    -- a record behind it was moved
    have := L[i].len_pos
    rw [if_pos (by omega), hbelow _ _ (by omega), closedUp,
      show cell t b.mem (beforeErase i j) - L[i].len =
        cell t b.mem i + (cell t b.mem (beforeErase i j) - cell t b.mem i - L[i].len) by omega,
      window_memmove_inside (by omega)]
    congr 1
    omega
  · obtain ⟨pre, post, hperm, htiles⟩ := h.around hi
    refine ⟨(pre ++ post).map (Tiles.closeGap (cell t b.mem i, L[i].len)), ?_, ?_⟩
    · rw [layout_eraseIdx hi hcells]
      exact hperm.map _
    · rw [hlen, hlast]
      apply htiles.remove _ L[i].len_pos
      intro q hq
      have hmem := hperm.mem_iff.mp (mem_append_left post hq)
      exact layout_pos (mem_of_mem_eraseIdx hmem)
  · rw [hlen, hlast, hspace]
    omega

/-- A record that is too long is never deleted. -/
theorem Stores.delete_long (h : Stores t slack b L) (hi : i < L.length)
    (hlong : maxBtreeRecLen < L[i].len) (b' : Bnode) :
    deleteFromNode t b i ≠ some (none, b') := by
  have hfit := h.table_fits
  have hdescr : 0 < sizeofDescr := by decide
  have hlt := h.free_lt
  obtain ⟨hd, hdle⟩ := h.bounds hi
  rw [deleteFromNode, h.getRecord_eq hi]
  dsimp only
  rw [h.recordLenAt_eq hi, h.count, getOffset_eq hfit, getOffset_eq (by omega)]
  dsimp only
  rw [isOffsetCorrect_iff.mpr ⟨by omega, by omega⟩, isOffsetCorrect_iff.mpr ⟨by omega, by omega⟩,
    if_neg (by decide), if_pos hlong, bugOnceMounted]
  split <;> simp

/-- `delete_from_node` deletes the record, unless the record is longer than any record may be or
the free space of the shorter list does not fit into 16 bits. -/
theorem Represents.erase_iff (h : Represents t b L) (hi : i < L.length) :
    (∃ b', deleteFromNode t b i = some (none, b') ∧ Represents t b' (L.eraseIdx i)) ↔
      L[i].len ≤ maxBtreeRecLen ∧ b.freeSpace.toNat + L[i].len + 4 < 65536 := by
  have hgap := h.gap
  obtain ⟨_, hdle⟩ := h.bounds hi
  constructor
  · rintro ⟨b', hdel, hrep⟩
    have hlen : L[i].len ≤ maxBtreeRecLen := by
      by_contra hlong
      exact h.delete_long hi (Nat.lt_of_not_le hlong) b' hdel
    obtain ⟨b'', hdel', _, _, hlast, _⟩ := deleteFromNode_spec h hi hlen
    obtain rfl : b' = b'' := by
      rw [hdel] at hdel'
      exact (Prod.mk.inj (Option.some.inj hdel')).2
    have hgap' := hrep.gap
    have hspace := b'.freeSpace.toNat_lt
    rw [length_eraseIdx_of_lt hi, hlast] at hgap'
    exact ⟨hlen, by omega⟩
  · rintro ⟨hlen, hspace⟩
    obtain ⟨b', hdel, hsame, hcells, hlast, hbelow⟩ := deleteFromNode_spec h hi hlen
    refine ⟨b', hdel, h.erased hi ?_ ?_ hcells hlast hbelow⟩
    · rw [hsame]
      exact h.count_pred hi
    · rw [hsame]
      exact toNat_ofNat_of_lt' hspace

end erase

end Vdfs4
