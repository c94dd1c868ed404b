import Vdfs4.Mkfs.CompressFile

/-!
# What compressing a file writes

The loops of `compress_file` in **closed form**. Every chunk is a record of the temporary files
and of the image: the chunks an order of the threads leaves in a temporary file lie there without
gaps, and the image holds the uncompressed chunks in the order of the file, then the compressed
ones in the order of the threads.

* `CompressParams.stored`, `CompressParams.record` — the bytes of a chunk that its entry names,
  and those that are written.
* `tmpRule`, `imageRule` — how the records follow each other.
* `ThreadsDone`, `compressThreads_spec` — after the threads, **in any order**.
* `writeUncompressed_spec`, `writeCompressed_spec` — after the copy loops.
-/

namespace Vdfs4.Mkfs

open Appending CompressParams List Nat

namespace CompressParams

variable (p : CompressParams) {i k : Nat} {done rest : List Nat} {w : Written} {out : List UInt8}

/-! ### The chunks as records -/

/-- What the compressor made of a chunk. -/
def outcome (i : Nat) : List UInt8 :=
  match p.compressor i with
  | .ok out => out
  | .error _ => []

/-- The chunk is left uncompressed. -/
def isUncompr (i : Nat) : Bool := (p.compressChunk (p.chunkIn i).length (p.outcome i)).isNone

/-- The bytes of a chunk that its entry names. -/
def stored (i : Nat) : List UInt8 :=
  match p.compressChunk (p.chunkIn i).length (p.outcome i) with
  | none => p.encrypted i (p.chunkIn i)
  | some lenBytes =>
    p.encrypted i (p.outcome i ++ List.replicate (lenBytes - (p.outcome i).length) 0)

/-- The bytes of a chunk that are written: an uncompressed one is filled up to its alignment. -/
def record (i : Nat) : List UInt8 :=
  if p.isUncompr i then
    p.stored i ++ p.tail (alignUp (p.stored i).length p.chunkAlign - (p.stored i).length)
  else p.stored i

/-- The flags of a chunk. -/
def chunkFlags (i : Nat) : Nat := p.entryFlags + if p.isUncompr i then chunkFlagUncompr else 0

/-- A temporary file: the records without gaps. -/
def tmpRule : Rule Nat UInt8 := ⟨fun _ _ => 0, p.record, 0⟩

/-- The image: zeros in front of some compressed chunks. -/
def imageRule : Rule Nat UInt8 where
  gap off i := if p.isUncompr i then 0 else zeroArea p off (p.stored i).length
  record := p.record
  fill := 0

/-- The chunks of a temporary file: the uncompressed ones or the others. -/
def ofKind (b : Bool) (l : List Nat) : List Nat := l.filter fun i => p.isUncompr i == b

variable {p}

/-- The chunks of one kind around a chunk of this kind. -/
theorem ofKind_split {b : Bool} (h : p.isUncompr i = b) (before after : List Nat) :
    p.ofKind b (before ++ i :: after) = p.ofKind b before ++ i :: p.ofKind b after := by
  rw [ofKind, filter_append, filter_cons_of_pos (by simp [h])]
  rfl

@[simp] theorem length_encrypted (i : Nat) (l : List UInt8) :
    (p.encrypted i l).length = l.length := by
  rw [encrypted]
  split
  · exact p.length_encryptChunk i l
  · rfl

@[simp] theorem length_tail (n : Nat) : (p.tail n).length = n := by
  rw [tail]
  split <;> simp

theorem le_alignUp (x align : Nat) : x ≤ alignUp x align := by
  rw [alignUp]
  split
  · exact le_rfl
  · next h =>
    have hmod := div_add_mod (x + align - 1) align
    have hlt := mod_lt (x + align - 1) (pos_of_ne_zero h)
    rw [mul_comm] at hmod
    omega

/-- The length of an aligned number is at most that of any aligned bound. -/
theorem alignUp_le {x align bound : Nat} (h : x ≤ bound) (hdvd : align = 0 ∨ align ∣ bound) :
    alignUp x align ≤ bound := by
  rw [alignUp]
  split
  · exact h
  next hne =>
  obtain ⟨k, rfl⟩ := hdvd.resolve_left hne
  have hk : (x + align - 1) / align ≤ k := by
    rw [div_le_iff_le_mul_add_pred (pos_of_ne_zero hne)]
    omega
  rw [mul_comm]
  exact mul_le_mul_left _ hk

/-- The entry of a compressed chunk has the length of its stored bytes. -/
theorem stored_of_some {lenBytes : Nat}
    (h : p.compressChunk (p.chunkIn i).length (p.outcome i) = some lenBytes) :
    p.stored i = p.encrypted i (p.outcome i ++ replicate (lenBytes - (p.outcome i).length) 0) ∧
      (p.stored i).length = lenBytes ∧ lenBytes = alignUp (p.outcome i).length p.chunkAlign := by
  have hstored : p.stored i =
      p.encrypted i (p.outcome i ++ replicate (lenBytes - (p.outcome i).length) 0) := by
    rw [stored, h]
  have hlen : lenBytes = alignUp (p.outcome i).length p.chunkAlign := by
    simp only [compressChunk] at h
    split at h
    · cases h
    · split at h
      · cases h
      · exact (Option.some.inj h).symm
  refine ⟨hstored, ?_, hlen⟩
  have hle := le_alignUp (p.outcome i).length p.chunkAlign
  rw [hstored, length_encrypted, length_append, length_replicate]
  omega

/-- The length of an uncompressed record. -/
theorem length_record_of_isUncompr (h : p.isUncompr i = true) :
    (p.record i).length = alignUp (p.stored i).length p.chunkAlign := by
  have hle := le_alignUp (p.stored i).length p.chunkAlign
  rw [record, if_pos h, length_append, length_tail]
  omega

theorem record_of_not_isUncompr (h : p.isUncompr i = false) : p.record i = p.stored i := by
  rw [record, if_neg (by rw [h]; exact Bool.false_ne_true)]

/-- The stored bytes lead the written ones. -/
theorem take_record (i : Nat) : (p.record i).take (p.stored i).length = p.stored i := by
  rw [record]
  split
  · exact take_left
  · exact take_length

end CompressParams

/-! ### The threads -/

section Threads

variable {env : CompEnv} {p : CompressParams}

/-- The temporary file of the uncompressed chunks or of the others. -/
def ThreadFiles.tmp (s : ThreadFiles) (b : Bool) : List UInt8 :=
    if b then s.tmpUncompr else s.tmpCompr

/-- What the threads have left when the chunks `done` are finished, in this order. -/
structure ThreadsDone (env : CompEnv) (p : CompressParams) (done : List Nat) (s : ThreadFiles) :
    Prop where
  tmp : ∀ b, s.tmp b = p.tmpRule.appendAll [] (p.ofKind b done)
  entry : ∀ before i after, done = before ++ i :: after →
    s.extTable i = ⟨comprExtMagic, p.chunkFlags i, (p.stored i).length,
      p.tmpRule.start (p.ofKind (p.isUncompr i) before) i⟩
  hash : ∀ i ∈ done, s.hashTable i = env.hashFn p.hashType (p.stored i)
  size : s.newFileSize = (done.map fun i => (p.record i).length).sum

/-- What one thread does, in terms of the records. -/
theorem compressChunkThread_eq {s : ThreadFiles} (h : p.compressor i = .ok out) :
    ∃ s', compressChunkThread env p s i = .ok s' ∧
      (∀ b, s'.tmp b = if p.isUncompr i == b then s.tmp b ++ p.record i else s.tmp b) ∧
      s'.extTable = Function.update s.extTable i
        ⟨comprExtMagic, p.chunkFlags i, (p.stored i).length, (s.tmp (p.isUncompr i)).length⟩ ∧
      s'.hashTable = Function.update s.hashTable i (env.hashFn p.hashType (p.stored i)) ∧
      s'.newFileSize = s.newFileSize + (p.record i).length := by
  have hout : p.outcome i = out := by rw [outcome, h]
  cases hc : p.compressChunk (p.chunkIn i).length out with
  | none =>
    have hu : p.isUncompr i = true := by rw [isUncompr, hout, hc]; rfl
    have hs : p.stored i = p.encrypted i (p.chunkIn i) := by
      rw [stored, hout, hc]
    have hlen : (p.stored i).length = (p.chunkIn i).length := by
      rw [hs, length_encrypted]
    have hr : p.record i = p.encrypted i (p.chunkIn i) ++
        p.tail (alignUp (p.chunkIn i).length p.chunkAlign - (p.chunkIn i).length) := by
      rw [record, if_pos hu, hlen, hs]
    refine ⟨_, by rw [compressChunkThread, h]; dsimp only; rw [hc], ?_, ?_, ?_, ?_⟩
    · intro b
      cases b <;> simp [ThreadFiles.tmp, hu, hr]
    · simp only [chunkFlags, hu, if_pos, hlen]
      rfl
    · rw [hs]
    · rw [hr]
  | some lenBytes =>
    have hu : p.isUncompr i = false := by rw [isUncompr, hout, hc]; rfl
    obtain ⟨hs, hlen, -⟩ := stored_of_some (hout ▸ hc)
    rw [hout] at hs
    refine ⟨_, by rw [compressChunkThread, h]; dsimp only; rw [hc], ?_, ?_, ?_, ?_⟩
    · intro b
      cases b <;> simp [ThreadFiles.tmp, hu, record_of_not_isUncompr hu, hs]
    · simp only [chunkFlags, hu, hlen]
      rfl
    · rw [hs]
    · rw [record_of_not_isUncompr hu, hs]

theorem ThreadsDone.step {s : ThreadFiles} (hd : ThreadsDone env p done s) (hi : i ∉ done)
    (h : p.compressor i = .ok out) :
    ∃ s', compressChunkThread env p s i = .ok s' ∧ ThreadsDone env p (done ++ [i]) s' := by
  obtain ⟨s', hs', htmp, htable, hhash, hsize⟩ :
      ∃ s', compressChunkThread env p s i = .ok s' ∧ _ := compressChunkThread_eq h
  refine ⟨s', hs', ?_, ?_, ?_, ?_⟩
  · intro b
    rw [htmp, hd.tmp b, ofKind, ofKind, filter_append]
    split
    · next hb =>
      rw [filter_cons_of_pos (by exact hb), filter_nil, Rule.appendAll_snoc]
      simp [Rule.append, tmpRule]
    · next hb => rw [filter_cons_of_neg (by exact hb), filter_nil, append_nil]
  · intro before j after hsplit
    rw [htable]
    obtain ⟨-, rfl, rfl⟩ | ⟨after', -, rfl⟩ := snoc_split hsplit
    · -- the new chunk stands at the end of its temporary file
      rw [Function.update_self, hd.tmp]
      rfl
    · have hne : j ≠ i := by
        rintro rfl
        exact hi (by simp)
      rw [Function.update_of_ne hne, hd.entry before j after' rfl]
  · intro j hj
    rw [hhash]
    obtain hmem | hlast := mem_append.mp hj
    · have hne : j ≠ i := by
        rintro rfl
        exact hi hmem
      rw [Function.update_of_ne hne, hd.hash j hmem]
    · rw [mem_singleton.mp hlast, Function.update_self]
  · rw [hsize, hd.size, map_append, List.sum_append]
    simp

theorem ThreadsDone.run {s : ThreadFiles} (hd : ThreadsDone env p done s)
    (hnodup : (done ++ rest).Nodup) (h : ∀ i ∈ rest, ∃ out, p.compressor i = .ok out) :
    ∃ s', rest.foldlM (compressChunkThread env p) s = .ok s' ∧ ThreadsDone env p
    (done ++ rest) s' := by
  induction rest generalizing done s with
  | nil => exact ⟨s, rfl, by rwa [append_nil]⟩
  | cons i rest ih =>
    obtain ⟨out, hout⟩ := h i mem_cons_self
    have hi : i ∉ done := by
      intro hmem
      exact (nodup_append.mp hnodup).2.2 i hmem i mem_cons_self rfl
    obtain ⟨s', hs', hd'⟩ := hd.step hi hout
    rw [append_cons] at hnodup ⊢
    obtain ⟨s'', hs'', hd''⟩ := ih hd' hnodup fun j hj => h j (mem_cons_of_mem _ hj)
    exact ⟨s'', by rw [foldlM_cons, hs']; exact hs'', hd''⟩

/-- **The threads, in any order.** -/
theorem compressThreads_spec {order : List Nat} (hnodup : order.Nodup)
    (h : ∀ i ∈ order, ∃ out, p.compressor i = .ok out) :
    ∃ s, compressThreads env p order = .ok s ∧ ThreadsDone env p order s := by
  have hstart : ThreadsDone env p [] ⟨[], [], fun _ => ⟨0, 0, 0, 0⟩, fun _ => [], 0⟩ := by
    refine ⟨fun b => ?_, fun before i after hsplit => ?_, fun i hi => ?_, rfl⟩
    · cases b <;> rfl
    · cases before <;> cases hsplit
    · cases hi
  exact hstart.run hnodup h

/-- The entry of a chunk after the threads. -/
theorem ThreadsDone.exists_entry {order : List Nat} {s : ThreadFiles}
    (hd : ThreadsDone env p order s) (hi : i ∈ order) :
    ∃ before after, order = before ++ i :: after ∧
      s.extTable i = ⟨comprExtMagic, p.chunkFlags i, (p.stored i).length,
        p.tmpRule.start (p.ofKind (p.isUncompr i) before) i⟩ := by
  obtain ⟨before, after, hsplit⟩ := append_of_mem hi
  exact ⟨before, after, hsplit, hd.entry before i after hsplit⟩

/-- The flag of an entry is that of its chunk. -/
theorem uncompressed_eq {e : CompExtent} (h : e.flags = p.chunkFlags i) :
    uncompressed e = p.isUncompr i := by
  rw [uncompressed, h, chunkFlags, entryFlags]
  cases p.doEncrypt <;> cases p.isUncompr i <;> rfl

end Threads

/-! ### The uncompressed chunks -/

section Uncompressed

variable {env : CompEnv} {p : CompressParams} {order : List Nat} {s : ThreadFiles}

/-- The uncompressed chunks in front of chunk `k`. -/
def CompressParams.uncomprBefore (p : CompressParams) (k : Nat) : List Nat :=
  p.ofKind true (List.range k)

/-- The first copy loop has reached chunk `k`. -/
structure UncomprDone (p : CompressParams) (s : ThreadFiles) (k : Nat) (w : Written) : Prop where
  data : w.data = p.imageRule.appendAll [] (p.uncomprBefore k)
  table : ∀ i, w.extTable i =
    if i < k ∧ p.isUncompr i = true then
      startAt (s.extTable i) (p.imageRule.start (p.uncomprBefore i) i)
    else s.extTable i
  size : w.newFileSize = s.newFileSize

section

variable (hd : ThreadsDone env p order s)

include hd

/-- What an uncompressed chunk's range in the temporary file holds. -/
theorem ThreadsDone.slice (hi : i ∈ order) {b : Bool} (hb : p.isUncompr i = b) :
    ((s.tmp b).drop (s.extTable i).start).take (p.record i).length = p.record i := by
  obtain ⟨before, after, rfl, hentry⟩ := hd.exists_entry hi
  rw [hd.tmp b, hentry, hb, ofKind_split hb]
  exact p.tmpRule.slice_start _ _ i

/-- One chunk of the first copy loop. -/
theorem UncomprDone.step (hk : k ∈ order) (hw : UncomprDone p s k w) :
    ∃ w', writeUncompressedChunk p s.tmpUncompr w k = .ok w' ∧ UncomprDone p s (k + 1) w' := by
  obtain ⟨before, after, -, hentry⟩ := hd.exists_entry hk
  have hold : w.extTable k = s.extTable k := by
    rw [hw.table, if_neg (by omega)]
  have hflag : uncompressed (w.extTable k) = p.isUncompr k := by
    rw [hold]
    exact Mkfs.uncompressed_eq (by rw [hentry])
  have hrange : p.uncomprBefore (k + 1) =
      if p.isUncompr k then p.uncomprBefore k ++ [k] else p.uncomprBefore k := by
    rw [uncomprBefore, ofKind, range_succ, filter_append]
    cases hu : p.isUncompr k <;> simp [uncomprBefore, ofKind, hu]
  by_cases hu : p.isUncompr k = true
  · have hlen : alignUp (w.extTable k).lenBytes p.chunkAlign = (p.record k).length := by
      rw [hold, hentry, length_record_of_isUncompr hu]
    have hslice : (s.tmpUncompr.drop (w.extTable k).start).take (p.record k).length =
      p.record k := by
      rw [hold]
      exact hd.slice hk hu
    refine ⟨w.place k 0 (p.record k), ?_, ?_, ?_, ?_⟩
    · rw [writeUncompressedChunk, if_pos (hflag.trans hu)]
      dsimp only
      rw [hlen, hslice, if_neg (not_not.mpr rfl)]
    · rw [hrange, if_pos hu, Rule.appendAll_snoc, ← hw.data, Rule.append, Written.place]
      simp [imageRule, hu]
    · intro i
      obtain rfl | hne := eq_or_ne i k
      · rw [Written.place_extTable_self, if_pos ⟨lt_succ_self _, hu⟩, hold, hw.data, Rule.start]
        simp [imageRule, hu]
      · rw [Written.place_extTable_of_ne _ hne, hw.table]
        congr 1
        rw [Nat.lt_succ_iff_lt_or_eq]
        simp [hne]
    · exact hw.size
  · refine ⟨w, ?_, ?_, ?_, hw.size⟩
    · rw [writeUncompressedChunk, if_neg (by rw [hflag]; exact hu)]
    · rw [hrange, if_neg hu, hw.data]
    · intro i
      obtain rfl | hne := eq_or_ne i k
      · rw [hold, if_neg (fun h => hu h.2)]
      · rw [hw.table]
        congr 1
        rw [Nat.lt_succ_iff_lt_or_eq]
        simp [hne]

/-- The loop leaves the flags of the entries alone. -/
theorem UncomprDone.uncompressed_eq (hw : UncomprDone p s k w) (hi : i ∈ order) :
    uncompressed (w.extTable i) = p.isUncompr i := by
  obtain ⟨_, _, -, hentry⟩ := hd.exists_entry hi
  apply Mkfs.uncompressed_eq
  rw [hw.table]
  split
  · rw [hentry]
    rfl
  · rw [hentry]

/-- **The first copy loop.** -/
theorem writeUncompressed_spec (hall : ∀ i < p.chunks, i ∈ order) :
    ∃ w, writeUncompressed p s.tmpUncompr ⟨[], s.extTable, s.newFileSize⟩ = .ok w ∧
      UncomprDone p s p.chunks w := by
  have hrun : ∀ k ≤ p.chunks, ∃ w,
      (range k).foldlM (writeUncompressedChunk p s.tmpUncompr)
        ⟨[], s.extTable, s.newFileSize⟩ = .ok w ∧ UncomprDone p s k w := by
    intro k
    induction k with
    | zero =>
      intro _
      refine ⟨_, rfl, rfl, fun i => ?_, rfl⟩
      rw [if_neg (by omega)]
    | succ k ih =>
      intro hk
      obtain ⟨w, hw, hdone⟩ := ih (by omega)
      obtain ⟨w', hw', hdone'⟩ := hdone.step hd (hall k (by omega))
      refine ⟨w', ?_, hdone'⟩
      rw [range_succ, foldlM_append, hw]
      change (writeUncompressedChunk p s.tmpUncompr w k >>= pure) = _
      rw [hw']
      rfl
  exact hrun p.chunks le_rfl

end

end Uncompressed

/-! ### The compressed chunks -/

section Compressed

variable {env : CompEnv} {p : CompressParams} {order : List Nat} {s : ThreadFiles} {w₁ : Written}

/-- A compressed chunk is stored in at least one byte and at most a chunk. -/
def CompressParams.ComprFits (p : CompressParams) (i : Nat) : Prop :=
  0 < (p.stored i).length ∧ (p.stored i).length ≤ p.chunkSize

/-- Where a compressed chunk starts in its temporary file. -/
theorem ThreadsDone.start_eq (hd : ThreadsDone env p order s) (hnodup : order.Nodup)
    {before after : List Nat} (h : p.ofKind false order = before ++ i :: after) :
    i ∈ order ∧ p.isUncompr i = false ∧
      s.extTable i = ⟨comprExtMagic, p.chunkFlags i, (p.stored i).length,
        (p.tmpRule.appendAll [] before).length⟩ := by
  have hmem : i ∈ p.ofKind false order := by simp [h]
  obtain ⟨hi, hkind⟩ := mem_filter.mp hmem
  have hu : p.isUncompr i = false := by simpa using hkind
  obtain ⟨before', after', hsplit, hentry⟩ := hd.exists_entry hi
  have hC : p.ofKind false order = p.ofKind false before' ++ i :: p.ofKind false after' := by
    rw [hsplit, ofKind_split hu]
  have hbefore : before = p.ofKind false before' := before_unique (hnodup.filter _) h hC
  refine ⟨hi, hu, ?_⟩
  rw [hentry, hu, hbefore]
  rfl

/-- The second copy loop finds the chunks in the order of the temporary file. -/
theorem getCompExtentStartingAt_eq (hd : ThreadsDone env p order s) (hnodup : order.Nodup)
    (hall : ∀ i, i ∈ order ↔ i < p.chunks)
    (hfits : ∀ i ∈ order, p.isUncompr i = false → p.ComprFits i) (hw : UncomprDone p s p.chunks w₁)
    {x : Nat} (h : p.ofKind false order = done ++ x :: rest) :
    getCompExtentStartingAt w₁.extTable p.chunks (p.tmpRule.appendAll [] done).length = some x := by
  obtain ⟨hx, hxu, hxe⟩ := hd.start_eq hnodup h
  have hstart : ∀ before i, p.tmpRule.start before i = (p.tmpRule.appendAll [] before).length :=
    fun _ _ => rfl
  -- the first copy loop left the entries of these chunks alone
  have hkept : ∀ i, p.isUncompr i = false → w₁.extTable i = s.extTable i := by
    intro i hi
    rw [hw.table, if_neg (fun hc => by simp [hi] at hc)]
  -- two chunks of the temporary file start at different places
  have honly : ∀ i ∈ p.ofKind false order,
      (s.extTable i).start = (p.tmpRule.appendAll [] done).length → i = x := by
    intro i hi hs
    have hlen : ∀ j ∈ p.ofKind false order, 0 < (p.tmpRule.record j).length := by
      intro j hj
      obtain ⟨hmem, hkind⟩ := mem_filter.mp hj
      have hu : p.isUncompr j = false := by simpa using hkind
      change 0 < (p.record j).length
      rw [record_of_not_isUncompr hu]
      exact (hfits j hmem hu).1
    rw [h] at hi
    obtain hi | rfl | hi := by simpa using hi
    · obtain ⟨d1, d2, rfl⟩ := append_of_mem hi
      have hsplit : p.ofKind false order = d1 ++ i :: (d2 ++ x :: rest) := by
        rw [h, append_assoc, cons_append]
      have hafter := p.tmpRule.start_after d1 d2 i x
      have hpos := hlen i (by rw [hsplit]; simp)
      rw [(hd.start_eq hnodup hsplit).2.2] at hs
      rw [hstart, hstart] at hafter
      dsimp only at hs
      omega
    · rfl
    · obtain ⟨r1, r2, rfl⟩ := append_of_mem hi
      have hsplit : p.ofKind false order = (done ++ x :: r1) ++ i :: r2 := by
        rw [h, append_assoc, cons_append]
      have hafter := p.tmpRule.start_after done r1 x i
      have hpos := hlen x (by rw [h]; simp)
      rw [(hd.start_eq hnodup hsplit).2.2] at hs
      rw [hstart, hstart] at hafter
      dsimp only at hs
      omega
  have hflag : ∀ i ∈ order, uncompressed (w₁.extTable i) = p.isUncompr i :=
    fun i hi => hw.uncompressed_eq hd hi
  have hfound : ∀ i ∈ range p.chunks, (!uncompressed (w₁.extTable i) &&
      (w₁.extTable i).start == (p.tmpRule.appendAll [] done).length) = true → i = x := by
    intro i hi hpred
    have hmem : i ∈ order := (hall i).mpr (mem_range.mp hi)
    rw [Bool.and_eq_true, hflag i hmem, beq_iff_eq] at hpred
    have hu : p.isUncompr i = false := by simpa using hpred.1
    rw [hkept i hu] at hpred
    exact honly i (mem_filter.mpr ⟨hmem, by simp [hu]⟩) hpred.2
  have hself : (!uncompressed (w₁.extTable x) &&
      (w₁.extTable x).start == (p.tmpRule.appendAll [] done).length) = true := by
    rw [hflag x hx, hkept x hxu, hxe, hxu]
    simp
  rw [getCompExtentStartingAt]
  cases hfind : (range p.chunks).find? fun i => !uncompressed (w₁.extTable i) &&
      (w₁.extTable i).start == (p.tmpRule.appendAll [] done).length with
  | none => exact absurd hself (find?_eq_none.mp hfind x (mem_range.mpr ((hall x).mp hx)))
  | some y =>
    have hpred := find?_some hfind
    rw [hfound y (mem_of_find?_eq_some hfind) hpred]

/-- The second copy loop has written the chunks `done` and will write the chunks `rest`. -/
structure ComprDone (p : CompressParams) (s : ThreadFiles) (w₁ : Written) (done rest : List Nat)
    (w : Written) : Prop where
  data : w.data = p.imageRule.appendAll [] (p.uncomprBefore p.chunks ++ done)
  kept : ∀ i, i ∉ done → w.extTable i = w₁.extTable i
  placed : ∀ before i after, done = before ++ i :: after → w.extTable i =
    startAt (s.extTable i) (p.imageRule.start (p.uncomprBefore p.chunks ++ before) i)
  size : w.newFileSize = w.data.length + (rest.map fun i => (p.record i).length).sum

/-- **The second copy loop.** -/
theorem writeCompressed_spec (hd : ThreadsDone env p order s) (hnodup : order.Nodup)
    (hall : ∀ i, i ∈ order ↔ i < p.chunks)
    (hfits : ∀ i ∈ order, p.isUncompr i = false → p.ComprFits i) (hw : UncomprDone p s p.chunks w₁)
    (h : p.ofKind false order = done ++ rest) (hdone : ComprDone p s w₁ done rest w) :
    ∃ w', writeCompressed p s.tmpCompr w₁.extTable rest.length
        (p.tmpRule.appendAll [] done).length w = .ok w' ∧
        ComprDone p s w₁ (done ++ rest) [] w' := by
  induction rest generalizing done w with
  | nil => exact ⟨w, rfl, by rwa [append_nil]⟩
  | cons x rest ih =>
    obtain ⟨hx, hxu, hxe⟩ := hd.start_eq hnodup h
    have hfind := getCompExtentStartingAt_eq hd hnodup hall hfits hw h
    have hxfits := hfits x hx hxu
    have hrec : p.record x = p.stored x := record_of_not_isUncompr hxu
    have hnot : x ∉ done := by
      intro hmem
      have hnd : (p.ofKind false order).Nodup := hnodup.filter _
      rw [h] at hnd
      exact (nodup_append.mp hnd).2.2 x hmem x mem_cons_self rfl
    have hold : w.extTable x = s.extTable x := by
      rw [hdone.kept x hnot, hw.table, if_neg (fun hc => by simp [hxu] at hc)]
    have hlen : (w.extTable x).lenBytes = (p.stored x).length := by rw [hold, hxe]
    have hpiece : (s.tmpCompr.drop (p.tmpRule.appendAll [] done).length).take (p.stored x).length =
        p.stored x := by
      have hslice := hd.slice hx hxu
      rw [hxe, hrec] at hslice
      exact hslice
    have hnext : (p.tmpRule.appendAll [] (done ++ [x])).length =
        (p.tmpRule.appendAll [] done).length + (p.stored x).length := by
      rw [Rule.length_appendAll_snoc, ← hrec]
      rfl
    let w' := w.place x (zeroArea p w.data.length (p.stored x).length) (p.stored x)
    have hdone' : ComprDone p s w₁ (done ++ [x]) rest w' := by
      refine ⟨?_, ?_, ?_, ?_⟩
      · rw [← append_assoc, Rule.appendAll_snoc, ← hdone.data, Rule.append]
        change _ ++ (_ ++ _) = _ ++ (replicate (if p.isUncompr x then 0 else _) _ ++ p.record x)
        rw [if_neg (by simp [hxu]), hrec]
        rfl
      · intro i hi
        rw [mem_append, mem_singleton, not_or] at hi
        exact (Written.place_extTable_of_ne w hi.2 _ _).trans (hdone.kept i hi.1)
      · intro before i after hsplit
        obtain ⟨-, rfl, rfl⟩ | ⟨after', -, rfl⟩ := snoc_split hsplit
        · rw [Written.place_extTable_self, hold, hdone.data, Rule.start]
          congr 2
          change _ = if p.isUncompr i then 0 else _
          rw [if_neg (by simp [hxu])]
        · have hne : i ≠ x := by
            rintro rfl
            exact hnot (by simp)
          exact (Written.place_extTable_of_ne w hne _ _).trans (hdone.placed before i after' rfl)
      · have hsize := hdone.size
        rw [map_cons, sum_cons, hrec] at hsize
        change w.newFileSize + _ = (w.data ++ (_ ++ _)).length + _
        rw [length_append, length_append, length_replicate]
        omega
    obtain ⟨w'', hw'', hdone''⟩ := ih (by rw [h, append_cons]) hdone'
    refine ⟨w'', ?_, by rwa [append_cons]⟩
    rw [length_cons, writeCompressed, hfind]
    dsimp only
    have hroom : ¬ p.chunkSize + blockSize < (p.stored x).length + w.data.length % blockSize := by
      have hmod : w.data.length % blockSize < blockSize := mod_lt _ (by decide)
      have hle := hxfits.2
      omega
    rw [hlen, hpiece, if_neg hroom, if_neg (not_not.mpr rfl), ← hnext]
    exact hw''

end Compressed

/-! ### The whole call -/

namespace CompressParams

variable (p : CompressParams)

/-- The chunks in the order in which they lie in the image. -/
def imageOrder (order : List Nat) : List Nat := p.uncomprBefore p.chunks ++ p.ofKind false order

/-- The data in the image. -/
def imageData (order : List Nat) : List UInt8 := p.imageRule.appendAll [] (p.imageOrder order)

/-- Nothing stops the call: every chunk can be compressed, the key of a signature is long enough
for the hash, there is free space, and some chunk became smaller (or the file is executable or
encrypted, which is stored in any case). -/
structure Completes : Prop where
  logChunkSize : p.logChunkSize < 31
  compressor : ∀ i < p.chunks, ∃ out, p.compressor i = .ok out
  worth : (∃ i < p.chunks, p.isUncompr i = false) ∨ p.isExecFile = true ∨ p.doEncrypt = true
  rsaSize : ∀ n, p.rsaSize = some n → p.hashType.hashLen + 11 ≤ n
  hasFreeSpace : p.hasFreeSpace = true

/-- The hashes and the signature that are written. -/
def signedHashes (env : CompEnv) : List UInt8 :=
  let hashes := p.hashBytes env fun i => env.hashFn p.hashType (p.stored i)
  match p.rsaSize with
  | none => []
  | some n => hashes ++ (p.signRsa (env.hashFn p.hashType hashes)).window 0 n

end CompressParams

/-- What the copy loops leave. -/
structure AllWritten (p : CompressParams) (order : List Nat) (w : Written) : Prop where
  data : w.data = p.imageData order
  size : w.newFileSize = (p.imageData order).length
  entry : ∀ before i after, p.imageOrder order = before ++ i :: after →
    w.extTable i = ⟨comprExtMagic, p.chunkFlags i, (p.stored i).length, p.imageRule.start before i⟩

section Whole

variable {env : CompEnv} {p : CompressParams} {order : List Nat}

/-- Every chunk lies in the image once. -/
theorem imageOrder_perm (h : order.Perm (range p.chunks)) :
    (p.imageOrder order).Perm (range p.chunks) := by
  have hparts : (p.ofKind true (range p.chunks) ++
      p.ofKind false (range p.chunks)).Perm (range p.chunks) := by
    have := filter_append_perm (fun i => p.isUncompr i == true) (range p.chunks)
    refine List.Perm.trans ?_ this
    apply List.Perm.append_left
    apply List.Perm.of_eq
    apply filter_congr
    intro i _
    cases p.isUncompr i <;> rfl
  exact ((h.filter _).append_left _).trans hparts

/-- The uncompressed chunks lie in the image without gaps. -/
theorem gap_eq_zero {l : List Nat} (h : ∀ i ∈ l, p.isUncompr i = true) :
    ∀ i ∈ l, ∀ off, p.imageRule.gap off i = 0 := by
  intro i hi off
  change (if p.isUncompr i then 0 else _) = 0
  rw [if_pos (h i hi)]

/-- The loops start with the size the threads counted. -/
theorem threads_size {s : ThreadFiles} (hperm : order.Perm (range p.chunks))
    (hd : ThreadsDone env p order s) :
    s.newFileSize = (p.imageRule.appendAll [] (p.uncomprBefore p.chunks)).length +
      ((p.ofKind false order).map fun i => (p.record i).length).sum := by
  have hall : ∀ i ∈ p.uncomprBefore p.chunks, p.isUncompr i = true := by
    intro i hi
    simpa using (mem_filter.mp hi).2
  rw [Rule.length_appendAll_of_gap_eq_zero _ _ (gap_eq_zero hall), hd.size, length_nil,
    zero_add]
  have hsum := (hperm.trans (imageOrder_perm hperm).symm).map fun i => (p.record i).length
  rw [hsum.sum_nat, imageOrder, map_append, List.sum_append]
  rfl

/-- The chunks that the second copy loop has to write. -/
theorem length_compressed (hperm : order.Perm (range p.chunks)) :
    p.chunks - (p.uncomprBefore p.chunks).length = (p.ofKind false order).length := by
  have hlen := (imageOrder_perm hperm).length_eq
  rw [imageOrder, length_append, length_range] at hlen
  omega

/-- The indices around an index. -/
theorem exists_range_eq {n : Nat} (h : i < n) :
    ∃ after, range n = range i ++ i :: after := by
  obtain ⟨k, rfl⟩ := Nat.exists_eq_add_of_lt h
  refine ⟨(range k).map fun j => i + (j + 1), ?_⟩
  rw [add_assoc, range_add, range_succ_eq_map, map_cons, map_map]
  rfl

/-- **The copy loops**, after the threads. -/
theorem loops_spec {s : ThreadFiles} (hperm : order.Perm (range p.chunks))
    (hd : ThreadsDone env p order s)
    (hfits : ∀ i < p.chunks, p.isUncompr i = false → p.ComprFits i) :
    ∃ w₁ w, writeUncompressed p s.tmpUncompr ⟨[], s.extTable, s.newFileSize⟩ = .ok w₁ ∧
      writeCompressed p s.tmpCompr w₁.extTable
        (p.chunks - ((range p.chunks).filter fun i => uncompressed (w₁.extTable i)).length) 0
        w₁ = .ok w ∧ AllWritten p order w := by
  have hmem : ∀ i, i ∈ order ↔ i < p.chunks := fun i => hperm.mem_iff.trans mem_range
  have hnodup : order.Nodup := hperm.nodup_iff.mpr nodup_range
  obtain ⟨w₁, hw1, hdone1⟩ := writeUncompressed_spec hd fun i hi => (hmem i).mpr hi
  have hcount : (range p.chunks).filter (fun i => uncompressed (w₁.extTable i)) =
      p.uncomprBefore p.chunks := by
    apply filter_congr
    intro i hi
    rw [hdone1.uncompressed_eq hd ((hmem i).mpr (mem_range.mp hi))]
    simp
  have hstart : ComprDone p s w₁ [] (p.ofKind false order) w₁ := by
    refine ⟨?_, fun _ _ => rfl, fun before i after h => ?_, ?_⟩
    · rw [hdone1.data, append_nil]
    · cases before <;> cases h
    · rw [hdone1.size, hdone1.data, threads_size hperm hd]
  obtain ⟨w, hw, hdone⟩ := writeCompressed_spec hd hnodup hmem
    (fun i hi => hfits i ((hmem i).mp hi)) hdone1 (nil_append _).symm hstart
  refine ⟨w₁, w, hw1, ?_, hdone.data, ?_, ?_⟩
  · rw [hcount, length_compressed hperm]
    exact hw
  · rw [hdone.size, hdone.data]
    rfl
  · intro before i after hsplit
    obtain ⟨before', rfl, hC⟩ | ⟨after', hU, hrest⟩ := append_eq_append_iff.mp hsplit
    · -- a compressed chunk, placed by the second loop
      rw [hdone.placed before' i after hC, (hd.start_eq hnodup hC).2.2]
      rfl
    obtain _ | ⟨j, after'⟩ := after'
    · rw [append_nil] at hU
      have hC : p.ofKind false order = [] ++ i :: after := hrest.symm
      rw [hdone.placed [] i after hC, (hd.start_eq hnodup hC).2.2, hU, append_nil]
      rfl
    -- an uncompressed chunk, placed by the first loop
    obtain rfl : i = j := (cons.inj hrest).1
    have hi : i ∈ p.uncomprBefore p.chunks := by simp [hU]
    obtain ⟨hlt, hkind⟩ := mem_filter.mp hi
    have hu : p.isUncompr i = true := by simpa using hkind
    have hbefore : before = p.uncomprBefore i := by
      obtain ⟨after'', hrange⟩ := exists_range_eq (mem_range.mp hlt)
      have hsplit' : p.uncomprBefore p.chunks =
          p.uncomprBefore i ++ i :: p.ofKind true after'' := by
        rw [uncomprBefore, hrange, ofKind_split hu]
        rfl
      exact before_unique (nodup_range.filter _) hU hsplit'
    have hnot : i ∉ p.ofKind false order := by
      intro hC
      have hfalse : p.isUncompr i = false := by simpa using (mem_filter.mp hC).2
      rw [hu] at hfalse
      cases hfalse
    obtain ⟨_, _, -, hentry⟩ := hd.exists_entry ((hmem i).mpr (mem_range.mp hlt))
    rw [hdone.kept i hnot, hdone1.table, if_pos ⟨mem_range.mp hlt, hu⟩, hentry, hbefore]
    rfl

/-- The hashes are those of the stored bytes, and the key is long enough to sign them. -/
theorem hashTableBytes_ok_iff {s : ThreadFiles} {hashes : List UInt8}
    (hmem : ∀ i, i ∈ order ↔ i < p.chunks) (hd : ThreadsDone env p order s) :
    p.hashTableBytes env s.hashTable = .ok hashes ↔
      (∀ n, p.rsaSize = some n → p.hashType.hashLen + 11 ≤ n) ∧ p.signedHashes env = hashes := by
  have hbytes : p.hashBytes env s.hashTable =
      p.hashBytes env fun i => env.hashFn p.hashType (p.stored i) := by
    rw [hashBytes, hashBytes]
    congr 1
    apply flatMap_congr
    intro i hi
    exact hd.hash i ((hmem i).mpr (mem_range.mp hi))
  rw [hashTableBytes, signedHashes, hbytes]
  cases hr : p.rsaSize with
  | none => simp
  | some n =>
    rw [Failure.ite_error_eq_ok]
    simp

/-- **The whole call** writes the tables behind the data of all chunks. -/
theorem compressFile_spec (hperm : order.Perm (range p.chunks)) (hc : p.Completes)
    (hfits : ∀ i < p.chunks, p.isUncompr i = false → p.ComprFits i) (image : ImageFile)
    (dstOffset : Nat) :
    ∃ w, compressFile env p order image dstOffset =
      .ok (writeTables env p image dstOffset w (p.signedHashes env)) ∧ AllWritten p order w := by
  have hmem : ∀ i, i ∈ order ↔ i < p.chunks := fun i => hperm.mem_iff.trans mem_range
  obtain ⟨s, hs, hd⟩ : ∃ s, compressThreads env p order = .ok s ∧ ThreadsDone env p order s :=
    compressThreads_spec (hperm.nodup_iff.mpr nodup_range)
      fun i hi => hc.compressor i ((hmem i).mp hi)
  obtain ⟨w₁, w, hw1, hw, hall⟩ := loops_spec hperm hd hfits
  refine ⟨w, ?_, hall⟩
  have hworth : ¬ (isAllChunksUncompressed s.extTable p.chunks = true ∧ p.isExecFile = false ∧
      p.doEncrypt = false) := by
    rintro ⟨hallUncompr, hexec, hencrypt⟩
    obtain ⟨i, hi, hu⟩ | h | h := hc.worth
    · obtain ⟨_, _, -, hentry⟩ := hd.exists_entry ((hmem i).mpr hi)
      have hflag : uncompressed (s.extTable i) = p.isUncompr i :=
        uncompressed_eq (by rw [hentry])
      rw [isAllChunksUncompressed, decide_eq_true_iff, all_eq_true] at hallUncompr
      have htrue := hallUncompr.2 i (mem_range.mpr hi)
      rw [hflag, hu] at htrue
      cases htrue
    · rw [hexec] at h
      cases h
    · rw [hencrypt] at h
      cases h
  rw [compressFile, if_neg (not_le.mpr hc.logChunkSize), hs]
  change (if _ then _ else _) = _
  rw [if_neg hworth, (hashTableBytes_ok_iff hmem hd).mpr ⟨hc.rsaSize, rfl⟩]
  change (if _ then _ else _) = _
  rw [if_neg (by rw [hc.hasFreeSpace]; decide), hw1]
  change (writeCompressed _ _ _ _ _ _ >>= _) = _
  rw [hw]
  rfl

/-- The threads end only if every chunk can be compressed. -/
theorem compressor_of_foldlM {l : List Nat} {s s' : ThreadFiles}
    (h : l.foldlM (compressChunkThread env p) s = .ok s') :
    ∀ i ∈ l, ∃ out, p.compressor i = .ok out := by
  induction l generalizing s with
  | nil => exact fun i hi => absurd hi not_mem_nil
  | cons j l ih =>
    obtain ⟨t, ht, hrest⟩ := Failure.bind_eq_ok.mp h
    intro i hi
    obtain rfl | hi := mem_cons.mp hi
    · cases hc : p.compressor i with
      | ok out => exact ⟨out, rfl⟩
      | error e =>
        rw [compressChunkThread, hc] at ht
        cases ht
    · exact ih hrest i hi

end Whole

end Vdfs4.Mkfs
