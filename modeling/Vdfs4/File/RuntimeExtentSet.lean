import Vdfs4.File.RuntimeExtents
import Vdfs4.Lib.RunSet

/-!
# The runtime extent list as a set of blocks

The functions on the list of runtime extents, with the **widths** of the source (`sector_t` has 64
bits, `block_count` 32) and memory that never runs out, against a **finite set of blocks**.

* `RuntimeCall`, `RuntimeCall.run` — the calls on the list; `specStep`, `specResult` — the same
  calls on a set;
* `Refines` — the list is sorted, without empty or overlapping entries, and shows the set;
* `Safe` — the calls that keep it so: **no inner block of a run is deleted**, and the numbers fit;
* `runtime_extents_refine_set_iff` — `Safe` is exactly what it takes.
-/

namespace Vdfs4

open Finset hiding map_map
open List RuntimeExtent

/-! ### The functions with their widths -/

/-- `entry->iblock + entry->block_count`, a `sector_t`. -/
def RuntimeExtent.stop64 (e : RuntimeExtent) : Nat := (e.iblock + e.blockCount) % 2 ^ 64

/-- `vdfs4_runtime_extent_exists` with its widths. -/
def runtimeExtentExists64 (iblock : Nat) (list : List RuntimeExtent) : Bool :=
  list.any fun entry => entry.iblock ≤ iblock && iblock < entry.stop64

/-- `vdfs4_runtime_extent_count` with its widths. -/
def runtimeExtentCount32 (list : List RuntimeExtent) : Nat := vdfs4RuntimeExtentCount list % 2 ^ 32

/-- `vdfs4_runtime_extent_add` with its widths. -/
def runtimeExtentAdd64 (iblock allocHint : Nat) :
    List RuntimeExtent → Except Errno (List RuntimeExtent)
  | [] => .ok [⟨iblock, allocHint, 1⟩]
  | entry :: rest =>
    if entry.stop64 = iblock then
      let entry := { entry with blockCount := (entry.blockCount + 1) % 2 ^ 32 }
      match rest with
      | [] => .ok [entry]
      | next :: rest =>
        -- join with next extent if needed
        if entry.stop64 = next.iblock then
          .ok ({ next with
            iblock := entry.iblock
            blockCount := (next.blockCount + entry.blockCount) % 2 ^ 32 } :: rest)
        else .ok (entry :: next :: rest)
    else if entry.iblock = (iblock + 1) % 2 ^ 64 then
      .ok ({ entry with
        iblock := (entry.iblock + (2 ^ 64 - 1)) % 2 ^ 64
        blockCount := (entry.blockCount + 1) % 2 ^ 32 } :: rest)
    else if entry.iblock ≤ iblock ∧ iblock < entry.stop64 then .error .eexist
    else if iblock < entry.iblock then .ok (⟨iblock, allocHint, 1⟩ :: entry :: rest)
    else (runtimeExtentAdd64 iblock allocHint rest).map (entry :: ·)

/-- `vdfs4_runtime_extent_del` with its widths. -/
def runtimeExtentDel64 (iblock : Nat) : List RuntimeExtent → Except Errno (List RuntimeExtent)
  | [] => .error .einval
  | entry :: rest =>
    if entry.iblock = iblock then
      let entry := { entry with
        iblock := (entry.iblock + 1) % 2 ^ 64
        blockCount := (entry.blockCount + (2 ^ 32 - 1)) % 2 ^ 32 }
      if entry.blockCount = 0 then .ok rest else .ok (entry :: rest)
    else if entry.stop64 = (iblock + 1) % 2 ^ 64 then
      .ok ({ entry with blockCount := (entry.blockCount + (2 ^ 32 - 1)) % 2 ^ 32 } :: rest)
    else if entry.iblock ≤ iblock ∧ iblock < entry.stop64 then
      -- `list_add_tail` links the new entry before this one
      let newIblock := (iblock + 1) % 2 ^ 64
      let newCount := ((entry.iblock + (2 ^ 64 - newIblock)) % 2 ^ 32 + entry.blockCount) % 2 ^ 32
      .ok (⟨newIblock, 0, newCount⟩ ::
        { entry with
          blockCount := (entry.blockCount + (2 ^ 32 - (newCount + 1) % 2 ^ 32)) % 2 ^ 32 } :: rest)
    else (runtimeExtentDel64 iblock rest).map (entry :: ·)

/-- `vdfs4_truncate_runtime_blocks` with its widths. -/
def truncateRuntimeBlocks64 (newSizeIblocks : Nat) : List RuntimeExtent → List RuntimeExtent × Nat
  | [] => ([], 0)
  | entry :: rest =>
    let (rest, total) := truncateRuntimeBlocks64 newSizeIblocks rest
    if newSizeIblocks ≤ entry.iblock then (rest, (total + entry.blockCount) % 2 ^ 64)
    else if newSizeIblocks ≤ entry.stop64 then
      let truncSize := (newSizeIblocks - entry.iblock) % 2 ^ 32
      ({ entry with blockCount := truncSize } :: rest,
        (total + (entry.blockCount + (2 ^ 32 - truncSize)) % 2 ^ 32) % 2 ^ 64)
    else (entry :: rest, total)

/-! ### Calls -/

/-- A call on the list. -/
inductive RuntimeCall where
  | add (iblock allocHint : UInt64)
  | del (iblock : UInt64)
  | truncate (newSizeIblocks : UInt64)

namespace RuntimeCall

/-- A call that returns zero or an error. -/
def edit (l : List RuntimeExtent) (r : Except Errno (List RuntimeExtent)) :
    List RuntimeExtent × Except Errno Nat :=
  match r with
  | .ok l' => (l', .ok 0)
  | .error e => (l, .error e)

/-- The list after a call, and what the call returns. -/
def run (l : List RuntimeExtent) : RuntimeCall → List RuntimeExtent × Except Errno Nat
  | .add iblock allocHint => edit l (runtimeExtentAdd64 iblock.toNat allocHint.toNat l)
  | .del iblock => edit l (runtimeExtentDel64 iblock.toNat l)
  | .truncate n =>
    let (l', total) := truncateRuntimeBlocks64 n.toNat l
    (l', .ok total)

/-- The set after a call. -/
def specStep (s : Finset Nat) : RuntimeCall → Finset Nat
  | .add iblock _ => insert iblock.toNat s
  | .del iblock => s.erase iblock.toNat
  | .truncate n => s.filter (· < n.toNat)

/-- What a call on the set returns. -/
def specResult (s : Finset Nat) : RuntimeCall → Except Errno Nat
  | .add iblock _ => if iblock.toNat ∈ s then .error .eexist else .ok 0
  | .del iblock => if iblock.toNat ∈ s then .ok 0 else .error .einval
  | .truncate n => .ok (s.filter (n.toNat ≤ ·)).card

end RuntimeCall

/-- The list shows the set: its entries are nonempty, sorted and disjoint, and
`vdfs4_runtime_extent_exists` and `vdfs4_runtime_extent_count` are membership and size. -/
structure Refines (l : List RuntimeExtent) (s : Finset Nat) : Prop where
  filled : Filled l
  sorted : l.Pairwise fun a b => a.iblock + a.blockCount ≤ b.iblock
  exists_iff : ∀ x : UInt64, runtimeExtentExists64 x.toNat l = true ↔ x.toNat ∈ s
  count_eq : runtimeExtentCount32 l = s.card

/-- After every call, the list shows the set and the call has returned what the set says. -/
def RefinesAlong : List RuntimeExtent → Finset Nat → List RuntimeCall → Prop
  | l, s, [] => Refines l s
  | l, s, c :: cs =>
    Refines l s ∧ (c.run l).2 = c.specResult s ∧ RefinesAlong (c.run l).1 (c.specStep s) cs

/-- A call that the list can follow: a block that is added is not the last one a `sector_t` can name
and leaves the set below `2 ^ 32` blocks; a block that is deleted is not one with **both
neighbours** in the set. -/
def RuntimeCall.Safe (s : Finset Nat) : RuntimeCall → Prop
  | .add iblock _ => iblock.toNat ∈ s ∨ (iblock.toNat + 1 < 2 ^ 64 ∧ s.card + 1 < 2 ^ 32)
  | .del iblock => ¬ (iblock.toNat ∈ s ∧ iblock.toNat + 1 ∈ s ∧ ∃ x ∈ s, x + 1 = iblock.toNat)
  | .truncate _ => True

/-- All calls of a sequence are safe, each in the set before it. -/
def SafeAlong : Finset Nat → List RuntimeCall → Prop
  | _, [] => True
  | s, c :: cs => c.Safe s ∧ SafeAlong (c.specStep s) cs

/-! ### Numbers that fit -/

section widths

variable {l l' rest : List RuntimeExtent} {entry : RuntimeExtent} {iblock allocHint x n : Nat}

/-- Every entry ends before the last number of a `sector_t`. -/
def Ends64 (l : List RuntimeExtent) : Prop := ∀ e ∈ l, e.iblock + e.blockCount < 2 ^ 64

theorem ends64_cons : Ends64 (entry :: rest) ↔
    entry.iblock + entry.blockCount < 2 ^ 64 ∧ Ends64 rest :=
  forall_mem_cons

theorem RuntimeExtent.stop64_eq (h : entry.iblock + entry.blockCount < 2 ^ 64) :
    entry.stop64 = entry.iblock + entry.blockCount :=
  Nat.mod_eq_of_lt h

theorem runtimeExtentExists64_iff (h : Ends64 l) :
    runtimeExtentExists64 x l = true ↔ Delayed l x := by
  simp only [runtimeExtentExists64, Delayed, any_eq_true, Bool.and_eq_true, decide_eq_true_eq]
  refine exists_congr fun e => and_congr_right fun he => ?_
  rw [stop64_eq (h e he)]

/-- Where the numbers fit, a block is added as without widths. -/
theorem runtimeExtentAdd64_eq (hends : Ends64 l) (hx : iblock + 1 < 2 ^ 64)
    (hcount : vdfs4RuntimeExtentCount l + 1 < 2 ^ 32) :
    runtimeExtentAdd64 iblock allocHint l = vdfs4RuntimeExtentAdd iblock allocHint true l := by
  induction l with
  | nil => rfl
  | cons entry rest ih =>
    obtain ⟨hend, hrest⟩ := ends64_cons.mp hends
    rw [vdfs4RuntimeExtentCount_cons] at hcount
    have hgrow : (entry.blockCount + 1) % 2 ^ 32 = entry.blockCount + 1 :=
      Nat.mod_eq_of_lt (by omega)
    rw [runtimeExtentAdd64.eq_def, vdfs4RuntimeExtentAdd.eq_def]
    simp only [stop64_eq hend, hgrow, Nat.mod_eq_of_lt hx, if_true]
    split
    · rename_i hback
      cases rest with
      | nil => rfl
      | cons next rest =>
        rw [vdfs4RuntimeExtentCount_cons] at hcount
        have hstop : ({ entry with blockCount := entry.blockCount + 1 } : RuntimeExtent).stop64 =
            entry.iblock + (entry.blockCount + 1) :=
          Nat.mod_eq_of_lt (by simp only; omega)
        have hjoin : (next.blockCount + (entry.blockCount + 1)) % 2 ^ 32 =
            next.blockCount + (entry.blockCount + 1) :=
          Nat.mod_eq_of_lt (by omega)
        simp only [hstop, hjoin]
    · split
      · rename_i hfront
        have hpred : (entry.iblock + (2 ^ 64 - 1)) % 2 ^ 64 = entry.iblock - 1 := by omega
        rw [hpred]
      · rw [ih hrest (by omega)]

/-- A block that is there is not added. -/
theorem runtimeExtentAdd64_of_delayed (hasc : Ascending l) (hends : Ends64 l)
    (hx : Delayed l iblock) : runtimeExtentAdd64 iblock allocHint l = .error .eexist := by
  induction l with
  | nil => exact absurd hx delayed_nil
  | cons entry rest ih =>
    obtain ⟨hend, hrest⟩ := ends64_cons.mp hends
    rw [runtimeExtentAdd64.eq_def]
    simp only [stop64_eq hend]
    obtain hinside | hbehind := delayed_cons.mp hx
    · rw [if_neg (by omega), if_neg (by omega), if_pos hinside]
    have hfar := lt_of_delayed hasc hbehind
    obtain ⟨e, he, hle, hlt⟩ := hbehind
    have hbound := hrest e he
    rw [if_neg (by omega), if_neg (by omega), if_neg (by omega), if_neg (by omega),
      ih (ascending_cons.mp hasc).2 hrest ⟨e, he, hle, hlt⟩]
    rfl

/-- Where the numbers fit, a block is deleted as without widths. -/
theorem runtimeExtentDel64_eq (hfilled : Filled l) (hends : Ends64 l) (hx : iblock < 2 ^ 64)
    (hcount : vdfs4RuntimeExtentCount l < 2 ^ 32) :
    runtimeExtentDel64 iblock l = vdfs4RuntimeExtentDel iblock true l := by
  induction l with
  | nil => rfl
  | cons entry rest ih =>
    obtain ⟨hend, hrest⟩ := ends64_cons.mp hends
    obtain ⟨hpos, hfilled'⟩ := filled_cons.mp hfilled
    rw [vdfs4RuntimeExtentCount_cons] at hcount
    have hshrink : (entry.blockCount + (2 ^ 32 - 1)) % 2 ^ 32 = entry.blockCount - 1 := by omega
    have hlast : (entry.iblock + entry.blockCount = (iblock + 1) % 2 ^ 64) ↔
        entry.iblock + entry.blockCount = iblock + 1 := by omega
    rw [runtimeExtentDel64.eq_def, vdfs4RuntimeExtentDel.eq_def]
    simp only [stop64_eq hend, hshrink, hlast, if_true]
    split
    · rename_i hbegin
      have hsucc : (entry.iblock + 1) % 2 ^ 64 = entry.iblock + 1 := by omega
      rw [hsucc]
    split
    · rfl
    split
    · rename_i hinside
      have hsucc : (iblock + 1) % 2 ^ 64 = iblock + 1 := by omega
      have hnew : ((entry.iblock + (2 ^ 64 - (iblock + 1))) % 2 ^ 32 + entry.blockCount) %
          2 ^ 32 = entry.iblock + entry.blockCount - (iblock + 1) := by omega
      have hold : (entry.blockCount + (2 ^ 32 -
          (entry.iblock + entry.blockCount - (iblock + 1) + 1) % 2 ^ 32)) % 2 ^ 32 =
          entry.blockCount - (entry.iblock + entry.blockCount - (iblock + 1) + 1) := by omega
      rw [hsucc, hnew, hold]
    · rw [ih hfilled' hrest (by omega)]

/-- Where the numbers fit, the list is truncated as without widths. -/
theorem truncateRuntimeBlocks64_eq (hfilled : Filled l) (hends : Ends64 l)
    (hcount : vdfs4RuntimeExtentCount l < 2 ^ 32) :
    truncateRuntimeBlocks64 n l = vdfs4TruncateRuntimeBlocks n l := by
  induction l with
  | nil => rfl
  | cons entry rest ih =>
    obtain ⟨hend, hrest⟩ := ends64_cons.mp hends
    obtain ⟨hpos, hfilled'⟩ := filled_cons.mp hfilled
    rw [vdfs4RuntimeExtentCount_cons] at hcount
    have htotal := (vdfs4TruncateRuntimeBlocks_filled n hfilled').2
    rw [truncateRuntimeBlocks64, vdfs4TruncateRuntimeBlocks, ih hfilled' hrest (by omega)]
    simp only [stop64_eq hend]
    split
    · rw [Nat.mod_eq_of_lt (by omega)]
    split
    · rename_i hinside
      have htrunc : (n - entry.iblock) % 2 ^ 32 = n - entry.iblock := by omega
      have hfreed : (entry.blockCount + (2 ^ 32 - (n - entry.iblock))) % 2 ^ 32 =
          entry.blockCount - (n - entry.iblock) := by omega
      rw [htrunc, hfreed, Nat.mod_eq_of_lt (by omega)]
    · rfl

end widths

/-! ### What the calls do without widths -/

section outcomes

variable {l l' : List RuntimeExtent} {iblock allocHint : Nat} {e : Errno}

/-- The only error of an addition: the block is there. -/
theorem vdfs4RuntimeExtentAdd_error
    (h : vdfs4RuntimeExtentAdd iblock allocHint true l = .error e) :
    e = .eexist ∧ Delayed l iblock := by
  induction l with
  | nil => cases h
  | cons entry rest ih =>
    rw [vdfs4RuntimeExtentAdd.eq_def] at h
    simp only [if_true] at h
    split at h
    · split at h
      · cases h
      · split at h <;> cases h
    split at h
    · cases h
    split at h
    · rename_i hinside
      cases h
      exact ⟨rfl, delayed_cons.mpr (.inl hinside)⟩
    · split at h
      · cases h
      · obtain ⟨he, hmem⟩ := ih (map_cons_eq_error.mp h)
        exact ⟨he, delayed_cons.mpr (.inr hmem)⟩

/-- The only error of a deletion: the block is not there. -/
theorem vdfs4RuntimeExtentDel_error (hfilled : Filled l)
    (h : vdfs4RuntimeExtentDel iblock true l = .error e) : e = .einval ∧ ¬ Delayed l iblock := by
  induction l with
  | nil =>
    cases h
    exact ⟨rfl, delayed_nil⟩
  | cons entry rest ih =>
    obtain ⟨hpos, hfilled'⟩ := filled_cons.mp hfilled
    rw [vdfs4RuntimeExtentDel.eq_def] at h
    simp only [if_true] at h
    split at h
    · split at h <;> cases h
    split at h
    · cases h
    · split at h
      · cases h
      · rename_i hinside
        obtain ⟨he, hnot⟩ := ih hfilled' (map_cons_eq_error.mp h)
        exact ⟨he, fun hmem => (delayed_cons.mp hmem).elim hinside hnot⟩

/-- A deletion that succeeds finds its block. -/
theorem vdfs4RuntimeExtentDel_delayed (hfilled : Filled l)
    (h : vdfs4RuntimeExtentDel iblock true l = .ok l') : Delayed l iblock := by
  induction l generalizing l' with
  | nil => cases h
  | cons entry rest ih =>
    obtain ⟨hpos, hfilled'⟩ := filled_cons.mp hfilled
    rw [vdfs4RuntimeExtentDel.eq_def] at h
    simp only [if_true] at h
    split at h
    · exact delayed_cons.mpr (.inl (by omega))
    split at h
    · exact delayed_cons.mpr (.inl (by omega))
    · split at h
      · rename_i hinside
        exact delayed_cons.mpr (.inl hinside)
      · obtain ⟨rest', hdel, -⟩ := map_cons_eq_ok.mp h
        exact delayed_cons.mpr (.inr (ih hfilled' hdel))

/-- **The deletion of an inner block leaves a list that is not sorted.** -/
theorem vdfs4RuntimeExtentDel_inner (hfilled : Filled l) (hasc : Ascending l)
    (hinner : Inner l iblock) : ∃ l', vdfs4RuntimeExtentDel iblock true l = .ok l' ∧
      ¬ l'.Pairwise fun a b => a.iblock + a.blockCount ≤ b.iblock := by
  induction l with
  | nil =>
    obtain ⟨e, he, -⟩ := hinner
    cases he
  | cons entry rest ih =>
    obtain ⟨hpos, hfilled'⟩ := filled_cons.mp hfilled
    obtain ⟨hbehind, hasc'⟩ := ascending_cons.mp hasc
    obtain ⟨e, he, hlow, hhigh⟩ := hinner
    rw [vdfs4RuntimeExtentDel.eq_def]
    simp only [if_true]
    obtain rfl | hrest := mem_cons.mp he
    · rw [if_neg (by omega), if_neg (by omega), if_pos (by omega)]
      refine ⟨_, rfl, fun hsorted => ?_⟩
      have hle := (pairwise_cons.mp hsorted).1 _ mem_cons_self
      simp only at hle
      omega
    · have hfar := hbehind e hrest
      rw [if_neg (by omega), if_neg (by omega), if_neg (by omega)]
      obtain ⟨l', hdel, hnot⟩ := ih hfilled' hasc' ⟨e, hrest, hlow, hhigh⟩
      rw [hdel]
      exact ⟨entry :: l', rfl, fun hsorted => hnot (pairwise_cons.mp hsorted).2⟩

end outcomes

/-! ### The refinement -/

/-- The list is the set in its shortest form, and the numbers fit. -/
structure Shows (l : List RuntimeExtent) (s : Finset Nat) : Prop where
  filled : Filled l
  ascending : Ascending l
  mem_iff : ∀ x, Delayed l x ↔ x ∈ s
  bounded : ∀ x ∈ s, x + 1 < 2 ^ 64
  small : s.card < 2 ^ 32

namespace Shows

variable {l l' : List RuntimeExtent} {s : Finset Nat} {x : Nat}

theorem nil : Shows [] ∅ :=
  ⟨filled_nil, .nil, fun x => by simp, fun x hx => absurd hx (notMem_empty x), by simp⟩

/-- An entry, as a run of blocks. -/
def toRun (e : RuntimeExtent) : Run := ⟨e.iblock, e.blockCount⟩

section

variable (h : Shows l s)

include h

/-- The blocks are counted once each. -/
theorem count_eq : vdfs4RuntimeExtentCount l = s.card := by
  have hsep : RunSet.Separated (l.map toRun) := by
    refine ⟨fun r hr => ?_, ?_⟩
    · obtain ⟨e, he, rfl⟩ := mem_map.mp hr
      exact h.filled e he
    · exact pairwise_map.mpr (h.ascending.imp fun hlt => .inl hlt)
  have hset : RunSet.covered (l.map toRun) = s := by
    ext x
    rw [RunSet.mem_covered, ← h.mem_iff x]
    simp [Delayed, toRun, Run.Has]
  rw [← hset, hsep.card_covered, RunSet.size, map_map]
  rfl

theorem ends64 : Ends64 l := by
  intro e he
  have hpos := h.filled e he
  have hlast := h.bounded _ ((h.mem_iff (e.iblock + e.blockCount - 1)).mp
    ⟨e, he, by omega, by omega⟩)
  omega

theorem refines : Refines l s := by
  refine ⟨h.filled, h.ascending.imp Nat.le_of_lt, fun x => ?_, ?_⟩
  · rw [runtimeExtentExists64_iff h.ends64, h.mem_iff]
  · rw [runtimeExtentCount32, h.count_eq, Nat.mod_eq_of_lt h.small]

/-- An inner block of an entry has both neighbours in the set. -/
theorem inner_iff :
    Inner l x ↔ x ∈ s ∧ x + 1 ∈ s ∧ ∃ y ∈ s, y + 1 = x := by
  constructor
  · rintro ⟨e, he, hlow, hhigh⟩
    refine ⟨(h.mem_iff x).mp ⟨e, he, by omega, by omega⟩,
      (h.mem_iff (x + 1)).mp ⟨e, he, by omega, by omega⟩, x - 1,
      (h.mem_iff (x - 1)).mp ⟨e, he, by omega, by omega⟩, by omega⟩
  rintro ⟨hx, hsucc, y, hy, rfl⟩
  -- entries do not touch, so the three blocks lie in one of them
  obtain ⟨e, he, hlow, hhigh⟩ := (h.mem_iff _).mpr hx
  obtain ⟨a, ha, halow, hahigh⟩ := (h.mem_iff _).mpr hsucc
  obtain ⟨b, hb, hblow, hbhigh⟩ := (h.mem_iff _).mpr hy
  have hnear : ∀ c ∈ l, ∀ d ∈ l, c.iblock ≤ d.iblock + d.blockCount →
      d.iblock ≤ c.iblock + c.blockCount → c = d := by
    intro c hc d hd hcd hdc
    by_contra hne
    have : Std.Symm fun a b : RuntimeExtent =>
      a.iblock + a.blockCount < b.iblock ∨ b.iblock + b.blockCount < a.iblock :=
      ⟨fun _ _ h => h.symm⟩
    have hsym : l.Pairwise fun a b => a.iblock + a.blockCount < b.iblock ∨
        b.iblock + b.blockCount < a.iblock := h.ascending.imp .inl
    have := hsym.forall hc hd hne
    omega
  obtain rfl := hnear a ha e he (by omega) (by omega)
  obtain rfl := hnear b hb a ha (by omega) (by omega)
  exact ⟨b, hb, by omega, by omega⟩

/-- **A block is added.** -/
theorem add {iblock allocHint : UInt64} (hsafe : (RuntimeCall.add iblock allocHint).Safe s) :
    ((RuntimeCall.add iblock allocHint).run l).2 =
        (RuntimeCall.add iblock allocHint).specResult s ∧
      Shows ((RuntimeCall.add iblock allocHint).run l).1
        ((RuntimeCall.add iblock allocHint).specStep s) := by
  rw [RuntimeCall.run, RuntimeCall.specResult, RuntimeCall.specStep]
  by_cases hmem : iblock.toNat ∈ s
  · rw [runtimeExtentAdd64_of_delayed h.ascending h.ends64 ((h.mem_iff _).mpr hmem), if_pos hmem,
      insert_eq_self.mpr hmem]
    exact ⟨rfl, h⟩
  obtain ⟨hx, hsmall⟩ := hsafe.resolve_left hmem
  rw [runtimeExtentAdd64_eq h.ends64 hx (by rw [h.count_eq]; exact hsmall), if_neg hmem]
  cases hadd : vdfs4RuntimeExtentAdd iblock.toNat allocHint.toNat true l with
  | error e => exact absurd ((h.mem_iff _).mp (vdfs4RuntimeExtentAdd_error hadd).2) hmem
  | ok l' =>
    obtain ⟨hasc, -, hiff⟩ := vdfs4RuntimeExtentAdd_ascending h.filled h.ascending hadd
    refine ⟨rfl, (vdfs4RuntimeExtentAdd_filled h.filled hadd).1, hasc, fun x => ?_, fun x hx' => ?_,
      ?_⟩
    · rw [RuntimeCall.edit, hiff, h.mem_iff, mem_insert, or_comm]
    · obtain rfl | hx' := mem_insert.mp hx'
      · exact hx
      · exact h.bounded x hx'
    · rw [card_insert_of_notMem hmem]
      exact hsmall

/-- **A block is deleted** that has not both neighbours in the set. -/
theorem del {iblock : UInt64} (hsafe : (RuntimeCall.del iblock).Safe s) :
    ((RuntimeCall.del iblock).run l).2 = (RuntimeCall.del iblock).specResult s ∧
      Shows ((RuntimeCall.del iblock).run l).1 ((RuntimeCall.del iblock).specStep s) := by
  have hinner : ¬ Inner l iblock.toNat := fun hin => hsafe (h.inner_iff.mp hin)
  rw [RuntimeCall.run, RuntimeCall.specResult, RuntimeCall.specStep,
    runtimeExtentDel64_eq h.filled h.ends64 iblock.toNat_lt (by rw [h.count_eq]; exact h.small)]
  cases hdel : vdfs4RuntimeExtentDel iblock.toNat true l with
  | error e =>
    obtain ⟨rfl, hnot⟩ := vdfs4RuntimeExtentDel_error h.filled hdel
    rw [h.mem_iff] at hnot
    rw [if_neg hnot, erase_eq_of_notMem hnot]
    exact ⟨rfl, h⟩
  | ok l' =>
    have hmem := (h.mem_iff _).mp (vdfs4RuntimeExtentDel_delayed h.filled hdel)
    obtain ⟨hasc, hiff⟩ := vdfs4RuntimeExtentDel_ascending h.filled h.ascending hinner hdel
    rw [if_pos hmem]
    refine ⟨rfl, (vdfs4RuntimeExtentDel_filled h.filled hdel).1, hasc, fun x => ?_, fun x hx => ?_,
      ?_⟩
    · rw [RuntimeCall.edit, hiff, h.mem_iff, mem_erase, and_comm]
    · exact h.bounded x (mem_of_mem_erase hx)
    · exact (card_erase_le).trans_lt h.small

/-- **The blocks from `n` on are removed** and counted. -/
theorem truncate (n : UInt64) :
    ((RuntimeCall.truncate n).run l).2 = (RuntimeCall.truncate n).specResult s ∧
      Shows ((RuntimeCall.truncate n).run l).1 ((RuntimeCall.truncate n).specStep s) := by
  have hshows : Shows (vdfs4TruncateRuntimeBlocks n.toNat l).1 (s.filter (· < n.toNat)) := by
    refine ⟨(vdfs4TruncateRuntimeBlocks_filled n.toNat h.filled).1,
      vdfs4TruncateRuntimeBlocks_ascending n.toNat h.filled h.ascending, fun x => ?_, fun x hx =>
      ?_, ?_⟩
    · rw [delayed_vdfs4TruncateRuntimeBlocks, h.mem_iff, Finset.mem_filter]
    · exact h.bounded x (mem_of_mem_filter x hx)
    · exact (card_filter_le s _).trans_lt h.small
  rw [RuntimeCall.run, RuntimeCall.specResult, RuntimeCall.specStep,
    truncateRuntimeBlocks64_eq h.filled h.ends64 (by rw [h.count_eq]; exact h.small)]
  refine ⟨congrArg Except.ok ?_, hshows⟩
  -- the removed and the remaining blocks are all of them
  have htotal := (vdfs4TruncateRuntimeBlocks_filled n.toNat h.filled).2
  have hsplit := card_filter_add_card_filter_not (s := s) (· < n.toNat)
  rw [hshows.count_eq, h.count_eq] at htotal
  simp only [Nat.not_lt] at hsplit
  change (vdfs4TruncateRuntimeBlocks n.toNat l).2 = _
  omega

/-- **One safe call.** -/
theorem step {c : RuntimeCall} (hsafe : c.Safe s) :
    (c.run l).2 = c.specResult s ∧ Shows (c.run l).1 (c.specStep s) := by
  cases c with
  | add iblock allocHint => exact h.add hsafe
  | del iblock => exact h.del hsafe
  | truncate n => exact h.truncate n

/-- A call after which the list still shows the set was safe. -/
theorem safe_of_refines {c : RuntimeCall}
    (href : Refines (c.run l).1 (c.specStep s)) : c.Safe s := by
  cases c with
  | add iblock allocHint =>
    by_cases hmem : iblock.toNat ∈ s
    · exact .inl hmem
    refine .inr ⟨?_, ?_⟩
    · -- no entry shows the last number of a `sector_t`
      obtain ⟨e, -, hshown⟩ := any_eq_true.mp
        ((href.exists_iff iblock).mpr (mem_insert_self _ s))
      have hlt := of_decide_eq_true (Bool.and_eq_true_iff.mp hshown).2
      have hstop : e.stop64 < 2 ^ 64 := Nat.mod_lt _ (by decide)
      omega
    · -- and no counter of 32 bits the number `2 ^ 32`
      have hcount := href.count_eq
      rw [RuntimeCall.specStep, card_insert_of_notMem hmem] at hcount
      rw [← hcount]
      exact Nat.mod_lt _ (by decide)
  | del iblock =>
    rw [RuntimeCall.Safe, ← h.inner_iff]
    intro hinner
    obtain ⟨l', hdel, hnot⟩ := vdfs4RuntimeExtentDel_inner h.filled h.ascending hinner
    rw [RuntimeCall.run, runtimeExtentDel64_eq h.filled h.ends64 iblock.toNat_lt
      (by rw [h.count_eq]; exact h.small), hdel] at href
    exact hnot href.sorted
  | truncate n => exact True.intro

end

end Shows

theorem RefinesAlong.refines {l : List RuntimeExtent} {s : Finset Nat} {cs : List RuntimeCall}
    (h : RefinesAlong l s cs) : Refines l s := by
  cases cs with
  | nil => exact h
  | cons c cs => exact h.1

/-- **The runtime extent list is a set of blocks**, exactly along the sequences of safe calls. -/
theorem runtime_extents_refine_set_iff (calls : List RuntimeCall) :
    RefinesAlong [] ∅ calls ↔ SafeAlong ∅ calls := by
  suffices hrun : ∀ l s, Shows l s → (RefinesAlong l s calls ↔ SafeAlong s calls) from
    hrun [] ∅ Shows.nil
  induction calls with
  | nil => exact fun l s h => ⟨fun _ => True.intro, fun _ => h.refines⟩
  | cons c calls ih =>
    intro l s h
    constructor
    · rintro ⟨-, -, hrest⟩
      have hsafe := h.safe_of_refines hrest.refines
      exact ⟨hsafe, (ih _ _ (h.step hsafe).2).mp hrest⟩
    · rintro ⟨hsafe, hrest⟩
      obtain ⟨hresult, hshows⟩ := h.step hsafe
      exact ⟨h.refines, hresult, (ih _ _ hshows).mpr hrest⟩

/-- Blocks 1, 2 and 3 are added and block 2 is deleted: the entry of block 3 comes to stand before
that of block 1. -/
theorem inner_block_deleted_unsorted :
    ¬ RefinesAlong [] ∅ [.add 1 0, .add 2 0, .add 3 0, .del 2] := by
  rintro ⟨-, -, -, -, -, -, -, -, hlast⟩
  have hlist : ((RuntimeCall.del 2).run ((RuntimeCall.add 3 0).run ((RuntimeCall.add 2 0).run
      ((RuntimeCall.add 1 0).run []).1).1).1).1 = [⟨3, 0, 1⟩, ⟨1, 0, 1⟩] := by
    decide +kernel
  have hsorted := hlast.sorted
  rw [hlist] at hsorted
  exact absurd hsorted (by decide)

end Vdfs4
