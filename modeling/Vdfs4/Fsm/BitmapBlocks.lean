import Mathlib.Data.Set.Card
import Mathlib.Tactic.Push

/-!
# Bitmap blocks

A bitmap on the volume is a buffer of blocks. Each block has a **magic** in front and a **checksum**
at its end, and the bits of the bitmap are the bits between them, block after block: these are its
**logical bits**. `vdfs4_set_bits` and `vdfs4_clear_bits` change a range of them.

* `BitmapBuffer.logical` — where a logical bit lies;
* `BitmapBuffer.bitAt` — the bit that `vdfs4_test_and_set_bit` reaches, by an `int` bit number;
* `vdfs4SetBits`, `vdfs4ClearBits` — the two functions, with their 32-bit arithmetic;
* `Marks`, `Clears` — what they should do to a range, `RangeExact` both of them;
* `bitmap_range_exact_iff` — they do it **exactly** for the ranges that end within `2 ^ 32` bits, as
  long as an `int` can number the bits of a block; and with larger blocks some range goes wrong.
-/

namespace Vdfs4

/-- The bits of the memory, counted from the start of the buffer. -/
abbrev BitMemory := Int → Bool

/-- `CRC32_SIZE`. -/
def crc32Size : Nat := 4

/-- The number of bits between magic and checksum of a block. -/
def blockBits (magicLen blckSize : Nat) : Nat := (blckSize - (magicLen + crc32Size)) * 8

/-- Where a logical bit lies, as a bit of the buffer. -/
def bitPlace (magicLen blckSize x : Nat) : Nat :=
  8 * (x / blockBits magicLen blckSize * blckSize + magicLen) + x % blockBits magicLen blckSize

/-- A buffer of bitmap blocks. Its size is an `int`. -/
structure BitmapBuffer where
  /-- the address of the buffer -/
  buff : Nat
  /-- `magic_len` -/
  magicLen : Nat
  /-- `blck_size` -/
  blckSize : Nat
  /-- the number of blocks -/
  blocks : Nat
  /-- there are bits between magic and checksum -/
  room : magicLen + crc32Size < blckSize
  /-- `buff_size` is an `int` -/
  size : blocks * blckSize < 2 ^ 31

namespace BitmapBuffer

variable (B : BitmapBuffer) {mem mem₁ mem' mem₂ : BitMemory} {x c c' : Nat}

/-- The number of logical bits of a block. -/
def dataBits : Nat := blockBits B.magicLen B.blckSize

/-- A logical bit, as a bit of the memory. -/
def logical (x : Nat) : Int := bitPlace B.magicLen B.blckSize x

/-- `datablock_size`, an `unsigned int`. -/
def datablockSize : Nat := B.dataBits % 2 ^ 32

/-- The low bits of the address of the first bit of the block at `cur`. -/
def low (cur : Nat) : Nat := (B.buff + cur + B.magicLen) % 8

/-- The bit that `vdfs4_test_and_set_bit` reaches for bit `pos` of the block at `cur`:
`correct_addr_and_bit_unaligned` rounds the address down and adds the difference to an `int`. -/
def bitAt (cur pos : Nat) : Int :=
  8 * (cur + B.magicLen : Nat) - 8 * B.low cur + Int.bmod (pos + 8 * B.low cur : Nat) (2 ^ 32)

/-- The range is one of the buffer's logical bits, and its two numbers are `unsigned int`s. -/
structure InBuffer (offset count : Nat) : Prop where
  offset_lt : offset < 2 ^ 32
  count_pos : 0 < count
  count_lt : count < 2 ^ 32
  inside : offset + count ≤ B.blocks * B.dataBits

/-- An `int` can number the bits of the blocks, as far as an `unsigned int` counts them. -/
def Fits : Prop :=
  ∀ x < 2 ^ 32, x < B.blocks * B.dataBits →
    x % B.dataBits + 8 * B.low (x / B.dataBits * B.blckSize) < 2 ^ 31

/-! ### The two functions -/

/-- The start of the block of a logical bit, as `(x / datablock_size) * blck_size` is computed. -/
def blckOf (x : Nat) : Nat := x / B.datablockSize * B.blckSize % 2 ^ 32

/-- `offset + count - 1`, an `unsigned int`. -/
def lastBit (offset count : Nat) : Nat := (offset + count + (2 ^ 32 - 1)) % 2 ^ 32

/-- How often `for (cur_blck = start_blck; cur_blck <= end_blck; cur_blck += blck_size)` runs. -/
def rounds (offset count : Nat) : Nat :=
  (B.blckOf (lastBit offset count) + B.blckSize - B.blckOf offset) / B.blckSize

/-- `cur_position` at the start of the block at `cur`. -/
def curPosition (offset cur : Nat) : Nat :=
  if cur = B.blckOf offset then offset % B.datablockSize else 0

/-- The inner loop of `vdfs4_set_bits`: it ends at a bit that is set already. -/
def setRun (cur : Nat) : Nat → Nat → BitMemory → Bool × BitMemory
  | 0, _, mem => (true, mem)
  | length + 1, pos, mem =>
    -- check the bound of array
    if B.blckSize - crc32Size < pos / 8 + B.magicLen then (false, mem)
    else if mem (B.bitAt cur pos) then (false, mem)
    else setRun cur length (pos + 1) (Function.update mem (B.bitAt cur pos) true)

/-- The loop of `vdfs4_set_bits` over the blocks from `cur` on. -/
def setBlocks (offset : Nat) : Nat → Nat → Nat → BitMemory → Bool × BitMemory
  | 0, _, _, mem => (true, mem)
  | n + 1, cur, count, mem =>
    let pos := B.curPosition offset cur
    let length := B.datablockSize - pos
    match B.setRun cur (if count < length then count else length) pos mem with
    | (false, mem) => (false, mem)
    | (true, mem) =>
      setBlocks offset n (cur + B.blckSize) (if count < length then count else count - length) mem

/-- `vdfs4_set_bits`: whether it returns zero, and the memory. A division by zero does not
return. -/
def vdfs4SetBits (offset count : Nat) (mem : BitMemory) : Option (Bool × BitMemory) :=
  if B.datablockSize = 0 then none
  else some (B.setBlocks offset (B.rounds offset count) (B.blckOf offset) count mem)

/-- The inner loop of `vdfs4_clear_bits`: it goes on behind a bit that is clear already. The first
flag says that the function goes on, the second one that `ret` is zero. -/
def clearRun (cur : Nat) : Nat → Nat → Bool → BitMemory → Bool × Bool × BitMemory
  | 0, _, ret, mem => (true, ret, mem)
  | length + 1, pos, ret, mem =>
    -- check the boundary of array
    if B.blckSize - crc32Size < pos / 8 + B.magicLen then (false, false, mem)
    else clearRun cur length (pos + 1) (ret && mem (B.bitAt cur pos))
      (Function.update mem (B.bitAt cur pos) false)

/-- The loop of `vdfs4_clear_bits` over the blocks from `cur` on. -/
def clearBlocks (offset : Nat) : Nat → Nat → Nat → Bool → BitMemory → Bool × BitMemory
  | 0, _, _, ret, mem => (ret, mem)
  | n + 1, cur, count, ret, mem =>
    let pos := B.curPosition offset cur
    let length := B.datablockSize - pos
    match B.clearRun cur (if count < length then count else length) pos ret mem with
    | (false, ret, mem) => (ret, mem)
    | (true, ret, mem) =>
      clearBlocks offset n (cur + B.blckSize) (if count < length then 0 else count - length) ret mem

/-- `vdfs4_clear_bits`: whether it returns zero, and the memory. -/
def vdfs4ClearBits (offset count : Nat) (mem : BitMemory) : Option (Bool × BitMemory) :=
  if B.datablockSize = 0 then none
  else some (B.clearBlocks offset (B.rounds offset count) (B.blckOf offset) count true mem)

/-! ### What they should do -/

/-- No bit of the memory but the logical bits of the range differs. -/
def SameOutside (offset count : Nat) (mem mem' : BitMemory) : Prop :=
  ∀ i, (∀ x, offset ≤ x → x < offset + count → i ≠ B.logical x) → mem' i = mem i

/-- No byte of a magic or of a checksum differs. -/
def SameFrames (mem mem' : BitMemory) : Prop :=
  ∀ blck byte r, r < 8 →
    (byte < B.magicLen ∨ B.blckSize - crc32Size ≤ byte ∧ byte < B.blckSize) →
    mem' ((8 * (blck * B.blckSize + byte) + r : Nat) : Int) =
      mem ((8 * (blck * B.blckSize + byte) + r : Nat) : Int)

/-- Zero is returned exactly if the range was clear, and then the range is set; nothing else
changes. -/
structure Marks (offset count : Nat) (mem : BitMemory) (res : Bool × BitMemory) : Prop where
  ok_iff : res.1 = true ↔ ∀ x, offset ≤ x → x < offset + count → mem (B.logical x) = false
  marked : res.1 = true → ∀ x, offset ≤ x → x < offset + count → res.2 (B.logical x) = true
  outside : B.SameOutside offset count mem res.2

/-- The range is clear, whatever was there, and zero is returned exactly if it was set; nothing else
changes. -/
structure Clears (offset count : Nat) (mem : BitMemory) (res : Bool × BitMemory) : Prop where
  ok_iff : res.1 = true ↔ ∀ x, offset ≤ x → x < offset + count → mem (B.logical x) = true
  cleared : ∀ x, offset ≤ x → x < offset + count → res.2 (B.logical x) = false
  outside : B.SameOutside offset count mem res.2

/-- Both functions do to the range what they should, whatever the memory holds. -/
def RangeExact (offset count : Nat) : Prop :=
  ∀ mem,
    (∃ res, B.vdfs4SetBits offset count mem = some res ∧ B.Marks offset count mem res ∧
      B.SameFrames mem res.2) ∧
    ∃ res, B.vdfs4ClearBits offset count mem = some res ∧ B.Clears offset count mem res ∧
      B.SameFrames mem res.2

/-! ### Logical bits -/

variable {B}

theorem logical_eq (x : Nat) : B.logical x =
    ((8 * (x / B.dataBits * B.blckSize + B.magicLen) + x % B.dataBits : Nat) : Int) := rfl

theorem dataBits_eq : B.dataBits = (B.blckSize - (B.magicLen + crc32Size)) * 8 := rfl

theorem dataBits_pos : 0 < B.dataBits := by
  have := B.room
  rw [dataBits_eq]
  omega

/-- The bits of a block lie between its magic and its checksum. -/
theorem pos_div_lt {pos : Nat} (h : pos < B.dataBits) :
    pos / 8 + B.magicLen < B.blckSize - crc32Size := by
  have := B.room
  rw [dataBits_eq] at h
  omega

theorem div_block {k pos : Nat} (h : pos < B.dataBits) :
    (k * B.dataBits + pos) / B.dataBits = k := by
  rw [Nat.mul_comm, Nat.mul_add_div dataBits_pos, Nat.div_eq_of_lt h, Nat.add_zero]

theorem mod_block {k pos : Nat} (h : pos < B.dataBits) :
    (k * B.dataBits + pos) % B.dataBits = pos := by
  rw [Nat.mul_comm, Nat.mul_add_mod, Nat.mod_eq_of_lt h]

/-- The logical bits of one block. -/
theorem logical_block {k pos : Nat} (h : pos < B.dataBits) :
    B.logical (k * B.dataBits + pos) = ((8 * (k * B.blckSize + B.magicLen) + pos : Nat) : Int) := by
  rw [logical_eq, div_block h, mod_block h]

/-- Bytes of different blocks are different. -/
theorem blck_eq {k k' : Nat} (a a' : Nat) (ha : a < B.blckSize) (ha' : a' < B.blckSize)
    (h : k * B.blckSize + a = k' * B.blckSize + a') : k = k' := by
  obtain hlt | heq | hlt := Nat.lt_trichotomy k k'
  · have := Nat.mul_le_mul_right B.blckSize hlt
    rw [Nat.succ_mul] at this
    omega
  · exact heq
  · have := Nat.mul_le_mul_right B.blckSize hlt
    rw [Nat.succ_mul] at this
    omega

theorem logical_inj {y : Nat} (h : B.logical x = B.logical y) : x = y := by
  have hx := pos_div_lt (Nat.mod_lt x (dataBits_pos (B := B)))
  have hy := pos_div_lt (Nat.mod_lt y (dataBits_pos (B := B)))
  rw [logical_eq, logical_eq] at h
  have hnat := Int.ofNat.inj h
  have hdiv : x / B.dataBits = y / B.dataBits := by
    apply blck_eq (B := B) (B.magicLen + x % B.dataBits / 8)
      (B.magicLen + y % B.dataBits / 8) <;> omega
  rw [hdiv] at hnat
  have hmod : x % B.dataBits = y % B.dataBits := by omega
  rw [← Nat.div_add_mod x B.dataBits, hdiv, hmod, Nat.div_add_mod]

/-- Magic and checksum hold no logical bit. -/
theorem frame_ne_logical {blck byte r : Nat} (x : Nat) (hr : r < 8)
    (h : byte < B.magicLen ∨ B.blckSize - crc32Size ≤ byte ∧ byte < B.blckSize) :
    ((8 * (blck * B.blckSize + byte) + r : Nat) : Int) ≠ B.logical x := by
  intro heq
  have hx := pos_div_lt (Nat.mod_lt x (dataBits_pos (B := B)))
  have hroom := B.room
  rw [logical_eq] at heq
  have hnat := Int.ofNat.inj heq
  have hblck : blck = x / B.dataBits := by
    apply blck_eq (B := B) byte (B.magicLen + x % B.dataBits / 8) <;> omega
  rw [hblck] at hnat
  omega

theorem SameOutside.frames {offset count : Nat}
    (h : B.SameOutside offset count mem mem') : B.SameFrames mem mem' :=
  fun _ _ _ hr hbyte => h _ fun x _ _ => frame_ne_logical x hr hbyte

/-- Logical bits outside of the range are kept. -/
theorem SameOutside.at {offset count : Nat} (h : B.SameOutside offset count mem mem')
    (hx : x < offset ∨ offset + count ≤ x) :
    mem' (B.logical x) = mem (B.logical x) := by
  apply h
  intro y hy hy' heq
  have := logical_inj heq
  omega

theorem SameOutside.append (h : B.SameOutside x c mem mem₁)
    (h' : B.SameOutside (x + c) c' mem₁ mem₂) :
    B.SameOutside x (c + c') mem mem₂ := by
  intro i hi
  rw [h' i fun y hy hy' => hi y (by omega) (by omega)]
  exact h i fun y hy hy' => hi y hy (by omega)

/-! ### Ranges piece by piece -/

theorem Marks.zero (x : Nat) (mem : BitMemory) : B.Marks x 0 mem (true, mem) where
  ok_iff := ⟨fun _ y hy hy' => by omega, fun _ => rfl⟩
  marked := fun _ y hy hy' => by omega
  outside := fun _ _ => rfl

/-- A bit that is set already ends the range. -/
theorem Marks.found (count : Nat) (h : mem (B.logical x) = true) :
    B.Marks x (count + 1) mem (false, mem) where
  ok_iff := by
    constructor
    · intro hfalse
      cases hfalse
    · intro hclear
      rw [hclear x (le_refl x) (by omega)] at h
      cases h
  marked := fun hfalse => by cases hfalse
  outside := fun _ _ => rfl

theorem Marks.one (h : mem (B.logical x) = false) :
    B.Marks x 1 mem (true, Function.update mem (B.logical x) true) where
  ok_iff := by
    refine ⟨fun _ y hy hy' => ?_, fun _ => rfl⟩
    obtain rfl : y = x := by omega
    exact h
  marked := by
    intro _ y hy hy'
    obtain rfl : y = x := by omega
    simp
  outside := fun i hi => Function.update_of_ne (hi x (le_refl x) (by omega)) _ _

/-- A range that was set, and the one behind it. -/
theorem Marks.append {res : Bool × BitMemory} (h : B.Marks x c mem (true, mem₁))
    (h' : B.Marks (x + c) c' mem₁ res) :
    B.Marks x (c + c') mem res where
  ok_iff := by
    rw [h'.ok_iff]
    constructor
    · intro hclear y hy hy'
      obtain hlt | hge := Nat.lt_or_ge y (x + c)
      · exact h.ok_iff.mp rfl y hy hlt
      · rw [← h.outside.at (.inr hge)]
        exact hclear y hge (by omega)
    · intro hclear y hy hy'
      have hkept : mem₁ (B.logical y) = mem (B.logical y) := h.outside.at (.inr hy)
      rw [hkept]
      exact hclear y (by omega) (by omega)
  marked := by
    intro hok y hy hy'
    obtain hlt | hge := Nat.lt_or_ge y (x + c)
    · rw [h'.outside.at (.inl hlt)]
      exact h.marked rfl y hy hlt
    · exact h'.marked hok y hge (by omega)
  outside := h.outside.append h'.outside

/-- A range that was not set ends the longer one. -/
theorem Marks.stopped (c' : Nat)
    (h : B.Marks x c mem (false, mem₁)) : B.Marks x (c + c') mem (false, mem₁) where
  ok_iff := by
    constructor
    · intro hfalse
      cases hfalse
    · intro hclear
      exact h.ok_iff.mpr fun y hy hy' => hclear y hy (by omega)
  marked := fun hfalse => by cases hfalse
  outside := fun i hi => h.outside i fun y hy hy' => hi y hy (by omega)

theorem Clears.zero (x : Nat) (mem : BitMemory) : B.Clears x 0 mem (true, mem) where
  ok_iff := ⟨fun _ y hy hy' => by omega, fun _ => rfl⟩
  cleared := fun y hy hy' => by omega
  outside := fun _ _ => rfl

theorem Clears.one (x : Nat) (mem : BitMemory) :
    B.Clears x 1 mem (mem (B.logical x), Function.update mem (B.logical x) false) where
  ok_iff := by
    constructor
    · intro hset y hy hy'
      obtain rfl : y = x := by omega
      exact hset
    · intro hset
      exact hset x (le_refl x) (by omega)
  cleared := by
    intro y hy hy'
    obtain rfl : y = x := by omega
    simp
  outside := fun i hi => Function.update_of_ne (hi x (le_refl x) (by omega)) _ _

/-- A range, and the one behind it. -/
theorem Clears.append {r r' : Bool} (h : B.Clears x c mem (r, mem₁))
    (h' : B.Clears (x + c) c' mem₁ (r', mem₂)) :
    B.Clears x (c + c') mem (r && r', mem₂) where
  ok_iff := by
    have hr : r = true ↔ _ := h.ok_iff
    have hr' : r' = true ↔ _ := h'.ok_iff
    rw [Bool.and_eq_true, hr, hr']
    constructor
    · rintro ⟨hset, hset'⟩ y hy hy'
      obtain hlt | hge := Nat.lt_or_ge y (x + c)
      · exact hset y hy hlt
      · rw [← h.outside.at (.inr hge)]
        exact hset' y hge (by omega)
    · intro hset
      refine ⟨fun y hy hy' => hset y hy (by omega), fun y hy hy' => ?_⟩
      have hkept : mem₁ (B.logical y) = mem (B.logical y) := h.outside.at (.inr hy)
      rw [hkept]
      exact hset y (by omega) (by omega)
  cleared := by
    intro y hy hy'
    obtain hlt | hge := Nat.lt_or_ge y (x + c)
    · rw [h'.outside.at (.inl hlt)]
      exact h.cleared y hy hlt
    · exact h'.cleared y hge (by omega)
  outside := h.outside.append h'.outside

/-! ### The loops, where an `int` numbers the bits -/

/-- Without overflow the right bit is reached. -/
theorem bitAt_eq {cur pos : Nat} (h : pos + 8 * B.low cur < 2 ^ 31) :
    B.bitAt cur pos = ((8 * (cur + B.magicLen) + pos : Nat) : Int) := by
  have hbmod : Int.bmod (pos + 8 * B.low cur : Nat) (2 ^ 32) = (pos + 8 * B.low cur : Nat) := by
    apply Int.bmod_eq_of_le <;> omega
  rw [bitAt, hbmod]
  omega

/-- With overflow a bit in front of it is reached. -/
theorem bitAt_lt {cur pos : Nat} (h : 2 ^ 31 ≤ pos + 8 * B.low cur) :
    B.bitAt cur pos < ((8 * (cur + B.magicLen) + pos : Nat) : Int) := by
  have hbmod : Int.bmod (pos + 8 * B.low cur : Nat) (2 ^ 32) < ((2 ^ 32 : Nat) + 1) / 2 :=
    Int.bmod_lt (by decide)
  rw [bitAt]
  omega

theorem bitAt_logical {k pos : Nat} (hfits : B.Fits) (hk : k < B.blocks) (hpos : pos < B.dataBits)
    (h32 : k * B.dataBits + pos < 2 ^ 32) :
    B.bitAt (k * B.blckSize) pos = B.logical (k * B.dataBits + pos) := by
  have hblock := Nat.mul_le_mul_right B.dataBits hk
  rw [Nat.succ_mul] at hblock
  have hint := hfits _ h32 (by omega)
  rw [div_block hpos, mod_block hpos] at hint
  rw [logical_block hpos, bitAt_eq hint]

/-- The bits of one block that `vdfs4_set_bits` visits. -/
theorem setRun_marks {k : Nat} (hfits : B.Fits) (hk : k < B.blocks) (length pos : Nat)
    (mem : BitMemory) (hin : pos + length ≤ B.dataBits)
    (h32 : k * B.dataBits + pos + length ≤ 2 ^ 32) :
    B.Marks (k * B.dataBits + pos) length mem (B.setRun (k * B.blckSize) length pos mem) := by
  induction length generalizing pos mem with
  | zero => exact Marks.zero _ _
  | succ length ih =>
    have hbound : pos / 8 + B.magicLen < B.blckSize - crc32Size := pos_div_lt (by omega)
    rw [setRun, if_neg (by omega), bitAt_logical hfits hk (by omega) (by omega)]
    split
    next hset => exact Marks.found length hset
    next hclear =>
      have hone := Marks.one (B := B) (Bool.eq_false_of_not_eq_true hclear)
      have hrest := ih (pos + 1) (Function.update mem (B.logical (k * B.dataBits + pos)) true)
        (by omega) (by omega)
      rw [Nat.add_comm length 1]
      exact hone.append hrest

/-- The bits of one block that `vdfs4_clear_bits` visits. -/
theorem clearRun_clears {k : Nat} (hfits : B.Fits) (hk : k < B.blocks) (length pos : Nat)
    (ret : Bool) (mem : BitMemory) (hin : pos + length ≤ B.dataBits)
    (h32 : k * B.dataBits + pos + length ≤ 2 ^ 32) :
    ∃ r mem', B.clearRun (k * B.blckSize) length pos ret mem = (true, ret && r, mem') ∧
      B.Clears (k * B.dataBits + pos) length mem (r, mem') := by
  induction length generalizing pos ret mem with
  | zero => exact ⟨true, mem, by simp [clearRun], Clears.zero _ _⟩
  | succ length ih =>
    have hbound : pos / 8 + B.magicLen < B.blckSize - crc32Size := pos_div_lt (by omega)
    rw [clearRun, if_neg (by omega), bitAt_logical hfits hk (by omega) (by omega)]
    have hone := Clears.one (B := B) (k * B.dataBits + pos) mem
    obtain ⟨r, mem', hrun, hrest⟩ := ih (pos + 1)
      (ret && mem (B.logical (k * B.dataBits + pos)))
      (Function.update mem (B.logical (k * B.dataBits + pos)) false) (by omega) (by omega)
    refine ⟨mem (B.logical (k * B.dataBits + pos)) && r, mem', ?_, ?_⟩
    · rw [hrun, Bool.and_assoc]
    · rw [Nat.add_comm length 1]
      exact hone.append hrest

/-- What is ahead of the loop over the blocks: `count` bits from bit `pos` of block `k` on, which
end in the last of `n` blocks. -/
structure Ahead (B : BitmapBuffer) (offset n k pos count : Nat) : Prop where
  count_pos : 0 < count
  position : B.curPosition offset (k * B.blckSize) = pos
  later : ∀ i, k < i → B.curPosition offset (i * B.blckSize) = 0
  pos_lt : pos < B.dataBits
  covered : pos + count ≤ n * B.dataBits
  tight : n * B.dataBits < pos + count + B.dataBits
  inside : k + n ≤ B.blocks
  small : k * B.dataBits + pos + count ≤ 2 ^ 32

namespace Ahead

variable {offset n k pos count : Nat}

section

variable (h : B.Ahead offset (n + 1) k pos count)

include h

/-- The block is left at its end, and the next one starts at its first bit. -/
theorem next (hmore : B.dataBits - pos < count) :
    B.Ahead offset n (k + 1) 0 (count - (B.dataBits - pos)) := by
  have hcovered := h.covered
  have htight := h.tight
  have hpos := h.pos_lt
  have hinside := h.inside
  have hsmall := h.small
  rw [Nat.succ_mul] at hcovered htight
  refine ⟨by omega, h.later _ (Nat.lt_succ_self k), fun i hi => h.later i (by omega), dataBits_pos,
    by omega, by omega, by omega, ?_⟩
  rw [Nat.succ_mul]
  omega

/-- The first bit of the next block follows the last one of this block. -/
theorem next_eq :
    k * B.dataBits + pos + (B.dataBits - pos) = (k + 1) * B.dataBits + 0 := by
  have hpos := h.pos_lt
  rw [Nat.succ_mul]
  omega

theorem last (hlast : count ≤ B.dataBits - pos) :
    n = 0 ∧ (if count < B.dataBits - pos then count else B.dataBits - pos) = count := by
  have htight := h.tight
  have hpos := h.pos_lt
  rw [Nat.succ_mul] at htight
  constructor
  · by_contra hn
    have hle := Nat.le_mul_of_pos_left B.dataBits (Nat.pos_of_ne_zero hn)
    omega
  · split <;> omega

end

end Ahead

/-- The loop of `vdfs4_set_bits`, from bit `pos` of block `k` on. -/
theorem setBlocks_marks {offset : Nat} (hfits : B.Fits) (hsize : B.datablockSize = B.dataBits)
    {n k pos count : Nat} (h : B.Ahead offset n k pos count) (mem : BitMemory) :
    B.Marks (k * B.dataBits + pos) count mem
      (B.setBlocks offset n (k * B.blckSize) count mem) := by
  induction n generalizing k pos count mem with
  | zero => exact absurd h.covered (by have := h.count_pos; omega)
  | succ n ih =>
    have hpos := h.pos_lt
    have hinside := h.inside
    have hsmall := h.small
    rw [setBlocks, h.position, hsize]
    obtain hmore | hlast := Nat.lt_or_ge (B.dataBits - pos) count
    · have hrun := setRun_marks hfits (k := k) (by omega) (B.dataBits - pos) pos mem (by omega)
        (by omega)
      have hsum : count = (B.dataBits - pos) + (count - (B.dataBits - pos)) := by omega
      simp only [if_neg hmore.not_gt]
      split
      next mem₁ heq =>
        rw [heq] at hrun
        rw [hsum]
        exact hrun.stopped _
      next mem₁ heq =>
        rw [heq] at hrun
        have hrest := ih (h.next hmore) mem₁
        rw [← h.next_eq, Nat.succ_mul] at hrest
        have hall := hrun.append hrest
        rwa [← hsum] at hall
    · obtain ⟨rfl, hlen⟩ := h.last hlast
      have hrun := setRun_marks hfits (k := k) (by omega) count pos mem (by omega) (by omega)
      simp only [hlen]
      split
      next mem₁ heq => rwa [heq] at hrun
      next mem₁ heq => rwa [heq] at hrun

/-- The loop of `vdfs4_clear_bits`, from bit `pos` of block `k` on. -/
theorem clearBlocks_clears {offset : Nat} (hfits : B.Fits) (hsize : B.datablockSize = B.dataBits)
    {n k pos count : Nat} (h : B.Ahead offset n k pos count) (ret : Bool) (mem : BitMemory) :
    ∃ r mem', B.clearBlocks offset n (k * B.blckSize) count ret mem = (ret && r, mem') ∧
      B.Clears (k * B.dataBits + pos) count mem (r, mem') := by
  induction n generalizing k pos count ret mem with
  | zero => exact absurd h.covered (by have := h.count_pos; omega)
  | succ n ih =>
    have hpos := h.pos_lt
    have hinside := h.inside
    have hsmall := h.small
    rw [clearBlocks, h.position, hsize]
    obtain hmore | hlast := Nat.lt_or_ge (B.dataBits - pos) count
    · obtain ⟨r1, mem₁, heq, hrun⟩ :=
        clearRun_clears hfits (k := k) (by omega) (B.dataBits - pos) pos ret mem (by omega)
          (by omega)
      have hsum : count = (B.dataBits - pos) + (count - (B.dataBits - pos)) := by omega
      obtain ⟨r2, mem₂, heq2, hrest⟩ := ih (h.next hmore) (ret && r1) mem₁
      refine ⟨r1 && r2, mem₂, ?_, ?_⟩
      · simp only [if_neg hmore.not_gt, heq]
        rw [← Nat.succ_mul, heq2, Bool.and_assoc]
      · rw [← h.next_eq] at hrest
        have hall := hrun.append hrest
        rwa [← hsum] at hall
    · obtain ⟨rfl, hlen⟩ := h.last hlast
      obtain ⟨r, mem', heq, hrun⟩ :=
        clearRun_clears hfits (k := k) (by omega) count pos ret mem (by omega) (by omega)
      refine ⟨r, mem', ?_, hrun⟩
      simp only [hlen, heq, clearBlocks]

/-! ### The blocks of a range -/

/-- The block of a bit of the buffer is found. -/
theorem blckOf_eq (hsize : B.datablockSize = B.dataBits)
    (hx : x < B.blocks * B.dataBits) : B.blckOf x = x / B.dataBits * B.blckSize := by
  have hk : x / B.dataBits < B.blocks := (Nat.div_lt_iff_lt_mul dataBits_pos).mpr hx
  have hle := Nat.mul_le_mul_right B.blckSize hk.le
  have := B.size
  rw [blckOf, hsize, Nat.mod_eq_of_lt (by omega)]

theorem blckSize_pos : 0 < B.blckSize := by
  have := B.room
  omega

/-- The loop runs once for each block from the first to the last. -/
theorem rounds_eq {offset count : Nat} (hsize : B.datablockSize = B.dataBits)
    (hoffset : offset < B.blocks * B.dataBits)
    (hlast : lastBit offset count < B.blocks * B.dataBits) :
    B.rounds offset count = lastBit offset count / B.dataBits + 1 - offset / B.dataBits := by
  rw [rounds, blckOf_eq hsize hoffset, blckOf_eq hsize hlast, ← Nat.succ_mul, ← Nat.sub_mul,
    Nat.mul_div_cancel _ blckSize_pos]

/-- The first block starts at the bit of the range, every later one at its own first bit. -/
theorem curPosition_eq {offset : Nat} (hsize : B.datablockSize = B.dataBits)
    (hoffset : offset < B.blocks * B.dataBits) (k : Nat) :
    B.curPosition offset (k * B.blckSize) =
      if k = offset / B.dataBits then offset % B.dataBits else 0 := by
  rw [curPosition, blckOf_eq hsize hoffset, hsize]
  exact if_congr (Nat.mul_left_inj blckSize_pos.ne') rfl rfl

/-- If bits can be numbered, `datablock_size` is the number of bits of a block. -/
theorem Fits.datablockSize_eq (hfits : B.Fits) (hblocks : 0 < B.blocks) :
    B.datablockSize = B.dataBits := by
  apply Nat.mod_eq_of_lt
  by_contra hlarge
  have hmul := Nat.le_mul_of_pos_left B.dataBits hblocks
  have hint := hfits (2 ^ 31) (by decide) (by omega)
  rw [Nat.mod_eq_of_lt (by omega)] at hint
  omega

theorem InBuffer.blocks_pos {offset count : Nat} (h : B.InBuffer offset count) : 0 < B.blocks := by
  apply Nat.pos_of_ne_zero
  intro hzero
  have hinside := h.inside
  have := h.count_pos
  rw [hzero] at hinside
  omega

/-- **A range that ends within `2 ^ 32` bits is treated exactly.** -/
theorem Fits.rangeExact {offset count : Nat} (hfits : B.Fits) (h : B.InBuffer offset count)
    (h32 : offset + count ≤ 2 ^ 32) : B.RangeExact offset count := by
  have hsize := hfits.datablockSize_eq h.blocks_pos
  have hzero : B.datablockSize ≠ 0 := by
    rw [hsize]
    exact dataBits_pos.ne'
  have hcount := h.count_pos
  have hinside := h.inside
  have hoffset : offset < B.blocks * B.dataBits := by omega
  have hlast : lastBit offset count = offset + count - 1 := by
    unfold lastBit
    omega
  have hrounds := rounds_eq hsize hoffset (by omega : lastBit offset count < _)
  rw [hlast] at hrounds
  have hk : (offset + count - 1) / B.dataBits < B.blocks :=
    (Nat.div_lt_iff_lt_mul dataBits_pos).mpr (by omega)
  have hmono : offset / B.dataBits ≤ (offset + count - 1) / B.dataBits :=
    Nat.div_le_div_right (by omega)
  -- the blocks of the range cover it, and without the last one they do not
  have hfirst := Nat.div_add_mod offset B.dataBits
  have hend := Nat.div_add_mod (offset + count - 1) B.dataBits
  have hendlt := Nat.mod_lt (offset + count - 1) (dataBits_pos (B := B))
  have hcover : B.rounds offset count * B.dataBits + B.dataBits * (offset / B.dataBits) =
      B.dataBits * ((offset + count - 1) / B.dataBits) + B.dataBits := by
    rw [hrounds, Nat.mul_comm B.dataBits (offset / B.dataBits), ← Nat.add_mul,
      Nat.sub_add_cancel (by omega), Nat.succ_mul, Nat.mul_comm]
  have hstart : offset / B.dataBits * B.dataBits + offset % B.dataBits = offset := by
    rw [Nat.mul_comm]
    exact hfirst
  have hpos := curPosition_eq hsize hoffset (offset / B.dataBits)
  rw [if_pos rfl] at hpos
  have hlater : ∀ i, offset / B.dataBits < i → B.curPosition offset (i * B.blckSize) = 0 := by
    intro i hi
    rw [curPosition_eq hsize hoffset, if_neg (by omega)]
  have hahead : B.Ahead offset (B.rounds offset count) (offset / B.dataBits) (offset % B.dataBits)
      count :=
    ⟨hcount, hpos, hlater, Nat.mod_lt _ dataBits_pos, by omega, by omega, by omega, by omega⟩
  intro mem
  constructor
  · have hmarks := setBlocks_marks hfits hsize hahead mem
    rw [hstart, ← blckOf_eq hsize hoffset] at hmarks
    exact ⟨_, if_neg hzero, hmarks, hmarks.outside.frames⟩
  · obtain ⟨r, mem', heq, hclears⟩ := clearBlocks_clears hfits hsize hahead true mem
    rw [hstart] at hclears
    rw [← blckOf_eq hsize hoffset, Bool.true_and] at heq
    refine ⟨(r, mem'), ?_, hclears, hclears.outside.frames⟩
    rw [vdfs4ClearBits, if_neg hzero, heq]

/-! ### The ranges that go wrong -/

/-- The bit that is reached is never behind the right one. -/
theorem bitAt_le (cur pos : Nat) :
    B.bitAt cur pos ≤ ((8 * (cur + B.magicLen) + pos : Nat) : Int) := by
  obtain hlt | hge := Nat.lt_or_ge (pos + 8 * B.low cur) (2 ^ 31)
  · exact (bitAt_eq hlt).le
  · exact (bitAt_lt hge).le

/-- The bits behind a run are kept. -/
theorem setRun_above (cur length pos : Nat) (mem : BitMemory) {i : Int}
    (hi : ((8 * (cur + B.magicLen) + pos + length : Nat) : Int) ≤ i) :
    (B.setRun cur length pos mem).2 i = mem i := by
  induction length generalizing pos mem with
  | zero => rfl
  | succ length ih =>
    rw [setRun]
    split
    · rfl
    · split
      · rfl
      · have hle := bitAt_le (B := B) cur pos
        rw [ih (pos + 1) _ (by omega)]
        exact Function.update_of_ne (by omega) _ _

/-- On a clear memory `vdfs4_set_bits` sets the range, if it is exact. -/
theorem RangeExact.on_clear {offset count : Nat} (h : B.RangeExact offset count) :
    ∃ mem', B.vdfs4SetBits offset count (fun _ => false) = some (true, mem') ∧
      (∀ x, offset ≤ x → x < offset + count → mem' (B.logical x) = true) ∧
      B.SameOutside offset count (fun _ => false) mem' := by
  obtain ⟨⟨⟨ok, mem'⟩, hset, hmarks, -⟩, -⟩ := h fun _ => false
  obtain rfl : ok = true := hmarks.ok_iff.mpr fun _ _ _ => rfl
  exact ⟨mem', hset, hmarks.marked rfl, hmarks.outside⟩

/-- A call that visits no block sets nothing. -/
theorem not_rangeExact_of_rounds {offset count : Nat} (hcount : 0 < count)
    (hrounds : B.rounds offset count = 0) : ¬B.RangeExact offset count := by
  intro hexact
  obtain ⟨mem', hset, hmarked, -⟩ := hexact.on_clear
  rw [vdfs4SetBits, hrounds, setBlocks] at hset
  split at hset
  · cases hset
  · have hbit := hmarked offset (le_refl _) (by omega)
    obtain rfl : (fun _ => false) = mem' := by simpa using hset
    cases hbit

/-- Where `offset + count - 1` wraps, at most the first block is visited. -/
theorem not_rangeExact_of_wraps {offset count : Nat} (hsize : B.datablockSize = B.dataBits)
    (h : B.InBuffer offset count) (h32 : 2 ^ 32 < offset + count) : ¬B.RangeExact offset count := by
  have hcount := h.count_pos
  have hinside := h.inside
  have hcountlt := h.count_lt
  have hoffsetlt := h.offset_lt
  have hoffset : offset < B.blocks * B.dataBits := by omega
  have hD : B.dataBits < 2 ^ 32 := hsize ▸ Nat.mod_lt _ (by decide)
  have hlast : lastBit offset count = offset + count - 1 - 2 ^ 32 := by
    unfold lastBit
    omega
  have hrounds := rounds_eq hsize hoffset (by omega : lastBit offset count < _)
  have hmono : lastBit offset count / B.dataBits ≤ offset / B.dataBits :=
    Nat.div_le_div_right (by omega)
  obtain hlt | heq := hmono.lt_or_eq
  · exact not_rangeExact_of_rounds hcount (by omega)
  -- one round, in a block that ends before the range does
  have hone : B.rounds offset count = 1 := by omega
  have hstart := Nat.div_add_mod offset B.dataBits
  have hend := Nat.div_add_mod (lastBit offset count) B.dataBits
  have hmod := Nat.mod_lt offset (dataBits_pos (B := B))
  rw [heq] at hend
  intro hexact
  obtain ⟨mem', hset, hmarked, -⟩ := hexact.on_clear
  have hpos := curPosition_eq hsize hoffset (offset / B.dataBits)
  rw [if_pos rfl] at hpos
  have hrun : mem' = (B.setRun (offset / B.dataBits * B.blckSize)
      (B.dataBits - offset % B.dataBits) (offset % B.dataBits) fun _ => false).2 := by
    have hzero : B.datablockSize ≠ 0 := hsize ▸ dataBits_pos.ne'
    rw [vdfs4SetBits, if_neg hzero, hone, blckOf_eq hsize hoffset, setBlocks, hpos, hsize] at hset
    simp only [if_neg (show ¬count < B.dataBits - offset % B.dataBits by omega)] at hset
    split at hset
    next mem₁ hfalse => simp at hset
    next mem₁ htrue =>
      rw [setBlocks] at hset
      rw [htrue]
      simpa using hset.symm
  have hbit := hmarked (offset + count - 1) (by omega) (by omega)
  have hlater : offset / B.dataBits + 1 ≤ (offset + count - 1) / B.dataBits := by
    apply (Nat.le_div_iff_mul_le dataBits_pos).mpr
    rw [Nat.succ_mul, Nat.mul_comm]
    omega
  have hblock := Nat.mul_le_mul_right B.blckSize hlater
  rw [Nat.succ_mul] at hblock
  have hdata : (B.dataBits - 1) / 8 + B.magicLen < B.blckSize - crc32Size :=
    pos_div_lt (by omega)
  rw [hrun, setRun_above] at hbit
  · cases hbit
  · rw [logical_eq]
    omega

/-- A bit whose number overflows is not set. -/
theorem not_rangeExact_of_overflow (hsize : B.datablockSize = B.dataBits) (h32 : x < 2 ^ 32)
    (hx : x < B.blocks * B.dataBits)
    (hint : 2 ^ 31 ≤ x % B.dataBits + 8 * B.low (x / B.dataBits * B.blckSize)) :
    ¬B.RangeExact x 1 := by
  intro hexact
  obtain ⟨mem', hset, hmarked, -⟩ := hexact.on_clear
  have hmod := Nat.mod_lt x (dataBits_pos (B := B))
  have hlast : lastBit x 1 = x := by
    unfold lastBit
    omega
  have hrounds := rounds_eq hsize hx (by omega : lastBit x 1 < _)
  rw [hlast, Nat.add_sub_cancel_left] at hrounds
  have hpos := curPosition_eq hsize hx (x / B.dataBits)
  rw [if_pos rfl] at hpos
  have hlen : (if 1 < B.dataBits - x % B.dataBits then 1 else B.dataBits - x % B.dataBits) = 1 := by
    split <;> omega
  have hzero : B.datablockSize ≠ 0 := hsize ▸ dataBits_pos.ne'
  have hbound := pos_div_lt hmod
  have hmem : mem' = Function.update (fun _ => false)
      (B.bitAt (x / B.dataBits * B.blckSize) (x % B.dataBits)) true := by
    rw [vdfs4SetBits, if_neg hzero, hrounds, blckOf_eq hsize hx, setBlocks, hpos, hsize] at hset
    simp only [hlen, setRun, if_neg (show ¬B.blckSize - crc32Size < x % B.dataBits / 8 + B.magicLen
      by omega), setBlocks] at hset
    simpa using hset.symm
  have hbit := hmarked x (le_refl x) (by omega)
  have hlt := bitAt_lt hint
  rw [hmem, Function.update_of_ne (by rw [logical_eq]; omega)] at hbit
  cases hbit

/-- If `datablock_size` wraps, the bits behind the first ones are looked for in other blocks. -/
theorem not_rangeExact_of_large (hblocks : 0 < B.blocks) (hlarge : 2 ^ 32 ≤ B.dataBits) :
    ¬B.RangeExact 0 (B.datablockSize + 1) := by
  intro hexact
  obtain ⟨mem', hset, -, houtside⟩ := hexact.on_clear
  have hzero : B.datablockSize ≠ 0 := by
    intro hzero
    simp [vdfs4SetBits, hzero] at hset
  have hds : B.datablockSize < 2 ^ 32 := Nat.mod_lt _ (by decide)
  have hdata := dataBits_eq (B := B)
  have hroom := B.room
  have hsmall : B.blckSize < 2 ^ 31 :=
    lt_of_le_of_lt (Nat.le_mul_of_pos_left _ hblocks) B.size
  have hlast : lastBit 0 (B.datablockSize + 1) = B.datablockSize := by
    unfold lastBit
    omega
  have hfirst : B.blckOf 0 = 0 := by simp [blckOf]
  have hsecond : B.blckOf B.datablockSize = B.blckSize := by
    rw [blckOf, Nat.div_self (Nat.pos_of_ne_zero hzero), Nat.one_mul, Nat.mod_eq_of_lt (by omega)]
  have hrounds : B.rounds 0 (B.datablockSize + 1) = 2 := by
    rw [rounds, hlast, hfirst, hsecond, Nat.sub_zero, ← Nat.two_mul,
      Nat.mul_div_cancel _ blckSize_pos]
  have hpos0 : B.curPosition 0 0 = 0 := by simp [curPosition, hfirst]
  have hpos1 : B.curPosition 0 B.blckSize = 0 := by
    rw [curPosition, hfirst, if_neg blckSize_pos.ne']
  -- the second round sets the first bit of the second block
  have hbit : mem' (B.bitAt B.blckSize 0) = true := by
    rw [vdfs4SetBits, if_neg hzero, hrounds, hfirst, setBlocks, hpos0] at hset
    simp only [Nat.sub_zero, if_neg (show ¬B.datablockSize + 1 < B.datablockSize by omega),
      Nat.add_sub_cancel_left, Nat.zero_add] at hset
    split at hset
    next mem₁ hfalse => simp at hset
    next mem₁ htrue =>
      have hlen : (if 1 < B.datablockSize then 1 else B.datablockSize) = 1 := by
        split <;> omega
      rw [setBlocks, hpos1] at hset
      simp only [Nat.sub_zero, hlen, setRun, Nat.zero_div, Nat.zero_add,
        if_neg (show ¬B.blckSize - crc32Size < B.magicLen by omega), setBlocks] at hset
      split at hset
      next mem₂ hfalse => simp at hset
      next mem₂ htrue' =>
        split at htrue'
        · simp at htrue'
        · obtain rfl : mem₂ = mem' := by simpa using hset
          rw [← (Prod.mk.inj htrue').2]
          simp
  have hlow : B.low B.blckSize < 8 := Nat.mod_lt _ (by decide)
  rw [bitAt_eq (by omega), houtside] at hbit
  · cases hbit
  · intro x _ hx heq
    have hxlt : x < B.dataBits := by omega
    rw [logical_eq, Nat.div_eq_of_lt hxlt, Nat.mod_eq_of_lt hxlt] at heq
    omega

end BitmapBuffer

open BitmapBuffer

/-- **Bitmap range updates touch exactly the logical range, if it ends within `2 ^ 32` bits.** Where
an `int` numbers the bits of the blocks, this is so for the ranges with `offset + count ≤ 2 ^ 32`
and for no other; where it does not, a range with this bound goes wrong as well. -/
theorem bitmap_range_exact_iff (B : BitmapBuffer) :
    (B.Fits → ∀ offset count, B.InBuffer offset count →
      (B.RangeExact offset count ↔ offset + count ≤ 2 ^ 32)) ∧
    (¬B.Fits → ∃ offset count, B.InBuffer offset count ∧ offset + count ≤ 2 ^ 32 ∧
      ¬B.RangeExact offset count) := by
  constructor
  · intro hfits offset count hin
    constructor
    · intro hexact
      by_contra h32
      exact not_rangeExact_of_wraps (hfits.datablockSize_eq hin.blocks_pos) hin (by omega) hexact
    · exact hfits.rangeExact hin
  · intro hnot
    unfold Fits at hnot
    push Not at hnot
    obtain ⟨x, h32, hx, hint⟩ := hnot
    have hblocks : 0 < B.blocks := by
      apply Nat.pos_of_ne_zero
      intro hzero
      rw [hzero, Nat.zero_mul] at hx
      omega
    obtain hsmall | hlarge := Nat.lt_or_ge B.dataBits (2 ^ 32)
    · -- the number of bit `x` overflows
      refine ⟨x, 1, ⟨h32, by decide, by decide, hx⟩, h32, ?_⟩
      exact not_rangeExact_of_overflow (Nat.mod_eq_of_lt hsmall) h32 hx hint
    -- the number of bits of a block overflows
    have hds : B.datablockSize < 2 ^ 32 := Nat.mod_lt _ (by decide)
    have heven : B.datablockSize % 8 = 0 := by
      rw [datablockSize, dataBits_eq]
      omega
    have hmul := Nat.le_mul_of_pos_left B.dataBits hblocks
    exact ⟨0, B.datablockSize + 1, ⟨by decide, by omega, by omega, by omega⟩, by omega,
      not_rangeExact_of_large hblocks hlarge⟩

/-- A bitmap of a little more than `2 ^ 32` blocks, in blocks of `4096` bytes. -/
def largeBitmap : BitmapBuffer where
  buff := 0
  magicLen := 12
  blckSize := 4096
  blocks := 131587
  room := by decide
  size := by decide

/-- A range over the end of the first block is exact, one over bit `2 ^ 32` is not. -/
theorem largeBitmap_ranges :
    largeBitmap.RangeExact 32639 2 ∧ ¬ largeBitmap.RangeExact (2 ^ 32 - 1) 2 := by
  have hfits : largeBitmap.Fits := by
    intro x _ _
    have hmod := Nat.mod_lt x (dataBits_pos (B := largeBitmap))
    have hlow : largeBitmap.low (x / largeBitmap.dataBits * largeBitmap.blckSize) < 8 :=
      Nat.mod_lt _ (by decide)
    have hdata : largeBitmap.dataBits = 32640 := by decide
    omega
  have hiff := (bitmap_range_exact_iff largeBitmap).1 hfits
  exact ⟨(hiff _ _ ⟨by decide, by decide, by decide, by decide⟩).mpr (by decide),
    (hiff _ _ ⟨by decide, by decide, by decide, by decide⟩).not.mpr (by decide)⟩

/-- Two clear bits, the second one with number `2 ^ 32`: zero is returned, and both are still
clear. -/
theorem bits_beyond_32_unset :
    largeBitmap.InBuffer (2 ^ 32 - 1) 2 ∧
      largeBitmap.vdfs4SetBits (2 ^ 32 - 1) 2 (fun _ => false) = some (true, fun _ => false) := by
  refine ⟨⟨by decide, by decide, by decide, by decide⟩, ?_⟩
  have hrounds : largeBitmap.rounds (2 ^ 32 - 1) 2 = 0 := by decide +kernel
  have hzero : largeBitmap.datablockSize ≠ 0 := by decide
  rw [vdfs4SetBits, if_neg hzero, hrounds, setBlocks]

end Vdfs4
