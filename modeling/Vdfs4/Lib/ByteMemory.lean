import Mathlib.Data.Set.Card
import Mathlib.Tactic.Ring

/-!
# Byte memory

A **byte memory** gives every address its byte. A **window** is the list of bytes from an
address on, `store` writes a list of bytes, and a number is kept as its **little-endian**
bytes.

* `window_store_self`, `window_store_of_disjoint`, `window_store_inside` — what a window shows
  after a store: the stored bytes, the old ones, or a part of the stored ones;
* `memmove`, `memcpy` — stores of a window, of the same memory or of another one;
* `loadLE_storeLE`, `loadLE_store_of_disjoint` — a number that was stored is read back, and
  stores elsewhere do not disturb it;
* `packLE` — a packed record: its fields one after another.
-/

/-- The byte at every address. -/
abbrev ByteMemory := Nat → UInt8

namespace ByteMemory

open List Nat

variable {m : ByteMemory} {a b n k w i dst src v x : Nat} {l : List UInt8}

/-- The `n` bytes from address `a` on. -/
def window (m : ByteMemory) (a n : Nat) : List UInt8 := (List.range n).map fun i => m (a + i)

/-- Write the bytes `l` from address `a` on. -/
def store (m : ByteMemory) (a : Nat) (l : List UInt8) : ByteMemory :=
  fun x => if a ≤ x then (l[x - a]?).getD (m x) else m x

/-- The memory as seen through a pointer to address `a`. -/
def view (m : ByteMemory) (a : Nat) : ByteMemory := fun i => m (a + i)

/-- `memcpy` of `n` bytes from the start of another memory. -/
def memcpy (m : ByteMemory) (dst : Nat) (src : ByteMemory) (n : Nat) : ByteMemory :=
  store m dst (window src 0 n)

/-- `memmove` inside one memory. -/
def memmove (m : ByteMemory) (dst src n : Nat) : ByteMemory := store m dst (window m src n)

/-! ### Windows -/

@[simp] theorem length_window : (window m a n).length = n := by simp [window]

@[simp] theorem window_zero : window m a 0 = [] := rfl

@[simp] theorem getElem_window (h : i < (window m a n).length) :
    (window m a n)[i] = m (a + i) := by
  simp [window]

@[simp] theorem window_view : window (m.view a) b n = window m (a + b) n := by
  simp [window, view, add_assoc]

/-- Two windows that show the same bytes. -/
theorem window_eq_iff {m' : ByteMemory} :
    window m a n = window m' b n ↔ ∀ i < n, m (a + i) = m' (b + i) := by
  simp [window, map_inj_left]

/-- A part of a window is a window. -/
theorem take_drop_window (h : i + k ≤ n) :
    ((window m a n).drop i).take k = window m (a + i) k := by
  apply ext_getElem
  · simp only [length_take, length_drop, length_window]
    omega
  · intro j _ _
    simp only [getElem_take, getElem_drop, getElem_window, add_assoc]

/-! ### What a window shows after a store -/

theorem store_inside (h : i < l.length) : store m a l (a + i) = l[i] := by
  simp [store, h]

theorem store_outside (h : x < a ∨ a + l.length ≤ x) : store m a l x = m x := by
  rw [store]
  split
  · rw [getElem?_eq_none (by omega)]
    rfl
  · rfl

theorem window_store_self : window (store m a l) a l.length = l := by
  apply ext_getElem
  · simp
  · intro i _ hi
    simp [store_inside hi]

/-- A part of the stored bytes. -/
theorem window_store_inside (h : i + k ≤ l.length) :
    window (store m a l) (a + i) k = (l.drop i).take k := by
  apply ext_getElem
  · simp only [length_window, length_take, length_drop]
    omega
  · intro j hj _
    rw [length_window] at hj
    have hlt : i + j < l.length := by omega
    simp only [getElem_window, getElem_take, getElem_drop, add_assoc]
    exact store_inside hlt

theorem window_store_of_disjoint (h : b + n ≤ a ∨ a + l.length ≤ b) :
    window (store m a l) b n = window m b n := by
  apply window_eq_iff.mpr
  intro i hi
  exact store_outside (by omega)

theorem memmove_inside (h : i < n) : memmove m dst src n (dst + i) = m (src + i) := by
  rw [memmove, store_inside (by simpa using h), getElem_window]

/-- A byte beside the target of a move. -/
theorem memmove_outside (h : x < dst ∨ dst + n ≤ x) :
    memmove m dst src n x = m x :=
  store_outside (by simpa using h)

theorem window_memmove_inside (h : i + k ≤ n) :
    window (memmove m dst src n) (dst + i) k = window m (src + i) k := by
  rw [memmove, window_store_inside (by simpa using h), take_drop_window h]

/-- What lies beside the target of a move. -/
theorem window_memmove_of_disjoint (h : b + k ≤ dst ∨ dst + n ≤ b) :
    window (memmove m dst src n) b k = window m b k :=
  window_store_of_disjoint (by simpa using h)

/-! ### Little-endian numbers -/

/-- The number with the given little-endian bytes. -/
def ofLE : List UInt8 → Nat
  | [] => 0
  | x :: xs => x.toNat + 256 * ofLE xs

/-- The `w` little-endian bytes of a number; higher bytes are dropped. -/
def toLE : Nat → Nat → List UInt8
  | 0, _ => []
  | w + 1, v => UInt8.ofNat v :: toLE w (v / 256)

/-- The number of `w` bytes at address `a`. -/
def loadLE (m : ByteMemory) (a w : Nat) : Nat := ofLE (window m a w)

/-- Write a number in `w` bytes at address `a`. -/
def storeLE (m : ByteMemory) (a w v : Nat) : ByteMemory := store m a (toLE w v)

@[simp] theorem length_toLE (w v : Nat) : (toLE w v).length = w := by
  induction w generalizing v with
  | zero => rfl
  | succ w ih => simp [toLE, ih]

theorem ofLE_toLE (w v : Nat) : ofLE (toLE w v) = v % 256 ^ w := by
  induction w generalizing v with
  | zero => simp [toLE, ofLE, mod_one]
  | succ w ih =>
    have hsplit : v % 256 ^ (w + 1) = v % 256 + 256 * (v / 256 % 256 ^ w) := by
      rw [pow_succ', mod_mul]
    rw [toLE, ofLE, ih, UInt8.toNat_ofNat', hsplit]

theorem ofLE_lt (l : List UInt8) : ofLE l < 256 ^ l.length := by
  induction l with
  | nil => simp [ofLE]
  | cons x xs ih =>
    have hx : x.toNat < 256 := x.toNat_lt
    simp only [ofLE, length_cons, pow_succ']
    omega

/-- The bytes of a number are determined by it and by how many they are. -/
theorem eq_of_ofLE_eq {l l' : List UInt8} (hlen : l.length = l'.length) (h : ofLE l = ofLE l') :
    l = l' := by
  induction l generalizing l' with
  | nil => exact (length_eq_zero_iff.mp hlen.symm).symm
  | cons x xs ih =>
    obtain _ | ⟨y, ys⟩ := l'
    · cases hlen
    · have hx : x.toNat < 256 := x.toNat_lt
      have hy : y.toNat < 256 := y.toNat_lt
      simp only [ofLE] at h
      rw [UInt8.toNat_inj.mp (by omega : x.toNat = y.toNat),
        ih (succ.inj hlen) (by omega)]

theorem loadLE_lt : loadLE m a w < 256 ^ w := by
  simpa [loadLE] using ofLE_lt (window m a w)

/-- A stored number is read back up to its width. -/
theorem loadLE_storeLE_mod : loadLE (storeLE m a w v) a w = v % 256 ^ w := by
  have hwin : window (storeLE m a w v) a w = toLE w v := by
    have := window_store_self (m := m) (a := a) (l := toLE w v)
    rwa [length_toLE] at this
  rw [loadLE, hwin, ofLE_toLE]

/-- A stored number is read back. -/
theorem loadLE_storeLE (h : v < 256 ^ w) : loadLE (storeLE m a w v) a w = v := by
  rw [loadLE_storeLE_mod, mod_eq_of_lt h]

/-- A number beside a store is not disturbed. -/
theorem loadLE_store_of_disjoint (h : b + w ≤ a ∨ a + l.length ≤ b) :
    loadLE (store m a l) b w = loadLE m b w := by
  rw [loadLE, window_store_of_disjoint h, loadLE]

theorem loadLE_storeLE_of_disjoint (h : b + k ≤ a ∨ a + w ≤ b) :
    loadLE (storeLE m a w v) b k = loadLE m b k :=
  loadLE_store_of_disjoint (by simpa using h)

theorem window_storeLE_of_disjoint (h : b + n ≤ a ∨ a + w ≤ b) :
    window (storeLE m a w v) b n = window m b n :=
  window_store_of_disjoint (by simpa using h)

/-- A number beside the target of a move. -/
theorem loadLE_memmove_of_disjoint (h : b + w ≤ dst ∨ dst + n ≤ b) :
    loadLE (memmove m dst src n) b w = loadLE m b w :=
  loadLE_store_of_disjoint (by simpa using h)

theorem loadLE_memmove_inside (h : i + w ≤ n) :
    loadLE (memmove m dst src n) (dst + i) w = loadLE m (src + i) w := by
  rw [loadLE, window_memmove_inside h, loadLE]

/-! ### Packed records -/

/-- The bytes of a packed record, from the widths and values of its fields. -/
def packLE : List (Nat × Nat) → List UInt8
  | [] => []
  | (w, v) :: fields => toLE w v ++ packLE fields

@[simp] theorem length_packLE (fields : List (Nat × Nat)) :
    (packLE fields).length = (fields.map Prod.fst).sum := by
  induction fields with
  | nil => rfl
  | cons f fields ih => simp [packLE, ih]

/-- Records of one layout whose fields fit are told apart by their bytes. -/
theorem packLE_inj {fields fields' : List (Nat × Nat)}
    (hwidths : fields.map Prod.fst = fields'.map Prod.fst)
    (hfit : ∀ f ∈ fields, f.2 < 256 ^ f.1) (hfit' : ∀ f ∈ fields', f.2 < 256 ^ f.1)
    (h : packLE fields = packLE fields') : fields = fields' := by
  induction fields generalizing fields' with
  | nil => exact (map_eq_nil_iff.mp hwidths.symm).symm
  | cons f fields ih =>
    obtain _ | ⟨f', fields'⟩ := fields'
    · cases hwidths
    obtain ⟨w, v⟩ := f
    obtain ⟨w', v'⟩ := f'
    obtain ⟨hw, hwidths'⟩ := cons.inj hwidths
    obtain rfl : w = w' := hw
    obtain ⟨hv, hrest⟩ := append_inj h (by simp)
    have hvalue : v = v' := by
      have hof := congrArg ofLE hv
      rwa [ofLE_toLE, ofLE_toLE, mod_eq_of_lt (hfit _ mem_cons_self),
        mod_eq_of_lt (hfit' _ mem_cons_self)] at hof
    rw [hvalue, ih hwidths' (fun f hf => hfit f (mem_cons_of_mem _ hf))
      (fun f hf => hfit' f (mem_cons_of_mem _ hf)) hrest]

end ByteMemory
