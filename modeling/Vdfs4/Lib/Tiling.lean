import Mathlib.Data.Set.Card
import Mathlib.Data.List.InsertIdx

/-!
# Tilings of an interval

Pieces, each a start and a length, **tile** an interval when each one starts where the one
before ends. The pieces are given in the order of their addresses; a table that lists them in
another order is a permutation of them.

* `Tiles a ps e` — the pieces `ps` tile the interval from `a` to `e`;
* `Tiles.bounds`, `Tiles.before`, `Tiles.after` — where the pieces lie;
* `Tiles.sum_eq` — their lengths add up to that of the interval;
* `Tiles.snoc` — a piece put behind a tiling;
* `closeGap`, `Tiles.remove` — a piece is taken out and the pieces behind it move down.
-/

/-- The pieces, in the order of their addresses, tile the interval from `a` to `e`. -/
def Tiles : Nat → List (Nat × Nat) → Nat → Prop
  | a, [], e => a = e
  | a, p :: ps, e => p.1 = a ∧ Tiles (a + p.2) ps e

namespace Tiles

variable {a b e : Nat} {ps qs : List (Nat × Nat)} {p q : Nat × Nat}

theorem le (h : Tiles a ps e) : a ≤ e := by
  induction ps generalizing a with
  | nil => exact Nat.le_of_eq h
  | cons p ps ih => exact Nat.le_trans (Nat.le_add_right _ _) (ih h.2)

theorem append : Tiles a (ps ++ qs) e ↔ ∃ b, Tiles a ps b ∧ Tiles b qs e := by
  induction ps generalizing a with
  | nil => simp [Tiles]
  | cons p ps ih => simp [Tiles, ih, and_assoc]

/-- Every piece lies in the interval. -/
theorem bounds (h : Tiles a ps e) (hp : p ∈ ps) : a ≤ p.1 ∧ p.1 + p.2 ≤ e := by
  obtain ⟨pre, post, rfl⟩ := List.append_of_mem hp
  obtain ⟨b, hpre, rfl, hpost⟩ := append.mp h
  exact ⟨hpre.le, hpost.le⟩

/-- The pieces listed before a piece end before it. -/
theorem before (h : Tiles a (ps ++ p :: qs) e) (hq : q ∈ ps) : q.1 + q.2 ≤ p.1 := by
  obtain ⟨b, hpre, rfl, _⟩ := append.mp h
  exact (hpre.bounds hq).2

/-- The pieces listed after a piece start behind it. -/
theorem after (h : Tiles a (ps ++ p :: qs) e) (hq : q ∈ qs) : p.1 + p.2 ≤ q.1 := by
  obtain ⟨b, _, rfl, hpost⟩ := append.mp h
  exact (hpost.bounds hq).1

/-- The pieces fill the interval. -/
theorem sum_eq (h : Tiles a ps e) : a + (ps.map Prod.snd).sum = e := by
  induction ps generalizing a with
  | nil => exact h
  | cons p ps ih =>
    rw [List.map_cons, List.sum_cons, ← Nat.add_assoc]
    exact ih h.2

theorem snoc (h : Tiles a ps e) (n : Nat) : Tiles a (ps ++ [(e, n)]) (e + n) :=
  append.mpr ⟨e, h, rfl, rfl⟩

/-- All pieces moved by the same distance. -/
theorem shift {f : Nat → Nat} (h : Tiles a ps e)
    (hf : ∀ x, a ≤ x → x ≤ e → f x = f a + (x - a)) :
    Tiles (f a) (ps.map fun p => (f p.1, p.2)) (f e) := by
  induction ps generalizing a with
  | nil =>
    obtain rfl : a = e := h
    rfl
  | cons p ps ih =>
    obtain ⟨rfl, htail⟩ := h
    refine ⟨rfl, ?_⟩
    have hle := htail.le
    have hnext : f (p.1 + p.2) = f p.1 + p.2 := by
      rw [hf (p.1 + p.2) (Nat.le_add_right _ _) hle]
      omega
    rw [← hnext]
    apply ih htail
    intro x hx hxe
    rw [hf x (by omega) hxe, hnext]
    omega

/-- What closing the gap of a removed piece does to another piece. -/
def closeGap (p q : Nat × Nat) : Nat × Nat := if p.1 < q.1 then (q.1 - p.2, q.2) else q

/-- A piece is taken out and those behind it move down. -/
theorem remove (h : Tiles a (ps ++ p :: qs) e) (hpos : ∀ q ∈ ps, 0 < q.2) (hp : 0 < p.2) :
    Tiles a ((ps ++ qs).map (closeGap p)) (e - p.2) := by
  have hfront : ps.map (closeGap p) = ps := by
    have hsame : ∀ q ∈ ps, closeGap p q = q := by
      intro q hq
      have := h.before hq
      have := hpos q hq
      rw [closeGap, if_neg (by omega)]
    rw [List.map_congr_left hsame, List.map_id']
  have hback : qs.map (closeGap p) = qs.map fun q => (q.1 - p.2, q.2) := by
    apply List.map_congr_left
    intro q hq
    have := h.after hq
    rw [closeGap, if_pos (by omega)]
  obtain ⟨b, hpre, rfl, hpost⟩ := append.mp h
  rw [List.map_append, hfront, hback, append]
  refine ⟨p.1, hpre, ?_⟩
  have hmoved := hpost.shift (f := fun x => x - p.2) (by intro x hx _; omega)
  simpa using hmoved

end Tiles
