import Mathlib.Data.Set.Card
import Mathlib.Algebra.Order.BigOperators.Group.List
import Mathlib.Order.Interval.Finset.Nat

/-!
# Lists of runs as finite sets

A **run** is a half-open range of numbers. A list of runs that neither overlap nor touch
is a finite set in its shortest form; nothing here depends on the order of the list.

* `covered` — the numbers of all runs, as a `Finset`.
* `Separated` — nonempty runs, pairwise apart; a permutation keeps it.
* `Separated.card_covered` — the number of covered numbers is the sum of the lengths.
* `Separated.merge_left`, `merge_right` — a range between runs may be merged with the
  ones it touches.
-/

/-- The numbers from `start` up to, not including, `start + length`. -/
structure Run where
  start : Nat
  length : Nat
deriving DecidableEq, Repr, Inhabited

namespace Run

/-- `x` lies in the run. -/
def Has (r : Run) (x : Nat) : Prop := r.start ≤ x ∧ x < r.start + r.length

instance (r : Run) (x : Nat) : Decidable (r.Has x) := inferInstanceAs (Decidable (_ ∧ _))

/-- The runs neither overlap nor touch. -/
def Apart (a b : Run) : Prop := a.start + a.length < b.start ∨ b.start + b.length < a.start

instance (a b : Run) : Decidable (a.Apart b) := inferInstanceAs (Decidable (_ ∨ _))

theorem Apart.symm {a b : Run} (h : a.Apart b) : b.Apart a := Or.symm h

instance : Std.Symm Run.Apart := ⟨fun _ _ => Apart.symm⟩

theorem Apart.ne {a b : Run} (h : a.Apart b) : a ≠ b := by
  rintro rfl
  unfold Apart at h
  omega

/-- The run lies inside another one. -/
def Inside (a b : Run) : Prop := b.start ≤ a.start ∧ a.start + a.length ≤ b.start + b.length

theorem Inside.apart {a b c : Run} (h : a.Inside b) (hbc : b.Apart c) : a.Apart c := by
  rcases hbc with hbc | hbc
  · exact .inl (h.2.trans_lt hbc)
  · exact .inr (hbc.trans_le h.1)

/-- Apart runs share no number. -/
theorem Apart.not_has {a b : Run} (h : a.Apart b) {x : Nat} (ha : a.Has x) : ¬ b.Has x := by
  intro hb
  unfold Has at ha hb
  rcases h with h | h <;> omega

end Run

namespace RunSet

open Run

variable {l l' l₁ l₂ : List Run} {r a b g : Run} {x : Nat}

/-- The numbers of all runs. -/
def covered (l : List Run) : Finset Nat :=
  l.foldr (fun r s => Finset.Ico r.start (r.start + r.length) ∪ s) ∅

@[simp] theorem covered_nil : covered [] = ∅ := rfl

/-- The lengths of all runs together. -/
def size (l : List Run) : Nat := (l.map Run.length).sum

@[simp] theorem mem_covered : x ∈ covered l ↔ ∃ r ∈ l, r.Has x := by
  induction l with
  | nil => simp [covered]
  | cons r l ih =>
    have hcons : covered (r :: l) = Finset.Ico r.start (r.start + r.length) ∪ covered l := rfl
    rw [hcons, Finset.mem_union, Finset.mem_Ico, ih, List.exists_mem_cons_iff]
    rfl

@[simp] theorem size_nil : size [] = 0 := rfl

@[simp] theorem size_cons : size (r :: l) = r.length + size l := rfl

@[simp] theorem size_append : size (l₁ ++ l₂) = size l₁ + size l₂ := by
  simp [size]

theorem size_perm (h : l.Perm l') : size l = size l' := (h.map _).sum_eq

/-- Nonempty runs that neither overlap nor touch. -/
structure Separated (l : List Run) : Prop where
  /-- no run is empty -/
  pos : ∀ r ∈ l, 0 < r.length
  /-- any two runs are apart -/
  apart : l.Pairwise Run.Apart

theorem Separated.nil : Separated [] := ⟨fun _ h => absurd h List.not_mem_nil, .nil⟩

theorem Separated.cons_iff :
    Separated (r :: l) ↔ 0 < r.length ∧ (∀ b ∈ l, r.Apart b) ∧ Separated l := by
  constructor
  · rintro ⟨hpos, hapart⟩
    obtain ⟨h1, h2⟩ := List.pairwise_cons.mp hapart
    exact ⟨hpos r List.mem_cons_self, h1, fun b hb => hpos b (List.mem_cons_of_mem _ hb), h2⟩
  · rintro ⟨h1, h2, h3⟩
    refine ⟨fun b hb => ?_, List.pairwise_cons.mpr ⟨h2, h3.apart⟩⟩
    rcases List.mem_cons.mp hb with rfl | hb
    · exact h1
    · exact h3.pos b hb

theorem Separated.perm (h : Separated l) (hp : l.Perm l') : Separated l' :=
  ⟨fun r hr => h.pos r (hp.mem_iff.mpr hr), h.apart.perm hp Apart.symm⟩

/-- Two different members are apart. -/
theorem Separated.apart_of_mem (h : Separated l) (ha : a ∈ l) (hb : b ∈ l) (hne : a ≠ b) :
    a.Apart b :=
  h.apart.forall ha hb hne

theorem Separated.eq_of_has (h : Separated l) (ha : a ∈ l) (hb : b ∈ l) (hxa : a.Has x)
    (hxb : b.Has x) : a = b := by
  by_contra hne
  exact (h.apart_of_mem ha hb hne).not_has hxa hxb

theorem Separated.nodup (h : Separated l) : l.Nodup := h.apart.imp fun h => h.ne

/-- In the order of their starts each run lies behind the one before it. -/
theorem Separated.strict (h : Separated l) (hs : l.Pairwise fun a b => a.start ≤ b.start) :
    l.Pairwise fun a b => a.start + a.length < b.start :=
  (hs.and h.apart).imp fun hab => hab.2.resolve_right (by omega)

/-- The last member of an ordered list. -/
theorem getLast?_of_pairwise {α : Type*} {R : α → α → Prop} {l : List α} {r : α}
    (h : l.Pairwise R) (hr : r ∈ l) (hlast : ∀ m ∈ l, ¬ R r m) : l.getLast? = some r := by
  obtain ⟨front, back, rfl⟩ := List.append_of_mem hr
  have hback : back = [] := List.eq_nil_iff_forall_not_mem.mpr fun m hm =>
    hlast m (by simp [hm]) ((List.pairwise_cons.mp (List.pairwise_append.mp h).2.1).1 m hm)
  rw [hback, List.getLast?_concat]

/-- The first member of an ordered list. -/
theorem head?_of_pairwise {α : Type*} {R : α → α → Prop} {l : List α} {r : α}
    (h : l.Pairwise R) (hr : r ∈ l) (hfirst : ∀ m ∈ l, ¬ R m r) : l.head? = some r := by
  obtain ⟨front, back, rfl⟩ := List.append_of_mem hr
  have hfront : front = [] := List.eq_nil_iff_forall_not_mem.mpr fun m hm =>
    hfirst m (by simp [hm]) ((List.pairwise_append.mp h).2.2 m hm r List.mem_cons_self)
  rw [hfront]
  rfl

/-- A member, taken to the front. -/
theorem Separated.erase_iff (hr : r ∈ l) :
    Separated l ↔ 0 < r.length ∧ (∀ b ∈ l.erase r, r.Apart b) ∧ Separated (l.erase r) := by
  have hp := List.perm_cons_erase hr
  rw [← Separated.cons_iff]
  exact ⟨fun h => h.perm hp, fun h => h.perm hp.symm⟩

/-! ### Counting -/

theorem covered_perm (h : l.Perm l') : covered l = covered l' := by
  ext x
  simp only [mem_covered, h.mem_iff]

theorem covered_cons : covered (r :: l) = Finset.Ico r.start (r.start + r.length) ∪ covered l :=
  rfl

/-- **The size of a separated list is the size of its set.** -/
theorem Separated.card_covered (h : Separated l) : (covered l).card = size l := by
  induction l with
  | nil => rfl
  | cons r l ih =>
    obtain ⟨-, hapart, hl⟩ := Separated.cons_iff.mp h
    have hdisj : Disjoint (Finset.Ico r.start (r.start + r.length)) (covered l) := by
      rw [Finset.disjoint_left]
      intro x hx hcov
      obtain ⟨b, hb, hbx⟩ := mem_covered.mp hcov
      exact (hapart b hb).not_has (Finset.mem_Ico.mp hx) hbx
    rw [covered_cons, Finset.card_union_of_disjoint hdisj, ih hl, Nat.card_Ico, size_cons,
      Nat.add_sub_cancel_left]

/-! ### Cutting and merging -/

/-- The range overlaps no run of the list; it may touch some. -/
def Clear (g : Run) (l : List Run) : Prop :=
  ∀ r ∈ l, g.start + g.length ≤ r.start ∨ r.start + r.length ≤ g.start

/-- A nonempty range that shares no number with a separated list is clear of it. -/
theorem Separated.clear (h : Separated l) (hg : 0 < g.length)
    (hdisj : ∀ x, g.Has x → x ∉ covered l) : Clear g l := by
  intro r hr
  by_contra hno
  have hr' := h.pos r hr
  have hx : g.Has (max g.start r.start) ∧ r.Has (max g.start r.start) := by
    unfold Run.Has
    omega
  exact hdisj _ hx.1 (mem_covered.mpr ⟨r, hr, hx.2⟩)

/-- A range that is clear of the list and touches no run of it joins as it is. -/
theorem Separated.insert (h : Separated l) (hg : 0 < g.length) (hclear : Clear g l)
    (hleft : ∀ r ∈ l, r.start + r.length ≠ g.start)
    (hright : ∀ r ∈ l, r.start ≠ g.start + g.length) : Separated (g :: l) := by
  refine Separated.cons_iff.mpr ⟨hg, fun r hr => ?_, h⟩
  have h1 := hleft r hr
  have h2 := hright r hr
  rcases hclear r hr with h3 | h3
  · exact .inl (by omega)
  · exact .inr (by omega)

/-- The range together with the run behind it: clear of the others, and nothing touches
its end any more. -/
theorem Separated.merge_right (h : Separated (b :: l)) (hclear : Clear g (b :: l))
    (htouch : g.start + g.length = b.start) :
    Clear ⟨g.start, g.length + b.length⟩ l ∧
      ∀ r ∈ l, r.start ≠ g.start + (g.length + b.length) := by
  obtain ⟨hb, hapart, hl⟩ := Separated.cons_iff.mp h
  refine ⟨fun r hr => ?_, fun r hr => ?_⟩
  · have hrb := hapart r hr
    have hrpos := hl.pos r hr
    have hrg := hclear r (List.mem_cons_of_mem _ hr)
    unfold Run.Apart at hrb
    simp only
    omega
  · have hrb := hapart r hr
    have hrpos := hl.pos r hr
    unfold Run.Apart at hrb
    omega

/-- The run before the range together with it: clear of the others, and nothing touches
its start any more. -/
theorem Separated.merge_left (h : Separated (a :: l)) (hclear : Clear g (a :: l))
    (htouch : a.start + a.length = g.start) :
    Clear ⟨a.start, a.length + g.length⟩ l ∧ ∀ r ∈ l, r.start + r.length ≠ a.start := by
  obtain ⟨ha, hapart, hl⟩ := Separated.cons_iff.mp h
  refine ⟨fun r hr => ?_, fun r hr => ?_⟩
  · have hra := hapart r hr
    have hrpos := hl.pos r hr
    have hrg := hclear r (List.mem_cons_of_mem _ hr)
    unfold Run.Apart at hra
    simp only
    omega
  · have hra := hapart r hr
    unfold Run.Apart at hra
    omega

end RunSet
