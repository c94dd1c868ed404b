import Mathlib.Data.Set.Card

/-!
# Chains

A **chain** is a list kept as one successor for each element: `next a` is the element behind `a`,
and a reserved value `stop` ends it.

* `Follows next stop a l` — the chain from `a` on is `l`;
* `Follows.unique`, `Follows.nodup` — a chain that ends has **no repetition**;
* `Follows.snoc`, `Follows.unlink` — the two changes, each of which needs the successor of **one
  old element** only.
-/

namespace Chain

open List

variable {α : Type*} {next next' : α → Option α} {stop a b : α} {l l' l₁ l₂ : List α}

/-- The elements behind `a` are `l`, and then comes `stop`. -/
def Follows (next : α → Option α) (stop : α) : α → List α → Prop
  | a, [] => next a = some stop
  | a, b :: l => next a = some b ∧ b ≠ stop ∧ Follows next stop b l

instance decidableFollows [DecidableEq α] (next : α → Option α) (stop : α) :
    ∀ (a : α) (l : List α), Decidable (Follows next stop a l)
  | a, [] => inferInstanceAs (Decidable (next a = some stop))
  | a, b :: l =>
    haveI := decidableFollows next stop b l
    inferInstanceAs (Decidable (next a = some b ∧ b ≠ stop ∧ Follows next stop b l))

/-- The last element of `a :: l`. -/
def last : α → List α → α
  | a, [] => a
  | _, b :: l => last b l

theorem last_mem (a : α) (l : List α) : last a l ∈ a :: l := by
  induction l generalizing a with
  | nil => exact mem_cons_self
  | cons b l ih => exact mem_cons_of_mem a (ih b)

theorem getLast?_cons (a : α) (l : List α) : (a :: l).getLast? = some (last a l) := by
  induction l generalizing a with
  | nil => rfl
  | cons b l ih => rw [getLast?_cons_cons, ih, last]

/-- Only the successors of the elements matter. -/
theorem Follows.congr (h : Follows next stop a l) (heq : ∀ x ∈ a :: l, next' x = next x) :
    Follows next' stop a l := by
  induction l generalizing a with
  | nil => exact (heq a mem_cons_self).trans h
  | cons b l ih =>
    obtain ⟨hb, hne, hl⟩ := h
    refine ⟨(heq a mem_cons_self).trans hb, hne, ih hl fun x hx => ?_⟩
    exact heq x (mem_cons_of_mem a hx)

/-- A chain is determined by its first element. -/
theorem Follows.unique (h : Follows next stop a l) (h' : Follows next stop a l') : l = l' := by
  induction l generalizing a l' with
  | nil =>
    cases l' with
    | nil => rfl
    | cons b l' =>
      obtain ⟨hb, hne, -⟩ := h'
      exact absurd (Option.some.inj (hb.symm.trans h)) hne
  | cons b l ih =>
    obtain ⟨hb, hne, hl⟩ := h
    cases l' with
    | nil => exact absurd (Option.some.inj (hb.symm.trans h')) hne
    | cons b' l' =>
      obtain ⟨hb', -, hl'⟩ := h'
      obtain rfl := Option.some.inj (hb.symm.trans hb')
      rw [ih hl hl']

/-- The rest of a chain is a chain. -/
theorem Follows.drop (h : Follows next stop a (l₁ ++ b :: l₂)) : Follows next stop b l₂ := by
  induction l₁ generalizing a with
  | nil => exact h.2.2
  | cons c l₁ ih => exact ih h.2.2

section

variable (h : Follows next stop a l)

include h

/-- **No repetition.** -/
theorem Follows.nodup : (a :: l).Nodup := by
  induction l generalizing a with
  | nil => exact nodup_singleton a
  | cons b l ih =>
    refine nodup_cons.mpr ⟨fun hmem => ?_, ih h.2.2⟩
    -- the chain from `a` on would be a part of itself
    obtain ⟨l₁, l₂, heq⟩ := append_of_mem hmem
    have hshort : b :: l = l₂ := h.unique (heq ▸ h).drop
    have hlen := congrArg length heq
    rw [← hshort] at hlen
    simp only [length_append, length_cons] at hlen
    omega

theorem Follows.ne_stop : ∀ x ∈ l, x ≠ stop := by
  induction l generalizing a with
  | nil => simp
  | cons b l ih =>
    intro x hx
    rcases mem_cons.mp hx with rfl | hx
    · exact h.2.1
    · exact ih h.2.2 x hx

theorem Follows.next_last : next (last a l) = some stop := by
  induction l generalizing a with
  | nil => exact h
  | cons b l ih => exact ih h.2.2

/-- **A new last element.** -/
theorem Follows.snoc (hne : b ≠ stop) (hlast : next' (last a l) = some b) (hb : next' b = some stop)
    (hrest : ∀ x ∈ a :: l, x ≠ last a l → next' x = next x) :
    Follows next' stop a (l ++ [b]) := by
  induction l generalizing a with
  | nil => exact ⟨hlast, hne, hb⟩
  | cons c l ih =>
    have hmem : a ∉ c :: l := (nodup_cons.mp h.nodup).1
    obtain ⟨hc, hcne, hl⟩ := h
    refine ⟨?_, hcne, ih hl hlast fun x hx => hrest x (mem_cons_of_mem a hx)⟩
    refine (hrest a mem_cons_self fun heq => hmem ?_).trans hc
    rw [heq]
    exact last_mem c l

end

/-- **An element leaves**: the one in front takes over its successor. -/
theorem Follows.unlink (h : Follows next stop a (l₁ ++ b :: l₂))
    (hprev : next' (last a l₁) = next b)
    (hrest : ∀ x ∈ a :: (l₁ ++ l₂), x ≠ last a l₁ → next' x = next x) :
    Follows next' stop a (l₁ ++ l₂) := by
  induction l₁ generalizing a with
  | nil =>
    have hmem : a ∉ b :: l₂ := (nodup_cons.mp h.nodup).1
    obtain ⟨-, -, hl⟩ := h
    cases l₂ with
    | nil => exact hprev.trans hl
    | cons c l₂ =>
      obtain ⟨hc, hcne, hl⟩ := hl
      refine ⟨hprev.trans hc, hcne, hl.congr fun x hx => ?_⟩
      refine hrest x (mem_cons_of_mem a hx) ?_
      rintro rfl
      exact hmem (mem_cons_of_mem b hx)
  | cons c l₁ ih =>
    have hmem : a ∉ c :: (l₁ ++ b :: l₂) := (nodup_cons.mp h.nodup).1
    obtain ⟨hc, hcne, hl⟩ := h
    refine ⟨?_, hcne, ih hl hprev fun x hx => hrest x (mem_cons_of_mem a hx)⟩
    refine (hrest a mem_cons_self fun heq => hmem ?_).trans hc
    rw [heq]
    exact mem_append_left (b :: l₂) (last_mem c l₁)

end Chain
