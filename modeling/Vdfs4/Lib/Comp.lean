import Mathlib.Data.Set.Card

/-!
# Computations with a state and an error code

Code that changes a shared state, returns an **error code**, and may be **stopped** by an
assertion, as a monad.

* `Comp σ ε α` — from a state to nothing (stopped) or to a result or an error, and a state; an error
  keeps what was changed before it;
* `attempt` — the result **or** the error, as a value: for code that looks at the error code;
* `Yields x s Q` — whatever `x` returns when it is started in `s`, `Q` holds of it: one rule for
  each way to build a computation.
-/

/-- A computation: stopped, or a result or an error, with the state it leaves. -/
def Comp (σ ε α : Type) : Type := σ → Option (Except ε α × σ)

namespace Comp

variable {σ ε α β : Type}

/-- Return a value. -/
protected def pure (a : α) : Comp σ ε α := fun s => some (.ok a, s)

/-- Go on with the result; an error ends the computation. -/
protected def bind (x : Comp σ ε α) (f : α → Comp σ ε β) : Comp σ ε β := fun s =>
  match x s with
  | none => none
  | some (.error e, s') => some (.error e, s')
  | some (.ok a, s') => f a s'

instance : Monad (Comp σ ε) where
  pure := Comp.pure
  bind := Comp.bind

/-- Return an error. -/
def fail (e : ε) : Comp σ ε α := fun s => some (.error e, s)

/-- The state. -/
def get : Comp σ ε σ := fun s => some (.ok s, s)

/-- Change the state. -/
def modify (f : σ → σ) : Comp σ ε Unit := fun s => some (.ok (), f s)

/-! ### Running a computation -/

variable {x : Comp σ ε α} {f : α → Comp σ ε β} {s s' : σ} {a : α} {e : ε}

/-! ### What a computation can return -/

variable {Q R : Except ε α → σ → Prop} {S : Except ε β → σ → Prop}

/-- `Q` holds of whatever the computation returns from `s`. -/
def Yields (x : Comp σ ε α) (s : σ) (Q : Except ε α → σ → Prop) : Prop :=
  ∀ r s', x s = some (r, s') → Q r s'

theorem Yields.mono (h : Yields x s Q) (hQR : ∀ r s', Q r s' → R r s') : Yields x s R :=
  fun r s' hx => hQR r s' (h r s' hx)

theorem Yields.pure (h : Q (.ok a) s) : Yields (pure a : Comp σ ε α) s Q := by
  intro r s' hx
  cases hx
  exact h

theorem Yields.fail (h : Q (.error e) s) : Yields (fail e : Comp σ ε α) s Q := by
  intro r s' hx
  cases hx
  exact h

theorem Yields.modify {f : σ → σ} {Q : Except ε Unit → σ → Prop} (h : Q (.ok ()) (f s)) :
    Yields (modify f : Comp σ ε Unit) s Q := by
  intro r s' hx
  cases hx
  exact h

/-- **Sequencing**: `P` of the first result is enough for the rest, and of an error for the
whole. -/
theorem Yields.bind {P : Except ε α → σ → Prop} (h : Yields x s P)
    (hok : ∀ a s', P (.ok a) s' → Yields (f a) s' S)
    (herr : ∀ e s', P (.error e) s' → S (.error e) s') : Yields (x >>= f) s S := by
  intro r s' hx
  change Comp.bind x f s = some (r, s') at hx
  rw [Comp.bind] at hx
  rcases hrun : x s with _ | ⟨e | a, s1⟩
  · rw [hrun] at hx
    cases hx
  · rw [hrun] at hx
    cases hx
    exact herr e _ (h _ _ hrun)
  · rw [hrun] at hx
    exact hok a s1 (h _ _ hrun) r s' hx

theorem Yields.get_bind {f : σ → Comp σ ε β} (h : Yields (f s) s S) : Yields (get >>= f) s S := h

theorem Yields.modify_bind {g : σ → σ} {f : Unit → Comp σ ε β} (h : Yields (f ()) (g s) S) :
    Yields (Comp.modify g >>= f) s S := h

end Comp
