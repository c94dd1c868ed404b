import Mathlib.Data.Set.Card

/-!
# Guarded runs of a partial step function

A system is a **partial step function** `step : σ → α → Option σ`: `none` says the
operation did not complete (an assertion of the code stopped it). A **guard**
`ok : σ → α → Prop` says which operations the environment may issue in a state.

* `Reaches ok step s s'` — `s'` is reached from `s` by completed, permitted steps.
* `guardedRun` — the same run **computed** from a list of operations, for a guard
  that can be decided.
* `Reaches.invariant` — the induction over runs, stated once: what holds at the
  start and survives every permitted step holds of every reached state.
* `Ends E P x` — the computation `x` ends with a result in `P` or with an error in `E`; one
  rule for each way to build a computation.
-/

namespace GuardedRun

variable {σ α : Type*} {ok : σ → α → Prop} {step : σ → α → Option σ}

/-- One permitted step that completes. -/
def Step (ok : σ → α → Prop) (step : σ → α → Option σ) (s s' : σ) : Prop :=
  ∃ a, ok s a ∧ step s a = some s'

/-- `s'` is reached from `s` by permitted steps that all complete. -/
def Reaches (ok : σ → α → Prop) (step : σ → α → Option σ) : σ → σ → Prop :=
  Relation.ReflTransGen (Step ok step)

theorem Reaches.refl (s : σ) : Reaches ok step s s := Relation.ReflTransGen.refl

theorem Reaches.tail {s t u : σ} (h : Reaches ok step s t) {a : α} (hok : ok t a)
    (hstep : step t a = some u) : Reaches ok step s u :=
  Relation.ReflTransGen.tail h ⟨a, hok, hstep⟩

/-- **The invariant rule**: an inductive invariant holds of every reached state. -/
theorem Reaches.invariant {I : σ → Prop} {s s' : σ} (h : Reaches ok step s s') (h0 : I s)
    (hstep : ∀ t a u, I t → ok t a → step t a = some u → I u) : I s' := by
  induction h with
  | refl => exact h0
  | tail _ hlast ih =>
    obtain ⟨a, hok, hs⟩ := hlast
    exact hstep _ a _ ih hok hs

/-- Run a list of operations; `none` when one is not permitted or does not complete. -/
def guardedRun (ok : σ → α → Prop) [∀ s a, Decidable (ok s a)] (step : σ → α → Option σ) :
    List α → σ → Option σ
  | [], s => some s
  | a :: ops, s => if ok s a then (step s a).bind (guardedRun ok step ops) else none

/-- A run of two lists, one after the other. -/
theorem guardedRun_append [∀ s a, Decidable (ok s a)] (ops ops' : List α) (s : σ) :
    guardedRun ok step (ops ++ ops') s =
      (guardedRun ok step ops s).bind (guardedRun ok step ops') := by
  induction ops generalizing s with
  | nil => rfl
  | cons a ops ih =>
    simp only [List.cons_append, guardedRun]
    split
    · cases step s a with
      | none => rfl
      | some t => exact ih t
    · rfl

theorem reaches_of_guardedRun [∀ s a, Decidable (ok s a)] {ops : List α} {s s' : σ}
    (h : guardedRun ok step ops s = some s') : Reaches ok step s s' := by
  induction ops generalizing s with
  | nil =>
    obtain rfl := Option.some.inj h
    exact Reaches.refl s
  | cons a ops ih =>
    simp only [guardedRun] at h
    split at h
    · rename_i hok
      obtain ⟨t, ht, hrest⟩ := Option.bind_eq_some_iff.mp h
      exact Relation.ReflTransGen.head ⟨a, hok, ht⟩ (ih hrest)
    · cases h

/-- A step that is computed with errors completes with its result. -/
theorem eq_ok_of_toOption {ε β : Type*} {x : Except ε β} {b : β} (h : x.toOption = some b) :
    x = .ok b := by
  cases x with
  | error e => cases h
  | ok b' => exact congrArg Except.ok (Option.some.inj h)

/-! ### Computations that may stop -/

section ends

variable {ε β γ : Type*} {E : ε → Prop} {P Q : β → Prop} {R : γ → Prop} {x : Except ε β}

/-- The computation ends with a result in `P` or with an error in `E`. -/
def Ends (E : ε → Prop) (P : β → Prop) : Except ε β → Prop
  | .ok b => P b
  | .error e => E e

theorem Ends.of_eq_ok (h : Ends E P x) {b : β} (hx : x = .ok b) : P b := by
  rw [hx] at h
  exact h

theorem Ends.mono (h : Ends E P x) (hPQ : ∀ b, P b → Q b) : Ends E Q x := by
  cases x with
  | error e => exact h
  | ok b => exact hPQ b h

theorem Ends.monoError {E' : ε → Prop} (h : Ends E P x) (hE : ∀ e, E e → E' e) : Ends E' P x := by
  cases x with
  | error e => exact hE e h
  | ok b => exact h

theorem Ends.trivial (x : Except ε β) : Ends (fun _ => True) (fun _ => True) x := by
  cases x <;> exact True.intro

/-- Two facts about one computation. -/
theorem Ends.and {E' : ε → Prop} (h : Ends E P x) (h' : Ends E' Q x) :
    Ends (fun e => E e ∧ E' e) (fun b => P b ∧ Q b) x := by
  cases x with
  | error e => exact ⟨h, h'⟩
  | ok b => exact ⟨h, h'⟩

/-- One computation after another. -/
theorem Ends.bind {f : β → Except ε γ} (h : Ends E P x) (hf : ∀ b, P b → Ends E R (f b)) :
    Ends E R (x.bind f) := by
  cases x with
  | error e => exact h
  | ok b => exact hf b h

theorem Ends.map {f : β → γ} (h : Ends E P x) (hf : ∀ b, P b → R (f b)) :
    Ends E R (x.map f) := by
  cases x with
  | error e => exact h
  | ok b => exact hf b h

/-- Errors under another name. -/
theorem Ends.mapError {ε' : Type*} {E' : ε' → Prop} {f : ε → ε'} (h : Ends E P x)
    (hf : ∀ e, E e → E' (f e)) : Ends E' P (x.mapError f) := by
  cases x with
  | error e => exact hf e h
  | ok b => exact h

/-- **The loop rule**: what every round keeps holds at the end of the loop. -/
theorem Ends.foldlM {f : β → γ → Except ε β} (hf : ∀ b c, P b → Ends E P (f b c)) (l : List γ)
    {b : β} (hb : P b) : Ends E P (l.foldlM f b) := by
  induction l generalizing b with
  | nil => exact hb
  | cons c l ih =>
    rw [List.foldlM_cons]
    exact (hf b c hb).bind fun b' hb' => ih hb'

end ends

end GuardedRun
