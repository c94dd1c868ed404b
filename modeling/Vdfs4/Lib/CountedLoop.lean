import Mathlib.Data.Set.Card

/-!
# Counted loops

A C loop `for (k = i; k < i + n; k++)` over a state. Its **body** either does not complete (an
assertion stops it), or leaves the loop with an error, or gives the state for the next round.

* `countedLoop_of_step` — the loop rule for rounds that all succeed: an invariant that moves
  from `k` to `k + 1` holds at the end.
-/

variable {σ ε : Type*}

/-- `for (k = i; k < i + n; k++) body`, left at the first error. -/
def countedLoop (body : Nat → σ → Option (Option ε × σ)) : Nat → Nat → σ → Option (Option ε × σ)
  | 0, _, s => some (none, s)
  | n + 1, i, s =>
    match body i s with
    | none => none
    | some (some e, s') => some (some e, s')
    | some (none, s') => countedLoop body n (i + 1) s'

/-- **The loop rule**: rounds that succeed and carry the invariant on lead to the end. -/
theorem countedLoop_of_step {body : Nat → σ → Option (Option ε × σ)} {I : Nat → σ → Prop}
    {n i : Nat} {s : σ} (h0 : I i s)
    (hstep : ∀ k t, i ≤ k → k < i + n → I k t → ∃ u, body k t = some (none, u) ∧ I (k + 1) u) :
    ∃ u, countedLoop body n i s = some (none, u) ∧ I (i + n) u := by
  induction n generalizing i s with
  | zero => exact ⟨s, rfl, h0⟩
  | succ n ih =>
    obtain ⟨t, ht, hI⟩ := hstep i s (Nat.le_refl i) (by omega) h0
    obtain ⟨u, hu, hend⟩ := ih hI fun k v hk hlt => hstep k v (by omega) (by omega)
    refine ⟨u, ?_, by rwa [Nat.add_right_comm] at hend⟩
    rw [countedLoop, ht]
    exact hu
