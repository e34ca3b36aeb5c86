import Mathlib.Tactic.Common

/-!
# Loops

A loop is a function that either takes a state to the next one or ends with a result.  It is run
for a number of rounds, which a measure that every round lowers shows to be enough.

* `runLoop` : the run;
* `exists_runLoop` : **a loop whose rounds keep an invariant and lower a measure ends**, in a
  state that satisfies the invariant.
-/

namespace Loops

variable {σ ρ : Type*} (round : σ → σ ⊕ ρ)

/-- Run the loop for at most so many rounds. -/
def runLoop : ℕ → σ → Option ρ
  | 0, _ => none
  | fuel + 1, s =>
    match round s with
    | .inl s' => runLoop fuel s'
    | .inr r => some r

variable {round} {s s' : σ} {r : ρ} {fuel : ℕ}

theorem runLoop_next (h : round s = .inl s') :
    runLoop round (fuel + 1) s = runLoop round fuel s' := by
  simp only [runLoop, h]

theorem runLoop_done (h : round s = .inr r) : runLoop round (fuel + 1) s = some r := by
  simp only [runLoop, h]

/-- **A loop whose rounds keep an invariant and lower a measure ends**, and it ends in a state
that satisfies the invariant. -/
theorem exists_runLoop {I : σ → Prop} {μ : σ → ℕ}
    (hstep : ∀ s s', I s → round s = .inl s' → I s' ∧ μ s' < μ s) (hs : I s) (hfuel : μ s < fuel) :
    ∃ s' r, I s' ∧ round s' = .inr r ∧ runLoop round fuel s = some r := by
  induction fuel generalizing s with
  | zero => omega
  | succ fuel ih =>
    cases h : round s with
    | inl s' =>
      obtain ⟨hs', hμ⟩ := hstep s s' hs h
      rw [runLoop_next h]
      exact ih hs' (by omega)
    | inr r => exact ⟨s, r, hs, h, runLoop_done h⟩

end Loops
