import TokenReplay.Session

/-!
# Steps

What an operation leaves behind: its outcome, the state of the thing it was done to, and the
session. State and session are there in any case. An operation that fails has not happened as far as
the outcome goes, but what it logged before stays in the log, and what it moved before stays moved.
-/

namespace TokenReplay

/-- The result of an operation on a state `σ` that gives an `α`. -/
structure Step (σ α : Type) where
  outcome : Except Overflow α
  state : σ
  session : Session

namespace Step

variable {σ τ α β : Type}

/-- The step with `f` done to what it gave. -/
def map (f : α → β) (step : Step σ α) : Step σ β :=
  { step with outcome := step.outcome.map f }

/-- The step seen from a larger state. -/
def embed (f : σ → τ) (step : Step σ α) : Step τ α :=
  { step with state := f step.state }

@[simp] theorem state_map (f : α → β) (step : Step σ α) : (step.map f).state = step.state := rfl

@[simp] theorem session_map (f : α → β) (step : Step σ α) : (step.map f).session = step.session :=
  rfl

theorem outcome_map_eq_ok_iff {f : α → β} {step : Step σ α} {b : β} :
    (step.map f).outcome = .ok b ↔ ∃ a, step.outcome = .ok a ∧ f a = b := by
  rw [map]
  cases step.outcome <;> simp [Except.map]

end Step

end TokenReplay
