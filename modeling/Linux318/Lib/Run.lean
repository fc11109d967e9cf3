import Mathlib.Logic.Function.Basic

/-!
Finite runs of an event-driven system. The choices of the environment (which call
comes next, whether an allocation succeeds) are part of the event, so that the
effect of one event is a function of the state it finds.
-/
namespace Linux318.Lib

/-- A property of the result of a step that may fail. -/
instance decidableResult {σ : Type} (result : Option σ) (P : σ → Prop) [∀ s, Decidable (P s)] :
    Decidable (∀ s, result = some s → P s) :=
  match result with
  | none => isTrue fun _ impossible => absurd impossible (by simp)
  | some s => decidable_of_iff (P s) (by simp)

section Run
variable {σ ε : Type} (next : σ → ε → σ)

def runFrom (s : σ) (events : List ε) : σ := events.foldl next s

/-- Every event of the run meets `ok` in the state that it finds. -/
def StepsMeet (ok : σ → ε → Prop) : σ → List ε → Prop
  | _, [] => True
  | s, e :: rest => ok s e ∧ StepsMeet ok (next s e) rest

instance decidableStepsMeet (ok : σ → ε → Prop) [∀ s e, Decidable (ok s e)] :
    (s : σ) → (events : List ε) → Decidable (StepsMeet next ok s events)
  | _, [] => isTrue trivial
  | s, e :: rest =>
    have := decidableStepsMeet ok (next s e) rest
    inferInstanceAs (Decidable (ok s e ∧ StepsMeet next ok (next s e) rest))

@[simp] theorem runFrom_nil (s : σ) : runFrom next s [] = s := rfl

@[simp] theorem runFrom_cons (s : σ) (e : ε) (rest : List ε) :
    runFrom next s (e :: rest) = runFrom next (next s e) rest := rfl

/-- A property of the first state that every admitted event preserves holds of
the last state of every run of admitted events. -/
theorem runFrom_invariant {inv : σ → Prop} {ok : σ → ε → Prop}
    (preserved : ∀ s e, inv s → ok s e → inv (next s e)) (events : List ε) (s : σ)
    (before : inv s) (meets : StepsMeet next ok s events) : inv (runFrom next s events) := by
  induction events generalizing s with
  | nil => exact before
  | cons e rest ih => exact ih (next s e) (preserved s e before meets.1) meets.2

/-- The rule for a property that every event preserves. -/
theorem runFrom_invariant_always {inv : σ → Prop} (preserved : ∀ s e, inv s → inv (next s e))
    (events : List ε) (s : σ) (before : inv s) : inv (runFrom next s events) := by
  induction events generalizing s with
  | nil => exact before
  | cons e rest ih => exact ih (next s e) (preserved s e before)

end Run

/-- The rule for steps that may fail. The property has the events that are still to come, so that it
can say what they must meet. -/
theorem foldlM_invariant {σ ε : Type} {step : σ → ε → Option σ} (inv : List ε → σ → Prop)
    (preserved : ∀ e rest s, inv (e :: rest) s → ∃ s', step s e = some s' ∧ inv rest s')
    (events : List ε) (s : σ) (before : inv events s) :
    ∃ s', events.foldlM step s = some s' ∧ inv [] s' := by
  induction events generalizing s with
  | nil => exact ⟨s, rfl, before⟩
  | cons e rest ih =>
    obtain ⟨mid, stepped, after⟩ := preserved e rest s before
    rw [List.foldlM_cons, stepped]
    exact ih mid after

end Linux318.Lib
