import Mathlib.Data.List.Induction

/-! Runs of a machine whose steps are possible in some states only. -/

namespace SecretTyping.Machine

variable {State Action : Type}

/-- Take steps one after another, as long as each is possible. -/
def run (step : State → Action → Option State) : State → List Action → Option State
  | state, [] => some state
  | state, action :: rest => (step state action).bind fun next => run step next rest

variable {step : State → Action → Option State}

/-- A run goes on where the run before it has ended. -/
theorem run_append (state : State) (first second : List Action) :
    run step state (first ++ second) =
      (run step state first).bind fun middle => run step middle second := by
  -- By induction on the steps of the first run.
  induction first generalizing state with
  | nil => rfl
  | cons action rest ih =>
    simp only [List.cons_append, run]
    cases step state action with
    | none => rfl
    | some next => exact ih next

/-- A run with one more step is a run and that step. -/
theorem run_concat {state after : State} {actions : List Action} {action : Action} :
    run step state (actions ++ [action]) = some after ↔
      ∃ before, run step state actions = some before ∧ step before action = some after := by
  -- The run is cut in front of its last step.
  have single : ∀ before, run step before [action] = step before action := by
    intro before
    cases stepped : step before action <;> simp [run, stepped]
  rw [run_append, Option.bind_eq_some_iff]
  simp only [single]

/-- What holds at the start and is kept by each step holds after every run, of which it may tell
something. -/
theorem run_induction {initial : State} (Holds : List Action → State → Prop)
    (start : Holds [] initial)
    (steps : ∀ actions before action after, run step initial actions = some before →
      Holds actions before → step before action = some after → Holds (actions ++ [action]) after)
    {actions : List Action} {state : State} (ran : run step initial actions = some state) :
    Holds actions state := by
  -- By induction on the steps, the last one first.
  induction actions using List.reverseRecOn generalizing state with
  | nil =>
    cases ran
    exact start
  | append_singleton actions action ih =>
    obtain ⟨before, earlier, stepped⟩ := run_concat.mp ran
    exact steps actions before action state earlier (ih earlier) stepped

end SecretTyping.Machine
