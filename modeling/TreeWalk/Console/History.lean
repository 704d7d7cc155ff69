import TreeWalk.Console.Prompt

/-! A session used again and again. Each step goes on from what the one before has left, also where
that one failed. -/
namespace TreeWalk

namespace Session

/-- One use of a session: a source to run, or an input for the prompt. -/
inductive Step
  | run (source : String)
  | prompt (input : List UInt8)
deriving DecidableEq

variable {ρ : Type} [Listener ρ]

/-- Running a source has an outcome, the prompt has none. -/
def Step.perform : Step → EStateM Abort (Session ρ) (Option Outcome)
  | run source => do
    let outcome ← Session.run source
    pure (some outcome)
  | prompt input => do
    runPrompt input
    pure none

theorem Step.perform_run (source : String) (s : Session ρ) :
    (run source).perform s =
      match Session.run source s with
      | .ok outcome s => .ok (some outcome) s
      | .error a s => .error a s := by
  simp only [perform, bind, EStateM.bind]
  cases Session.run source s <;> rfl

theorem Step.stateOf_perform_run (source : String) (s : Session ρ) :
    stateOf ((run source).perform s) = stateOf (Session.run source s) := by
  rw [perform_run]
  cases Session.run source s <;> rfl

theorem Step.perform_prompt (input : List UInt8) (s : Session ρ) :
    (prompt input).perform s =
      match runPrompt input s with
      | .ok _ s => .ok none s
      | .error a s => .error a s := by
  simp only [perform, bind, EStateM.bind]
  cases runPrompt input s <;> rfl

/-- The session after all of the steps, whatever their results. -/
def after (steps : List Step) (s : Session ρ) : Session ρ :=
  steps.foldl (fun s step => stateOf (step.perform s)) s

@[simp] theorem after_nil (s : Session ρ) : after [] s = s := rfl

@[simp] theorem after_concat (steps : List Step) (step : Step) (s : Session ρ) :
    after (steps ++ [step]) s = stateOf (step.perform (after steps s)) := by
  simp [after]

end Session

end TreeWalk
