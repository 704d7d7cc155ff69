import TreeWalk.Console.History
import TreeWalk.Proofs.Console.Stages
import TreeWalk.Proofs.Semantics.Stops

/-! No source makes a session meet an operator that has no rule: reading puts operators only where
they have one, and nothing but what was read is ever executed. -/
namespace TreeWalk

theorem isPlaced_programOf (source : String) : ∀ s ∈ programOf source, s.IsPlaced :=
  fun s hs => (Program.isWellFormed_statements _ s hs).isPlaced

theorem Machine.runSource_ne_stray (source : String) (m m' : Machine) (o : StrayOperator) :
    runSource source m ≠ .error o m' := by
  cases hnone : diagnosticsOf source with
  | cons d ds =>
    rw [runSource_of_ne_nil (by simp [hnone])]
    simp
  | nil =>
    rw [runSource_of_nil hnone, conclude]
    cases hrun : run (programOf source) m with
    | ok _ m₁ => simp
    | error h m₁ =>
      cases h with
      | output e => simp
      | fault f =>
        cases f with
        | runtime e => simp
        | stray o' => exact absurd hrun (run_ne_stray (isPlaced_programOf source) m m₁ o')

namespace Session

variable {ρ α β : Type}

/-- The step meets no operator that has no rule. -/
def NeverStrays (step : EStateM Abort (Session ρ) α) : Prop :=
  ∀ s o s', step s ≠ .error (.stray o) s'

theorem neverStrays_pure (a : α) : NeverStrays (pure a : EStateM Abort (Session ρ) α) := by
  intro s o s' h
  cases h

theorem NeverStrays.bind {step : EStateM Abort (Session ρ) α}
    {next : α → EStateM Abort (Session ρ) β} (hstep : NeverStrays step)
    (hnext : ∀ a, NeverStrays (next a)) : NeverStrays (step >>= next) := by
  intro s o s' h
  cases hs : step s with
  | ok a s₁ =>
    rw [bind_eq_of_ok hs] at h
    exact hnext a s₁ o s' h
  | error e s₁ =>
    rw [bind_eq_of_error hs] at h
    cases h
    exact hstep s o s' hs

/-- What works on a stream can only fail as streams do. -/
theorem neverStrays_zoom_stream {τ : Type} (get : Session ρ → τ) (set : Session ρ → τ → Session ρ)
    (step : EStateM StreamError τ α) : NeverStrays (zoom get set Abort.stream step) := by
  intro s o s' h
  rw [zoom] at h
  split at h <;> cases h

variable [Listener ρ]

theorem neverStrays_run (source : String) :
    NeverStrays (run source : EStateM Abort (Session ρ) Outcome) := by
  intro s o s' h
  rw [run_eq] at h
  cases hrun : Machine.runSource source s.machine with
  | ok r m =>
    rw [hrun] at h
    dsimp only at h
    split at h <;> cases h
  | error o' m => exact Machine.runSource_ne_stray source s.machine m o' hrun

theorem neverStrays_runLine (line : List UInt8) :
    NeverStrays (runLine line : EStateM Abort (Session ρ) Unit) := by
  rw [runLine]
  split
  · intro s o s' h
    cases h
  · exact (neverStrays_run _).bind fun _ => neverStrays_pure _

theorem neverStrays_runLines (lines : List (List UInt8)) :
    NeverStrays (runLines lines : EStateM Abort (Session ρ) Unit) := by
  have hprompt : NeverStrays (writePrompt : EStateM Abort (Session ρ) Unit) :=
    neverStrays_zoom_stream _ _ _
  induction lines with
  | nil => exact hprompt
  | cons line rest ih => exact hprompt.bind fun _ => (neverStrays_runLine line).bind fun _ => ih

theorem Step.neverStrays (step : Step) :
    NeverStrays (step.perform : EStateM Abort (Session ρ) (Option Outcome)) := by
  cases step with
  | run source => exact (neverStrays_run source).bind fun _ => neverStrays_pure _
  | prompt input => exact (neverStrays_runLines _).bind fun _ => neverStrays_pure _

/-- Every operator and every name in what is read stands where the language has one, whatever the
tokens are. So no operator without a rule is met in any session, after any sources and inputs. -/
theorem perform_ne_stray :
    (∀ ts : List Token, ∀ s ∈ Program.statements (Program.read ts).items, s.IsWellFormed) ∧
    ∀ (s : Session ρ) (steps : List Step) (step : Step) (o : StrayOperator) (s' : Session ρ),
      step.perform (after steps s) ≠ .error (.stray o) s' :=
  ⟨Program.isWellFormed_statements, fun s steps step => step.neverStrays (after steps s)⟩

end Session

end TreeWalk
