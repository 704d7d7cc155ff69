import TreeWalk.Console.History
import TreeWalk.Proofs.Console.Stages
import TreeWalk.Proofs.Semantics.Output

/-! What sessions do with the output of their programs. They add texts to it and never look at what
it holds. -/
namespace TreeWalk

namespace Machine

theorem stateOf_conclude (program : List Stmt) (m : Machine) :
    stateOf (conclude program m) = stateOf (run program m) := by
  rw [conclude]
  cases run program m with
  | ok _ m₁ => rfl
  | error h m₁ =>
    cases h with
    | output e => rfl
    | fault f => cases f <;> rfl

/-- A program that does the same from another machine comes to the same conclusion. -/
theorem conclude_of_run {f : Machine → Machine} {program : List Stmt} {m m' : Machine}
    (h : run program m' = onState f (run program m)) :
    conclude program m' = onState f (conclude program m) := by
  rw [conclude, conclude, h]
  cases run program m with
  | ok _ m₁ => rfl
  | error h m₁ =>
    cases h with
    | output e => rfl
    | fault f => cases f <;> rfl

theorem output_runSource (source : String) (m : Machine) :
    ∃ t, (stateOf (runSource source m)).output = m.output.after t := by
  by_cases h : diagnosticsOf source = []
  · rw [runSource_of_nil h, stateOf_conclude]
    exact output_run _ m
  · rw [runSource_of_ne_nil h]
    exact ⟨"", (Sink.after_empty _).symm⟩

theorem runSource_behind (front source : String) (m : Machine) :
    runSource source (m.behind front) = onState (behind front) (runSource source m) := by
  by_cases h : diagnosticsOf source = []
  · rw [runSource_of_nil h]
    exact conclude_of_run (run_behind front (programOf source) m)
  · rw [runSource_of_ne_nil h, runSource_of_ne_nil h]
    rfl

end Machine

namespace Session

variable {ρ α β : Type}

/-- The session with another text in place of what has been printed. -/
def withText (text : String) (s : Session ρ) : Session ρ :=
  { s with machine := { s.machine with output := { s.machine.output with text := text } } }

@[simp] theorem withText_text (s : Session ρ) : s.withText s.machine.output.text = s := rfl

theorem writePrompt_withText {s : Session ρ} (hs : s.machine.IsUnlimited) (text : String) :
    writePrompt (s.withText text) = .ok () (s.withText (text ++ Prompt.text)) := by
  obtain ⟨⟨b, held, room⟩, l⟩ := s
  obtain rfl : room = none := hs
  rfl

theorem write_of_ok {text : String} {s : Session ρ} {out : Sink}
    (h : Sink.write text s.machine.output = .ok () out) :
    write text s = .ok () { s with machine := { s.machine with output := out } } := zoom_of_ok h

theorem write_of_error {text : String} {s : Session ρ} {e : StreamError} {out : Sink}
    (h : Sink.write text s.machine.output = .error e out) :
    write text s = .error (.stream e) { s with machine := { s.machine with output := out } } :=
  zoom_of_error h

/-- Texts are all that the step gives to the output. -/
def Writes (step : EStateM Abort (Session ρ) α) : Prop :=
  ∀ s, ∃ t, (stateOf (step s)).machine.output = s.machine.output.after t

theorem writes_pure (a : α) : Writes (pure a : EStateM Abort (Session ρ) α) :=
  fun _ => ⟨"", (Sink.after_empty _).symm⟩

theorem exists_after_bind (step : EStateM Abort (Session ρ) α)
    {next : α → EStateM Abort (Session ρ) β} (hnext : ∀ a, Writes (next a)) (s : Session ρ) :
    ∃ t, (stateOf ((step >>= next) s)).machine.output =
      (stateOf (step s)).machine.output.after t := by
  cases h : step s with
  | ok a s₁ =>
    rw [bind_eq_of_ok h]
    exact hnext a s₁
  | error e s₁ =>
    rw [bind_eq_of_error h]
    exact ⟨"", (Sink.after_empty _).symm⟩

theorem Writes.bind {step : EStateM Abort (Session ρ) α} {next : α → EStateM Abort (Session ρ) β}
    (hstep : Writes step) (hnext : ∀ a, Writes (next a)) : Writes (step >>= next) := by
  intro s
  obtain ⟨t, ht⟩ := hstep s
  obtain ⟨t', ht'⟩ := exists_after_bind step hnext s
  exact ⟨t ++ t', by rw [Sink.after_append, ← ht, ht']⟩

theorem Writes.isUnlimited {step : EStateM Abort (Session ρ) α} (hstep : Writes step)
    {s : Session ρ} (hs : s.machine.IsUnlimited) : (stateOf (step s)).machine.IsUnlimited := by
  obtain ⟨t, ht⟩ := hstep s
  exact hs.of_after ht

theorem writes_writePrompt : Writes (writePrompt : EStateM Abort (Session ρ) Unit) := by
  intro s
  rw [writePrompt, write, stateOf_zoom]
  exact ⟨Prompt.text, rfl⟩

variable [Listener ρ]

/-- A source that does the same from another machine does so in another session. -/
theorem run_of_runSource {f : Machine → Machine} {source : String} {s : Session ρ}
    (s' : Session ρ) (hmachine : Machine.runSource source s'.machine =
      onState f (Machine.runSource source s.machine)) (hlistener : s'.listener = s.listener) :
    run source s' = onState (fun s => { s with machine := f s.machine }) (run source s) := by
  rw [run_eq, run_eq, hmachine, hlistener]
  cases Machine.runSource source s.machine with
  | error o m => rfl
  | ok r m =>
    dsimp only [onState_ok]
    cases Listener.hearAll r.diagnostics s.listener <;> rfl

/-- What was printed before is of no account for what a run does. -/
theorem run_withText_append (front source text : String) (s : Session ρ) :
    run source (s.withText (front ++ text)) =
      onState (fun s₁ => s₁.withText (front ++ s₁.machine.output.text))
        (run source (s.withText text)) := by
  have hmachine := Machine.runSource_behind front source (s.withText text).machine
  exact run_of_runSource (f := Machine.behind front) (s.withText (front ++ text)) hmachine rfl

/-- A run that prints a text prints this text after any other one. -/
theorem run_withText {source : String} {s s₁ : Session ρ} {outcome : Outcome} {printed : String}
    (h : run source s = .ok outcome s₁)
    (hprinted : s₁.machine.output.text = s.machine.output.text ++ printed) (text : String) :
    run source (s.withText text) = .ok outcome (s₁.withText (text ++ printed)) := by
  -- Either run is the one with an empty output, with its own text in front of what is printed.
  have happend := run_withText_append s.machine.output.text source "" s
  have htext := run_withText_append text source "" s
  rw [String.append_empty] at happend htext
  rw [withText_text, h] at happend
  cases hrun : run source (s.withText "") with
  | error a s₀ =>
    rw [hrun] at happend
    cases happend
  | ok outcome' s₀ =>
    rw [hrun] at happend htext
    obtain ⟨rfl, rfl⟩ := EStateM.Result.ok.inj happend
    have hs₀ : s₀.machine.output.text = printed := (String.append_right_inj _).1 hprinted
    rw [htext, ← hs₀]
    rfl

theorem machine_run (source : String) (s : Session ρ) :
    (stateOf (run source s)).machine = stateOf (Machine.runSource source s.machine) := by
  rw [run_eq]
  cases Machine.runSource source s.machine with
  | error o m => rfl
  | ok r m =>
    dsimp only
    cases Listener.hearAll r.diagnostics s.listener <;> rfl

theorem writes_run (source : String) :
    Writes (run source : EStateM Abort (Session ρ) Outcome) := by
  intro s
  rw [machine_run]
  exact Machine.output_runSource source s.machine

theorem runLine_eq {line : List UInt8} {text : String} (hline : Prompt.decode? line = some text) :
    (runLine line : EStateM Abort (Session ρ) Unit) =
      run (Prompt.trimEnd text) >>= fun _ => pure () := by
  simp only [runLine, hline]

theorem runLine_of_run_ok {line : List UInt8} {text : String}
    (hline : Prompt.decode? line = some text) {s s₁ : Session ρ} {outcome : Outcome}
    (hrun : run (Prompt.trimEnd text) s = .ok outcome s₁) : runLine line s = .ok () s₁ := by
  rw [runLine_eq hline, bind_eq_of_ok hrun]
  rfl

theorem runLine_of_not_utf8 {line : List UInt8} (hline : Prompt.decode? line = none)
    (s : Session ρ) : runLine line s = .error (.stream .notUtf8) s := by
  simp only [runLine, hline]
  rfl

theorem writes_runLine (line : List UInt8) :
    Writes (runLine line : EStateM Abort (Session ρ) Unit) := by
  cases hline : Prompt.decode? line with
  | none =>
    intro s
    rw [runLine_of_not_utf8 hline]
    exact ⟨"", (Sink.after_empty _).symm⟩
  | some text =>
    rw [runLine_eq hline]
    exact (writes_run _).bind fun _ => writes_pure _

theorem writes_runLines (lines : List (List UInt8)) :
    Writes (runLines lines : EStateM Abort (Session ρ) Unit) := by
  induction lines with
  | nil => exact writes_writePrompt
  | cons line rest ih =>
    exact writes_writePrompt.bind fun _ => (writes_runLine line).bind fun _ => ih

theorem Step.writes (step : Step) :
    Writes (step.perform : EStateM Abort (Session ρ) (Option Outcome)) := by
  cases step with
  | run source => exact (writes_run source).bind fun _ => writes_pure _
  | prompt input => exact (writes_runLines _).bind fun _ => writes_pure _

end Session

end TreeWalk
