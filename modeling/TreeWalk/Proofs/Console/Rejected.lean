import TreeWalk.Proofs.Console.Prompt

/-! Sources with errors of syntax, among others. They are reported and nothing of them is executed,
so the other sources run as they do without them. -/
namespace TreeWalk

/-- A source with errors of syntax leaves the machine alone, whatever else it holds. -/
theorem Machine.eq_of_runSource_syntaxError {source : String} {m m' : Machine} {r : Run}
    (h : runSource source m = .ok r m') (hr : r.outcome = .syntaxError) : m' = m := by
  by_cases hnone : diagnosticsOf source = []
  · rw [runSource_of_nil hnone, conclude] at h
    split at h <;> cases h <;> cases hr
  · rw [runSource_of_ne_nil hnone] at h
    cases h
    rfl

namespace Session

/-- The runs in turn that no error of syntax has prevented. -/
def accepted (sources : List String) (turns : List Turn) : List (String × Turn) :=
  (sources.zip turns).filter fun run => run.2.ended.outcome ≠ .syntaxError

@[simp] theorem accepted_nil : accepted [] [] = [] := rfl

theorem accepted_cons_of_eq {turn : Turn} (h : turn.ended.outcome = .syntaxError)
    (source : String) (sources : List String) (turns : List Turn) :
    accepted (source :: sources) (turn :: turns) = accepted sources turns := by
  simp [accepted, h]

theorem accepted_cons_of_ne {turn : Turn} (h : turn.ended.outcome ≠ .syntaxError)
    (source : String) (sources : List String) (turns : List Turn) :
    accepted (source :: sources) (turn :: turns) = (source, turn) :: accepted sources turns := by
  simp [accepted, h]

variable {ρ : Type} [Listener ρ]

theorem machine_eq_of_run_syntaxError {source : String} {s s' : Session ρ}
    (h : run source s = .ok .syntaxError s') : s'.machine = s.machine := by
  have hmachine := machine_run source s
  rw [h, stateOf_ok] at hmachine
  rw [hmachine]
  rw [run_eq] at h
  cases hrun : Machine.runSource source s.machine with
  | error o m => simp [hrun] at h
  | ok r m =>
    have houtcome : r.outcome = .syntaxError := by
      simp only [hrun] at h
      split at h
      · exact (EStateM.Result.ok.inj h).1
      · cases h
    exact Machine.eq_of_runSource_syntaxError hrun houtcome

/-- The accepted runs do the same in a session where what was heard before is different. -/
theorem InTurn.accepted (hhears : ∀ (r : Report) (l : ρ), ∃ l₁, Listener.hear r l = .ok () l₁)
    {sources : List String} {turns : List Turn} {s s' : Session ρ}
    (h : InTurn sources turns s s') (l : ρ) :
    ∃ l', InTurn ((accepted sources turns).map Prod.fst) ((accepted sources turns).map Prod.snd)
      ⟨s.machine, l⟩ ⟨s'.machine, l'⟩ := by
  induction h generalizing l with
  | nil s => exact ⟨l, .nil _⟩
  | @cons source sources turn turns s s₁ s₂ hmachine hheard hrun hprinted hrest ih =>
    by_cases hturn : turn.ended.outcome = .syntaxError
    · rw [accepted_cons_of_eq hturn, ← Machine.eq_of_runSource_syntaxError hmachine hturn]
      exact ih l
    · obtain ⟨l₁, hl₁⟩ := Listener.exists_hearAll hhears turn.ended.diagnostics l
      obtain ⟨l', hl'⟩ := ih l₁
      have hsame : run source ⟨s.machine, l⟩ = .ok turn.ended.outcome ⟨s₁.machine, l₁⟩ := by
        simp only [run_eq, hmachine, hl₁]
      rw [accepted_cons_of_ne hturn]
      refine ⟨l', .cons ?_ ?_ hsame ?_ hl'⟩
      · exact hmachine
      · exact hl₁
      · exact hprinted

/-- With an output and a listener that refuse nothing, sources can be run in turn, and those without
errors of syntax run in turn without the others: each to the same outcome, with the same output and
the same diagnostics, and at the end with the same variables. A source with such errors executes
nothing in any session. -/
theorem inTurn_without_rejected
    (hhears : ∀ (r : Report) (l : ρ), ∃ l₁, Listener.hear r l = .ok () l₁)
    (sources : List String) {s : Session ρ} (hs : s.machine.IsUnlimited) :
    ∃ turns s', InTurn sources turns s s' ∧
      (∃ l', InTurn ((accepted sources turns).map Prod.fst)
        ((accepted sources turns).map Prod.snd) s ⟨s'.machine, l'⟩) ∧
      ∀ (source : String) (s₁ s₂ : Session ρ), run source s₁ = .ok .syntaxError s₂ →
        s₂.machine = s₁.machine := by
  obtain ⟨turns, s', hturns⟩ := exists_inTurn hhears sources hs
  exact ⟨turns, s', hturns, hturns.accepted hhears s.listener,
    fun _ _ _ h => machine_eq_of_run_syntaxError h⟩

/-- A source with a good statement before the error, in front of one that runs. -/
theorem inTurn_without_rejected_print : ∃ turns s',
    InTurn ["print 1; var;", "x;"] turns ⟨{}, []⟩ s' ∧
    s'.listener = [Report.error 1 " at ';'" "Expect variable name.",
      Report.runtimeError 1 "Undefined variable 'x'."] ∧
    ∃ l', InTurn ["x;"] (turns.drop 1) ⟨{}, ([] : List Report)⟩ ⟨s'.machine, l'⟩ := by
  have hrejected : run "print 1; var;" ⟨{}, []⟩ =
      .ok .syntaxError ⟨{}, [Report.error 1 " at ';'" "Expect variable name."]⟩ := by
    have hds : diagnosticsOf "print 1; var;" =
        [⟨.syntactic ⟨.symbol .semicolon, ";", 1⟩, "Expect variable name."⟩] := by decide +kernel
    rw [run_eq, Machine.runSource_of_ne_nil (by simp [hds]), hds]
    rfl
  obtain ⟨turns, s', hturns, ⟨l', haccepted⟩, -⟩ :=
    inTurn_without_rejected (s := ⟨{}, ([] : List Report)⟩) (fun r l => ⟨l ++ [r], rfl⟩)
      ["print 1; var;", "x;"] rfl
  refine ⟨turns, s', hturns, ?_⟩
  cases hturns with
  | @cons _ _ first turns _ _ _ _ _ hrun _ hrest =>
    rw [hrejected] at hrun
    obtain ⟨hfirst, rfl⟩ := EStateM.Result.ok.inj hrun
    rw [accepted_cons_of_eq hfirst.symm] at haccepted
    cases hrest with
    | @cons _ _ second _ _ _ _ _ _ hrun' _ hrest' =>
      cases hrest'
      rw [run_of_run_error programOf_reference.1 run_programOf_reference rfl] at hrun'
      obtain ⟨hsecond, rfl⟩ := EStateM.Result.ok.inj hrun'
      have hne : second.ended.outcome ≠ .syntaxError := by simp [← hsecond]
      rw [accepted_cons_of_ne hne] at haccepted
      exact ⟨rfl, l', haccepted⟩

end Session

end TreeWalk
