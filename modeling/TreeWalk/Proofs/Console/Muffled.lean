import TreeWalk.Proofs.Console.Limited
import TreeWalk.Proofs.Console.Reports

/-! Sessions with room for so many line feeds of diagnostics. A program never learns what became of
its diagnostics, so these sessions do what sessions do whose diagnostics are all taken, and keep the
part of the diagnostics that fits. Only the answer differs: it is the failure of the listener where
something was cut. -/
namespace TreeWalk

/-- The lines that a sink is given for some diagnostics. -/
def Diagnostic.listing (ds : List Diagnostic) : String :=
  String.join (ds.map fun d => d.display ++ "\n")

/-- A limited listener takes diagnostics as it takes their lines together. -/
theorem Listener.hearAll_limited (n : Nat) (ds : List Diagnostic) (text : String) :
    hearAll ds (Sink.limited n text) =
      if Fits (n - lineFeeds text.toList) (Diagnostic.listing ds) then
        .ok () (Sink.limited n (text ++ Diagnostic.listing ds))
      else .error .full (Sink.limited n (text ++ Diagnostic.listing ds)) := by
  induction ds generalizing text with
  | nil =>
    have hnil : Diagnostic.listing [] = "" := rfl
    have hfits : Fits (n - lineFeeds text.toList) "" := throughLineFeed_nil _
    rw [hnil, if_pos hfits, String.append_empty, hearAll_nil]
  | cons d ds ih =>
    have hcons : Diagnostic.listing (d :: ds) = d.display ++ "\n" ++ Diagnostic.listing ds := by
      simp [Diagnostic.listing]
    have hroom : n - lineFeeds (text ++ (d.display ++ "\n")).toList =
        n - lineFeeds text.toList - lineFeeds (d.display ++ "\n").toList := by
      rw [String.toList_append, lineFeeds_append, Nat.sub_add_eq]
    have htext : text ++ (d.display ++ "\n" ++ Diagnostic.listing ds) =
        text ++ (d.display ++ "\n") ++ Diagnostic.listing ds := String.append_assoc.symm
    rw [hearAll_cons, hear_sink, Diagnostic.text_report, Sink.write_limited_eq, hcons, htext]
    by_cases hline : Fits (n - lineFeeds text.toList) (d.display ++ "\n")
    · simp only [hline, if_true, ih, hroom, fits_append, true_and]
    · have hover : ¬Fits n (text ++ (d.display ++ "\n")) := fun h => hline (fits_append.1 h).2
      simp only [hline, if_false, fits_append, false_and, Sink.limited_append_of_not_fits hover]

namespace Session

/-- The session with a listener for `n` line feeds in place of one that takes everything, after the
same diagnostics. -/
def muffled (n : Nat) (s : Session Sink) : Session Sink :=
  { s with listener := .limited n s.listener.text }

/-- No diagnostic is refused. -/
def HearsAll (s : Session Sink) : Prop := s.listener.room = none

/-- The lines of all diagnostics of a run are added to those of the runs before it. -/
theorem exists_run_of_hearsAll (source : String) {s : Session Sink} (hs : s.machine.IsUnlimited)
    (hl : s.HearsAll) : ∃ r s', Machine.Ends source s.machine r s'.machine ∧
      s'.listener = ⟨s.listener.text ++ Diagnostic.listing r.diagnostics, none⟩ ∧
      run source s = .ok r.outcome s' ∧ s'.machine.IsUnlimited := by
  obtain ⟨machine, text, room⟩ := s
  obtain rfl : room = none := hl
  obtain ⟨r, m, hends, hm⟩ := Machine.exists_ends source hs
  exact ⟨r, ⟨m, _⟩, hends, rfl, run_of_ends hends (Listener.hearAll_sink _ _), hm⟩

/-- What a run does with and without a limit for its diagnostics. -/
structure RunsMuffled (n : Nat) (source : String) (s : Session Sink) (r : Run)
    (s' : Session Sink) : Prop where
  machine : Machine.runSource source s.machine = .ok r s'.machine
  listener : s'.listener = ⟨s.listener.text ++ Diagnostic.listing r.diagnostics, none⟩
  run_eq : run source s = .ok r.outcome s'
  muffled_ok : Sink.kept n s'.listener.text =
      Sink.kept n s.listener.text ++ Diagnostic.listing r.diagnostics →
    run source (s.muffled n) = .ok r.outcome (s'.muffled n)
  muffled_error : Sink.kept n s'.listener.text ≠
      Sink.kept n s.listener.text ++ Diagnostic.listing r.diagnostics →
    run source (s.muffled n) = .error (.stream .full) (s'.muffled n)

theorem exists_runsMuffled (n : Nat) (source : String) {s : Session Sink}
    (hs : s.machine.IsUnlimited) (hl : s.HearsAll) :
    ∃ r s', RunsMuffled n source s r s' ∧ s'.machine.IsUnlimited ∧ s'.HearsAll := by
  obtain ⟨r, ⟨m, l⟩, hends, rfl, hrun, hm⟩ := exists_run_of_hearsAll source hs hl
  have hmuffled := Listener.hearAll_limited n r.diagnostics s.listener.text
  refine ⟨r, _, ⟨hends.runSource, rfl, hrun, ?_, ?_⟩, hm, rfl⟩
  · intro hkept
    rw [if_pos (Sink.kept_append_eq_iff.1 hkept)] at hmuffled
    exact run_of_ends hends hmuffled
  · intro hkept
    rw [if_neg fun hfits => hkept (Sink.kept_append_eq_iff.2 hfits)] at hmuffled
    simp only [Session.run_eq, muffled, hends.runSource, hmuffled]

theorem RunsMuffled.stateOf_run {n : Nat} {source : String} {s s' : Session Sink} {r : Run}
    (h : RunsMuffled n source s r s') : stateOf (run source (s.muffled n)) = s'.muffled n := by
  by_cases hkept : Sink.kept n s'.listener.text =
      Sink.kept n s.listener.text ++ Diagnostic.listing r.diagnostics
  · rw [h.muffled_ok hkept, stateOf_ok]
  · rw [h.muffled_error hkept, stateOf_error]

theorem after_muffled (n : Nat) (sources : List String) {s : Session Sink}
    (hs : s.machine.IsUnlimited) (hl : s.HearsAll) :
    after (sources.map .run) (s.muffled n) = (after (sources.map .run) s).muffled n ∧
      (after (sources.map .run) s).machine.IsUnlimited ∧ (after (sources.map .run) s).HearsAll := by
  induction sources using List.reverseRecOn with
  | nil => exact ⟨rfl, hs, hl⟩
  | append_singleton sources source ih =>
    obtain ⟨hmuffled, hs₁, hl₁⟩ := ih
    obtain ⟨r, s₂, hruns, hs₂, hl₂⟩ := exists_runsMuffled n source hs₁ hl₁
    rw [List.map_append, List.map_singleton, after_concat, after_concat, hmuffled,
      Step.stateOf_perform_run, Step.stateOf_perform_run, hruns.stateOf_run, hruns.run_eq, stateOf_ok]
    exact ⟨rfl, hs₂, hl₂⟩

/-- The prompt comes to a line whose diagnostics are cut. The lines before it and this line itself
are run to their ends. -/
inductive CutsOff (n : Nat) : List (List UInt8) → Session Sink → Session Sink → Prop
  | atLine {before rest : List (List UInt8)} {line : List UInt8} {text : String}
    {s s₁ s₂ : Session Sink} {r : Run} (hbefore : runPrompted before s = .ok () s₁)
    (hmuffled : runPrompted before (s.muffled n) = .ok () (s₁.muffled n))
    (hline : Prompt.decode? line = some text)
    (hruns : RunsMuffled n (Prompt.trimEnd text) s₁.prompted r s₂)
    (hcut : Sink.kept n s₂.listener.text ≠
      Sink.kept n s₁.listener.text ++ Diagnostic.listing r.diagnostics) :
    CutsOff n (before ++ line :: rest) s s₂

theorem writePrompt_muffled (n : Nat) {s : Session Sink} (hs : s.machine.IsUnlimited) :
    writePrompt (s.muffled n) = .ok () (s.prompted.muffled n) :=
  writePrompt_eq (s := s.muffled n) hs

theorem CutsOff.cons {n : Nat} {line : List UInt8} {rest : List (List UInt8)}
    {s s₁ s₂ : Session Sink} (h : CutsOff n rest s₁ s₂) (hs : s.machine.IsUnlimited)
    (hline : runLine line s.prompted = .ok () s₁)
    (hmuffled : runLine line (s.prompted.muffled n) = .ok () (s₁.muffled n)) :
    CutsOff n (line :: rest) s s₂ := by
  cases h with
  | @atLine before rest line' text _ s₃ _ r hbefore hbefore' hline' hruns hcut =>
    refine @CutsOff.atLine n (line :: before) rest line' text s s₃ s₂ r ?_ ?_ hline' hruns hcut
    · rw [runPrompted_cons line before hs, hline]
      exact hbefore
    · have hprompted : (s.muffled n).prompted = s.prompted.muffled n := rfl
      rw [runPrompted_cons (s := s.muffled n) line before hs, hprompted, hmuffled]
      exact hbefore'

theorem runLines_muffled (n : Nat) (lines : List (List UInt8)) {s : Session Sink}
    (hs : s.machine.IsUnlimited) (hl : s.HearsAll) :
    runLines lines (s.muffled n) = onState (muffled n) (runLines lines s) ∨
      ∃ s₂, CutsOff n lines s s₂ := by
  induction lines generalizing s with
  | nil =>
    rw [runLines_nil, runLines_nil, writePrompt_muffled n hs, writePrompt_eq hs]
    exact .inl rfl
  | cons line rest ih =>
    rw [runLines_cons, runLines_cons, writePrompt_muffled n hs, writePrompt_eq hs]
    cases hline : Prompt.decode? line with
    | none =>
      simp only [runLine_of_not_utf8 hline]
      exact .inl rfl
    | some text =>
      obtain ⟨r, s₁, hruns, hs₁, hl₁⟩ :=
        exists_runsMuffled n (Prompt.trimEnd text) (s := s.prompted) hs hl
      by_cases hkept : Sink.kept n s₁.listener.text =
          Sink.kept n s.listener.text ++ Diagnostic.listing r.diagnostics
      · have hrun := runLine_of_run_ok hline hruns.run_eq
        have hmuffled := runLine_of_run_ok hline (hruns.muffled_ok hkept)
        simp only [hrun, hmuffled]
        exact (ih hs₁ hl₁).imp_right fun ⟨s₂, hcuts⟩ => ⟨s₂, hcuts.cons hs hrun hmuffled⟩
      · exact .inr ⟨s₁, @CutsOff.atLine n [] rest line text s s s₁ r rfl rfl hline hruns hkept⟩

/-- Where diagnostics are cut, the prompt ends with the failure of the listener. -/
theorem CutsOff.runLines_eq {n : Nat} {lines : List (List UInt8)} {s s₂ : Session Sink}
    (h : CutsOff n lines s s₂) (hs : s.machine.IsUnlimited) :
    runLines lines (s.muffled n) = .error (.stream .full) (s₂.muffled n) := by
  cases h with
  | @atLine before rest line text _ s₁ _ r hbefore hmuffled hline hruns hcut =>
    have hs₁ := (writes_runPrompted before).isUnlimited hs
    rw [hbefore, stateOf_ok] at hs₁
    have herror : runLine line (s₁.prompted.muffled n) =
        .error (.stream .full) (s₂.muffled n) := by
      rw [runLine_eq hline, bind_eq_of_error (hruns.muffled_error hcut)]
    rw [runLines_of_runPrompted (s := s.muffled n) hmuffled hs, runLines_cons,
      writePrompt_muffled n hs₁]
    simp only [herror]

/-- With room for `n` line feeds of diagnostics, a session has after any runs the variables and the
output that it has when all diagnostics are taken, and of the diagnostics the part through the
`n`-th line feed. The next run does and prints the same; its answer is the failure of the listener
where some of its own diagnostics are cut, and its outcome where they are not. The prompt ends with
the first line whose run fails so, and does what it does without a limit if there is none. -/
theorem history_muffled (n : Nat) (sources : List String) {s : Session Sink}
    (hs : s.machine.IsUnlimited) (hl : s.HearsAll) :
    ∃ s₁, after (sources.map .run) s = s₁ ∧
      after (sources.map .run) (s.muffled n) = s₁.muffled n ∧
      (s₁.muffled n).machine = s₁.machine ∧
      (s₁.muffled n).listener.text = Sink.kept n s₁.listener.text ∧
      (∀ source, ∃ r s₂, RunsMuffled n source s₁ r s₂) ∧
      ∀ input,
        (∀ s₂, CutsOff n (Prompt.lines input) s₁ s₂ →
          runPrompt input (s₁.muffled n) = .error (.stream .full) (s₂.muffled n)) ∧
        ((∀ s₂, ¬CutsOff n (Prompt.lines input) s₁ s₂) →
          runPrompt input (s₁.muffled n) = onState (muffled n) (runPrompt input s₁)) := by
  obtain ⟨hmuffled, hs₁, hl₁⟩ := after_muffled n sources hs hl
  refine ⟨_, rfl, hmuffled, rfl, Sink.text_limited n _, fun source => ?_, fun input => ⟨?_, ?_⟩⟩
  · obtain ⟨r, s₂, hruns, -⟩ := exists_runsMuffled n source hs₁ hl₁
    exact ⟨r, s₂, hruns⟩
  · exact fun s₂ hcuts => hcuts.runLines_eq hs₁
  · intro hnone
    exact (runLines_muffled n (Prompt.lines input) hs₁ hl₁).resolve_right fun ⟨s₂, hcuts⟩ =>
      hnone s₂ hcuts

/-- A diagnostic that is cut at the line feed in a lexeme. -/
theorem history_muffled_lexeme : ∃ s₁ : Session Sink,
    run "x \"a\nb\";" ⟨{}, {}⟩ = .ok .syntaxError s₁ ∧
      run "x \"a\nb\";" ⟨{}, ⟨"", some 1⟩⟩ = .error (.stream .full) (s₁.muffled 1) ∧
      (s₁.muffled 1).listener.text = "[line 1] Error at '\"a\n" := by
  have hdiagnostics : diagnosticsOf "x \"a\nb\";" =
      [⟨.syntactic ⟨.string "a\nb", "\"a\nb\"", 1⟩, "Expect ';' after expression."⟩] := by
    decide +kernel
  obtain ⟨s₀, rfl, -, -, -, hrun, -⟩ := history_muffled 1 [] (s := ⟨{}, {}⟩) rfl rfl
  obtain ⟨r, s₁, hruns⟩ := hrun "x \"a\nb\";"
  have hmachine := hruns.machine
  rw [Machine.runSource_of_ne_nil (by simp [hdiagnostics]), hdiagnostics] at hmachine
  obtain ⟨rfl, -⟩ := EStateM.Result.ok.inj hmachine
  have hlistener := congrArg Sink.text hruns.listener
  have hkept : Sink.kept 1 s₁.listener.text = "[line 1] Error at '\"a\n" := by
    rw [hlistener]
    decide +kernel
  refine ⟨s₁, hruns.run_eq, hruns.muffled_error ?_, (Sink.text_limited 1 _).trans hkept⟩
  rw [hkept]
  decide +kernel

end Session

end TreeWalk
