import Mathlib.Data.List.Induction
import TreeWalk.Proofs.Console.Output

/-! Sessions with an output for so many line feeds. They do what sessions with an output that takes
everything do, up to the first text that does not fit, and keep the part of the output that fits,
whatever they do after that. -/
namespace TreeWalk

/-- With a limit a source runs as it does without one, up to the first value that does not fit. Then
the failure of the output is all that is reported. -/
theorem Machine.runSource_limited {n : Nat} (source : String) {m : Machine} (hm : m.IsUnlimited)
    (hfits : Fits n m.output.text) :
    (Fits n (stateOf (runSource source m)).output.text ∧
      runSource source (m.limited n) = onState (limited n) (runSource source m)) ∨
    ∃ m', diagnosticsOf source = [] ∧ Overruns n (programOf source) m m' ∧
      (∃ t, (stateOf (runSource source m)).output = m'.output.after t) ∧
      runSource source (m.limited n) =
        .ok ⟨.runtimeError, [StreamError.full.diagnostic]⟩ (m'.limited n) := by
  by_cases h : diagnosticsOf source = []
  · rw [runSource_of_nil h, stateOf_conclude]
    rcases run_limited (programOf source) hm hfits with ⟨hafter, hrun⟩ | ⟨m', hover, hmore, hrun⟩
    · exact .inl ⟨hafter, conclude_of_run hrun⟩
    · exact .inr ⟨m', h, hover, hmore, by rw [conclude, hrun]⟩
  · rw [runSource_of_ne_nil h, runSource_of_ne_nil h]
    exact .inl ⟨hfits, rfl⟩

namespace Session

variable {ρ α β : Type}

/-- The session with an output for `n` line feeds in place of one that takes everything, after the
same texts. -/
def limited (n : Nat) (s : Session ρ) : Session ρ := { s with machine := s.machine.limited n }

/-- Some text has been cut, and all others are refused. -/
def IsFull (n : Nat) (s : Session ρ) : Prop :=
  ∃ text, ¬Fits n text ∧ s.machine.output = .limited n text

/-- A step does with a limit what it does without, unless its output does not fit. Then the part of
the output that fits is kept, and more is known of how the step ended. -/
inductive Tracks (n : Nat) (step : EStateM Abort (Session ρ) α) (s : Session ρ) (Q : Prop) : Prop
  | fits (hfits : Fits n (stateOf (step s)).machine.output.text)
    (heq : step (s.limited n) = onState (limited n) (step s))
  | breaks (hover : ¬Fits n (stateOf (step s)).machine.output.text)
    (hkept : (stateOf (step (s.limited n))).machine.output =
      .limited n (stateOf (step s)).machine.output.text) (h : Q)

theorem tracks_pure {n : Nat} (a : α) {s : Session ρ} (hfits : Fits n s.machine.output.text)
    (Q : Prop) : Tracks n (pure a : EStateM Abort (Session ρ) α) s Q := .fits hfits rfl

theorem Tracks.imp {n : Nat} {step : EStateM Abort (Session ρ) α} {s : Session ρ} {P Q : Prop}
    (h : Tracks n step s P) (hPQ : P → Q) : Tracks n step s Q := by
  cases h with
  | fits hfits heq => exact .fits hfits heq
  | breaks hover hkept hP => exact .breaks hover hkept (hPQ hP)

theorem Tracks.bind {n : Nat} {step : EStateM Abort (Session ρ) α}
    {next : α → EStateM Abort (Session ρ) β} {s : Session ρ} {P Q : Prop} (h : Tracks n step s P)
    (hs : s.machine.IsUnlimited) (hstep : Writes step) (hwrites : ∀ a, Writes (next a))
    (hnext : ∀ a s₁, step s = .ok a s₁ → step (s.limited n) = .ok a (s₁.limited n) →
      Fits n s₁.machine.output.text → Tracks n (next a) s₁ Q)
    (hbreaks : P → IsFull n (stateOf (step (s.limited n))) → Q) : Tracks n (step >>= next) s Q := by
  cases h with
  | fits hfits heq =>
    cases hfree : step s with
    | error e s₁ =>
      rw [hfree] at hfits heq
      refine .fits (by rwa [bind_eq_of_error hfree]) ?_
      rw [bind_eq_of_error hfree, bind_eq_of_error heq]
      rfl
    | ok a s₁ =>
      rw [hfree] at hfits heq
      have hbind := bind_eq_of_ok hfree next
      have hlimit := bind_eq_of_ok heq next
      cases hnext a s₁ hfree heq hfits with
      | fits hfits' heq' => exact .fits (by rwa [hbind]) (by rw [hbind, hlimit, heq'])
      | breaks hover hkept hQ => exact .breaks (by rwa [hbind]) (by rw [hbind, hlimit, hkept]) hQ
  | breaks hover hkept hP =>
    -- Both sessions go on, but of what they print nothing fits any more.
    obtain ⟨t, ht⟩ := exists_after_bind step hwrites s
    obtain ⟨t', ht'⟩ := exists_after_bind step hwrites (s.limited n)
    obtain ⟨hover', hlimit⟩ := Sink.limited_after (hstep.isUnlimited hs) hover t
    rw [hkept, ← Sink.limited_append, Sink.limited_append_of_not_fits hover] at ht'
    exact .breaks (by rwa [ht]) (by rw [ht', ht, hlimit]) (hbreaks hP ⟨_, hover, hkept⟩)

/-- The session after one more prompt. -/
def prompted (s : Session ρ) : Session ρ := s.withText (s.machine.output.text ++ Prompt.text)

theorem writePrompt_eq {s : Session ρ} (hs : s.machine.IsUnlimited) :
    writePrompt s = .ok () s.prompted := writePrompt_withText hs _

theorem tracks_writePrompt {n : Nat} {s : Session ρ} (hs : s.machine.IsUnlimited)
    (hfits : Fits n s.machine.output.text) :
    Tracks n writePrompt s (¬Fits n s.prompted.machine.output.text ∧
      writePrompt (s.limited n) = .error (.stream .full) (s.prompted.limited n)) := by
  by_cases hover : Fits n (s.machine.output.text ++ Prompt.text)
  · refine .fits (by rwa [writePrompt_eq hs]) ?_
    rw [writePrompt_eq hs]
    exact write_of_ok (s := s.limited n) (Sink.write_limited hover)
  · have hrefused : writePrompt (s.limited n) = .error (.stream .full) (s.prompted.limited n) :=
      write_of_error (s := s.limited n) (Sink.write_limited_of_not_fits hfits hover)
    refine .breaks (by rwa [writePrompt_eq hs]) ?_ ⟨hover, hrefused⟩
    rw [hrefused, writePrompt_eq hs]
    rfl

theorem writePrompt_of_isFull {n : Nat} {s : Session ρ} (h : s.IsFull n) :
    writePrompt s = .error (.stream .full) s := by
  obtain ⟨⟨b, out⟩, l⟩ := s
  obtain ⟨text, htext, rfl⟩ := h
  have hprompt : Prompt.text ≠ "" := by decide
  exact write_of_error (Sink.write_limited_of_full htext hprompt)

variable [Listener ρ]

theorem isUnlimited_after (steps : List Step) {s : Session ρ} (hs : s.machine.IsUnlimited) :
    (after steps s).machine.IsUnlimited := by
  induction steps using List.reverseRecOn with
  | nil => exact hs
  | append_singleton steps step ih =>
    rw [after_concat]
    exact step.writes.isUnlimited ih

/-- The run of a source stops at the first value that does not fit, and nothing but the failure of
the output is reported. -/
structure StopsAtPrint (n : Nat) (source : String) (s s' : Session ρ) : Prop where
  accepted : diagnosticsOf source = []
  overruns : ∃ m, Machine.Overruns n (programOf source) s.machine m ∧ s'.machine = m.limited n
  heard : Listener.hear (.error 0 "" "IO error") s.listener = .ok () s'.listener
  run_eq : run source (s.limited n) = .ok .runtimeError s'

/-- The prompt before each of some lines and the runs of these lines. -/
def runPrompted : List (List UInt8) → EStateM Abort (Session ρ) Unit
  | [] => pure ()
  | line :: rest => do
    writePrompt
    runLine line
    runPrompted rest

theorem runPrompted_cons (line : List UInt8) (rest : List (List UInt8)) {s : Session ρ}
    (hs : s.machine.IsUnlimited) :
    runPrompted (line :: rest) s =
      match runLine line s.prompted with
      | .ok _ s => runPrompted rest s
      | .error a s => .error a s := by
  simp only [runPrompted, bind, EStateM.bind, writePrompt_eq hs]
  cases runLine line s.prompted <;> rfl

theorem writes_runPrompted (lines : List (List UInt8)) :
    Writes (runPrompted lines : EStateM Abort (Session ρ) Unit) := by
  induction lines with
  | nil => exact writes_pure ()
  | cons line rest ih =>
    exact writes_writePrompt.bind fun _ => (writes_runLine line).bind fun _ => ih

/-- The prompt goes on from where the lines before have left it. -/
theorem runLines_of_runPrompted {before : List (List UInt8)} {s s₁ : Session ρ}
    (h : runPrompted before s = .ok () s₁) (hs : s.machine.IsUnlimited)
    (rest : List (List UInt8)) : runLines (before ++ rest) s = runLines rest s₁ := by
  induction before generalizing s with
  | nil =>
    cases h
    rfl
  | cons line before ih =>
    rw [runPrompted_cons line before hs] at h
    rw [List.cons_append, runLines_cons, writePrompt_eq hs]
    have hafter := (writes_runLine line).isUnlimited (s := s.prompted) hs
    cases hline : runLine line s.prompted with
    | error a s₂ =>
      rw [hline] at h
      cases h
    | ok _ s₂ =>
      rw [hline] at h hafter
      simp only [hline]
      exact ih h hafter

/-- The prompt ends with the first text that does not fit, or after the run that has this text. -/
inductive BreaksOff (n : Nat) : List (List UInt8) → Session ρ → Session ρ → Prop
  | atPrompt {before rest : List (List UInt8)} {s s₁ : Session ρ}
    (hbefore : runPrompted before s = .ok () s₁) (hfits : Fits n s₁.machine.output.text)
    (hover : ¬Fits n s₁.prompted.machine.output.text) :
    BreaksOff n (before ++ rest) s (s₁.prompted.limited n)
  | atLine {before rest : List (List UInt8)} {line : List UInt8} {text : String}
    {s s₁ s' : Session ρ} (hbefore : runPrompted before s = .ok () s₁)
    (hfits : Fits n s₁.prompted.machine.output.text) (hline : Prompt.decode? line = some text)
    (hstops : StopsAtPrint n (Prompt.trimEnd text) s₁.prompted s') :
    BreaksOff n (before ++ line :: rest) s s'

theorem BreaksOff.cons {n : Nat} {line : List UInt8} {rest : List (List UInt8)}
    {s s₁ s' : Session ρ} (h : BreaksOff n rest s₁ s') (hs : s.machine.IsUnlimited)
    (hline : runLine line s.prompted = .ok () s₁) : BreaksOff n (line :: rest) s s' := by
  have hcons (before : List (List UInt8)) :
      runPrompted (line :: before) s = runPrompted before s₁ := by
    rw [runPrompted_cons line before hs, hline]
  cases h with
  | @atPrompt before rest _ s₂ hbefore hfits hover =>
    exact @BreaksOff.atPrompt _ _ n (line :: before) rest s s₂ ((hcons before).trans hbefore) hfits
      hover
  | @atLine before rest line' text _ s₂ _ hbefore hfits hline' hstops =>
    exact @BreaksOff.atLine _ _ n (line :: before) rest line' text s s₂ s'
      ((hcons before).trans hbefore) hfits hline' hstops

/-- A step ends with the first text that does not fit. In a source this is a value, and the prompt
fails at itself or behind the run of a line. -/
inductive Step.BreaksOff (n : Nat) (s : Session ρ) :
    Step → EStateM.Result Abort (Session ρ) (Option Outcome) → Prop
  | run {source : String} {s' : Session ρ} (h : StopsAtPrint n source s s') :
    Step.BreaksOff n s (.run source) (.ok (some .runtimeError) s')
  | prompt {input : List UInt8} {s' : Session ρ}
    (h : Session.BreaksOff n (Prompt.lines input) s s') :
    Step.BreaksOff n s (.prompt input) (.error (.stream .full) s')

theorem runLines_of_isFull {n : Nat} (lines : List (List UInt8)) {s : Session ρ}
    (h : s.IsFull n) : runLines lines s = .error (.stream .full) s := by
  cases lines with
  | nil => exact writePrompt_of_isFull h
  | cons line rest => rw [runLines_cons, writePrompt_of_isFull h]

section Hears

variable (hhears : ∀ (r : Report) (l : ρ), ∃ l₁, Listener.hear r l = .ok () l₁)

include hhears

theorem tracks_run {n : Nat} (source : String) {s : Session ρ} (hs : s.machine.IsUnlimited)
    (hfits : Fits n s.machine.output.text) :
    Tracks n (run source) s (∃ s', StopsAtPrint n source s s') := by
  rcases Machine.runSource_limited source hs hfits with
    ⟨hafter, hrun⟩ | ⟨m, haccepted, hover, ⟨t, ht⟩, hrun⟩
  · exact .fits (by rwa [machine_run]) (run_of_runSource (s.limited n) hrun rfl)
  · obtain ⟨hm, hcut⟩ := hover.not_fits hs
    obtain ⟨hover', hlimit⟩ := Sink.limited_after hm hcut t
    obtain ⟨l, hl⟩ := hhears (.error 0 "" "IO error") s.listener
    have hreport : StreamError.full.diagnostic.report = .error 0 "" "IO error" := rfl
    have hheard : Listener.hearAll [StreamError.full.diagnostic] s.listener = .ok () l := by
      rw [Listener.hearAll_cons, hreport, hl]
      rfl
    have hstops : run source (s.limited n) = .ok .runtimeError ⟨m.limited n, l⟩ := by
      simp only [run_eq, limited, hrun, hheard]
    refine .breaks ?_ ?_ ⟨⟨m.limited n, l⟩, haccepted, ⟨m, hover, rfl⟩, hl, hstops⟩
    · rwa [machine_run, ht]
    · rw [hstops, machine_run, ht, hlimit]
      rfl

theorem tracks_runLine {n : Nat} (line : List UInt8) {s : Session ρ} (hs : s.machine.IsUnlimited)
    (hfits : Fits n s.machine.output.text) :
    Tracks n (runLine line) s (∃ text s', Prompt.decode? line = some text ∧
      StopsAtPrint n (Prompt.trimEnd text) s s' ∧ runLine line (s.limited n) = .ok () s') := by
  cases hline : Prompt.decode? line with
  | none =>
    refine .fits (by rwa [runLine_of_not_utf8 hline]) ?_
    rw [runLine_of_not_utf8 hline, runLine_of_not_utf8 hline]
    rfl
  | some text =>
    rw [runLine_eq hline]
    refine (tracks_run hhears (Prompt.trimEnd text) hs hfits).bind hs (writes_run _)
      (fun _ => writes_pure _) (fun _ s₁ _ _ hfits₁ => tracks_pure _ hfits₁ _) ?_
    rintro ⟨s', hstops⟩ -
    refine ⟨text, s', rfl, hstops, ?_⟩
    rw [← runLine_eq hline, runLine_of_run_ok hline hstops.run_eq]

theorem tracks_runLines {n : Nat} (lines : List (List UInt8)) {s : Session ρ}
    (hs : s.machine.IsUnlimited) (hfits : Fits n s.machine.output.text) :
    Tracks n (runLines lines) s (∃ s', BreaksOff n lines s s' ∧
      runLines lines (s.limited n) = .error (.stream .full) s') := by
  induction lines generalizing s with
  | nil =>
    cases tracks_writePrompt hs hfits with
    | fits hfits' heq => exact .fits hfits' heq
    | breaks hover hkept h =>
      exact .breaks hover hkept ⟨_, @BreaksOff.atPrompt _ _ n [] [] s s rfl hfits h.1, h.2⟩
  | cons line rest ih =>
    have hs' : s.prompted.machine.IsUnlimited := hs
    refine (tracks_writePrompt hs hfits).bind hs writes_writePrompt
      (fun _ => (writes_runLine line).bind fun _ => writes_runLines rest) ?_ ?_
    · intro _ s₁ hprompt hlimit hfits₁
      rw [writePrompt_eq hs] at hprompt
      cases hprompt
      refine (tracks_runLine hhears line hs' hfits₁).bind hs' (writes_runLine line)
        (fun _ => writes_runLines rest) ?_ ?_
      · intro _ s₂ hline hline' hfits₂
        have hs₂ := (writes_runLine line).isUnlimited hs'
        rw [hline, stateOf_ok] at hs₂
        refine (ih hs₂ hfits₂).imp ?_
        rintro ⟨s', hbreaks, hrest⟩
        refine ⟨s', hbreaks.cons hs hline, ?_⟩
        simp only [runLines_cons, hlimit, hline', hrest]
      · -- The run has been reported and the prompt goes on, up to the next time it is printed.
        rintro ⟨text, s', hdecode, hstops, hline⟩ hfull
        rw [hline, stateOf_ok] at hfull
        refine ⟨s', @BreaksOff.atLine _ _ n [] rest line text s s s' rfl hfits₁ hdecode hstops, ?_⟩
        simp only [runLines_cons, hlimit, hline, runLines_of_isFull rest hfull]
    · rintro ⟨hover, hrefused⟩ -
      refine ⟨_, @BreaksOff.atPrompt _ _ n [] (line :: rest) s s rfl hfits hover, ?_⟩
      rw [runLines_cons, hrefused]

theorem Step.tracks {n : Nat} (step : Step) {s : Session ρ} (hs : s.machine.IsUnlimited)
    (hfits : Fits n s.machine.output.text) :
    Tracks n step.perform s (step.BreaksOff n s (step.perform (s.limited n))) := by
  cases step with
  | run source =>
    refine (tracks_run hhears source hs hfits).bind hs (writes_run source) (fun _ => writes_pure _)
      (fun _ s₁ _ _ hfits₁ => tracks_pure _ hfits₁ _) ?_
    rintro ⟨s', hstops⟩ -
    rw [perform_run, hstops.run_eq]
    exact .run hstops
  | prompt input =>
    refine (tracks_runLines hhears (Prompt.lines input) hs hfits).bind hs (writes_runLines _)
      (fun _ => writes_pure _) (fun _ s₁ _ _ hfits₁ => tracks_pure _ hfits₁ _) ?_
    rintro ⟨s', hbreaks, hlimit⟩ -
    rw [perform_prompt, runPrompt, hlimit]
    exact .prompt hbreaks

/-- What a limited session is after any steps, compared with one that takes everything. -/
theorem after_limited {n : Nat} (steps : List Step) {s : Session ρ} (hs : s.machine.IsUnlimited) :
    (after steps (s.limited n)).machine.output =
        .limited n (after steps s).machine.output.text ∧
      (Fits n (after steps s).machine.output.text →
        after steps (s.limited n) = (after steps s).limited n) := by
  induction steps using List.reverseRecOn with
  | nil => exact ⟨rfl, fun _ => rfl⟩
  | append_singleton steps step ih =>
    obtain ⟨hkept, hsame⟩ := ih
    have hfree := isUnlimited_after steps hs
    rw [after_concat, after_concat]
    by_cases hfits : Fits n (after steps s).machine.output.text
    · rw [hsame hfits]
      cases step.tracks hhears hfree hfits with
      | fits hafter heq =>
        rw [heq, stateOf_onState]
        exact ⟨rfl, fun _ => rfl⟩
      | breaks hover hkept' h => exact ⟨hkept', fun hafter => absurd hafter hover⟩
    · -- The two sessions may differ in everything by now, save for what is kept of their outputs.
      obtain ⟨t, ht⟩ := step.writes (after steps s)
      obtain ⟨t', ht'⟩ := step.writes (after steps (s.limited n))
      obtain ⟨hover, hlimit⟩ := Sink.limited_after hfree hfits t
      rw [hkept, ← Sink.limited_append, Sink.limited_append_of_not_fits hfits] at ht'
      rw [ht, ht', hlimit]
      exact ⟨rfl, fun hafter => absurd hafter hover⟩

/-- With an output for `n` line feeds and a listener that refuses nothing, a session keeps of all
its output the part through the `n`-th line feed, whatever it goes on to do. A step whose output
still fits does what it does without the limit. A step with the first text that does not fit stops
at the value that has it, with the failure of the output as its only report, or fails at the
prompt. -/
theorem history_limited (n : Nat) (steps : List Step) {s : Session ρ} (hs : s.machine.IsUnlimited) :
    (after steps (s.limited n)).machine.output.text =
        String.ofList (throughLineFeed n (after steps s).machine.output.text.toList) ∧
      ∀ step : Step,
        (Fits n (stateOf (step.perform (after steps s))).machine.output.text →
          step.perform (after steps (s.limited n)) =
            onState (limited n) (step.perform (after steps s))) ∧
        (Fits n (after steps s).machine.output.text →
          ¬Fits n (stateOf (step.perform (after steps s))).machine.output.text →
          step.BreaksOff n (after steps s) (step.perform (after steps (s.limited n)))) := by
  obtain ⟨hkept, hsame⟩ := after_limited hhears steps hs
  have hfree := isUnlimited_after steps hs
  refine ⟨by rw [hkept, Sink.limited_eq], fun step => ⟨fun hafter => ?_, fun hfits hover => ?_⟩⟩
  · have hfits : Fits n (after steps s).machine.output.text := by
      obtain ⟨t, ht⟩ := step.writes (after steps s)
      by_contra hcut
      exact (Sink.limited_after hfree hcut t).1 (by rwa [← ht])
    rw [hsame hfits]
    cases step.tracks hhears hfree hfits with
    | fits _ heq => exact heq
    | breaks hover _ _ => exact absurd hafter hover
  · rw [hsame hfits]
    cases step.tracks hhears hfree hfits with
    | fits hafter _ => exact absurd hafter hover
    | breaks _ _ h => exact h

end Hears

/-- Where no line feed fits, a value and the prompt are refused, and nothing is kept of them. -/
theorem history_without_room : ∃ s : Session (List Report), s.machine.output = ⟨"", some 0⟩ ∧
    (∃ s', (Step.run "print \"a\";").perform s = .ok (some .runtimeError) s' ∧
      s'.listener = [Report.error 0 "" "IO error"]) ∧
    (∃ s', (Step.prompt []).perform s = .error (.stream .full) s') ∧
    (after [.run "print \"a\";", .prompt []] s).machine.output.text = "" := by
  have hlimit (steps : List Step) := history_limited (s := (⟨{}, []⟩ : Session (List Report)))
    (fun r l => ⟨l ++ [r], rfl⟩) 0 steps rfl
  obtain ⟨htext, -⟩ := hlimit [.run "print \"a\";", .prompt []]
  obtain ⟨-, hstep⟩ := hlimit []
  simp only [after_nil] at hstep
  refine ⟨limited 0 ⟨{}, []⟩, Sink.limited_empty 0, ?_, ?_, by rw [htext, throughLineFeed_zero]⟩
  · have hprinted : (stateOf ((Step.run "print \"a\";").perform
        (⟨{}, []⟩ : Session (List Report)))).machine.output.text = "a\n" := by decide +kernel
    have hover : ¬Fits 0 "a\n" := by decide
    have hbreaks := (hstep (.run "print \"a\";")).2 (by decide) (by rwa [hprinted])
    generalize hresult : (Step.run "print \"a\";").perform
      (limited 0 (⟨{}, []⟩ : Session (List Report))) = result at hbreaks ⊢
    cases hbreaks with
    | run hstops => exact ⟨_, rfl, (EStateM.Result.ok.inj hstops.heard).2.symm⟩
  · have hover : ¬Fits 0 ">>> " := by decide
    have hbreaks := (hstep (.prompt [])).2 (by decide) hover
    generalize hresult : (Step.prompt []).perform
      (limited 0 (⟨{}, []⟩ : Session (List Report))) = result at hbreaks ⊢
    cases hbreaks with
    | prompt _ => exact ⟨_, rfl⟩

end Session

end TreeWalk
