import TreeWalk.Proofs.Console.InputLines
import TreeWalk.Proofs.Console.Output
import TreeWalk.Proofs.Console.Places

/-! The prompt as runs in turn. A line of input is run as any other source is, so the prompt does
what the runs of its lines do, with the prompt printed before each of them. -/
namespace TreeWalk

/-- How one of several runs ended, and what its program printed. -/
structure Turn where
  ended : Run
  printed : String

namespace Session

variable {ρ : Type} [Listener ρ]

/-- A session runs sources one after another, whatever their outcomes are. -/
inductive InTurn : List String → List Turn → Session ρ → Session ρ → Prop
  | nil (s : Session ρ) : InTurn [] [] s s
  | cons {source : String} {sources : List String} {turn : Turn} {turns : List Turn}
    {s s₁ s₂ : Session ρ}
    (hmachine : Machine.runSource source s.machine = .ok turn.ended s₁.machine)
    (hheard : Listener.hearAll turn.ended.diagnostics s.listener = .ok () s₁.listener)
    (hrun : run source s = .ok turn.ended.outcome s₁)
    (hprinted : s₁.machine.output = ⟨s.machine.output.text ++ turn.printed, none⟩)
    (hrest : InTurn sources turns s₁ s₂) : InTurn (source :: sources) (turn :: turns) s s₂

/-- Where nothing is refused, any sources can be run in turn. -/
theorem exists_inTurn (hhears : ∀ (r : Report) (l : ρ), ∃ l₁, Listener.hear r l = .ok () l₁)
    (sources : List String) {s : Session ρ} (hs : s.machine.IsUnlimited) :
    ∃ turns s', InTurn sources turns s s' := by
  induction sources generalizing s with
  | nil => exact ⟨[], s, .nil s⟩
  | cons source sources ih =>
    obtain ⟨r, m, hends, hm⟩ := Machine.exists_ends source hs
    obtain ⟨l, hl⟩ := Listener.exists_hearAll hhears r.diagnostics s.listener
    obtain ⟨printed, hprinted⟩ := Machine.output_runSource source s.machine
    rw [hends.runSource, stateOf_ok, Sink.after_of_unlimited hs] at hprinted
    obtain ⟨turns, s', hrest⟩ := ih (s := ⟨m, l⟩) hm
    exact ⟨⟨r, printed⟩ :: turns, s',
      .cons hends.runSource hl (run_of_ends hends hl) hprinted hrest⟩

/-- Sources of one line are reported on this line. -/
theorem InTurn.line_report {sources : List String} {turns : List Turn} {s s' : Session ρ}
    (h : InTurn sources turns s s') (hs : s.machine.IsUnlimited)
    (hlines : ∀ source ∈ sources, lineFeeds source.toList = 0) :
    ∀ turn ∈ turns, ∀ d ∈ turn.ended.diagnostics, d.report.line = 1 := by
  induction h with
  | nil s => simp
  | @cons source sources turn turns s s₁ s₂ hmachine hheard hrun hprinted hrest ih =>
    obtain ⟨hsource, hsources⟩ := List.forall_mem_cons.1 hlines
    have hs₁ : s₁.machine.IsUnlimited := congrArg Sink.room hprinted
    refine List.forall_mem_cons.2 ⟨fun d hd => ?_, ih hs₁ hsources⟩
    obtain ⟨r, m, hends, -⟩ := Machine.exists_ends source hs
    rw [hends.runSource] at hmachine
    cases hmachine
    obtain ⟨hpos, hle, -⟩ := hends.pointsInto d hd
    rw [d.line_report]
    omega

/-- What the prompt prints for the lines that it has run. -/
def printedInTurn (turns : List Turn) : String :=
  String.join (turns.map fun turn => Prompt.text ++ turn.printed)

/-- Lines that are texts are run in turn, each after the prompt. -/
theorem runLines_append {good : List (List UInt8)} {texts : List String}
    (hgood : good.map Prompt.decode? = texts.map some) {turns : List Turn} {s s' : Session ρ}
    (h : InTurn (texts.map Prompt.trimEnd) turns s s') (hs : s.machine.IsUnlimited)
    (rest : List (List UInt8)) (front : String) :
    runLines (good ++ rest) (s.withText front) =
        runLines rest (s'.withText (front ++ printedInTurn turns)) ∧
      s'.machine.IsUnlimited := by
  induction good generalizing texts turns s front with
  | nil =>
    obtain rfl : texts = [] := by simpa using hgood.symm
    cases h
    simp [printedInTurn, hs]
  | cons line good ih =>
    cases texts with
    | nil => simp at hgood
    | cons text texts =>
      obtain ⟨hline, hrest⟩ := List.cons.inj hgood
      cases h with
      | @cons _ _ turn turns _ s₁ _ hmachine hheard hrun hprinted hturns =>
        have hs₁ : s₁.machine.IsUnlimited := congrArg Sink.room hprinted
        have hrun' := run_withText hrun (congrArg Sink.text hprinted) (front ++ Prompt.text)
        obtain ⟨hlines, hs'⟩ := ih hrest hturns hs₁ (front ++ Prompt.text ++ turn.printed)
        refine ⟨?_, hs'⟩
        rw [List.cons_append, runLines_cons, writePrompt_withText hs]
        dsimp only
        rw [runLine_of_run_ok hline hrun']
        dsimp only
        rw [hlines]
        simp only [printedInTurn, List.map_cons, String.join_cons, String.append_assoc]

/-- With an output and a listener that refuse nothing, the prompt does what runs of its lines do,
each without the carriage returns and line feeds at its end. It prints itself before each line, and
once more after the last or before the first line that is not UTF-8, with which it fails. All
reports are about line 1. -/
theorem runPrompt_in_turn (hhears : ∀ (r : Report) (l : ρ), ∃ l₁, Listener.hear r l = .ok () l₁)
    {input : List UInt8} {good : List (List UInt8)} {texts : List String}
    (hfront : good <+: Prompt.lines input) (hgood : good.map Prompt.decode? = texts.map some)
    {s : Session ρ} (hs : s.machine.IsUnlimited) :
    Prompt.Splits input (Prompt.lines input) ∧
    ∃ sources turns s' last, List.Forall₂ Prompt.Trims texts sources ∧
      InTurn sources turns s s' ∧
      (∀ turn ∈ turns, ∀ d ∈ turn.ended.diagnostics, d.report.line = 1) ∧
      last = s'.withText (s.machine.output.text ++
        String.join (turns.map fun turn => ">>> " ++ turn.printed) ++ ">>> ") ∧
      (Prompt.lines input = good → runPrompt input s = .ok () last) ∧
      ∀ bad rest, Prompt.lines input = good ++ bad :: rest → Prompt.decode? bad = none →
        runPrompt input s = .error (.stream .notUtf8) last := by
  obtain ⟨turns, s', hturns⟩ := exists_inTurn hhears (texts.map Prompt.trimEnd) hs
  have hruns (rest : List (List UInt8)) : runLines (good ++ rest) s =
      runLines rest (s'.withText (s.machine.output.text ++ printedInTurn turns)) :=
    (runLines_append hgood hturns hs rest s.machine.output.text).1
  have hs' := (runLines_append hgood hturns hs [] "").2
  refine ⟨Prompt.splits_lines input, _, turns, s', _, Prompt.forall₂_trims texts, hturns,
    hturns.line_report hs (Prompt.lineFeeds_eq hfront hgood), rfl, ?_, ?_⟩
  · intro hall
    have hend := hruns []
    rw [List.append_nil, runLines_nil, writePrompt_withText hs'] at hend
    rw [runPrompt, hall, hend]
    rfl
  · intro bad rest hsplit hbad
    rw [runPrompt, hsplit, hruns, runLines_cons, writePrompt_withText hs']
    dsimp only
    rw [runLine_of_not_utf8 hbad]
    rfl

/-- A line that fails, and one that is not UTF-8. -/
theorem runPrompt_of_bad_line : ∃ s', runPrompt [120, 59, 13, 10, 255] ⟨{}, []⟩ =
      .error (.stream .notUtf8) s' ∧ s'.machine.output = ⟨">>> >>> ", none⟩ ∧
    s'.listener = [Report.runtimeError 1 "Undefined variable 'x'."] := by
  have hlines : Prompt.lines [120, 59, 13, 10, 255] = [[120, 59, 13, 10], [255]] := by decide
  have hfront : [[120, 59, 13, 10]] <+: Prompt.lines [120, 59, 13, 10, 255] :=
    ⟨[[255]], hlines.symm⟩
  have hgood : [[120, 59, 13, 10]].map Prompt.decode? = ["x;\r\n"].map some := by decide
  have htrim : Prompt.Trims "x;\r\n" "x;" := ⟨['\r', '\n'], rfl, by simp, by simp⟩
  obtain ⟨-, sources, turns, s', last, htrims, hturns, -, hlast, -, hbad⟩ :=
    runPrompt_in_turn (s := ⟨{}, ([] : List Report)⟩) (fun r l => ⟨l ++ [r], rfl⟩) hfront hgood rfl
  obtain ⟨source, hsource, rfl⟩ : ∃ source, Prompt.Trims "x;\r\n" source ∧ sources = [source] := by
    cases htrims with
    | cons hsource hrest =>
      cases hrest
      exact ⟨_, hsource, rfl⟩
  rw [Prompt.Trims.unique hsource htrim] at hturns
  refine ⟨last, hbad [255] [] hlines (by decide), ?_⟩
  cases hturns with
  | @cons _ _ turn _ _ _ _ _ _ hrun hprinted hrest =>
    cases hrest
    rw [run_reference] at hrun
    obtain ⟨-, rfl⟩ := EStateM.Result.ok.inj hrun
    have hsilent : "" = turn.printed := by simpa using congrArg Sink.text hprinted
    rw [hlast]
    simp [withText, ← hsilent]

end Session

end TreeWalk
