import Mathlib.Data.List.Forall2
import TreeWalk.Proofs.Console.Prompt
import TreeWalk.Proofs.Semantics.Blame

/-! What diagnostics point at. All that is reported for a source is on a line of this source and, if
it is at a token, at one that was scanned from it. Runtime errors are at names and operators. -/
namespace TreeWalk

/-- The diagnostic is at a place of the source, and at a token of a kind that it can be at. -/
structure Diagnostic.Locates (source : String) (d : Diagnostic) : Prop
    extends d.PointsInto source where
  placed : d.kind ≠ .unexpected ∧ d.kind ≠ .stream
  blamed : ∀ t, d.kind = .runtime t → t.IsNameOrOperator

theorem locates_of_mem_diagnosticsOf {source : String} {d : Diagnostic}
    (h : d ∈ diagnosticsOf source) : d.Locates source := by
  have hpoints := pointsInto_of_mem_diagnosticsOf h
  simp only [diagnosticsOf, List.mem_append, List.mem_map] at h
  rcases h with ⟨e, -, rfl⟩ | ⟨e, he, rfl⟩
  · exact ⟨hpoints, by simp [LexicalError.diagnostic], by simp [LexicalError.diagnostic]⟩
  · obtain ⟨t, -, cause, rfl⟩ := exists_token_of_syntaxError he
    exact ⟨hpoints, by simp [SyntaxError.diagnostic], by simp [SyntaxError.diagnostic]⟩

theorem Machine.Ends.locates {source : String} {m m' : Machine} {r : Run}
    (h : Ends source m r m') : ∀ d ∈ r.diagnostics, d.Locates source := by
  have hpoints := h.pointsInto
  cases h with
  | rejected h => exact fun d hd => locates_of_mem_diagnosticsOf hd
  | finished h hrun => simp
  | @failed e m' h hrun =>
    have hblamed := blames_of_run_error (Program.isWellFormed_statements _) hrun
    refine List.forall_mem_singleton.2 ⟨hpoints _ (by simp), by simp [RuntimeError.diagnostic], ?_⟩
    rintro _ ⟨⟩
    exact hblamed

namespace Prompt

/-- The lines of an input up to the first that is not UTF-8. -/
theorem exists_texts (lines : List (List UInt8)) :
    ∃ (good : List (List UInt8)) (texts : List String) (rest : List (List UInt8)),
      lines = good ++ rest ∧ good.map decode? = texts.map some ∧
        ∀ bad ∈ rest.head?, decode? bad = none := by
  induction lines with
  | nil => exact ⟨[], [], [], rfl, rfl, by simp⟩
  | cons line lines ih =>
    cases hline : decode? line with
    | none => exact ⟨[], [], line :: lines, rfl, rfl, by simpa using hline⟩
    | some text =>
      obtain ⟨good, texts, rest, rfl, hgood, hrest⟩ := ih
      exact ⟨line :: good, text :: texts, rest, rfl, by simp [hline, hgood], hrest⟩

end Prompt

namespace Session

variable {ρ : Type} [Listener ρ]

theorem InTurn.locates {sources : List String} {turns : List Turn} {s s' : Session ρ}
    (h : InTurn sources turns s s') (hs : s.machine.IsUnlimited) :
    List.Forall₂ (fun source turn => ∀ d ∈ turn.ended.diagnostics, d.Locates source) sources
      turns := by
  induction h with
  | nil s => exact .nil
  | @cons source sources turn turns s s₁ s₂ hmachine hheard hrun hprinted hrest ih =>
    obtain ⟨r, m, hends, -⟩ := Machine.exists_ends source hs
    rw [hends.runSource] at hmachine
    cases hmachine
    exact .cons hends.locates (ih (congrArg Sink.room hprinted))

/-- At the end of its input, or at a line that is not UTF-8, the prompt is printed once more. -/
theorem stateOf_runLines_of_bad {rest : List (List UInt8)}
    (hrest : ∀ bad ∈ rest.head?, Prompt.decode? bad = none) {s : Session ρ}
    (hs : s.machine.IsUnlimited) (text : String) :
    stateOf (runLines rest (s.withText text)) = s.withText (text ++ Prompt.text) := by
  cases rest with
  | nil => rw [runLines_nil, writePrompt_withText hs, stateOf_ok]
  | cons bad rest =>
    rw [runLines_cons, writePrompt_withText hs]
    dsimp only
    rw [runLine_of_not_utf8 (hrest bad rfl), stateOf_error]

/-- With an output and a listener that refuse nothing, all that a run reports is located in its
source. And the prompt reports what the runs of its lines report, up to the first line that is not
UTF-8, each of them about its own line. -/
theorem run_locates (hhears : ∀ (r : Report) (l : ρ), ∃ l₁, Listener.hear r l = .ok () l₁)
    {s : Session ρ} (hs : s.machine.IsUnlimited) :
    (∀ source, ∃ r m l, run source s = .ok r.outcome ⟨m, l⟩ ∧
      Machine.runSource source s.machine = .ok r m ∧
      Listener.hearAll r.diagnostics s.listener = .ok () l ∧
      ∀ d ∈ r.diagnostics, d.Locates source) ∧
    ∀ input, ∃ (good : List (List UInt8)) (texts : List String) (rest : List (List UInt8))
        (turns : List Turn) (s' : Session ρ), Prompt.lines input = good ++ rest ∧
      good.map Prompt.decode? = texts.map some ∧
      (∀ bad ∈ rest.head?, Prompt.decode? bad = none) ∧
      InTurn (texts.map Prompt.trimEnd) turns s s' ∧
      stateOf (runPrompt input s) =
        s'.withText (s.machine.output.text ++ printedInTurn turns ++ Prompt.text) ∧
      List.Forall₂ (fun source turn => ∀ d ∈ turn.ended.diagnostics, d.Locates source)
        (texts.map Prompt.trimEnd) turns := by
  constructor
  · intro source
    obtain ⟨r, m, hends, -⟩ := Machine.exists_ends source hs
    obtain ⟨l, hl⟩ := Listener.exists_hearAll hhears r.diagnostics s.listener
    exact ⟨r, m, l, run_of_ends hends hl, hends.runSource, hl, hends.locates⟩
  · intro input
    obtain ⟨good, texts, rest, hlines, hgood, hrest⟩ := Prompt.exists_texts (Prompt.lines input)
    obtain ⟨turns, s', hturns⟩ := exists_inTurn hhears (texts.map Prompt.trimEnd) hs
    obtain ⟨hruns, hs'⟩ := runLines_append hgood hturns hs rest s.machine.output.text
    refine ⟨good, texts, rest, turns, s', hlines, hgood, hrest, hturns, ?_, hturns.locates hs⟩
    rw [runPrompt, hlines]
    exact (congrArg stateOf hruns).trans (stateOf_runLines_of_bad hrest hs' _)

/-- A source that breaks off on its second line is reported there, at its end. -/
theorem run_locates_end : ∃ (r : Run) (m : Machine) (l : List Report),
    run "x\n" ⟨{}, []⟩ = .ok r.outcome ⟨m, l⟩ ∧
      r.diagnostics = [⟨.syntactic ⟨.endOfFile, "", 2⟩, "Expect ';' after expression."⟩] ∧
      ∀ d ∈ r.diagnostics, d.Locates "x\n" := by
  have hdiagnostics : diagnosticsOf "x\n" =
      [⟨.syntactic ⟨.endOfFile, "", 2⟩, "Expect ';' after expression."⟩] := by decide +kernel
  obtain ⟨r, m, l, hrun, hmachine, -, hlocates⟩ :=
    (run_locates (s := ⟨{}, ([] : List Report)⟩) (fun r l => ⟨l ++ [r], rfl⟩) rfl).1 "x\n"
  rw [Machine.runSource_of_ne_nil (by simp [hdiagnostics]), hdiagnostics] at hmachine
  cases hmachine
  exact ⟨_, _, l, hrun, rfl, hlocates⟩

end Session

end TreeWalk
