import TreeWalk.Proofs.Console.Reports
import TreeWalk.Proofs.Grammar.Provenance
import TreeWalk.Proofs.Lexis.Lines

/-! The places of diagnostics. Whatever a source is reported for lies in this source. -/
namespace TreeWalk

/-- The line that a report is about. -/
def Report.line : Report → Nat
  | error line _ _ | runtimeError line _ => line

theorem Diagnostic.line_report (d : Diagnostic) : d.report.line = d.line := by
  rw [report]
  split <;> rfl

/-- The diagnostic is on a line of the source, and at a token of it where it is at one. -/
structure Diagnostic.PointsInto (source : String) (d : Diagnostic) : Prop where
  line_pos : 1 ≤ d.line
  line_le : d.line ≤ 1 + lineFeeds source.toList
  token_mem : ∀ t ∈ d.token?, t ∈ tokensOf source

theorem line_le_of_mem_tokensOf {source : String} {t : Token} (h : t ∈ tokensOf source) :
    1 ≤ t.line ∧ t.line ≤ 1 + lineFeeds source.toList := by
  obtain ⟨item, hitem, htoken⟩ := List.mem_filterMap.1 h
  cases item with
  | token t' =>
    cases htoken
    exact line_le_of_mem_scanToEnd hitem
  | error e => cases htoken

theorem line_le_of_mem_lexicalErrorsOf {source : String} {e : LexicalError}
    (h : e ∈ lexicalErrorsOf source) : 1 ≤ e.line ∧ e.line ≤ 1 + lineFeeds source.toList := by
  obtain ⟨item, hitem, herror⟩ := List.mem_filterMap.1 h
  cases item with
  | token t => cases herror
  | error e' =>
    cases herror
    exact line_le_of_mem_scanToEnd hitem

namespace Diagnostic.PointsInto

theorem lexical {source : String} {e : LexicalError} (h : e ∈ lexicalErrorsOf source) :
    e.diagnostic.PointsInto source := by
  obtain ⟨hpos, hle⟩ := line_le_of_mem_lexicalErrorsOf h
  exact ⟨hpos, hle, by simp [token?, LexicalError.diagnostic]⟩

theorem syntactic {source : String} {t : Token} (h : t ∈ tokensOf source)
    (cause : SyntaxError.Cause) : (SyntaxError.atToken t cause).diagnostic.PointsInto source := by
  obtain ⟨hpos, hle⟩ := line_le_of_mem_tokensOf h
  exact ⟨hpos, hle, by simpa [token?, SyntaxError.diagnostic] using h⟩

theorem runtime {source : String} {e : RuntimeError} (h : e.token ∈ tokensOf source) :
    e.diagnostic.PointsInto source := by
  obtain ⟨hpos, hle⟩ := line_le_of_mem_tokensOf h
  exact ⟨hpos, hle, by simpa [token?, RuntimeError.diagnostic] using h⟩

end Diagnostic.PointsInto

/-- The end of a source is marked, so no error of syntax is without a token. -/
theorem exists_token_of_syntaxError {source : String} {e : SyntaxError}
    (h : e ∈ Program.errors (outlineOf source).items) :
    ∃ t ∈ tokensOf source, ∃ cause, e = .atToken t cause := by
  cases e with
  | atToken t cause => exact ⟨t, Program.token_mem_of_mem_errors h, cause, rfl⟩
  | endOfInput =>
    obtain ⟨item, hitem, herror⟩ := List.mem_filterMap.1 h
    cases item with
    | stmt s => cases herror
    | error e =>
      cases herror
      rw [outlineOf, tokensOf_eq] at hitem
      exact absurd hitem (Program.endOfInput_not_mem_items _ ⟨endToken source, rfl⟩)

theorem pointsInto_of_mem_diagnosticsOf {source : String} {d : Diagnostic}
    (h : d ∈ diagnosticsOf source) : d.PointsInto source := by
  simp only [diagnosticsOf, List.mem_append, List.mem_map] at h
  rcases h with ⟨e, he, rfl⟩ | ⟨e, he, rfl⟩
  · exact .lexical he
  · obtain ⟨t, ht, cause, rfl⟩ := exists_token_of_syntaxError he
    exact .syntactic ht cause

/-- All that a run reports lies in its source. -/
theorem Machine.Ends.pointsInto {source : String} {m m' : Machine} {r : Run}
    (h : Ends source m r m') : ∀ d ∈ r.diagnostics, d.PointsInto source := by
  cases h with
  | rejected h => exact fun d hd => pointsInto_of_mem_diagnosticsOf hd
  | finished h hrun => simp
  | failed h hrun =>
    intro d hd
    obtain rfl := List.mem_singleton.1 hd
    exact .runtime (token_mem_of_run_error hrun)

end TreeWalk
