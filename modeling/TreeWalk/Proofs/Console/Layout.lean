import TreeWalk.Proofs.Console.Reports
import TreeWalk.Proofs.Lexis.Layout

/-! Layout carries no meaning. With more of it between its tokens a source runs as before, and what
is reported differs in its lines alone. -/
namespace TreeWalk

/-- The same report without its line. -/
def Report.unlined : Report → Report
  | error _ location message => error 0 location message
  | runtimeError _ message => runtimeError 0 message

theorem LexicalError.report_unlined (e : LexicalError) :
    e.unlined.diagnostic.report.unlined = e.diagnostic.report.unlined := rfl

theorem SyntaxError.report_unlined (e : SyntaxError) :
    (e.mapTokens Token.unlined).diagnostic.report.unlined = e.diagnostic.report.unlined := by
  cases e <;> rfl

theorem RuntimeError.report_unlined (e : RuntimeError) :
    (e.mapTokens Token.unlined).diagnostic.report.unlined = e.diagnostic.report.unlined := by
  obtain ⟨token, cause⟩ := e
  cases cause <;> rfl

/-- What diagnostics report, but for the lines. -/
def unlinedReports (ds : List Diagnostic) : List Report :=
  (ds.map Diagnostic.report).map Report.unlined

section Spaced

variable {source spaced : String}
  (h : Relation.ReflTransGen Segment.Spaced source.toList spaced.toList)

include h

theorem outlineOf_of_spaced :
    (outlineOf spaced).mapTokens Token.unlined = (outlineOf source).mapTokens Token.unlined := by
  rw [outlineOf, outlineOf, ← Program.read_map Token.kind_unlined,
    ← Program.read_map Token.kind_unlined, unlined_tokensOf_of_spaced h]

theorem programOf_of_spaced :
    (programOf spaced).map (Stmt.mapTokens Token.unlined) =
      (programOf source).map (Stmt.mapTokens Token.unlined) := by
  have hitems := congrArg Program.Outline.items (outlineOf_of_spaced h)
  rw [programOf, programOf, ← Program.statements_map, ← Program.statements_map]
  exact congrArg Program.statements hitems

theorem unlinedReports_of_spaced :
    unlinedReports (diagnosticsOf spaced) = unlinedReports (diagnosticsOf source) := by
  have hitems := congrArg Program.Outline.items (outlineOf_of_spaced h)
  have hsyntax := congrArg Program.errors hitems
  have hlexical := unlined_lexicalErrorsOf_of_spaced h
  have hreports (source : String) : unlinedReports (diagnosticsOf source) =
      ((lexicalErrorsOf source).map LexicalError.unlined).map (·.diagnostic.report.unlined) ++
        (Program.errors ((outlineOf source).mapTokens Token.unlined).items).map
          (·.diagnostic.report.unlined) := by
    rw [Program.Outline.mapTokens, Program.errors_map]
    simp only [unlinedReports, diagnosticsOf, List.map_append, List.map_map, Function.comp_def,
      LexicalError.report_unlined, SyntaxError.report_unlined]
  rw [hreports, hreports, hlexical, hsyntax]

theorem diagnosticsOf_eq_nil_of_spaced : diagnosticsOf spaced = [] ↔ diagnosticsOf source = [] := by
  have hnil (ds : List Diagnostic) : unlinedReports ds = [] ↔ ds = [] := by simp [unlinedReports]
  rw [← hnil, ← hnil, unlinedReports_of_spaced h]

namespace Machine

theorem onError_run_of_spaced (m : Machine) :
    onError (Halt.mapTokens Token.unlined) (run (programOf spaced) m) =
      onError (Halt.mapTokens Token.unlined) (run (programOf source) m) := by
  rw [← run_mapTokens Token.kind_unlined Token.lexeme_unlined,
    ← run_mapTokens Token.kind_unlined Token.lexeme_unlined, programOf_of_spaced h]

/-- A source with more layout ends as the source itself does, with the same machine. -/
theorem runSource_of_spaced {m : Machine} (hm : m.IsUnlimited) :
    ∃ r r' m', runSource source m = .ok r m' ∧ runSource spaced m = .ok r' m' ∧
      r'.outcome = r.outcome ∧ unlinedReports r'.diagnostics = unlinedReports r.diagnostics := by
  by_cases hnone : diagnosticsOf source = []
  · have hnone' := (diagnosticsOf_eq_nil_of_spaced h).2 hnone
    have hrun := onError_run_of_spaced h m
    rw [runSource_of_nil hnone, runSource_of_nil hnone', conclude, conclude]
    rcases stops_run (isPlaced_programOf source) hm with ⟨m₁, hsource, -⟩ | ⟨e, m₁, hsource⟩ <;>
      rcases stops_run (isPlaced_programOf spaced) hm with
        ⟨m₂, hspaced, -⟩ | ⟨e', m₂, hspaced⟩ <;>
      rw [hsource, hspaced] at hrun ⊢
    · cases hrun
      exact ⟨_, _, m₁, rfl, rfl, rfl, rfl⟩
    · cases hrun
    · cases hrun
    · simp only [onError, Halt.mapTokens, Fault.mapTokens, EStateM.Result.error.injEq,
        Halt.fault.injEq, Fault.runtime.injEq] at hrun
      obtain ⟨he, rfl⟩ := hrun
      have hreport : e'.diagnostic.report.unlined = e.diagnostic.report.unlined := by
        rw [← e'.report_unlined, he, e.report_unlined]
      exact ⟨_, _, m₂, rfl, rfl, rfl, congrArg (fun r => [r]) hreport⟩
  · have hsome := (not_congr (diagnosticsOf_eq_nil_of_spaced h)).2 hnone
    exact ⟨_, _, m, runSource_of_ne_nil hnone m, runSource_of_ne_nil hsome m, rfl,
      unlinedReports_of_spaced h⟩

end Machine

end Spaced

namespace Session

variable {ρ : Type} [Listener ρ]

/-- With an output and a listener that refuse nothing, gaps before the tokens and the errors of a
source change neither the outcome nor the output nor the variables, and of the reports nothing but
their lines. A counter of 32 bits is enough for the comments that are open in a gap, unless there
are as many characters as words of 32 bits. -/
theorem run_of_spaced (hhears : ∀ (r : Report) (l : ρ), ∃ l₁, Listener.hear r l = .ok () l₁)
    {source spaced : String}
    (h : Relation.ReflTransGen Segment.Spaced source.toList spaced.toList) {s : Session ρ}
    (hs : s.machine.IsUnlimited) :
    ∃ outcome m ds ds' l l', run source s = .ok outcome ⟨m, l⟩ ∧
      Listener.hearAll ds s.listener = .ok () l ∧
      run spaced s = .ok outcome ⟨m, l'⟩ ∧
      Listener.hearAll ds' s.listener = .ok () l' ∧
      (ds'.map Diagnostic.report).map Report.unlined =
        (ds.map Diagnostic.report).map Report.unlined ∧
      ∀ text ∈ [source, spaced], text.length < UInt32.size →
        runScanned (scanHolding word32 text) s = run text s := by
  obtain ⟨r, r', m, hsource, hspaced, houtcome, hreports⟩ := Machine.runSource_of_spaced h hs
  obtain ⟨l, hl⟩ := Listener.exists_hearAll hhears r.diagnostics s.listener
  obtain ⟨l', hl'⟩ := Listener.exists_hearAll hhears r'.diagnostics s.listener
  refine ⟨r.outcome, m, r.diagnostics, r'.diagnostics, l, l', ?_, hl, ?_, hl', hreports,
    fun text _ hshort => runScanned_word32 hshort s⟩
  · simp only [run_eq, hsource, hl]
  · simp only [run_eq, hspaced, hl', houtcome]

/-- A line feed and a comment before the only name of a source. -/
theorem run_of_spaced_reference :
    ∃ m l, run "x;" ⟨{}, []⟩ =
        .ok .runtimeError ⟨m, [Report.runtimeError 1 "Undefined variable 'x'."]⟩ ∧
      run "\n// y\nx;" ⟨{}, []⟩ = .ok .runtimeError ⟨m, l⟩ ∧
      l.map Report.unlined = [.runtimeError 0 "Undefined variable 'x'."] := by
  have hdivision : Segment.Division "x;".toList
      ([] ++ ⟨.token .identifier, ['x']⟩ :: [⟨.token (.symbol .semicolon), [';']⟩]) := by
    have hall := Segment.division_all "x;".toList
    rwa [all_reference] at hall
  have hbody : '\n' ∉ [' ', 'y'] := by decide
  have hgap : IsGap "\n// y\n".toList := ⟨'\n', _, rfl, by simp, .lineComment hbody .nil⟩
  have hspaced : Relation.ReflTransGen Segment.Spaced "x;".toList "\n// y\nx;".toList :=
    .single (.gap hdivision (by simp [Segment.IsSilent]) hgap)
  obtain ⟨outcome, m, ds, ds', l, l', hsource, hl, hrun', hl', hreports, -⟩ :=
    run_of_spaced (s := ⟨{}, ([] : List Report)⟩) (fun r l => ⟨l ++ [r], rfl⟩) hspaced rfl
  rw [run_reference] at hsource
  cases hsource
  rw [Listener.hearAll_list, EStateM.Result.ok.injEq] at hl hl'
  have hreported : ds.map Diagnostic.report =
      [Report.runtimeError 1 "Undefined variable 'x'."] := hl.2
  have hheard : ds'.map Diagnostic.report = l' := hl'.2
  rw [hreported, hheard] at hreports
  exact ⟨_, l', run_reference, hrun', hreports⟩

end Session

end TreeWalk
