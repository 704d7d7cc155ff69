import TreeWalk.Proofs.Console.Joined
import TreeWalk.Proofs.Semantics.Output

/-! What a run reports. Its outcome, its reports and the text of the reports say the same: a source
with errors is reported and left alone, and any other one ends with at most one report. -/
namespace TreeWalk

namespace Machine

/-- How the run of a source ends where the output takes everything. -/
inductive Ends (source : String) (m : Machine) : Run → Machine → Prop
  | rejected (h : diagnosticsOf source ≠ []) :
    Ends source m ⟨.syntaxError, diagnosticsOf source⟩ m
  | finished {m' : Machine} (h : diagnosticsOf source = [])
    (hrun : run (programOf source) m = .ok () m') : Ends source m ⟨.success, []⟩ m'
  | failed {e : RuntimeError} {m' : Machine} (h : diagnosticsOf source = [])
    (hrun : run (programOf source) m = .error (.fault (.runtime e)) m') :
    Ends source m ⟨.runtimeError, [e.diagnostic]⟩ m'

theorem Ends.runSource {source : String} {m m' : Machine} {r : Run} (h : Ends source m r m') :
    runSource source m = .ok r m' := by
  cases h with
  | rejected h => exact runSource_of_ne_nil h m
  | finished h hrun => rw [runSource_of_nil h, conclude, hrun]
  | failed h hrun => rw [runSource_of_nil h, conclude, hrun]

theorem exists_ends (source : String) {m : Machine} (hm : m.IsUnlimited) :
    ∃ r m', Ends source m r m' ∧ m'.IsUnlimited := by
  by_cases h : diagnosticsOf source = []
  · have hunlimited := isUnlimited_run (programOf source) hm
    rcases stops_run (isPlaced_programOf source) hm with ⟨m', hrun, -⟩ | ⟨e, m', hrun⟩
    · rw [hrun] at hunlimited
      exact ⟨_, m', .finished h hrun, hunlimited⟩
    · rw [hrun] at hunlimited
      exact ⟨_, m', .failed h hrun, hunlimited⟩
  · exact ⟨_, m, .rejected h, hm⟩

end Machine

namespace Listener

theorem exists_hearAll {ρ : Type} [Listener ρ]
    (hhears : ∀ (r : Report) (l : ρ), ∃ l₁, hear r l = .ok () l₁) (ds : List Diagnostic) (l : ρ) :
    ∃ l₁, hearAll ds l = .ok () l₁ := by
  induction ds generalizing l with
  | nil => exact ⟨l, rfl⟩
  | cons d ds ih =>
    obtain ⟨l₁, hl₁⟩ := hhears d.report l
    rw [hearAll_cons, hl₁]
    exact ih l₁

/-- A sink that takes everything holds the text of each diagnostic as a line. -/
theorem hearAll_sink (ds : List Diagnostic) (text : String) :
    hearAll ds (⟨text, none⟩ : Sink) =
      .ok () ⟨text ++ String.join (ds.map fun d => d.display ++ "\n"), none⟩ := by
  induction ds generalizing text with
  | nil => simp
  | cons d ds ih =>
    rw [hearAll_cons, hear_sink, Sink.write_unlimited, Diagnostic.text_report]
    simp only [ih, List.map_cons, String.join_cons, String.append_assoc]

end Listener

theorem Scanned.eq_map_token {items : List Scanned} (h : items.filterMap error? = []) :
    items = (items.filterMap token?).map token := by
  induction items with
  | nil => rfl
  | cons item items ih =>
    cases item with
    | token t => exact congrArg (token t :: ·) (ih h)
    | error e => cases h

/-- By the grammar a source has this program: it is cut into segments that give only tokens, and the
tokens with the marker of the end are those of a proper sentence with these trees. -/
def IsSourceOf (source : String) (program : List Stmt) : Prop :=
  ∃ ss ts, ∃ sentence : Grammar.Sentence, Segment.Division source.toList ss ∧
    Segment.GivesAll 1 ss (ts.map .token) ∧ sentence.IsProper ∧
    sentence.tokens = ts ++ [⟨.endOfFile, "", 1 + lineFeeds source.toList⟩] ∧
    sentence.trees = program

theorem IsSourceOf.programOf_eq {source : String} {program : List Stmt}
    (h : IsSourceOf source program) : diagnosticsOf source = [] ∧ programOf source = program := by
  obtain ⟨ss, ts, sentence, hdivision, hgives, hproper, htokens, rfl⟩ := h
  have hscan : scan source = ts.map .token := by
    rw [scan_eq, (Segment.division_all _).unique hdivision, hgives.eq_of_tokens]
  apply programOf_of_tokensOf hproper
  · rw [tokensOf_eq, innerTokensOf, hscan, endToken_eq, htokens, List.filterMap_map]
    congr 1
    exact List.filterMap_some
  · rw [lexicalErrorsOf_eq, hscan, List.filterMap_map]
    exact List.filterMap_eq_nil_iff.2 fun _ _ => rfl

theorem isSourceOf_programOf {source : String} (h : diagnosticsOf source = []) :
    IsSourceOf source (programOf source) := by
  obtain ⟨ds, hproper, hinner, htrees⟩ := exists_declarations h
  refine ⟨_, innerTokensOf source, ⟨ds, ⟨⟨.endOfFile, "", 1 + lineFeeds source.toList⟩, rfl⟩⟩,
    Segment.division_all _, ?_, hproper, ?_, htrees.symm⟩
  · have hlexical := (diagnosticsOf_eq_nil.1 h).1
    rw [lexicalErrorsOf_eq] at hlexical
    rw [innerTokensOf, ← Scanned.eq_map_token hlexical, scan_eq]
    exact (Segment.division_all _).givesAll 1
  · rw [Grammar.Sentence.tokens, hinner]

/-- What the stages before its execution find in a source: the errors of its characters, those of
its tokens, and its statements. -/
structure Finds (source : String) (lexical : List LexicalError) (syntactic : List SyntaxError)
    (program : List Stmt) : Prop where
  lexical_eq : (scanToEnd source).filterMap Scanned.error? = lexical
  syntactic_eq : (Program.read ((scanToEnd source).filterMap Scanned.token?)).items.filterMap
    Item.error? = syntactic
  program_eq : (Program.read ((scanToEnd source).filterMap Scanned.token?)).items.filterMap
    Item.stmt? = program

theorem finds_findings (source : String) :
    Finds source (lexicalErrorsOf source) (Program.errors (outlineOf source).items)
      (programOf source) := ⟨rfl, rfl, rfl⟩

namespace Finds

variable {source : String} {lexical : List LexicalError} {syntactic : List SyntaxError}
  {program : List Stmt}

theorem diagnosticsOf_eq (h : Finds source lexical syntactic program) :
    diagnosticsOf source =
      lexical.map LexicalError.diagnostic ++ syntactic.map SyntaxError.diagnostic := by
  rw [← h.lexical_eq, ← h.syntactic_eq]
  rfl

theorem diagnosticsOf_eq_nil (h : Finds source lexical syntactic program) :
    diagnosticsOf source = [] ↔ lexical = [] ∧ syntactic = [] := by
  rw [h.diagnosticsOf_eq, List.append_eq_nil_iff, List.map_eq_nil_iff, List.map_eq_nil_iff]

theorem programOf_eq (h : Finds source lexical syntactic program) : programOf source = program :=
  h.program_eq

/-- No errors are found in a source exactly if the grammar gives it the program. -/
theorem isSourceOf_iff (h : Finds source lexical syntactic program) :
    lexical = [] ∧ syntactic = [] ↔ IsSourceOf source program := by
  rw [← h.diagnosticsOf_eq_nil, ← h.programOf_eq]
  exact ⟨isSourceOf_programOf, fun hsource => hsource.programOf_eq.1⟩

/-- Errors are found in a source exactly if the grammar gives it no program. -/
theorem ne_nil_iff (h : Finds source lexical syntactic program) :
    lexical ≠ [] ∨ syntactic ≠ [] ↔ ∀ program', ¬IsSourceOf source program' := by
  rw [Ne, Ne, ← Classical.not_and_iff_not_or_not, ← h.diagnosticsOf_eq_nil]
  constructor
  · exact fun hsome program' hsource => hsome hsource.programOf_eq.1
  · exact fun hnone hnil => hnone _ (isSourceOf_programOf hnil)

end Finds

/-- How errors are reported. Only those of tokens say where on their line they are. -/
def LexicalError.reported (e : LexicalError) : Report := .error e.line "" e.message

def SyntaxError.reported : SyntaxError → Report
  | atToken t cause =>
    .error t.line (if t.kind = .endOfFile then " at end" else " at '" ++ t.lexeme ++ "'")
      cause.message
  | endOfInput => .error 0 "" "Unexpected end of input."

theorem map_report_errors (lexical : List LexicalError) (syntactic : List SyntaxError) :
    (lexical.map LexicalError.diagnostic ++ syntactic.map SyntaxError.diagnostic).map
        Diagnostic.report =
      lexical.map LexicalError.reported ++ syntactic.map SyntaxError.reported := by
  have hsyntax (e : SyntaxError) : e.diagnostic.report = e.reported := by cases e <;> rfl
  rw [List.map_append, List.map_map, List.map_map]
  congr 1
  exact List.map_congr_left fun e _ => hsyntax e

namespace Session

variable {ρ : Type} [Listener ρ]

theorem run_of_ends {source : String} {m m' : Machine} {r : Run} (h : Machine.Ends source m r m')
    {l l' : ρ} (hl : Listener.hearAll r.diagnostics l = .ok () l') :
    run source ⟨m, l⟩ = .ok r.outcome ⟨m', l'⟩ := by
  simp only [run_eq, h.runSource, hl]

/-- With an output and a listener that refuse nothing, a run ends in one of three ways. Where
scanning or reading finds errors, exactly these are reported, in order and as such, and nothing is
executed. Otherwise, and so if the source has a program by the grammar, the program comes to its
end, and nothing is reported, or it stops with a runtime error, and this one is reported. A sink in
place of the listener takes the texts of what is reported as lines. -/
theorem run_reports (hhears : ∀ (r : Report) (l : ρ), ∃ l₁, Listener.hear r l = .ok () l₁)
    {source : String} {lexical : List LexicalError} {syntactic : List SyntaxError}
    {program : List Stmt} (hfinds : Finds source lexical syntactic program) {s : Session ρ}
    (hs : s.machine.IsUnlimited) :
    (lexical = [] ∧ syntactic = [] ↔ IsSourceOf source program) ∧
    ∃ outcome ds m l, run source s = .ok outcome ⟨m, l⟩ ∧
      Listener.hearAll ds s.listener = .ok () l ∧
      (∀ text, run source (⟨s.machine, ⟨text, none⟩⟩ : Session Sink) =
        .ok outcome ⟨m, ⟨text ++ String.join (ds.map fun d => d.display ++ "\n"), none⟩⟩) ∧
      (lexical ≠ [] ∨ syntactic ≠ [] → outcome = .syntaxError ∧ m = s.machine ∧
        ds = lexical.map LexicalError.diagnostic ++ syntactic.map SyntaxError.diagnostic ∧
        ds.map Diagnostic.report =
          lexical.map LexicalError.reported ++ syntactic.map SyntaxError.reported) ∧
      (lexical = [] → syntactic = [] →
        (Machine.run program s.machine = .ok () m ∧ outcome = .success ∧ ds = []) ∨
        ∃ e, Machine.run program s.machine = .error (.fault (.runtime e)) m ∧
          outcome = .runtimeError ∧ ds = [e.diagnostic] ∧
          e.diagnostic.report = .runtimeError e.token.line e.message) := by
  obtain ⟨r, m, hends, -⟩ := Machine.exists_ends source hs
  obtain ⟨l, hl⟩ := Listener.exists_hearAll hhears r.diagnostics s.listener
  refine ⟨hfinds.isSourceOf_iff, r.outcome, r.diagnostics, m, l, run_of_ends hends hl, hl,
    fun text => run_of_ends hends (Listener.hearAll_sink _ _), ?_, ?_⟩
  · intro hsome
    have hne : diagnosticsOf source ≠ [] := by
      rw [Ne, hfinds.diagnosticsOf_eq_nil]
      exact Classical.not_and_iff_not_or_not.2 hsome
    cases hends with
    | rejected h =>
      refine ⟨rfl, rfl, hfinds.diagnosticsOf_eq, ?_⟩
      rw [hfinds.diagnosticsOf_eq, map_report_errors]
    | finished h hrun => exact absurd h hne
    | failed h hrun => exact absurd h hne
  · intro hlexical hsyntactic
    have hnone := hfinds.diagnosticsOf_eq_nil.2 ⟨hlexical, hsyntactic⟩
    rw [← hfinds.programOf_eq]
    cases hends with
    | rejected h => exact absurd hnone h
    | finished h hrun => exact .inl ⟨hrun, rfl, rfl⟩
    | failed h hrun => exact .inr ⟨_, hrun, rfl, rfl, rfl⟩

/-- The report of a name that stands for nothing, and its text. -/
theorem run_reports_undefined : ∃ m,
    run "x;" ⟨{}, []⟩ =
      .ok .runtimeError ⟨m, [Report.runtimeError 1 "Undefined variable 'x'."]⟩ ∧
    run "x;" (⟨{}, {}⟩ : Session Sink) =
      .ok .runtimeError ⟨m, ⟨"[line 1] Runtime error: Undefined variable 'x'.\n", none⟩⟩ := by
  obtain ⟨-, outcome, ds, m, l, hrun, hl, hsink, -, hcases⟩ :=
    run_reports (s := ⟨{}, ([] : List Report)⟩) (fun r l => ⟨l ++ [r], rfl⟩) (finds_findings "x;")
      rfl
  obtain ⟨hlexical, hsyntactic⟩ :=
    (finds_findings "x;").diagnosticsOf_eq_nil.1 programOf_reference.1
  rw [run_reference] at hrun
  cases hrun
  rcases hcases hlexical hsyntactic with ⟨-, houtcome, -⟩ | ⟨e, hfails, -, rfl, -⟩
  · cases houtcome
  · rw [run_programOf_reference] at hfails
    cases hfails
    exact ⟨{}, run_reference, hsink ""⟩

end Session

end TreeWalk
