import TreeWalk.Proofs.Console.Safety
import TreeWalk.Proofs.Grammar.Program
import TreeWalk.Proofs.Lexis.Seam
import TreeWalk.Proofs.Semantics.Tokens

/-! Sources joined by line feeds run as they do one after another. -/
namespace TreeWalk

open Grammar

/-- A source whose tokens are those of a proper sentence has no errors, and is the program that the
sentence stands for. -/
theorem programOf_of_tokensOf {source : String} {s : Sentence} (hs : s.IsProper)
    (htokens : tokensOf source = s.tokens) (hlexical : lexicalErrorsOf source = []) :
    diagnosticsOf source = [] ∧ programOf source = s.trees := by
  have hitems : (outlineOf source).items = s.trees.map .stmt := by
    rw [outlineOf, htokens]
    exact Sentence.items_of_isProper hs
  constructor
  · have herrors : Program.errors (s.trees.map .stmt) = [] := by
      rw [Program.errors, List.filterMap_map, List.filterMap_eq_nil_iff]
      intro tree _
      rfl
    rw [diagnosticsOf, hlexical, hitems, herrors]
    rfl
  · rw [programOf, hitems, Program.statements, List.filterMap_map]
    exact List.filterMap_some

theorem diagnosticsOf_eq_nil {source : String} : diagnosticsOf source = [] ↔
    lexicalErrorsOf source = [] ∧ Program.errors (outlineOf source).items = [] := by
  rw [diagnosticsOf, List.append_eq_nil_iff, List.map_eq_nil_iff, List.map_eq_nil_iff]

/-- The declarations of a source without errors. -/
theorem exists_declarations {source : String} (h : diagnosticsOf source = []) :
    ∃ ds : List Declaration, (∀ d ∈ ds, d.IsProper) ∧
      innerTokensOf source = ds.flatMap Declaration.tokens ∧
      programOf source = ds.map Declaration.tree := by
  obtain ⟨hlexical, herrors⟩ := diagnosticsOf_eq_nil.1 h
  let ending : Terminal .endOfFile := ⟨endToken source, rfl⟩
  have hitems : ∀ i ∈ (Program.read (innerTokensOf source ++ [ending.val])).items,
      ∃ s, i = .stmt s := by
    intro i hi
    rw [← tokensOf_eq] at hi
    have hnone := List.filterMap_eq_nil_iff.1 herrors i hi
    cases i with
    | stmt s => exact ⟨s, rfl⟩
    | error e => cases hnone
  obtain ⟨s, hs, htokens⟩ :=
    Sentence.exists_of_items_stmt (innerTokensOf_ne_endOfFile source) hitems
  have hinner : s.declarations.flatMap Declaration.tokens = innerTokensOf source :=
    (List.append_inj' htokens rfl).1
  have hprogram := programOf_of_tokensOf hs ((tokensOf_eq source).trans htokens.symm) hlexical
  exact ⟨s.declarations, hs, hinner.symm, hprogram.2⟩

/-- Two sources joined are read as both of them are, the second further down. -/
theorem items_join {source : String} (h : diagnosticsOf source = []) (next : String) :
    (outlineOf (source ++ "\n" ++ next)).items = (outlineOf source).items ++
      (outlineOf next).items.map (Item.mapTokens (Token.later (linesOf source))) := by
  obtain ⟨ds, -, hinner, -⟩ := exists_declarations h
  have hsource : (outlineOf source).items = ds.flatMap Declaration.items := by
    rw [outlineOf, tokensOf_eq, hinner, Declaration.read_flatMap_tokens,
      Program.read_of_atEnd (by simp [Program.atEnd, endToken])]
    exact List.append_nil _
  rw [outlineOf, tokensOf_join (diagnosticsOf_eq_nil.1 h).1, hinner,
    Declaration.read_flatMap_tokens, Program.read_map (Token.kind_later _), hsource]
  rfl

/-- Two sources joined have the statements of both, those of the second further down. -/
theorem programOf_join {source next : String} (h : diagnosticsOf source = [])
    (hnext : diagnosticsOf next = []) :
    diagnosticsOf (source ++ "\n" ++ next) = [] ∧
      programOf (source ++ "\n" ++ next) = programOf source ++
        (programOf next).map (Stmt.mapTokens (Token.later (linesOf source))) := by
  have hitems := items_join h next
  obtain ⟨hlexical, herrors⟩ := diagnosticsOf_eq_nil.1 h
  obtain ⟨hlexical', herrors'⟩ := diagnosticsOf_eq_nil.1 hnext
  constructor
  · refine diagnosticsOf_eq_nil.2 ⟨lexicalErrorsOf_join hlexical hlexical', ?_⟩
    rw [hitems, Program.errors_append, Program.errors_map, herrors, herrors']
    rfl
  · rw [programOf, hitems, Program.statements_append, Program.statements_map]
    rfl

theorem programOf_empty : diagnosticsOf "" = [] ∧ programOf "" = [] := by
  have hscan : scan "" = [] := by
    have hnil : "".toList = [] := rfl
    rw [scan_eq, hnil, Segment.all_nil, Segment.scannedFrom_nil]
  have hlexical : lexicalErrorsOf "" = [] := by rw [lexicalErrorsOf_eq, hscan, List.filterMap_nil]
  have htokens : tokensOf "" = (⟨[], ⟨endToken "", rfl⟩⟩ : Sentence).tokens := by
    rw [tokensOf_eq, innerTokensOf, hscan]
    rfl
  exact programOf_of_tokensOf (by simp [Sentence.IsProper]) htokens hlexical

/-- A machine takes sources to their ends, one after another. -/
inductive Finishes : List String → Machine → Machine → Prop
  | nil (m : Machine) : Finishes [] m m
  | cons {source : String} {sources : List String} {m m₁ m₂ : Machine}
    (hrun : Machine.run (programOf source) m = .ok () m₁) (hrest : Finishes sources m₁ m₂) :
    Finishes (source :: sources) m m₂

/-- A machine takes sources to their ends, up to one that stops with a runtime error. -/
structure Fails (sources before : List String) (source : String) (after : List String)
    (m m₀ m₁ : Machine) (e : RuntimeError) : Prop where
  split : sources = before ++ source :: after
  finishes : Finishes before m m₀
  stops : Machine.run (programOf source) m₀ = .error (.fault (.runtime e)) m₁

/-- The text that stands before a source that others are joined in front of. -/
def textBefore (before : List String) : List Char := before.flatMap fun s => s.toList ++ ['\n']

theorem lineFeeds_textBefore_cons (source : String) (before : List String) :
    lineFeeds (textBefore (source :: before)) = lineFeeds (textBefore before) + linesOf source := by
  rw [textBefore, List.flatMap_cons, lineFeeds_append, lineFeeds_append, linesOf, textBefore]
  have hline : lineFeeds ['\n'] = 1 := rfl
  omega

theorem toList_joined (before : List String) (source : String) (after : List String) :
    (String.intercalate "\n" (before ++ source :: after)).toList =
      textBefore before ++ (String.intercalate "\n" (source :: after)).toList := by
  induction before with
  | nil => rfl
  | cons first before ih =>
    rw [List.cons_append, String.intercalate_cons_of_ne_nil (by simp), String.toList_append,
      String.toList_append, ih]
    simp [textBefore]

def RuntimeError.later (n : Nat) (e : RuntimeError) : RuntimeError :=
  { e with token := e.token.later n }

theorem RuntimeError.later_later (a b : Nat) (e : RuntimeError) :
    (e.later a).later b = e.later (a + b) := by
  simp only [later, Token.later, Nat.add_assoc]

theorem diagnosticsOf_joined {sources : List String} (h : ∀ s ∈ sources, diagnosticsOf s = []) :
    diagnosticsOf (String.intercalate "\n" sources) = [] := by
  induction sources with
  | nil =>
    rw [String.intercalate_nil]
    exact programOf_empty.1
  | cons source sources ih =>
    obtain ⟨hsource, hsources⟩ := List.forall_mem_cons.1 h
    cases sources with
    | nil => rwa [String.intercalate_singleton]
    | cons next rest =>
      rw [String.intercalate_cons_cons]
      exact (programOf_join hsource (ih hsources)).1

/-- Joined sources finish where the sources do one after another, and fail where the first of them
fails that does, with its error further down. -/
theorem run_joined_cases {sources : List String} (h : ∀ s ∈ sources, diagnosticsOf s = [])
    {m : Machine} (hm : m.IsUnlimited) :
    (∃ m₁, Finishes sources m m₁ ∧
      Machine.run (programOf (String.intercalate "\n" sources)) m = .ok () m₁) ∨
    ∃ before source after m₀ m₁ e, Fails sources before source after m m₀ m₁ e ∧
      Machine.run (programOf (String.intercalate "\n" sources)) m =
        .error (.fault (.runtime (e.later (lineFeeds (textBefore before))))) m₁ := by
  induction sources generalizing m with
  | nil =>
    rw [String.intercalate_nil, programOf_empty.2]
    exact .inl ⟨m, .nil m, rfl⟩
  | cons source sources ih =>
    obtain ⟨hsource, hsources⟩ := List.forall_mem_cons.1 h
    have hstops := Machine.stops_run (isPlaced_programOf source) hm
    cases sources with
    | nil =>
      rw [String.intercalate_singleton]
      rcases hstops with ⟨m₁, hrun, -⟩ | ⟨e, m₁, hrun⟩
      · exact .inl ⟨m₁, .cons hrun (.nil m₁), hrun⟩
      · exact .inr ⟨[], source, [], m, m₁, e, ⟨rfl, .nil m, hrun⟩, hrun⟩
    | cons next rest =>
      have hjoin := (programOf_join hsource (diagnosticsOf_joined hsources)).2
      rw [String.intercalate_cons_cons, hjoin, Machine.run_append]
      rcases hstops with ⟨m₁, hrun, hm₁⟩ | ⟨e, m₁, hrun⟩
      · rw [hrun]
        simp only [Machine.run_mapTokens (Token.kind_later _) (Token.lexeme_later _)]
        rcases ih hsources hm₁ with ⟨m₂, hfinishes, hrest⟩ |
            ⟨before, failing, after, m₀, m₂, e, hfails, hrest⟩
        · rw [hrest]
          exact .inl ⟨m₂, .cons hrun hfinishes, rfl⟩
        · rw [hrest]
          refine .inr ⟨source :: before, failing, after, m₀, m₂, e, ⟨?_, ?_, hfails.stops⟩, ?_⟩
          · rw [hfails.split, List.cons_append]
          · exact .cons hrun hfails.finishes
          · rw [lineFeeds_textBefore_cons, ← RuntimeError.later_later]
            rfl
      · rw [hrun]
        exact .inr ⟨[], source, next :: rest, m, m₁, e, ⟨rfl, .nil m, hrun⟩, rfl⟩

namespace Session

variable {ρ : Type} [Listener ρ]

/-- Runs sources one after another, up to the first that stops with a runtime error. -/
def runInTurn : List String → EStateM Abort (Session ρ) Outcome
  | [] => pure .success
  | source :: sources => do
    let outcome ← run source
    if outcome = .runtimeError then pure outcome else runInTurn sources

theorem run_of_run_ok {source : String} (h : diagnosticsOf source = []) {m m₁ : Machine} {l : ρ}
    (hrun : Machine.run (programOf source) m = .ok () m₁) :
    run source ⟨m, l⟩ = .ok .success ⟨m₁, l⟩ := by
  rw [run_eq, Machine.runSource_of_nil h, Machine.conclude, hrun]
  rfl

theorem run_of_run_error {source : String} (h : diagnosticsOf source = []) {m m₁ : Machine}
    {l l₁ : ρ} {e : RuntimeError}
    (hrun : Machine.run (programOf source) m = .error (.fault (.runtime e)) m₁)
    (hhear : Listener.hear (.runtimeError e.token.line e.message) l = .ok () l₁) :
    run source ⟨m, l⟩ = .ok .runtimeError ⟨m₁, l₁⟩ := by
  have hreport : e.diagnostic.report = .runtimeError e.token.line e.message := rfl
  rw [run_eq, Machine.runSource_of_nil h, Machine.conclude, hrun]
  simp only [Listener.hearAll_cons, hreport, hhear, Listener.hearAll_nil]

theorem runInTurn_cons_of_ok {source : String} {sources : List String} {s s₁ : Session ρ}
    (h : run source s = .ok .success s₁) :
    runInTurn (source :: sources) s = runInTurn sources s₁ := by
  simp only [runInTurn, bind, EStateM.bind, h]
  rfl

theorem runInTurn_cons_of_error {source : String} {sources : List String} {s s₁ : Session ρ}
    (h : run source s = .ok .runtimeError s₁) :
    runInTurn (source :: sources) s = .ok .runtimeError s₁ := by
  simp only [runInTurn, bind, EStateM.bind, h]
  rfl

theorem runInTurn_append {before after : List String} (h : ∀ s ∈ before, diagnosticsOf s = [])
    {m m₁ : Machine} (hfinishes : Finishes before m m₁) (l : ρ) :
    runInTurn (before ++ after) ⟨m, l⟩ = runInTurn after ⟨m₁, l⟩ := by
  induction hfinishes with
  | nil => rfl
  | cons hrun hrest ih =>
    obtain ⟨hsource, hsources⟩ := List.forall_mem_cons.1 h
    rw [List.cons_append, runInTurn_cons_of_ok (run_of_run_ok hsource hrun), ih hsources]

theorem runInTurn_of_finishes {sources : List String} (h : ∀ s ∈ sources, diagnosticsOf s = [])
    {m m₁ : Machine} (hfinishes : Finishes sources m m₁) (l : ρ) :
    runInTurn sources ⟨m, l⟩ = .ok .success ⟨m₁, l⟩ := by
  have hturn : runInTurn (sources ++ []) ⟨m, l⟩ = runInTurn [] ⟨m₁, l⟩ :=
    runInTurn_append h hfinishes l
  rw [List.append_nil] at hturn
  exact hturn

/-- With an output and a listener that refuse nothing, sources without errors of syntax run joined
by line feeds as they do one after another: to the same end, or to the same failure of one of them,
which is then reported as many lines further down as there are line feeds before that source. -/
theorem run_joined (hhears : ∀ (r : Report) (l : ρ), ∃ l₁, Listener.hear r l = .ok () l₁)
    {sources : List String} (h : ∀ source ∈ sources, diagnosticsOf source = []) {s : Session ρ}
    (hs : s.machine.IsUnlimited) :
    (∃ m, runInTurn sources s = .ok .success ⟨m, s.listener⟩ ∧
      run (String.intercalate "\n" sources) s = .ok .success ⟨m, s.listener⟩) ∨
    ∃ before source after m₀ m line message l₁ l₂, sources = before ++ source :: after ∧
      (String.intercalate "\n" sources).toList =
        textBefore before ++ (String.intercalate "\n" (source :: after)).toList ∧
      runInTurn before s = .ok .success ⟨m₀, s.listener⟩ ∧
      Listener.hear (.runtimeError line message) s.listener = .ok () l₁ ∧
      run source ⟨m₀, s.listener⟩ = .ok .runtimeError ⟨m, l₁⟩ ∧
      runInTurn sources s = .ok .runtimeError ⟨m, l₁⟩ ∧
      Listener.hear (.runtimeError (line + lineFeeds (textBefore before)) message) s.listener =
        .ok () l₂ ∧
      run (String.intercalate "\n" sources) s = .ok .runtimeError ⟨m, l₂⟩ := by
  obtain ⟨machine, listener⟩ := s
  have hjoined := diagnosticsOf_joined h
  rcases run_joined_cases h hs with ⟨m, hfinishes, hrun⟩ |
      ⟨before, source, after, m₀, m, e, hfails, hrun⟩
  · exact .inl ⟨m, runInTurn_of_finishes h hfinishes listener, run_of_run_ok hjoined hrun⟩
  · obtain ⟨rfl, hfinishes, hstops⟩ := hfails
    obtain ⟨hbefore, hrest⟩ := List.forall_mem_append.1 h
    obtain ⟨hsource, -⟩ := List.forall_mem_cons.1 hrest
    obtain ⟨l₁, hl₁⟩ := hhears (.runtimeError e.token.line e.message) listener
    obtain ⟨l₂, hl₂⟩ := hhears
      (.runtimeError (e.token.line + lineFeeds (textBefore before)) e.message) listener
    have hpiece := run_of_run_error hsource hstops hl₁
    have hturn : runInTurn (before ++ source :: after) ⟨machine, listener⟩ =
        .ok .runtimeError ⟨m, l₁⟩ := by
      rw [runInTurn_append hbefore hfinishes, runInTurn_cons_of_error hpiece]
    exact .inr ⟨before, source, after, m₀, m, e.token.line, e.message, l₁, l₂, rfl,
      toList_joined before source after, runInTurn_of_finishes hbefore hfinishes listener, hl₁,
      hpiece, hturn, hl₂, run_of_run_error hjoined hrun hl₂⟩

theorem all_reference : Segment.all "x;".toList =
    [⟨.token .identifier, ['x']⟩, ⟨.token (.symbol .semicolon), [';']⟩] := by
  have htext : "x;".toList = ['x', ';'] := rfl
  have hname : Segment.first 'x' [';'] = (⟨.token .identifier, ['x']⟩, [';']) := rfl
  have hclosing : Segment.first ';' [] = (⟨.token (.symbol .semicolon), [';']⟩, []) := rfl
  rw [htext, Segment.all_cons, hname, Segment.all_cons, hclosing, Segment.all_nil]

/-- The source `x;`. -/
theorem programOf_reference : diagnosticsOf "x;" = [] ∧
    programOf "x;" = [.expression (.reference ⟨.identifier, "x", 1⟩)] := by
  let name : Terminal .identifier := ⟨⟨.identifier, "x", 1⟩, rfl⟩
  let closing : Terminal (.symbol .semicolon) := ⟨⟨.symbol .semicolon, ";", 1⟩, rfl⟩
  let s : Sentence :=
    ⟨[.expression (.plain (.ofPrimary (.reference name))) closing], ⟨endToken "x;", rfl⟩⟩
  have hscan : scan "x;" = [.token name.val, .token closing.val] := by
    rw [scan_eq, all_reference]
    rfl
  have hproper : s.IsProper := by
    intro d hd
    obtain rfl := List.mem_singleton.1 hd
    simp [Declaration.IsProper, Derivation.IsProper, Derivation.ofPrimary]
  have htokens : tokensOf "x;" = s.tokens := by
    rw [tokensOf_eq, innerTokensOf, hscan]
    rfl
  have hlexical : lexicalErrorsOf "x;" = [] := by
    rw [lexicalErrorsOf_eq, hscan]
    rfl
  exact programOf_of_tokensOf hproper htokens hlexical

/-- Without any variables the source `x;` fails. -/
theorem run_programOf_reference : Machine.run (programOf "x;") {} =
    .error (.fault (.runtime ⟨⟨.identifier, "x", 1⟩, .undefinedVariable⟩)) {} := by
  simp [programOf_reference.2, Machine.run_cons, Stmt.exec_expression, Evaluation.read,
    Bindings.read]

theorem run_reference : run "x;" ⟨{}, []⟩ =
    .ok .runtimeError ⟨{}, [Report.runtimeError 1 "Undefined variable 'x'."]⟩ :=
  run_of_run_error programOf_reference.1 run_programOf_reference rfl

/-- The second of two sources fails, on its first line and on line 2 of both. -/
theorem run_joined_undefined :
    ∃ m : Machine,
      runInTurn ["", "x;"] ⟨{}, []⟩ =
        .ok .runtimeError ⟨m, [Report.runtimeError 1 "Undefined variable 'x'."]⟩ ∧
      run (String.intercalate "\n" ["", "x;"]) ⟨{}, []⟩ =
        .ok .runtimeError ⟨m, [Report.runtimeError 2 "Undefined variable 'x'."]⟩ := by
  have hsources : ∀ source ∈ ["", "x;"], diagnosticsOf source = [] := by
    intro source hsource
    simp only [List.mem_cons, List.not_mem_nil, or_false] at hsource
    rcases hsource with rfl | rfl
    · exact programOf_empty.1
    · exact programOf_reference.1
  have hempty : Machine.run (programOf "") {} = .ok () {} := by
    rw [programOf_empty.2]
    rfl
  have hfirst : run "" ⟨{}, ([] : List Report)⟩ = .ok .success ⟨{}, []⟩ :=
    run_of_run_ok programOf_empty.1 hempty
  have hturn : runInTurn ["", "x;"] ⟨{}, []⟩ =
      .ok .runtimeError ⟨{}, [Report.runtimeError 1 "Undefined variable 'x'."]⟩ := by
    rw [runInTurn_cons_of_ok hfirst, runInTurn_cons_of_error run_reference]
  rcases run_joined (s := ⟨{}, ([] : List Report)⟩) (fun r l => ⟨l ++ [r], rfl⟩) hsources rfl with
    ⟨m, hsuccess, -⟩ | ⟨before, source, after, m₀, m, line, message, l₁, l₂, hsplit, -, hbefore,
      hl₁, hpiece, hfailure, hl₂, hjoined⟩
  · rw [hturn] at hsuccess
    cases hsuccess
  · rw [hturn] at hfailure
    cases hfailure
    cases hl₁
    refine ⟨_, hturn, ?_⟩
    rcases before with _ | ⟨first, _ | ⟨second, rest⟩⟩
    · cases hsplit
      cases hbefore
      rw [hfirst] at hpiece
      cases hpiece
    · cases hsplit
      cases hl₂
      exact hjoined
    · simp at hsplit

end Session

end TreeWalk
