import TreeWalk.Console.Session
import TreeWalk.Proofs.Lexis.Scanner

/-! The stages of a run, taken together. A run reports all that is found before the source is
executed, or executes it and reports what stops it. -/
namespace TreeWalk

namespace Listener

variable {ρ : Type} [Listener ρ]

/-- Reports diagnostics in order, up to the first failure. -/
def hearAll : List Diagnostic → EStateM StreamError ρ Unit
  | [] => pure ()
  | d :: ds => do
    hear d.report
    hearAll ds

@[simp] theorem hearAll_nil (l : ρ) : hearAll [] l = .ok () l := rfl

theorem hearAll_cons (d : Diagnostic) (ds : List Diagnostic) (l : ρ) :
    hearAll (d :: ds) l =
      match hear d.report l with
      | .ok _ l => hearAll ds l
      | .error e l => .error e l := by
  simp only [hearAll, bind, EStateM.bind]
  cases hear d.report l <;> rfl

theorem hearAll_list (ds : List Diagnostic) (rs : List Report) :
    hearAll ds rs = .ok () (rs ++ ds.map Diagnostic.report) := by
  induction ds generalizing rs with
  | nil => simp
  | cons d ds ih => simp [hearAll_cons, ih]

theorem hearAll_append (ds ds' : List Diagnostic) (l : ρ) :
    hearAll (ds ++ ds') l =
      match hearAll ds l with
      | .ok _ l => hearAll ds' l
      | .error e l => .error e l := by
  induction ds generalizing l with
  | nil => rfl
  | cons d ds ih =>
    rw [List.cons_append, hearAll_cons, hearAll_cons]
    cases hear d.report l with
    | ok _ l => exact ih l
    | error e l => rfl

end Listener

/-- How the run of a source ended, and all that it has to report. -/
structure Run where
  outcome : Outcome
  diagnostics : List Diagnostic
deriving DecidableEq

namespace Machine

/-- Executes a program to its end or to its first error. -/
def conclude (program : List Stmt) : EStateM StrayOperator Machine Run := fun m =>
  match run program m with
  | .ok _ m => .ok ⟨.success, []⟩ m
  | .error (.fault (.runtime e)) m => .ok ⟨.runtimeError, [e.diagnostic]⟩ m
  | .error (.output e) m => .ok ⟨.runtimeError, [e.diagnostic]⟩ m
  | .error (.fault (.stray o)) m => .error o m

theorem conclude_eq (program : List Stmt) (m : Machine) :
    conclude program m =
      match attempt program m with
      | .ok none m => .ok ⟨.success, []⟩ m
      | .ok (some d) m => .ok ⟨.runtimeError, [d]⟩ m
      | .error o m => .error o m := by
  unfold conclude attempt
  cases run program m with
  | ok _ m => rfl
  | error h m =>
    cases h with
    | output e => rfl
    | fault f => cases f <;> rfl

/-- Executes a source, unless it has errors. -/
def runSource (source : String) : EStateM StrayOperator Machine Run :=
  match diagnosticsOf source with
  | [] => conclude (programOf source)
  | ds => pure ⟨.syntaxError, ds⟩

theorem runSource_of_nil {source : String} (h : diagnosticsOf source = []) :
    runSource source = conclude (programOf source) := by
  simp [runSource, h]

theorem runSource_of_ne_nil {source : String} (h : diagnosticsOf source ≠ []) (m : Machine) :
    runSource source m = .ok ⟨.syntaxError, diagnosticsOf source⟩ m := by
  cases hd : diagnosticsOf source with
  | nil => exact absurd hd h
  | cons d ds =>
    rw [runSource, hd]
    rfl

end Machine

namespace Session

variable {ρ α β : Type} [Listener ρ]

theorem report_eq (d : Diagnostic) (s : Session ρ) :
    report d s =
      match Listener.hear d.report s.listener with
      | .ok _ l => .ok () ⟨s.machine, l⟩
      | .error e l => .error (.stream e) ⟨s.machine, l⟩ := by
  rw [report, zoom]
  cases Listener.hear d.report s.listener <;> rfl

/-- What of the results is an error, and what is not. -/
def faultsOf (result : α → Except Diagnostic β) (as : List α) : List Diagnostic :=
  as.filterMap fun a =>
    match result a with
    | .ok _ => none
    | .error d => some d

def keptOf (result : α → Except Diagnostic β) (as : List α) : List β :=
  as.filterMap fun a => (result a).toOption

/-- The loop over the results of a stage reports the errors among them in order, keeps the rest, and
has raised the flag if there was an error. -/
theorem sift_eq (result : α → Except Diagnostic β) (hadError : Bool) (as : List α)
    (s : Session ρ) :
    sift result hadError as s =
      match Listener.hearAll (faultsOf result as) s.listener with
      | .ok _ l => .ok (keptOf result as, hadError || !(faultsOf result as).isEmpty) ⟨s.machine, l⟩
      | .error e l => .error (.stream e) ⟨s.machine, l⟩ := by
  induction as generalizing hadError s with
  | nil => simp [sift, keptOf, faultsOf, pure, EStateM.pure]
  | cons a as ih =>
    cases ha : result a with
    | ok b =>
      have hfaults : faultsOf result (a :: as) = faultsOf result as := by simp [faultsOf, ha]
      have hkept : keptOf result (a :: as) = b :: keptOf result as := by
        simp [keptOf, ha, Except.toOption]
      simp only [sift, ha, bind, EStateM.bind, ih, hfaults, hkept]
      cases Listener.hearAll (faultsOf result as) s.listener <;> rfl
    | error d =>
      have hfaults : faultsOf result (a :: as) = d :: faultsOf result as := by
        simp [faultsOf, ha]
      have hkept : keptOf result (a :: as) = keptOf result as := by
        simp [keptOf, ha, Except.toOption]
      simp only [sift, ha, bind, EStateM.bind, report_eq, hfaults, hkept, Listener.hearAll_cons]
      cases Listener.hear d.report s.listener with
      | error e l => rfl
      | ok _ l => simp [ih]

theorem faultsOf_scanned (source : String) :
    faultsOf Scanned.result (scanToEnd source) =
      (lexicalErrorsOf source).map LexicalError.diagnostic := by
  rw [faultsOf, lexicalErrorsOf, List.map_filterMap]
  congr 1
  funext item
  cases item <;> rfl

theorem keptOf_scanned (source : String) :
    keptOf Scanned.result (scanToEnd source) = tokensOf source := by
  rw [keptOf, tokensOf]
  congr 1
  funext item
  cases item <;> rfl

theorem faultsOf_items (items : List Item) :
    faultsOf Item.result items = (Program.errors items).map SyntaxError.diagnostic := by
  rw [faultsOf, Program.errors, List.map_filterMap]
  congr 1
  funext item
  cases item <;> rfl

theorem keptOf_items (items : List Item) : keptOf Item.result items = Program.statements items := by
  rw [keptOf, Program.statements]
  congr 1
  funext item
  cases item <;> rfl

theorem execute_eq (program : List Stmt) (s : Session ρ) :
    execute program s =
      match Machine.conclude program s.machine with
      | .error o m => .error (.stray o) ⟨m, s.listener⟩
      | .ok r m =>
        match Listener.hearAll r.diagnostics s.listener with
        | .ok _ l => .ok r.outcome ⟨m, l⟩
        | .error e l => .error (.stream e) ⟨m, l⟩ := by
  rw [execute, Machine.conclude_eq]
  cases hattempt : Machine.attempt program s.machine with
  | error o m => rw [bind_eq_of_error (zoom_of_error hattempt)]
  | ok d m =>
    rw [bind_eq_of_ok (zoom_of_ok hattempt)]
    cases d with
    | none => rfl
    | some d =>
      simp only [bind, EStateM.bind, report_eq, Listener.hearAll_cons]
      cases Listener.hear d.report s.listener <;> rfl

/-- What the two loops have come to when both are through. -/
theorem run_eq_of_sifted (source : String) (s : Session ρ) :
    run source s =
      match Listener.hearAll (diagnosticsOf source) s.listener with
      | .ok _ l =>
        if diagnosticsOf source = [] then execute (programOf source) ⟨s.machine, l⟩
        else .ok .syntaxError ⟨s.machine, l⟩
      | .error e l => .error (.stream e) ⟨s.machine, l⟩ := by
  have hscanned := sift_eq Scanned.result false (scanToEnd source) s
  rw [faultsOf_scanned, keptOf_scanned] at hscanned
  rw [diagnosticsOf, Listener.hearAll_append]
  cases hlexical : Listener.hearAll ((lexicalErrorsOf source).map LexicalError.diagnostic)
      s.listener with
  | error e l =>
    rw [hlexical] at hscanned
    rw [run, runScanned, bind_eq_of_error hscanned]
  | ok _ l =>
    rw [hlexical] at hscanned
    rw [run, runScanned, bind_eq_of_ok hscanned]
    have hread := sift_eq Item.result
      (false || !((lexicalErrorsOf source).map LexicalError.diagnostic).isEmpty)
      (Program.read (tokensOf source)).items ⟨s.machine, l⟩
    rw [faultsOf_items, keptOf_items] at hread
    dsimp only
    cases hsyntax : Listener.hearAll
        ((Program.errors (outlineOf source).items).map SyntaxError.diagnostic) l with
    | error e l =>
      rw [bind_eq_of_error (hread.trans (by rw [← outlineOf, hsyntax]))]
    | ok _ l =>
      rw [bind_eq_of_ok (hread.trans (by rw [← outlineOf, hsyntax]))]
      cases lexicalErrorsOf source with
      | cons e es => rfl
      | nil => cases Program.errors (outlineOf source).items <;> rfl

/-- A run, told at once: what is found before the source is executed, or else what becomes of it,
and then the reports. -/
theorem run_eq (source : String) (s : Session ρ) :
    run source s =
      match Machine.runSource source s.machine with
      | .error o m => .error (.stray o) ⟨m, s.listener⟩
      | .ok r m =>
        match Listener.hearAll r.diagnostics s.listener with
        | .ok _ l => .ok r.outcome ⟨m, l⟩
        | .error e l => .error (.stream e) ⟨m, l⟩ := by
  rw [run_eq_of_sifted]
  by_cases hnone : diagnosticsOf source = []
  · rw [Machine.runSource_of_nil hnone, hnone, Listener.hearAll_nil]
    exact execute_eq (programOf source) s
  · rw [Machine.runSource_of_ne_nil hnone]
    dsimp only
    cases Listener.hearAll (diagnosticsOf source) s.listener with
    | error e l => rfl
    | ok _ l => exact if_neg hnone

/-- A counter of 32 bits for the open comments is enough for the runs of short sources. -/
theorem runScanned_word32 {source : String} (hshort : source.length < UInt32.size)
    (s : Session ρ) :
    runScanned (scanHolding word32 source) s = run source s := by
  rw [scanHolding_word32 hshort, run]

end Session

end TreeWalk
