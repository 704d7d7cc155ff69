import TreeWalk.Console.Listener
import TreeWalk.Grammar.Recovery
import TreeWalk.Semantics.Execution

/-! Running source texts one after another on one machine. A source with errors of syntax is
reported and not executed. -/
namespace TreeWalk

/-- The statements and errors that a source is read as. -/
def outlineOf (source : String) : Program.Outline := Program.read (tokensOf source)

def programOf (source : String) : List Stmt := Program.statements (outlineOf source).items

/-- All errors of a source that are found before it runs, those of its characters first. -/
def diagnosticsOf (source : String) : List Diagnostic :=
  (lexicalErrorsOf source).map LexicalError.diagnostic ++
    (Program.errors (outlineOf source).items).map SyntaxError.diagnostic

/-- What scanning has found: a token to go on with, or something to report. -/
def Scanned.result : Scanned → Except Diagnostic Token
  | token t => .ok t
  | error e => .error e.diagnostic

def Item.result : Item → Except Diagnostic Stmt
  | stmt s => .ok s
  | error e => .error e.diagnostic

inductive Outcome
  | success
  | syntaxError
  | runtimeError
deriving DecidableEq

namespace Machine

/-- Executes a program to its end or to its first error. -/
def attempt (program : List Stmt) : EStateM StrayOperator Machine (Option Diagnostic) := fun m =>
  match run program m with
  | .ok _ m => .ok none m
  | .error (.fault (.runtime e)) m => .ok (some e.diagnostic) m
  | .error (.output e) m => .ok (some e.diagnostic) m
  | .error (.fault (.stray o)) m => .error o m

end Machine

/-- Why a session cannot answer with an outcome. -/
inductive Abort
  | stream (e : StreamError)
  | stray (o : StrayOperator)
deriving DecidableEq

/-- A machine that keeps its variables from one source to the next, and a listener. -/
structure Session (ρ : Type) where
  machine : Machine := {}
  listener : ρ

namespace Session

variable {ρ : Type}

/-- Writes to the output of the program. -/
def write (text : String) : EStateM Abort (Session ρ) Unit :=
  zoom (fun s => s.machine.output)
    (fun s out => { s with machine := { s.machine with output := out } }) .stream (Sink.write text)

variable [Listener ρ]

/-- Hands a diagnostic to the listener. -/
def report (d : Diagnostic) : EStateM Abort (Session ρ) Unit :=
  zoom listener (fun s l => { s with listener := l }) .stream (Listener.hear d.report)

/-- Goes through what a stage has come to, reports each error where it stands and keeps all else.
The flag tells whether there has been an error. -/
def sift {α β : Type} (result : α → Except Diagnostic β) :
    (hadError : Bool) → List α → EStateM Abort (Session ρ) (List β × Bool)
  | hadError, [] => pure ([], hadError)
  | hadError, a :: as =>
    match result a with
    | .ok b => do
      let (bs, hadError) ← sift result hadError as
      pure (b :: bs, hadError)
    | .error d => do
      report d
      sift result true as

/-- Executes a program and reports what has stopped it. -/
def execute (program : List Stmt) : EStateM Abort (Session ρ) Outcome := do
  match ← zoom machine (fun s m => { s with machine := m }) .stray (Machine.attempt program) with
  | none => pure .success
  | some d => do
    report d
    pure .runtimeError

/-- Runs what has been scanned: all errors in it are reported, then those of its tokens, and only if
there are none it is executed. -/
def runScanned (scanned : List Scanned) : EStateM Abort (Session ρ) Outcome := do
  let (tokens, hadError) ← sift Scanned.result false scanned
  let (program, hadError) ← sift Item.result hadError (Program.read tokens).items
  if hadError then
    pure .syntaxError
  else
    execute program

def run (source : String) : EStateM Abort (Session ρ) Outcome := runScanned (scanToEnd source)

end Session

end TreeWalk
