import TreeWalk.Semantics.Fault
import TreeWalk.Grammar.Reading
import TreeWalk.Lexis.Scan
import TreeWalk.Text.Sink

/-! Diagnostics: the errors of all stages in one form, their text, and what of them is reported. -/
namespace TreeWalk

/-- Where an error comes from, with what it points at. -/
inductive Diagnostic.Kind
  | lexical (line : Nat)
  | syntactic (token : Token)
  | runtime (token : Token)
  | unexpected
  | stream
deriving DecidableEq

structure Diagnostic where
  kind : Diagnostic.Kind
  message : String
deriving DecidableEq

/-- What reaches whoever listens for diagnostics: a place, where there is one, and a message. -/
inductive Report
  | error (line : Nat) (location message : String)
  | runtimeError (line : Nat) (message : String)
deriving DecidableEq

/-- The text of a report, one line where the location and the message are. -/
def Report.text : Report → String
  | error line location message =>
    "[line " ++ toString line ++ "] Error" ++ location ++ ": " ++ message
  | runtimeError line message => "[line " ++ toString line ++ "] Runtime error: " ++ message

namespace Diagnostic

/-- Errors without a place are on line 0. -/
def line (d : Diagnostic) : Nat :=
  match d.kind with
  | .lexical line => line
  | .syntactic token | .runtime token => token.line
  | .unexpected | .stream => 0

def token? (d : Diagnostic) : Option Token :=
  match d.kind with
  | .syntactic token | .runtime token => some token
  | _ => none

def isRuntime (d : Diagnostic) : Bool :=
  match d.kind with
  | .runtime _ => true
  | _ => false

/-- Only errors of syntax say where on their line they are. -/
def location (d : Diagnostic) : String :=
  match d.kind with
  | .syntactic token =>
    if token.kind = .endOfFile then " at end" else " at '" ++ token.lexeme ++ "'"
  | _ => ""

def display (d : Diagnostic) : String :=
  "[line " ++ toString d.line ++ "] " ++
    (if d.isRuntime then "Runtime error" else "Error" ++ d.location) ++ ": " ++ d.message

def report (d : Diagnostic) : Report :=
  if d.isRuntime then .runtimeError d.line d.message else .error d.line d.location d.message

/-- A report has the text of its diagnostic. -/
@[simp] theorem text_report (d : Diagnostic) : d.report.text = d.display := by
  unfold report display
  split
  · have h : "] Runtime error: " = "] " ++ ("Runtime error" ++ ": ") := by decide
    simp only [Report.text, h, String.append_assoc]
  · have h : "] Error" = "] " ++ "Error" := by decide
    simp only [Report.text, h, String.append_assoc]

/-- As a failure of a stream, a diagnostic is known by its text alone. -/
def asStreamError (d : Diagnostic) : StreamError := ⟨.other, d.display⟩

end Diagnostic

def LexicalError.diagnostic (e : LexicalError) : Diagnostic := ⟨.lexical e.line, e.message⟩

def SyntaxError.diagnostic : SyntaxError → Diagnostic
  | atToken token cause => ⟨.syntactic token, cause.message⟩
  | endOfInput => ⟨.unexpected, endOfInput.message⟩

def RuntimeError.diagnostic (e : RuntimeError) : Diagnostic := ⟨.runtime e.token, e.message⟩

/-- What failed in a stream is not told. -/
def StreamError.diagnostic (_ : StreamError) : Diagnostic := ⟨.stream, "IO error"⟩

end TreeWalk
