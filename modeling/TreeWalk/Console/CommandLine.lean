import TreeWalk.Console.Prompt

/-! The command line: without arguments the prompt over the standard input, with one the program in
that file. -/
namespace TreeWalk

/-- Why a file cannot be read. -/
inductive FileError
  | missing
  | directory
  | other (message : String)
deriving DecidableEq

def FileError.message : FileError → String
  | missing => "No such file or directory (os error 2)"
  | directory => "Is a directory (os error 21)"
  | other message => message

/-- What a finished command leaves behind. -/
structure Completion where
  exit : UInt8
  stdout : String
  stderr : String
deriving DecidableEq

namespace CommandLine

def usage : String := "Usage: lang-rs [script]\n"

/-- A session that writes its diagnostics as lines. -/
abbrev Console := Session Sink

def start : Console := { listener := {} }

/-- A finished session, with one more line of diagnostics where it did not end by itself. -/
def complete (exit : UInt8) (s : Console) (last : String) : Completion :=
  ⟨exit, s.machine.output.text, s.listener.text ++ last⟩

def exitCode : Outcome → UInt8
  | .success => 0
  | .syntaxError => 65
  | .runtimeError => 70

/-- The line that names the failure of a stream which ended the prompt. -/
def failureLine (e : StreamError) : String :=
  "Error: Error \x7b kind: " ++ e.kind.name ++ ", message: \"" ++ e.message ++
    "\" \x7d\n"

/-- A prompt that did not come to the end of its input. -/
def aborted (abort : Abort) (s : Console) : Completion :=
  match abort with
  | .stream e => complete 1 s (failureLine e)
  | .stray o => complete 101 s (o.message ++ "\n")

def runPrompt (stdin : List UInt8) : Completion :=
  match Session.runPrompt stdin start with
  | .ok _ s => complete 0 s ""
  | .error abort s => aborted abort s

def runSource (path source : String) : Completion :=
  match Session.run source start with
  | .ok outcome s => complete (exitCode outcome) s ""
  | .error (.stream e) s => complete 65 s (path ++ ": " ++ e.message ++ "\n")
  | .error (.stray o) s => complete 101 s (o.message ++ "\n")

def runFile (path : String) (contents : Except FileError (List UInt8)) : Completion :=
  match contents with
  | .error e => ⟨65, "", path ++ ": " ++ e.message ++ "\n"⟩
  | .ok bytes =>
    match Prompt.decode? bytes with
    | none => ⟨65, "", path ++ ": " ++ StreamError.notUtf8.message ++ "\n"⟩
    | some source => runSource path source

/-- The command with its arguments, the files it can read and its input. -/
def run (args : List String) (readFile : String → Except FileError (List UInt8))
    (stdin : List UInt8) : Completion :=
  match args with
  | [] => runPrompt stdin
  | [path] => runFile path (readFile path)
  | _ => ⟨64, usage, ""⟩

end CommandLine

end TreeWalk
