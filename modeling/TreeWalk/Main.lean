import TreeWalk.Console.CommandLine

/-! The command, connected to the standard streams and to the files. -/
namespace TreeWalk

namespace CommandLine

def readFile (path : String) : IO (Except FileError (List UInt8)) := do
  try
    return .ok (← IO.FS.readBinFile path).toList
  catch
    | .noFileOrDirectory .. => return .error .missing
    | .inappropriateType .. => return .error .directory
    | e => return .error (.other (toString e))

/-- The next line of a stream with its line feed, nothing at the end. -/
partial def readLine (stream : IO.FS.Stream) (read : ByteArray) : IO (List UInt8) := do
  let bytes ← stream.read 1
  if bytes.isEmpty then return read.toList
  else if bytes.toList = [Prompt.lineFeed] then return (read ++ bytes).toList
  else readLine stream (read ++ bytes)

/-- Hands on what a session has written since the last time. -/
def flush (s : Console) : IO Console := do
  let (out, output) := s.machine.output.drain
  let (err, listener) := s.listener.drain
  IO.print out
  (← IO.getStdout).flush
  IO.eprint err
  return ⟨{ s.machine with output }, listener⟩

def report (c : Completion) : IO UInt32 := do
  IO.print c.stdout
  IO.eprint c.stderr
  return c.exit.toUInt32

/-- Continues a session, or ends the command as the session was aborted. -/
def proceed (step : EStateM Abort Console Unit) (s : Console)
    (next : Console → IO UInt32) : IO UInt32 :=
  match step s with
  | .ok _ s => do next (← flush s)
  | .error abort s => report (aborted abort s)

partial def interact (stream : IO.FS.Stream) (s : Console) : IO UInt32 :=
  proceed Session.writePrompt s fun s => do
    match ← readLine stream .empty with
    | [] => return 0
    | line => proceed (Session.runLine line) s (interact stream)

def execute : List String → IO UInt32
  | [] => do interact (← IO.getStdin) start
  | [path] => do report (runFile path (← readFile path))
  | args => report (run args (fun _ => .error .missing) [])

end CommandLine

end TreeWalk

def main (args : List String) : IO UInt32 := TreeWalk.CommandLine.execute args
