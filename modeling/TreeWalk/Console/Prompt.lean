import TreeWalk.Console.Session

/-! The prompt: a session that runs its input line by line. -/
namespace TreeWalk

namespace Prompt

def text : String := ">>> "

def lineFeed : UInt8 := 10

/-- Input cut after each line feed. -/
def lines : List UInt8 → List (List UInt8)
  | [] => []
  | b :: bs =>
    if b = lineFeed then [b] :: lines bs
    else match lines bs with
      | [] => [[b]]
      | l :: ls => (b :: l) :: ls

@[simp] theorem flatten_lines (bs : List UInt8) : (lines bs).flatten = bs := by
  fun_induction lines bs with
  | case1 => rfl
  | case2 bs ih => simp [ih]
  | case3 b bs hb hl ih => simp_all
  | case4 b bs hb l ls hl ih => simp_all

/-- The text of a line, if its bytes are UTF-8. -/
def decode? (bytes : List UInt8) : Option String := String.fromUTF8? bytes.toByteArray

/-- A line without the line feeds and carriage returns at its end. -/
def trimEnd (line : String) : String :=
  String.ofList (line.toList.reverse.dropWhile fun c => c = '\n' || c = '\r').reverse

end Prompt

namespace Session

variable {ρ : Type}

def writePrompt : EStateM Abort (Session ρ) Unit := write Prompt.text

variable [Listener ρ]

/-- Runs one line of input, whatever outcome that has. -/
def runLine (line : List UInt8) : EStateM Abort (Session ρ) Unit :=
  match Prompt.decode? line with
  | none => throw (.stream .notUtf8)
  | some text => do
    let _ ← run (Prompt.trimEnd text)

/-- Writes the prompt before each line, and once more before the end of the input. -/
def runLines : List (List UInt8) → EStateM Abort (Session ρ) Unit
  | [] => writePrompt
  | line :: rest => do
    writePrompt
    runLine line
    runLines rest

@[simp] theorem runLines_nil (s : Session ρ) : runLines [] s = writePrompt s := rfl

theorem runLines_cons (line : List UInt8) (rest : List (List UInt8)) (s : Session ρ) :
    runLines (line :: rest) s =
      match writePrompt s with
      | .ok _ s =>
        (match runLine line s with
          | .ok _ s => runLines rest s
          | .error a s => .error a s)
      | .error a s => .error a s := by
  simp only [runLines, bind, EStateM.bind]
  cases writePrompt s with
  | error a s => rfl
  | ok _ s =>
    dsimp only
    cases runLine line s <;> rfl

/-- The prompt over an input, up to the end or the first failure of a stream. -/
def runPrompt (input : List UInt8) : EStateM Abort (Session ρ) Unit := runLines (Prompt.lines input)

end Session

end TreeWalk
