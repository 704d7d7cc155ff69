import TreeWalk.Lexis.Segment

/-! The tokens of a source text and the errors between them, each with the line on which it
begins. Lines count from 1, and a line feed ends one. -/
namespace TreeWalk

inductive LexicalError.Cause
  | unexpectedCharacter (c : Char)
  | unterminatedString
  | unterminatedComment
deriving DecidableEq

structure LexicalError where
  line : Nat
  cause : LexicalError.Cause
deriving DecidableEq

def LexicalError.Cause.message : LexicalError.Cause → String
  | unexpectedCharacter c => "Unexpected character '" ++ String.singleton c ++ "'."
  | unterminatedString => "Unterminated string."
  | unterminatedComment => "Unterminated comment."

def LexicalError.message (e : LexicalError) : String := e.cause.message

/-- What scanning finds at one place of a source. -/
inductive Scanned
  | token (t : Token)
  | error (e : LexicalError)
deriving DecidableEq

namespace Scanned

def token? : Scanned → Option Token
  | token t => some t
  | error _ => none

def error? : Scanned → Option LexicalError
  | token _ => none
  | error e => some e

end Scanned

/-- A segment that begins on the given line, unless it is layout. -/
def Segment.scanned? (line : Nat) (s : Segment) : Option Scanned :=
  match s.shape with
  | .blank | .comment => none
  | .token kind => some (.token ⟨kind, String.ofList s.text, line⟩)
  | .rejected c => some (.error ⟨line, .unexpectedCharacter c⟩)
  | .openString => some (.error ⟨line, .unterminatedString⟩)
  | .openComment => some (.error ⟨line, .unterminatedComment⟩)

/-- What is left of a source, and the line on which it begins. -/
structure Scanner where
  rest : List Char
  line : Nat
deriving DecidableEq

namespace Scanner

/-- Words, numbers and marks leave the line as it is. -/
def within (line : Nat) (s : Segment × List Char) : Option Scanned × Scanner :=
  (s.1.scanned? line, ⟨s.2, line⟩)

/-- The characters up to a quote, the number of line feeds with those among them, and the rest. -/
def untilQuote : (feeds : Nat) → List Char → List Char × Nat × List Char
  | feeds, [] => ([], feeds, [])
  | feeds, c :: cs =>
    if c = '"' then ([], feeds, c :: cs)
    else
      let (content, feeds, rest) := untilQuote (if c = '\n' then feeds + 1 else feeds) cs
      (c :: content, feeds, rest)

/-- A string after its opening quote. Only behind it the line counts its line feeds. -/
def string (line : Nat) (cs : List Char) : Option Scanned × Scanner :=
  match untilQuote 0 cs with
  | (_, feeds, []) => (some (.error ⟨line, .unterminatedString⟩), ⟨[], line + feeds⟩)
  | (content, feeds, quote :: rest) =>
    let lexeme := '"' :: content ++ [quote]
    (some (.token ⟨.string (String.ofList content), String.ofList lexeme, line⟩),
      ⟨rest, line + feeds⟩)

/-- A block comment that began on the line `start`, from where `depth` comments are open. The
counter of these holds `hold n` in place of a number `n`. -/
def blockComment (hold : Int → Int) (start : Nat) :
    (depth : Int) → (line : Nat) → List Char → Option Scanned × Scanner
  | depth, line, [] =>
    (if 0 < depth then some (.error ⟨start, .unterminatedComment⟩) else none, ⟨[], line⟩)
  | depth, line, c :: cs =>
    if depth ≤ 0 then (none, ⟨c :: cs, line⟩)
    else
      match c, cs with
      | '\n', cs => blockComment hold start depth (line + 1) cs
      | '/', '*' :: cs => blockComment hold start (hold (depth + 1)) line cs
      | '*', '/' :: cs => blockComment hold start (hold (depth - 1)) line cs
      | _, cs => blockComment hold start depth line cs

/-- What is found at the first character of `c :: cs`, and what is left after it. -/
def next (hold : Int → Int) (line : Nat) (c : Char) (cs : List Char) : Option Scanned × Scanner :=
  if Segment.isBlank c then (none, ⟨cs, if c = '\n' then line + 1 else line⟩)
  else if Segment.startsName c then within line (Segment.word c cs)
  else if c.isDigit then within line (Segment.number c cs)
  else if c = '"' then string line cs
  else if c = '/' ∧ cs.head? = some '/' then (none, ⟨cs.dropWhile (· ≠ '\n'), line⟩)
  else if c = '/' ∧ cs.head? = some '*' then blockComment hold line 1 line cs.tail
  else within line (Segment.mark c cs)

theorem length_within {line : Nat} {s : Segment × List Char} {c : Char} {cs : List Char}
    (h : s.1.text ++ s.2 = c :: cs) (hne : s.1.text ≠ []) :
    (within line s).2.rest.length < (c :: cs).length := by
  have hlength := congrArg List.length h
  have hpos := List.length_pos_iff.2 hne
  rw [List.length_append] at hlength
  show s.2.length < _
  omega

theorem length_untilQuote (feeds : Nat) (cs : List Char) :
    (untilQuote feeds cs).2.2.length ≤ cs.length := by
  fun_induction untilQuote feeds cs with
  | case1 => exact Nat.le_refl _
  | case2 => exact Nat.le_refl _
  | case3 feeds c cs hc content feeds' rest heq ih =>
    rw [heq] at ih
    exact Nat.le_succ_of_le ih

theorem length_string (line : Nat) (cs : List Char) :
    (string line cs).2.rest.length ≤ cs.length := by
  have h := length_untilQuote 0 cs
  unfold string
  split <;> rename_i heq <;> rw [heq] at h
  · exact h
  · exact Nat.le_of_succ_le h

theorem length_blockComment (hold : Int → Int) (start : Nat) (depth : Int) (line : Nat)
    (cs : List Char) : (blockComment hold start depth line cs).2.rest.length ≤ cs.length := by
  fun_induction blockComment hold start depth line cs with
  | case1 => exact Nat.le_refl _
  | case2 => exact Nat.le_refl _
  | case3 depth line hd cs ih => exact Nat.le_succ_of_le ih
  | case4 depth line hd cs ih => exact Nat.le_succ_of_le (Nat.le_succ_of_le ih)
  | case5 depth line hd cs ih => exact Nat.le_succ_of_le (Nat.le_succ_of_le ih)
  | case6 depth line c hd cs hline hopen hclose ih => exact Nat.le_succ_of_le ih

/-- At least one character is behind what is found. -/
theorem length_next (hold : Int → Int) (line : Nat) (c : Char) (cs : List Char) :
    (next hold line c cs).2.rest.length < (c :: cs).length := by
  unfold next
  split
  · exact Nat.lt_succ_self _
  split
  · exact length_within (Segment.word_append c cs) (by simp [Segment.word])
  split
  · exact length_within (Segment.number_append c cs) (by simp [Segment.number])
  split
  · exact Nat.lt_succ_of_le (length_string line cs)
  split
  · exact Nat.lt_succ_of_le (List.dropWhile_suffix _).length_le
  split
  · have htail : cs.tail.length ≤ cs.length := by simp
    exact Nat.lt_succ_of_le (Nat.le_trans (length_blockComment hold line 1 line cs.tail) htail)
  · exact length_within (Segment.mark_append c cs) (Segment.mark_text_ne_nil c cs)

/-- All that is found from a line on, in order, and the line on which the text ends. -/
def items (hold : Int → Int) : (line : Nat) → List Char → List Scanned × Nat
  | line, [] => ([], line)
  | line, c :: cs =>
    let found := next hold line c cs
    let later := items hold found.2.line found.2.rest
    (found.1.toList ++ later.1, later.2)
termination_by _ cs => cs.length
decreasing_by exact length_next hold line c cs

@[simp] theorem items_nil (hold : Int → Int) (line : Nat) : items hold line [] = ([], line) := by
  rw [items]

end Scanner

/-- Scanning with a counter of open comments that holds `hold n` in place of `n`. The marker of the
end has no text and stands on the line on which the source ends. -/
def scanHolding (hold : Int → Int) (source : String) : List Scanned :=
  let (items, line) := Scanner.items hold 1 source.toList
  items ++ [.token ⟨.endOfFile, "", line⟩]

/-- All tokens and errors of a source, in order, and the marker of its end. -/
def scanToEnd (source : String) : List Scanned := scanHolding id source

/-- The same without the marker. -/
def scan (source : String) : List Scanned := (Scanner.items id 1 source.toList).1

def endToken (source : String) : Token :=
  ⟨.endOfFile, "", (Scanner.items id 1 source.toList).2⟩

theorem scanToEnd_eq (source : String) :
    scanToEnd source = scan source ++ [.token (endToken source)] := rfl

/-- The tokens of a source, its end included, with what could not be scanned left out. -/
def tokensOf (source : String) : List Token := (scanToEnd source).filterMap Scanned.token?

def lexicalErrorsOf (source : String) : List LexicalError :=
  (scanToEnd source).filterMap Scanned.error?

end TreeWalk
