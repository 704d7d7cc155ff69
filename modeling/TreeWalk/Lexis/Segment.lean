import TreeWalk.Text.Decimal
import TreeWalk.Lexis.Token

/-! Segments of source text: blanks, comments, tokens, and what is none of these. Here are those
that stand on one line: words, numbers and marks. -/
namespace TreeWalk

/-- What a segment of source text is. A string or a comment that never ends is `open`, and takes
the rest of the source. -/
inductive Segment.Shape
  | blank
  | comment
  | token (kind : Token.Kind)
  | rejected (c : Char)
  | openString
  | openComment
deriving DecidableEq

structure Segment where
  shape : Segment.Shape
  text : List Char
deriving DecidableEq

namespace Segment

def isBlank (c : Char) : Bool := c = ' ' || c = '\r' || c = '\t' || c = '\n'

/-- Names are ASCII: letters, underscores and, after the first character, digits. -/
def startsName (c : Char) : Bool := c.isAlpha || c = '_'

def continuesName (c : Char) : Bool := startsName c || c.isDigit

/-- A word of the keyword table is that keyword, and any other is a name. -/
def wordKind (word : List Char) : Token.Kind :=
  match Keyword.ofSpelling? (String.ofList word) with
  | some k => .keyword k
  | none => .identifier

def word (c : Char) (cs : List Char) : Segment × List Char :=
  let text := c :: cs.takeWhile continuesName
  (⟨.token (wordKind text), text⟩, cs.dropWhile continuesName)

/-- A point and the digits after it, where there are any. -/
def fraction : List Char → List Char × List Char
  | point :: d :: cs =>
    if point = '.' ∧ d.isDigit then
      (point :: d :: cs.takeWhile Char.isDigit, cs.dropWhile Char.isDigit)
    else ([], point :: d :: cs)
  | cs => ([], cs)

def number (c : Char) (cs : List Char) : Segment × List Char :=
  let (places, rest) := fraction (cs.dropWhile Char.isDigit)
  let text := c :: cs.takeWhile Char.isDigit ++ places
  (⟨.token (.number (Decimal.ofNumeral text).toFloat), text⟩, rest)

/-- A symbol, of two characters where they spell one, or else a character with no place in the
language. -/
def mark (c : Char) (cs : List Char) : Segment × List Char :=
  match cs.head?.bind (Symbol.double? c), cs with
  | some s, d :: rest => (⟨.token (.symbol s), [c, d]⟩, rest)
  | _, _ =>
    match Symbol.single? c with
    | some s => (⟨.token (.symbol s), [c]⟩, cs)
    | none => (⟨.rejected c, [c]⟩, cs)

theorem word_append (c : Char) (cs : List Char) :
    (word c cs).1.text ++ (word c cs).2 = c :: cs := by
  simp [word]

theorem fraction_append (cs : List Char) : (fraction cs).1 ++ (fraction cs).2 = cs := by
  unfold fraction
  split
  · split <;> simp
  · rfl

theorem number_append (c : Char) (cs : List Char) :
    (number c cs).1.text ++ (number c cs).2 = c :: cs := by
  simp [number, fraction_append]

theorem mark_append (c : Char) (cs : List Char) :
    (mark c cs).1.text ++ (mark c cs).2 = c :: cs := by
  unfold mark
  split
  · rfl
  · split <;> rfl

theorem mark_text_ne_nil (c : Char) (cs : List Char) : (mark c cs).1.text ≠ [] := by
  unfold mark
  split
  · simp
  · split <;> simp

end Segment

end TreeWalk
