/-! Tokens: punctuation, keywords, names and literals, and the one spelling that every symbol and
keyword has. -/
namespace TreeWalk

inductive Symbol
  | leftParen | rightParen | leftBrace | rightBrace | comma | dot | minus | plus | semicolon
  | slash | star | doubleColon | bang | bangEqual | equal | equalEqual
  | greater | greaterEqual | less | lessEqual
deriving DecidableEq

namespace Symbol

def spelling : Symbol → String
  | leftParen => "(" | rightParen => ")" | leftBrace => "\x7b" | rightBrace => "\x7d"
  | comma => "," | dot => "." | minus => "-" | plus => "+" | semicolon => ";"
  | slash => "/" | star => "*" | doubleColon => "::" | bang => "!" | bangEqual => "!="
  | equal => "=" | equalEqual => "==" | greater => ">" | greaterEqual => ">="
  | less => "<" | lessEqual => "<="

/-- The symbol spelled by one character; a colon alone spells none. -/
def single? : Char → Option Symbol
  | '(' => some leftParen | ')' => some rightParen
  | '\x7b' => some leftBrace | '\x7d' => some rightBrace
  | ',' => some comma | '.' => some dot | '-' => some minus | '+' => some plus
  | ';' => some semicolon | '/' => some slash | '*' => some star
  | '!' => some bang | '=' => some equal | '>' => some greater | '<' => some less
  | _ => none

/-- The symbol spelled by two characters. -/
def double? : Char → Char → Option Symbol
  | '!', '=' => some bangEqual | '=', '=' => some equalEqual
  | '>', '=' => some greaterEqual | '<', '=' => some lessEqual
  | ':', ':' => some doubleColon
  | _, _ => none

theorem spelling_of_single? {c : Char} {s : Symbol} (h : single? c = some s) :
    s.spelling.toList = [c] := by
  unfold single? at h
  split at h <;> cases h <;> rfl

theorem spelling_of_double? {c d : Char} {s : Symbol} (h : double? c d = some s) :
    s.spelling.toList = [c, d] := by
  unfold double? at h
  split at h <;> cases h <;> rfl

def name : Symbol → String
  | leftParen => "LeftParen" | rightParen => "RightParen" | leftBrace => "LeftBrace"
  | rightBrace => "RightBrace" | comma => "Comma" | dot => "Dot" | minus => "Minus"
  | plus => "Plus" | semicolon => "Semicolon" | slash => "Slash" | star => "Star"
  | doubleColon => "DoubleColon" | bang => "Bang" | bangEqual => "BangEqual"
  | equal => "Equal" | equalEqual => "EqualEqual" | greater => "Greater"
  | greaterEqual => "GreaterEqual" | less => "Less" | lessEqual => "LessEqual"

def all : List Symbol :=
  [leftParen, rightParen, leftBrace, rightBrace, comma, dot, minus, plus, semicolon, slash, star,
    doubleColon, bang, bangEqual, equal, equalEqual, greater, greaterEqual, less, lessEqual]

@[simp] theorem mem_all (s : Symbol) : s ∈ all := by cases s <;> decide

end Symbol

inductive Keyword
  | andKw | classKw | elseKw | falseKw | forKw | funcKw | ifKw | noneKw | printKw | returnKw
  | trueKw | varKw
deriving DecidableEq

namespace Keyword

def spelling : Keyword → String
  | andKw => "and" | classKw => "class" | elseKw => "else" | falseKw => "false" | forKw => "for"
  | funcKw => "func" | ifKw => "if" | noneKw => "none" | printKw => "print"
  | returnKw => "return" | trueKw => "true" | varKw => "var"

def name : Keyword → String
  | andKw => "And" | classKw => "Class" | elseKw => "Else" | falseKw => "False" | forKw => "For"
  | funcKw => "Func" | ifKw => "If" | noneKw => "Nil" | printKw => "Print"
  | returnKw => "Return" | trueKw => "True" | varKw => "Var"

def all : List Keyword :=
  [andKw, classKw, elseKw, falseKw, forKw, funcKw, ifKw, noneKw, printKw, returnKw, trueKw, varKw]

@[simp] theorem mem_all (k : Keyword) : k ∈ all := by cases k <;> decide

def ofSpelling? (word : String) : Option Keyword := all.find? (·.spelling = word)

@[simp] theorem ofSpelling?_spelling (k : Keyword) : ofSpelling? k.spelling = some k := by
  cases k <;> decide

theorem spelling_of_ofSpelling? {word : String} {k : Keyword} (h : ofSpelling? word = some k) :
    k.spelling = word := by
  simpa using List.find?_some h

/-- After a failed statement, a token with one of these keywords begins the next one. -/
def opensDeclaration : Keyword → Bool
  | classKw | funcKw | varKw | forKw | ifKw | returnKw => true
  | _ => false

end Keyword

namespace Token

/-- What decides how a token is read. A string holds the text between its quotes, a number its
value. -/
inductive Kind
  | symbol (s : Symbol)
  | keyword (k : Keyword)
  | identifier
  | string (text : String)
  | number (value : Float)
  | endOfFile
deriving DecidableEq

end Token

/-- The lexeme is the token as written; the line is the one on which it begins. -/
structure Token where
  kind : Token.Kind
  lexeme : String
  line : Nat
deriving DecidableEq

end TreeWalk
