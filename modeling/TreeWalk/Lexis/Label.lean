import TreeWalk.Text.Numeric
import TreeWalk.Text.Visible
import TreeWalk.Lexis.Token

/-! Labels of token kinds, with what a literal holds. -/
namespace TreeWalk

namespace Token.Kind

/-- The name of a kind alone. -/
def name : Kind → String
  | symbol s => s.name
  | keyword k => k.name
  | identifier => "Identifier"
  | string _ => "String"
  | number _ => "Number"
  | endOfFile => "EndOfFile"

/-- A character inside quotes. Quotes, backslashes and what does not show by itself are escaped. -/
def escape (c : Char) : List Char :=
  match c with
  | '"' => ['\\', '"']
  | '\\' => ['\\', '\\']
  | '\n' => ['\\', 'n']
  | '\r' => ['\\', 'r']
  | '\t' => ['\\', 't']
  | '\x00' => ['\\', '0']
  | c =>
    if isVisible c then [c]
    else ['\\', 'u', '\x7b'] ++ Nat.toDigits 16 c.toNat ++ ['\x7d']

def quote (s : String) : String := "\"" ++ String.ofList (s.toList.flatMap escape) ++ "\""

def label : Kind → String
  | string s => "String(" ++ quote s ++ ")"
  | number x => "Number(" ++ compactText x ++ ")"
  | k => k.name

end Token.Kind

end TreeWalk
