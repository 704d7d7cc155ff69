import TreeWalk.Lexis.Token
import TreeWalk.Value

/-! Trees of expressions and statements, and their text, in which operators stand before their
operands. -/
namespace TreeWalk

inductive Expr
  | assign (name : Token) (value : Expr)
  | binary (left : Expr) (op : Token) (right : Expr)
  | grouping (inner : Expr)
  | literal (value : Value)
  | unary (op : Token) (right : Expr)
  | reference (name : Token)
deriving DecidableEq

namespace Expr

def render : Expr → String
  | assign name value => "(= " ++ name.lexeme ++ " " ++ value.render ++ ")"
  | binary left op right => "(" ++ op.lexeme ++ " " ++ left.render ++ " " ++ right.render ++ ")"
  | grouping inner => "(group " ++ inner.render ++ ")"
  | literal value => value.display
  | unary op right => "(" ++ op.lexeme ++ " " ++ right.render ++ ")"
  | reference name => name.lexeme

end Expr

inductive Stmt
  | expression (e : Expr)
  | print (e : Expr)
  | declare (name annotation : Token) (initial : Option Expr)
deriving DecidableEq

namespace Stmt

def render : Stmt → String
  | expression e => e.render ++ ";"
  | print e => "(print " ++ e.render ++ ")"
  | declare name annotation initial =>
    "(var " ++ name.lexeme ++ " :: " ++ annotation.lexeme ++
      (match initial with
        | some e => " " ++ e.render
        | none => "") ++ ")"

end Stmt

/-- A program has one statement a line. -/
def renderProgram (program : List Stmt) : String :=
  String.intercalate "\n" (program.map Stmt.render)

end TreeWalk
