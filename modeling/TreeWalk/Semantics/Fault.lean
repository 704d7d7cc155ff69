import TreeWalk.Lexis.Label

/-! Why an evaluation stops: an error of the program that runs, or a tree that no source gives. -/
namespace TreeWalk

inductive RuntimeError.Cause
  | undefinedVariable
  | unsupportedOperator
  | notNumber
  | notNumbers
  | notNumbersNorTexts
  | divisionByZero
deriving DecidableEq

/-- The token is the operator or the name that failed. -/
structure RuntimeError where
  token : Token
  cause : RuntimeError.Cause
deriving DecidableEq

def RuntimeError.message (e : RuntimeError) : String :=
  match e.cause with
  | .undefinedVariable => "Undefined variable '" ++ e.token.lexeme ++ "'."
  | .unsupportedOperator => "Operator '" ++ e.token.lexeme ++ "' is not supported."
  | .notNumber => "Operand must be a number."
  | .notNumbers => "Operands must be numbers."
  | .notNumbersNorTexts => "Operands must be two numbers or two strings."
  | .divisionByZero => "Division by Zero."

inductive Arity
  | unary | binary
deriving DecidableEq

/-- An operator token of a kind that has no rule at its place in a tree. -/
structure StrayOperator where
  arity : Arity
  kind : Token.Kind
deriving DecidableEq

def StrayOperator.message (o : StrayOperator) : String :=
  "internal error: entered unreachable code: Parser produced a " ++
    (match o.arity with
      | .unary => "unary"
      | .binary => "binary") ++ " expression with operator " ++ o.kind.label

inductive Fault
  | runtime (e : RuntimeError)
  | stray (o : StrayOperator)
deriving DecidableEq

end TreeWalk
