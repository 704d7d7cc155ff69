import TreeWalk.Semantics.Fault
import TreeWalk.Value

/-! What operators do with the values of their operands. The kind of an operator's token chooses the
rule; its lexeme only appears in messages. -/
namespace TreeWalk

namespace Operator

/-- A divisor nearer to zero than this is taken for zero. -/
def divisorLimit : Float := 1e-4

def numeric (op : Token) (a b : Value) (f : Float → Float → Except Fault Value) :
    Except Fault Value :=
  match a, b with
  | .number x, .number y => f x y
  | _, _ => .error (.runtime ⟨op, .notNumbers⟩)

def plus (op : Token) : Value → Value → Except Fault Value
  | .number x, .number y => .ok (.number (x + y))
  | .text s, .text t => .ok (.text (s ++ t))
  | _, _ => .error (.runtime ⟨op, .notNumbersNorTexts⟩)

def divide (op : Token) (x y : Float) : Except Fault Value :=
  if y.abs < divisorLimit then .error (.runtime ⟨op, .divisionByZero⟩) else .ok (.number (x / y))

/-- A binary operator, chosen by the kind of its token, on the values of its operands. -/
def binary (op : Token) (a b : Value) : Except Fault Value :=
  match op.kind with
  | .symbol .plus => plus op a b
  | .symbol .minus => numeric op a b fun x y => .ok (.number (x - y))
  | .symbol .star => numeric op a b fun x y => .ok (.number (x * y))
  | .symbol .slash => numeric op a b (divide op)
  | .symbol .greater => numeric op a b fun x y => .ok (.boolean (y < x))
  | .symbol .greaterEqual | .symbol .less | .symbol .lessEqual =>
    .error (.runtime ⟨op, .unsupportedOperator⟩)
  | .symbol .equalEqual => .ok (.boolean (a.isEqual b))
  | .symbol .bangEqual => .ok (.boolean (!a.isEqual b))
  | kind => .error (.stray ⟨.binary, kind⟩)

def negate (op : Token) : Value → Except Fault Value
  | .number x => .ok (.number (-x))
  | _ => .error (.runtime ⟨op, .notNumber⟩)

def unary (op : Token) (a : Value) : Except Fault Value :=
  match op.kind with
  | .symbol .minus => negate op a
  | .symbol .bang => .ok (.boolean (!a.isTruthy))
  | kind => .error (.stray ⟨.unary, kind⟩)

end Operator

end TreeWalk
