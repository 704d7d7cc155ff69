import TreeWalk.Grammar.Tree
import TreeWalk.Semantics.Bindings
import TreeWalk.Semantics.Operator

/-! Evaluating expressions from left to right. Assignments made before a fault are kept. -/
namespace TreeWalk

/-- Steps that read and change variables and may fault. -/
abbrev Evaluation := EStateM Fault Bindings

namespace Evaluation

def ofResult {α : Type} (r : Except Fault α) : Evaluation α := fun env =>
  match r with
  | .ok a => .ok a env
  | .error f => .error f env

def read (name : Token) : Evaluation Value := fun env =>
  match env.read name with
  | .ok v => .ok v env
  | .error e => .error (.runtime e) env

def assign (name : Token) (v : Value) : Evaluation Value := fun env =>
  match env.assign name v with
  | .ok env' => .ok v env'
  | .error e => .error (.runtime e) env

end Evaluation

namespace Expr

/-- An assignment has the value that it assigns. -/
def eval : Expr → Evaluation Value
  | assign name value => do
    let v ← value.eval
    Evaluation.assign name v
  | binary left op right => do
    let a ← left.eval
    let b ← right.eval
    Evaluation.ofResult (Operator.binary op a b)
  | grouping inner => inner.eval
  | literal value => pure value
  | unary op right => do
    let a ← right.eval
    Evaluation.ofResult (Operator.unary op a)
  | reference name => Evaluation.read name

@[simp] theorem eval_grouping (inner : Expr) : (grouping inner).eval = inner.eval := rfl

@[simp] theorem eval_literal (v : Value) (env : Bindings) : (literal v).eval env = .ok v env :=
  rfl

@[simp] theorem eval_reference (name : Token) : (reference name).eval = Evaluation.read name := rfl

theorem eval_assign (name : Token) (value : Expr) (env : Bindings) :
    (assign name value).eval env =
      match value.eval env with
      | .ok v env => Evaluation.assign name v env
      | .error f env => .error f env := by
  simp only [eval, bind, EStateM.bind]
  cases value.eval env <;> rfl

theorem eval_binary (left right : Expr) (op : Token) (env : Bindings) :
    (binary left op right).eval env =
      match left.eval env with
      | .ok a env =>
        (match right.eval env with
          | .ok b env => Evaluation.ofResult (Operator.binary op a b) env
          | .error f env => .error f env)
      | .error f env => .error f env := by
  simp only [eval, bind, EStateM.bind]
  cases left.eval env with
  | ok a env =>
    dsimp only
    cases right.eval env <;> rfl
  | error f env => rfl

theorem eval_unary (op : Token) (right : Expr) (env : Bindings) :
    (unary op right).eval env =
      match right.eval env with
      | .ok a env => Evaluation.ofResult (Operator.unary op a) env
      | .error f env => .error f env := by
  simp only [eval, bind, EStateM.bind]
  cases right.eval env <;> rfl

end Expr

end TreeWalk
