import TreeWalk.Proofs.Grammar.Tokens
import TreeWalk.Semantics.Execution

/-! What running a program needs of its tokens: their kinds and their lexemes. With other tokens
that have the same ones it does the same, and its errors hold the other tokens. -/
namespace TreeWalk

def RuntimeError.mapTokens (f : Token → Token) (e : RuntimeError) : RuntimeError :=
  { e with token := f e.token }

def Fault.mapTokens (f : Token → Token) : Fault → Fault
  | runtime e => runtime (e.mapTokens f)
  | stray o => stray o

def Halt.mapTokens (f : Token → Token) : Halt → Halt
  | fault e => fault (e.mapTokens f)
  | output e => output e

/-- The same outcome with another error. -/
def onError {ε σ α : Type} (f : ε → ε) : EStateM.Result ε σ α → EStateM.Result ε σ α
  | .ok a s => .ok a s
  | .error e s => .error (f e) s

variable {f : Token → Token} (hkind : ∀ t, (f t).kind = t.kind)

namespace Operator

include hkind

theorem binary_map (op : Token) (a b : Value) :
    binary (f op) a b = (binary op a b).mapError (Fault.mapTokens f) := by
  have hnumeric (g h : Float → Float → Except Fault Value)
      (hg : ∀ x y, g x y = (h x y).mapError (Fault.mapTokens f)) :
      numeric (f op) a b g = (numeric op a b h).mapError (Fault.mapTokens f) := by
    cases a <;> cases b <;> first | exact hg _ _ | rfl
  unfold binary
  rw [hkind]
  split
  · cases a <;> cases b <;> rfl
  · exact hnumeric _ _ fun _ _ => rfl
  · exact hnumeric _ _ fun _ _ => rfl
  · refine hnumeric _ _ fun x y => ?_
    unfold divide
    split <;> rfl
  · exact hnumeric _ _ fun _ _ => rfl
  all_goals rfl

theorem unary_map (op : Token) (a : Value) :
    unary (f op) a = (unary op a).mapError (Fault.mapTokens f) := by
  unfold unary
  rw [hkind]
  split
  · cases a <;> rfl
  · rfl
  · rfl

end Operator

theorem Evaluation.ofResult_mapError (g : Fault → Fault) (r : Except Fault Value)
    (env : Bindings) :
    Evaluation.ofResult (r.mapError g) env = onError g (Evaluation.ofResult r env) := by
  cases r <;> rfl

variable (hlexeme : ∀ t, (f t).lexeme = t.lexeme)

include hkind hlexeme

namespace Expr

theorem eval_mapTokens (e : Expr) (env : Bindings) :
    (e.mapTokens f).eval env = onError (Fault.mapTokens f) (e.eval env) := by
  induction e generalizing env with
  | assign name value ih =>
    rw [mapTokens, eval_assign, eval_assign, ih]
    cases value.eval env with
    | ok v env₁ =>
      simp only [onError, Evaluation.assign, Bindings.assign, hlexeme]
      cases env₁.get? name.lexeme <;> rfl
    | error e env₁ => rfl
  | binary left op right ihl ihr =>
    rw [mapTokens, eval_binary, eval_binary, ihl]
    cases left.eval env with
    | ok a env₁ =>
      simp only [onError, ihr]
      cases right.eval env₁ with
      | ok b env₂ =>
        simp only [Operator.binary_map hkind]
        exact Evaluation.ofResult_mapError _ (Operator.binary op a b) env₂
      | error e env₂ => rfl
    | error e env₁ => rfl
  | grouping inner ih => exact ih env
  | literal value => rfl
  | unary op right ih =>
    rw [mapTokens, eval_unary, eval_unary, ih]
    cases right.eval env with
    | ok a env₁ =>
      simp only [onError, Operator.unary_map hkind]
      exact Evaluation.ofResult_mapError _ (Operator.unary op a) env₁
    | error e env₁ => rfl
  | reference name =>
    rw [mapTokens, eval_reference, eval_reference]
    simp only [Evaluation.read, Bindings.read, hlexeme]
    cases env.get? name.lexeme <;> rfl

end Expr

namespace Stmt

theorem exec_mapTokens (s : Stmt) (m : Machine) :
    (s.mapTokens f).exec m = onError (Halt.mapTokens f) (s.exec m) := by
  cases s with
  | expression e =>
    rw [mapTokens, exec_expression, exec_expression, Expr.eval_mapTokens hkind hlexeme]
    cases e.eval m.bindings <;> rfl
  | print e =>
    rw [mapTokens, exec_print, exec_print, Expr.eval_mapTokens hkind hlexeme]
    cases e.eval m.bindings with
    | ok v b =>
      simp only [onError, Machine.print, zoom]
      cases Sink.write (v.display ++ "\n") m.output <;> rfl
    | error e b => rfl
  | declare name type initial =>
    cases initial with
    | none =>
      rw [mapTokens, Option.map_none, exec_declare_none, exec_declare_none, hlexeme]
      rfl
    | some e =>
      rw [mapTokens, Option.map_some, exec_declare, exec_declare,
        Expr.eval_mapTokens hkind hlexeme, hlexeme]
      cases e.eval m.bindings <;> rfl

end Stmt

/-- A program with other tokens does the same, and stops at the same place. -/
theorem Machine.run_mapTokens (program : List Stmt) (m : Machine) :
    run (program.map (Stmt.mapTokens f)) m = onError (Halt.mapTokens f) (run program m) := by
  induction program generalizing m with
  | nil => rfl
  | cons s program ih =>
    rw [List.map_cons, run_cons, run_cons, Stmt.exec_mapTokens hkind hlexeme]
    cases s.exec m with
    | ok a m' => exact ih m'
    | error e m' => rfl

end TreeWalk
