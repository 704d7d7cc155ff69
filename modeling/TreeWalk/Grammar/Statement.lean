import TreeWalk.Grammar.Precedence
import TreeWalk.Grammar.Tree

/-! Reading statements: declarations of variables, `print` statements and expressions, each up to
its semicolon. -/
namespace TreeWalk

namespace Stmt

open Reading

/-- The expression after an equals sign, where there is one. -/
def readInitial : List Token → Reading (Option Expr)
  | [] => done none []
  | t :: ts =>
    if t.kind = .symbol .equal then (Expr.read ts).bind fun e => done (some e)
    else done none (t :: ts)

/-- The semicolon after a statement. -/
def finish (cause : SyntaxError.Cause) (s : Stmt) (ts : List Token) : Reading Stmt :=
  (expect (.symbol .semicolon) cause ts).bind fun _ => done s

/-- What follows `var`. -/
def readDeclaration (ts : List Token) : Reading Stmt :=
  (expect .identifier .missingName ts).bind fun name ts =>
  (expect (.symbol .doubleColon) .missingDoubleColon ts).bind fun _ ts =>
  (expect .identifier .missingType ts).bind fun annotation ts =>
  (readInitial ts).bind fun initial =>
    finish .unfinishedDeclaration (declare name annotation initial)

/-- What follows `print`. -/
def readPrint (ts : List Token) : Reading Stmt :=
  (Expr.read ts).bind fun e => finish .unfinishedPrint (print e)

def readExpression (ts : List Token) : Reading Stmt :=
  (Expr.read ts).bind fun e => finish .unfinishedExpression (expression e)

def read : List Token → Reading Stmt
  | [] => readExpression []
  | t :: ts =>
    if t.kind = .keyword .varKw then readDeclaration ts
    else if t.kind = .keyword .printKw then readPrint ts
    else readExpression (t :: ts)

theorem rest_readInitial_suffix (ts : List Token) : (readInitial ts).rest <:+ ts := by
  cases ts with
  | nil => exact List.suffix_rfl
  | cons t ts =>
    rw [readInitial]
    split
    · exact (((Expr.advances_read ts).bind fun _ _ => List.suffix_rfl).1).trans
        (List.suffix_cons t ts)
    · exact List.suffix_rfl

theorem advances_finish (cause : SyntaxError.Cause) (s : Stmt) (ts : List Token) :
    (finish cause s ts).Advances ts :=
  (advances_expect _ _ ts).bind fun _ _ => List.suffix_rfl

theorem advances_readDeclaration (ts : List Token) : (readDeclaration ts).Advances ts := by
  refine (advances_expect _ _ ts).bind fun _ _ => ?_
  refine rest_bind_suffix (advances_expect _ _ _).1 fun _ => ?_
  refine rest_bind_suffix (advances_expect _ _ _).1 fun _ => ?_
  exact rest_bind_suffix (rest_readInitial_suffix _) fun _ => (advances_finish _ _ _).1

theorem advances_readPrint (ts : List Token) : (readPrint ts).Advances ts :=
  (Expr.advances_read ts).bind fun _ _ => (advances_finish _ _ _).1

theorem advances_readExpression (ts : List Token) : (readExpression ts).Advances ts :=
  (Expr.advances_read ts).bind fun _ _ => (advances_finish _ _ _).1

theorem advances_read (ts : List Token) : (read ts).Advances ts := by
  cases ts with
  | nil => exact advances_readExpression []
  | cons t ts =>
    rw [read]
    split
    · exact (advances_readDeclaration ts).of_suffix (List.suffix_cons t ts)
    split
    · exact (advances_readPrint ts).of_suffix (List.suffix_cons t ts)
    · exact advances_readExpression (t :: ts)

end Stmt

end TreeWalk
