import TreeWalk.Grammar.Tree
import TreeWalk.Grammar.Reading

/-! Reading expressions. Assignment binds loosest and to the right, then come four tiers of binary
operators, each a chain that leans to the left, and the unary operators. -/
namespace TreeWalk

/-- The tiers of expressions under assignment. -/
inductive Tier
  | unary | factor | term | comparison | equality
deriving DecidableEq

namespace Tier

/-- The tier of the operands in a chain. -/
def operand : Tier → Tier
  | equality => comparison
  | comparison => term
  | term => factor
  | factor => unary
  | unary => unary

def rank : Tier → Nat
  | unary => 0
  | factor => 1
  | term => 2
  | comparison => 3
  | equality => 4

theorem rank_operand_lt {t : Tier} (h : t ≠ unary) : t.operand.rank < t.rank := by
  cases t <;> first | exact absurd rfl h | decide

theorem rank_le (t : Tier) : t.rank ≤ 4 := by cases t <;> decide

end Tier

/-- The tier of the chains that a binary operator forms. -/
def Symbol.tier? : Symbol → Option Tier
  | bangEqual | equalEqual => some .equality
  | greater | greaterEqual | less | lessEqual => some .comparison
  | minus | plus => some .term
  | slash | star => some .factor
  | _ => none

namespace Token.Kind

def tier? : Kind → Option Tier
  | symbol s => s.tier?
  | _ => none

def isUnary (k : Kind) : Bool := k = .symbol .bang || k = .symbol .minus

/-- The value of a token that is an expression of its own. -/
def literal? : Kind → Option Value
  | keyword .trueKw => some (.boolean true)
  | keyword .falseKw => some (.boolean false)
  | keyword .noneKw => some .absent
  | number x => some (.number x)
  | string s => some (.text s)
  | _ => none

end Token.Kind

namespace Expr

open Reading

/-- An assignment to what stands left of `equals`. What is not a name alone cannot be assigned to:
this is noted, and the expression is its left side. -/
def assignTo (left : Expr) (equals : Token) (value : Expr) (rest : List Token) : Reading Expr :=
  match left with
  | reference name => done (assign name value) rest
  | _ => ⟨[.atToken equals .invalidTarget], .ok left, rest⟩

@[simp] theorem rest_assignTo (left : Expr) (equals : Token) (value : Expr) (rest : List Token) :
    (assignTo left equals value rest).rest = rest := by
  cases left <;> rfl

/-- The bracket that ends a grouping. -/
def closeGrouping (inner : Expr) (ts : List Token) : Reading Expr :=
  (expect (.symbol .rightParen) .unclosedGrouping ts).bind fun _ us => done (grouping inner) us

theorem advances_closeGrouping (inner : Expr) (ts : List Token) :
    (closeGrouping inner ts).Advances ts :=
  (advances_expect _ _ ts).bind fun _ _ => List.suffix_rfl

-- These four call one another on ever fewer tokens, so each gives its reading with the proof that
-- it leaves a suffix. `read` and its companions are the readings alone.
mutual

def assignment (ts : List Token) : { r : Reading Expr // r.Advances ts } :=
  andThen (level .equality ts) fun left us hus =>
    match us, hus with
    | [], _ => ⟨done left [], List.suffix_rfl⟩
    | equals :: vs, hus =>
      if equals.kind = .symbol .equal then
        let r := andThen (assignment vs) fun value ws _ =>
          ⟨assignTo left equals value ws, by simp⟩
        ⟨r.val, r.property.1.trans (List.suffix_cons equals vs)⟩
      else ⟨done left (equals :: vs), List.suffix_rfl⟩
termination_by 8 * ts.length + 7
decreasing_by
  · simp [Tier.rank]
  · simp_all
    omega

def level (t : Tier) (ts : List Token) : { r : Reading Expr // r.Advances ts } :=
  if _h : t = .unary then operand ts
  else andThen (level t.operand ts) fun left us _ => chain t left us
termination_by 8 * ts.length + t.rank + 1
decreasing_by
  · omega
  · have := Tier.rank_operand_lt _h
    omega
  · omega

def chain (t : Tier) (left : Expr) (ts : List Token) :
    { r : Reading Expr // r.rest <:+ ts } :=
  match ts with
  | [] => ⟨done left [], List.suffix_rfl⟩
  | op :: us =>
    if op.kind.tier? = some t then
      let r := andThen (level t.operand us) fun right vs _ => chain t (binary left op right) vs
      ⟨r.val, r.property.1.trans (List.suffix_cons op us)⟩
    else ⟨done left (op :: us), List.suffix_rfl⟩
termination_by 8 * ts.length
decreasing_by
  · have := t.operand.rank_le
    simp
    omega
  · simp
    omega

def operand (ts : List Token) : { r : Reading Expr // r.Advances ts } :=
  match ts with
  | [] => ⟨fail .missingExpression [], advances_fail _ _⟩
  | t :: us =>
    if t.kind.isUnary then
      let r := andThen (operand us) fun right vs _ => ⟨done (unary t right) vs, List.suffix_rfl⟩
      ⟨r.val, r.property.of_suffix (List.suffix_cons t us)⟩
    else if t.kind = .symbol .leftParen then
      let r := andThen (assignment us) fun inner vs _ =>
        ⟨closeGrouping inner vs, (advances_closeGrouping inner vs).1⟩
      ⟨r.val, r.property.of_suffix (List.suffix_cons t us)⟩
    else if t.kind = .identifier then ⟨done (reference t) us, advances_done_cons _ t us⟩
    else
      match t.kind.literal? with
      | some value => ⟨done (literal value) us, advances_done_cons _ t us⟩
      | none => ⟨fail .missingExpression (t :: us), advances_fail _ _⟩
termination_by 8 * ts.length
decreasing_by
  · simp
  · simp
    omega

end

/-- An expression of any form. -/
def read (ts : List Token) : Reading Expr := (assignment ts).val

/-- An expression of the given tier. -/
def readTier (t : Tier) (ts : List Token) : Reading Expr := (level t ts).val

/-- Operators of the given tier with their right operands, applied to `left` one after another. -/
def readChain (t : Tier) (left : Expr) (ts : List Token) : Reading Expr := (chain t left ts).val

/-- Unary operators before an expression that no operator holds together. -/
def readOperand (ts : List Token) : Reading Expr := (operand ts).val

/-- An assignment if an equals sign follows its left side. -/
def readAssigned (left : Expr) : List Token → Reading Expr
  | [] => done left []
  | equals :: ts =>
    if equals.kind = .symbol .equal then (read ts).bind (assignTo left equals)
    else done left (equals :: ts)

theorem read_eq (ts : List Token) : read ts = (readTier .equality ts).bind readAssigned := by
  rw [read, assignment]
  refine val_andThen _ fun left us hus => ?_
  cases us with
  | nil => rfl
  | cons equals us =>
    simp only [readAssigned]
    split
    · exact val_andThen _ fun _ _ _ => rfl
    · rfl

theorem readTier_unary (ts : List Token) : readTier .unary ts = readOperand ts := by
  rw [readTier, level]
  rfl

theorem readTier_eq {t : Tier} (h : t ≠ .unary) (ts : List Token) :
    readTier t ts = (readTier t.operand ts).bind (readChain t) := by
  rw [readTier, level, dif_neg h]
  exact val_andThen _ fun _ _ _ => rfl

@[simp] theorem readChain_nil (t : Tier) (left : Expr) : readChain t left [] = done left [] := by
  rw [readChain, chain]

theorem readChain_cons (t : Tier) (left : Expr) (op : Token) (ts : List Token) :
    readChain t left (op :: ts) =
      if op.kind.tier? = some t then
        (readTier t.operand ts).bind fun right => readChain t (binary left op right)
      else done left (op :: ts) := by
  rw [readChain, chain]
  split
  · exact val_andThen _ fun _ _ _ => rfl
  · rfl

@[simp] theorem readOperand_nil : readOperand [] = fail .missingExpression [] := by
  rw [readOperand, operand]

theorem readOperand_cons (t : Token) (ts : List Token) :
    readOperand (t :: ts) =
      if t.kind.isUnary then (readOperand ts).bind fun right => done (unary t right)
      else if t.kind = .symbol .leftParen then (read ts).bind closeGrouping
      else if t.kind = .identifier then done (reference t) ts
      else match t.kind.literal? with
        | some value => done (literal value) ts
        | none => fail .missingExpression (t :: ts) := by
  rw [readOperand, operand]
  split
  · exact val_andThen _ fun _ _ _ => rfl
  split
  · exact val_andThen _ fun _ _ _ => rfl
  split
  · rfl
  split <;> rfl

theorem advances_read (ts : List Token) : (read ts).Advances ts := (assignment ts).property

theorem advances_readTier (t : Tier) (ts : List Token) : (readTier t ts).Advances ts :=
  (level t ts).property

theorem rest_readChain_suffix (t : Tier) (left : Expr) (ts : List Token) :
    (readChain t left ts).rest <:+ ts := (chain t left ts).property

theorem advances_readOperand (ts : List Token) : (readOperand ts).Advances ts :=
  (operand ts).property

end Expr

end TreeWalk
