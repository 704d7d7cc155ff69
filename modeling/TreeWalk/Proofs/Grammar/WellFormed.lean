import TreeWalk.Proofs.Grammar.Derivation
import TreeWalk.Proofs.Grammar.Tokens

/-! The trees that reading gives. Whatever tokens a program is read from, also next to errors and
after them, each operator in its statements is one of the language and has as many operands as it
takes, and each name is a name. -/
namespace TreeWalk

namespace Grammar

/-- The symbols that stand between two operands. -/
def binarySymbols : List Symbol :=
  [.equalEqual, .bangEqual, .greater, .greaterEqual, .less, .lessEqual, .minus, .plus, .star,
    .slash]

theorem mem_binarySymbols_of_tier? {k : Token.Kind} {t : Tier} (h : k.tier? = some t) :
    ∃ s ∈ binarySymbols, k = .symbol s := by
  cases k with
  | symbol s =>
    refine ⟨s, ?_, rfl⟩
    cases s <;> first | decide | cases h
  | _ => cases h

theorem tier?_of_mem_binarySymbols {op : Token} {s : Symbol} (hs : s ∈ binarySymbols)
    (hop : op.kind = .symbol s) : ∃ t, op.kind.tier? = some t := by
  rw [hop]
  cases s <;> first | exact ⟨_, rfl⟩ | exact absurd hs (by decide)

end Grammar

open Grammar

def Token.IsOperator (t : Token) : Prop := ∃ s ∈ binarySymbols ++ signs, t.kind = .symbol s

/-- Operators are where the language has them, and what is assigned to or read is a name. -/
def Expr.IsWellFormed : Expr → Prop
  | assign name value => name.kind = .identifier ∧ value.IsWellFormed
  | binary left op right =>
    (∃ s ∈ binarySymbols, op.kind = .symbol s) ∧ left.IsWellFormed ∧ right.IsWellFormed
  | grouping inner => inner.IsWellFormed
  | literal _ => True
  | unary op right => (∃ s ∈ signs, op.kind = .symbol s) ∧ right.IsWellFormed
  | reference name => name.kind = .identifier

def Stmt.IsWellFormed : Stmt → Prop
  | expression e | print e => e.IsWellFormed
  | declare name annotation initial =>
    name.kind = .identifier ∧ annotation.kind = .identifier ∧ ∀ e ∈ initial, e.IsWellFormed

namespace Reading

variable {α β : Type}

/-- The result has a property, if there is one. -/
def Yields (P : α → Prop) (r : Reading α) : Prop := ∀ a, r.result = .ok a → P a

theorem yields_done {P : α → Prop} {a : α} {ts : List Token} : (done a ts).Yields P ↔ P a := by
  simp [Yields, done]

theorem yields_fail (P : α → Prop) (cause : SyntaxError.Cause) (ts : List Token) :
    (fail cause ts : Reading α).Yields P :=
  fun a ha => absurd ha (result_fail_ne_ok cause ts a)

theorem Yields.bind {P : α → Prop} {Q : β → Prop} {r : Reading α} {f : α → List Token → Reading β}
    (hr : r.Yields P) (hf : ∀ a, r.result = .ok a → P a → (f a r.rest).Yields Q) :
    (r.bind f).Yields Q := by
  intro b hb
  obtain ⟨a, ha, hresult⟩ := exists_of_bind_ok hb
  exact hf a ha (hr a ha) b hresult

theorem yields_expect (kind : Token.Kind) (cause : SyntaxError.Cause) (ts : List Token) :
    (expect kind cause ts).Yields fun t => t.kind = kind := by
  cases ts with
  | nil => exact yields_fail _ cause []
  | cons t ts =>
    rw [expect]
    split
    · rename_i ht
      exact yields_done.2 ht
    · exact yields_fail _ cause (t :: ts)

end Reading

namespace Expr

open Reading

/-- An assignment is to a name; in its place may stand its left side. -/
theorem yields_assignTo {left value : Expr} (hl : left.IsWellFormed) (hv : value.IsWellFormed)
    (equals : Token) (ts : List Token) :
    (assignTo left equals value ts).Yields IsWellFormed := by
  intro e he
  cases left with
  | reference name =>
    cases he
    exact ⟨hl, hv⟩
  | _ =>
    cases he
    exact hl

theorem yields_readAssigned {left : Expr} (hl : left.IsWellFormed) {ts : List Token}
    (h : ∀ us : List Token, us.length < ts.length → (read us).Yields IsWellFormed) :
    (readAssigned left ts).Yields IsWellFormed := by
  cases ts with
  | nil => exact yields_done.2 hl
  | cons equals ts =>
    rw [readAssigned]
    split
    · exact (h ts (Nat.lt_succ_self _)).bind fun value _ hv => yields_assignTo hl hv equals _
    · exact yields_done.2 hl

theorem yields_readOperand {ts : List Token}
    (h : ∀ us : List Token, us.length < ts.length →
      (read us).Yields IsWellFormed ∧ (readOperand us).Yields IsWellFormed) :
    (readOperand ts).Yields IsWellFormed := by
  cases ts with
  | nil =>
    rw [readOperand_nil]
    exact yields_fail _ _ []
  | cons t ts =>
    obtain ⟨hread, hoperand⟩ := h ts (Nat.lt_succ_self _)
    rw [readOperand_cons]
    split
    · rename_i ht
      exact hoperand.bind fun right _ hr => yields_done.2 ⟨isUnary_iff.1 ht, hr⟩
    split
    · refine hread.bind fun inner _ hi => ?_
      exact (yields_expect _ _ _).bind fun _ _ _ => yields_done.2 hi
    split
    · rename_i ht
      exact yields_done.2 ht
    split
    · exact yields_done.2 trivial
    · exact yields_fail _ _ (t :: ts)

/-- Every reader of expressions gives trees with their operators and names in place. -/
theorem yields_readers (ts : List Token) :
    (read ts).Yields IsWellFormed ∧ (∀ t, (readTier t ts).Yields IsWellFormed) ∧
      (∀ t left, left.IsWellFormed → (readChain t left ts).Yields IsWellFormed) ∧
      (readOperand ts).Yields IsWellFormed := by
  apply readers_induction (A := fun ts => (read ts).Yields IsWellFormed)
    (O := fun ts => (readOperand ts).Yields IsWellFormed)
    (L := fun t ts => (readTier t ts).Yields IsWellFormed)
    (C := fun t left ts => left.IsWellFormed → (readChain t left ts).Yields IsWellFormed)
  case operand => exact fun ts h => yields_readOperand h
  case chain =>
    intro t left ts h hl
    cases ts with
    | nil =>
      rw [readChain_nil]
      exact yields_done.2 hl
    | cons op ts =>
      obtain ⟨hlevel, -⟩ := h ts (Nat.lt_succ_self _)
      rw [readChain_cons]
      split
      · rename_i hop
        refine (hlevel t.operand).bind fun right hres hr => ?_
        have hlt := (advances_readTier t.operand ts).2 right hres
        exact (h _ (Nat.lt_succ_of_lt hlt)).2 _ ⟨mem_binarySymbols_of_tier? hop, hl, hr⟩
      · exact yields_done.2 hl
  case unary =>
    intro ts h
    rwa [readTier_unary]
  case tier =>
    intro t ts ht hoperand hchain
    rw [readTier_eq ht]
    refine hoperand.bind fun left hres hl => ?_
    exact hchain left _ ((advances_readTier t.operand ts).2 left hres) hl
  case assignment =>
    intro ts hlevel hread
    rw [read_eq]
    refine hlevel.bind fun left hres hl => yields_readAssigned hl fun us hus => ?_
    exact hread us (Nat.lt_trans hus ((advances_readTier .equality ts).2 left hres))

theorem yields_read (ts : List Token) : (read ts).Yields IsWellFormed := (yields_readers ts).1

end Expr

namespace Stmt

open Reading

theorem yields_finish (cause : SyntaxError.Cause) (s : Stmt) (h : s.IsWellFormed)
    (ts : List Token) : (finish cause s ts).Yields IsWellFormed :=
  (yields_expect _ _ ts).bind fun _ _ _ => yields_done.2 h

theorem yields_readInitial (ts : List Token) :
    (readInitial ts).Yields fun initial => ∀ e ∈ initial, e.IsWellFormed := by
  cases ts with
  | nil => exact yields_done.2 (by simp)
  | cons t ts =>
    rw [readInitial]
    split
    · exact (Expr.yields_read ts).bind fun e _ he => yields_done.2 (by simpa using he)
    · exact yields_done.2 (by simp)

theorem yields_readDeclaration (ts : List Token) :
    (readDeclaration ts).Yields IsWellFormed := by
  refine (yields_expect _ _ ts).bind fun name _ hname => ?_
  refine (yields_expect _ _ _).bind fun _ _ _ => ?_
  refine (yields_expect _ _ _).bind fun annotation _ hannotation => ?_
  refine (yields_readInitial _).bind fun initial _ hinitial => ?_
  exact yields_finish _ (declare name annotation initial) ⟨hname, hannotation, hinitial⟩ _

theorem yields_read (ts : List Token) : (read ts).Yields IsWellFormed := by
  have hplain (ts : List Token) : (readExpression ts).Yields IsWellFormed :=
    (Expr.yields_read ts).bind fun e _ he => yields_finish _ (expression e) he _
  cases ts with
  | nil => exact hplain []
  | cons t ts =>
    rw [read]
    split
    · exact yields_readDeclaration ts
    split
    · exact (Expr.yields_read ts).bind fun e _ he => yields_finish _ (print e) he _
    · exact hplain (t :: ts)

end Stmt

namespace Program

theorem isWellFormed_of_mem_itemsOf {r : Reading Stmt} (h : r.Yields Stmt.IsWellFormed) :
    ∀ s ∈ statements (itemsOf r), s.IsWellFormed := by
  have hnotes : statements (r.notes.map .error) = [] := by
    rw [statements, List.filterMap_map, List.filterMap_eq_nil_iff]
    intro n _
    rfl
  rw [itemsOf, statements_append, hnotes, List.nil_append]
  intro s hs
  cases hr : r.result with
  | ok a =>
    rw [hr] at hs
    obtain rfl : s = a := by simpa [statements, Item.ofResult, Item.stmt?] using hs
    exact h s hr
  | error e =>
    rw [hr] at hs
    simp [statements, Item.ofResult, Item.stmt?] at hs

/-- Every statement of a program has its operators and names in place, whatever else is wrong with
the program. -/
theorem isWellFormed_statements (ts : List Token) :
    ∀ s ∈ statements (read ts).items, s.IsWellFormed := by
  induction ts using read_induction with
  | ending ts h =>
    rw [read_of_atEnd h]
    simp [statements]
  | next ts h ih =>
    rw [read_of_not_atEnd h, Outline.after, statements_append]
    exact List.forall_mem_append.2 ⟨isWellFormed_of_mem_itemsOf (Stmt.yields_read ts), ih⟩

end Program

end TreeWalk
