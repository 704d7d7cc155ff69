import TreeWalk.Proofs.Semantics.Declared

/-! What a runtime error is at. Evaluating what was read fails at a name or at an operator. -/
namespace TreeWalk

namespace Token

/-- The tokens at which evaluating can fail. -/
def IsNameOrOperator (t : Token) : Prop := t.kind = .identifier ∨ t.IsOperator

end Token

open Evaluation

theorem Expr.IsWellFormed.faultsOnly_eval {e : Expr} (h : e.IsWellFormed) :
    FaultsOnly (fun f => ∀ err, f = .runtime err → err.token.IsNameOrOperator) e.eval := by
  induction e with
  | assign name value ih =>
    refine (ih h.2).bind fun v => faultsOnly_assign v ?_
    rintro err ⟨⟩
    exact .inl h.1
  | binary left op right ihl ihr =>
    obtain ⟨⟨s, hs, hop⟩, hleft, hright⟩ := h
    refine (ihl hleft).bind fun u => (ihr hright).bind fun v => faultsOnly_ofResult ?_
    rintro f hf err rfl
    rw [(Operator.raises_of_binary hf).token_eq]
    exact .inr ⟨s, List.mem_append_left _ hs, hop⟩
  | grouping inner ih => exact ih h
  | literal v => exact faultsOnly_pure v
  | unary op right ih =>
    obtain ⟨⟨s, hs, hop⟩, hright⟩ := h
    refine (ih hright).bind fun v => faultsOnly_ofResult ?_
    rintro f hf err rfl
    rw [(Operator.raises_of_unary hf).token_eq]
    exact .inr ⟨s, List.mem_append_right _ hs, hop⟩
  | reference name =>
    refine faultsOnly_read ?_
    rintro err ⟨⟩
    exact .inl h

/-- Evaluating stops at a name or an operator of the tree. -/
theorem Expr.IsWellFormed.blames {e : Expr} (h : e.IsWellFormed) {b b' : Bindings}
    {err : RuntimeError} (he : e.eval b = .error (.runtime err) b') :
    err.token.IsNameOrOperator := h.faultsOnly_eval b b' _ he err rfl

theorem Stmt.IsWellFormed.expr {s : Stmt} (h : s.IsWellFormed) {e : Expr} (he : s.expr? = some e) :
    e.IsWellFormed := by
  cases s with
  | expression e' | print e' =>
    cases he
    exact h
  | declare name type initial => exact h.2.2 e he

/-- A statement with a fault stops in its expression, before it has printed anything. -/
theorem Stmt.exists_of_exec_fault {s : Stmt} {m m' : Machine} {f : Fault}
    (h : s.exec m = .error (.fault f) m') : ∃ e, s.expr? = some e ∧
      e.eval m.bindings = .error f m'.bindings ∧ m'.output = m.output := by
  obtain ⟨b, out⟩ := m
  cases s.acts b with
  | faults e f' b' hs he hfaults =>
    rw [hfaults] at h
    cases h
    exact ⟨e, hs, he, rfl⟩
  | silent b' hsilent =>
    rw [hsilent] at h
    cases h
  | prints e v b' _ _ hprints =>
    rw [hprints, Machine.print, zoom] at h
    split at h <;> cases h

theorem Stmt.IsWellFormed.blames {s : Stmt} (h : s.IsWellFormed) {m m' : Machine}
    {err : RuntimeError} (hexec : s.exec m = .error (.fault (.runtime err)) m') :
    err.token.IsNameOrOperator := by
  obtain ⟨e, hs, he, -⟩ := exists_of_exec_fault hexec
  exact (h.expr hs).blames he

/-- A program that was read fails at a name or an operator. -/
theorem Machine.blames_of_run_error {program : List Stmt} (hp : ∀ s ∈ program, s.IsWellFormed)
    {m m' : Machine} {err : RuntimeError} (h : run program m = .error (.fault (.runtime err)) m') :
    err.token.IsNameOrOperator := by
  obtain ⟨before, s, after, m₁, rfl, -, hs⟩ := exists_of_run_error h
  exact (hp s (by simp)).blames hs

end TreeWalk
