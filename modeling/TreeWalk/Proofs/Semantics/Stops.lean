import TreeWalk.Proofs.Semantics.Faults
import TreeWalk.Semantics.Execution

/-! How programs stop. The trees that reading gives have operators only where there are rules for
them, so no program meets an operator without one. With an output that takes everything a program
stops at its end or with a runtime error. -/
namespace TreeWalk

/-- Every operator of the tree has a rule at its place. -/
def Expr.IsPlaced : Expr → Prop
  | assign _ value => value.IsPlaced
  | binary left op right => (∃ t, op.kind.tier? = some t) ∧ left.IsPlaced ∧ right.IsPlaced
  | grouping inner => inner.IsPlaced
  | literal _ => True
  | unary op right => op.kind.isUnary ∧ right.IsPlaced
  | reference _ => True

def Stmt.IsPlaced : Stmt → Prop
  | expression e => e.IsPlaced
  | print e => e.IsPlaced
  | declare _ _ initial => ∀ e ∈ initial, e.IsPlaced

/-- What reading gives has its operators in place. -/
theorem Expr.IsWellFormed.isPlaced {e : Expr} (h : e.IsWellFormed) : e.IsPlaced := by
  induction e with
  | assign name value ih => exact ih h.2
  | binary left op right ihl ihr =>
    obtain ⟨⟨s, hs, hop⟩, hl, hr⟩ := h
    exact ⟨Grammar.tier?_of_mem_binarySymbols hs hop, ihl hl, ihr hr⟩
  | grouping inner ih => exact ih h
  | literal value => trivial
  | unary op right ih =>
    obtain ⟨⟨s, hs, hop⟩, hr⟩ := h
    exact ⟨Grammar.isUnary_iff.2 ⟨s, hs, hop⟩, ih hr⟩
  | reference name => trivial

theorem Stmt.IsWellFormed.isPlaced {s : Stmt} (h : s.IsWellFormed) : s.IsPlaced := by
  cases s with
  | expression e => exact Expr.IsWellFormed.isPlaced h
  | print e => exact Expr.IsWellFormed.isPlaced h
  | declare name annotation initial => exact fun e he => (h.2.2 e he).isPlaced

namespace Expr

open Evaluation

theorem IsPlaced.faultsOnly_eval {e : Expr} (h : e.IsPlaced) :
    FaultsOnly (fun f => ∀ o, f ≠ .stray o) e.eval := by
  induction e with
  | assign name value ih => exact (ih h).bind fun v => faultsOnly_assign v nofun
  | binary left op right ihl ihr =>
    obtain ⟨hop, hl, hr⟩ := h
    exact (ihl hl).bind fun a => (ihr hr).bind fun b =>
      faultsOnly_ofResult fun f hf => (Operator.raises_of_binary hf).ne_stray hop
  | grouping inner ih => exact ih h
  | literal value => exact faultsOnly_pure value
  | unary op right ih =>
    obtain ⟨hop, hr⟩ := h
    exact (ih hr).bind fun a =>
      faultsOnly_ofResult fun f hf => (Operator.raises_of_unary hf).ne_stray hop
  | reference name => exact faultsOnly_read nofun

/-- Evaluating a tree with all operators in their places can only fail with a runtime error. -/
theorem eval_ne_stray {e : Expr} (h : e.IsPlaced) (env env' : Bindings) (o : StrayOperator) :
    e.eval env ≠ .error (.stray o) env' := fun heval =>
  h.faultsOnly_eval env env' _ heval o rfl

end Expr

/-- Nothing that is written to the output is refused. -/
def Machine.IsUnlimited (m : Machine) : Prop := m.output.room = none

namespace Machine

theorem print_eq (v : Value) {m : Machine} (h : m.IsUnlimited) :
    ∃ m', print v m = .ok () m' ∧ m'.IsUnlimited := by
  obtain ⟨bindings, text, room⟩ := m
  obtain rfl : room = none := h
  exact ⟨_, rfl, rfl⟩

end Machine

/-- Either done, with the output still unlimited, or stopped by a runtime error. -/
def Stops (r : EStateM.Result Halt Machine Unit) : Prop :=
  (∃ m, r = .ok () m ∧ m.IsUnlimited) ∨ ∃ e m, r = .error (.fault (.runtime e)) m

/-- The expression that a statement evaluates. -/
def Stmt.expr? : Stmt → Option Expr
  | expression e | print e => some e
  | declare _ _ initial => initial

/-- What a statement does from some variables, whatever the output is. -/
inductive Stmt.Acts (s : Stmt) (b : Bindings) : Prop
  | faults (e : Expr) (f : Fault) (b' : Bindings) (hs : s.expr? = some e)
    (he : e.eval b = .error f b') (h : ∀ out, s.exec ⟨b, out⟩ = .error (.fault f) ⟨b', out⟩)
  | silent (b' : Bindings) (h : ∀ out, s.exec ⟨b, out⟩ = .ok () ⟨b', out⟩)
  | prints (e : Expr) (v : Value) (b' : Bindings) (hs : s = .print e) (he : e.eval b = .ok v b')
    (h : ∀ out, s.exec ⟨b, out⟩ = Machine.print v ⟨b', out⟩)

theorem Stmt.acts (s : Stmt) (b : Bindings) : s.Acts b := by
  cases s with
  | expression e =>
    cases he : e.eval b with
    | ok v b' => exact .silent b' fun out => by rw [exec_expression, he]
    | error f b' => exact .faults e f b' rfl he fun out => by rw [exec_expression, he]
  | print e =>
    cases he : e.eval b with
    | ok v b' => exact .prints e v b' rfl he fun out => by rw [exec_print, he]
    | error f b' => exact .faults e f b' rfl he fun out => by rw [exec_print, he]
  | declare name annotation initial =>
    cases initial with
    | none =>
      exact .silent (b.define name.lexeme .absent) fun out =>
        exec_declare_none name annotation ⟨b, out⟩
    | some e =>
      cases he : e.eval b with
      | ok v b' =>
        exact .silent (b'.define name.lexeme v) fun out => by rw [exec_declare, he]
      | error f b' => exact .faults e f b' rfl he fun out => by rw [exec_declare, he]

theorem Stmt.IsPlaced.expr {s : Stmt} (h : s.IsPlaced) {e : Expr} (he : s.expr? = some e) :
    e.IsPlaced := by
  cases s with
  | expression e' =>
    cases he
    exact h
  | print e' =>
    cases he
    exact h
  | declare name annotation initial => exact h e he

theorem Stmt.exec_ne_stray {s : Stmt} (hs : s.IsPlaced) (m m' : Machine) (o : StrayOperator) :
    s.exec m ≠ .error (.fault (.stray o)) m' := by
  intro hstray
  obtain ⟨b, out⟩ := m
  cases s.acts b with
  | faults e f b' hexpr he h =>
    rw [h] at hstray
    cases hstray
    exact e.eval_ne_stray (hs.expr hexpr) b b' o he
  | silent b' h =>
    rw [h] at hstray
    cases hstray
  | prints e v b' _ _ h =>
    rw [h, Machine.print, zoom] at hstray
    split at hstray <;> cases hstray

/-- Whatever its output takes, a program with all operators in their places meets none without a
rule. -/
theorem Machine.run_ne_stray {program : List Stmt} (hp : ∀ s ∈ program, s.IsPlaced)
    (m m' : Machine) (o : StrayOperator) : run program m ≠ .error (.fault (.stray o)) m' := by
  induction program generalizing m with
  | nil => simp
  | cons s program ih =>
    obtain ⟨hs, hprogram⟩ := List.forall_mem_cons.1 hp
    rw [run_cons]
    cases hexec : s.exec m with
    | ok _ m₁ => exact ih hprogram m₁
    | error h m₁ =>
      intro heq
      cases heq
      exact s.exec_ne_stray hs m m' o hexec

theorem Stmt.stops_exec {s : Stmt} (hs : s.IsPlaced) {m : Machine} (hm : m.IsUnlimited) :
    Stops (s.exec m) := by
  cases s.acts m.bindings with
  | faults e f b _ _ h =>
    have hexec : s.exec m = .error (.fault f) ⟨b, m.output⟩ := h m.output
    cases f with
    | runtime e => exact .inr ⟨e, _, hexec⟩
    | stray o => exact absurd hexec (s.exec_ne_stray hs m _ o)
  | silent b h => exact .inl ⟨_, h m.output, hm⟩
  | prints e v b _ _ h =>
    obtain ⟨m', hprint, hm'⟩ := Machine.print_eq v (m := ⟨b, m.output⟩) hm
    exact .inl ⟨m', (h m.output).trans hprint, hm'⟩

theorem Machine.stops_run {program : List Stmt} (hp : ∀ s ∈ program, s.IsPlaced) {m : Machine}
    (hm : m.IsUnlimited) : Stops (run program m) := by
  induction program generalizing m with
  | nil => exact .inl ⟨m, rfl, hm⟩
  | cons s program ih =>
    obtain ⟨hs, hprogram⟩ := List.forall_mem_cons.1 hp
    rw [run_cons]
    rcases s.stops_exec hs hm with ⟨m', hexec, hm'⟩ | ⟨e, m', hexec⟩
    · rw [hexec]
      exact ih hprogram hm'
    · rw [hexec]
      exact .inr ⟨e, m', rfl⟩

end TreeWalk
