import TreeWalk.Proofs.Grammar.WellFormed
import TreeWalk.Semantics.Evaluation
import TreeWalk.Semantics.Zoom

/-! What evaluating can fail with. A name can only be undefined. An operator blames itself alone, and
it is stray only at a place where no operator of its kind stands. -/
namespace TreeWalk

/-- The faults of an operator, which is `known` where there is a rule for its kind. -/
inductive Operator.Raises (arity : Arity) (op : Token) (known : Prop) : Fault → Prop
  | misfit {cause : RuntimeError.Cause} (h : cause ≠ .undefinedVariable) :
    Raises arity op known (.runtime ⟨op, cause⟩)
  | stray (h : ¬known) : Raises arity op known (.stray ⟨arity, op.kind⟩)

namespace Operator

section Raises

variable {arity : Arity} {op : Token} {known : Prop} {f : Fault}

theorem Raises.token_eq {e : RuntimeError} (h : Raises arity op known (.runtime e)) :
    e.token = op := by
  cases h
  rfl

theorem Raises.ne_undefined (h : Raises arity op known f) (t : Token) :
    f ≠ .runtime ⟨t, .undefinedVariable⟩ := by
  rintro rfl
  cases h with
  | misfit hcause => exact hcause rfl

theorem Raises.ne_stray (h : Raises arity op known f) (hknown : known) (o : StrayOperator) :
    f ≠ .stray o := by
  rintro rfl
  cases h with
  | stray hunknown => exact hunknown hknown

end Raises

variable {op : Token} {a b : Value} {f : Fault}

theorem raises_of_numeric {known : Prop} {g : Float → Float → Except Fault Value}
    (hg : ∀ x y, g x y = .error f → Raises .binary op known f)
    (h : numeric op a b g = .error f) : Raises .binary op known f := by
  unfold numeric at h
  split at h
  · exact hg _ _ h
  · cases h
    exact .misfit (by simp)

theorem raises_of_binary (h : binary op a b = .error f) :
    Raises .binary op (∃ t, op.kind.tier? = some t) f := by
  unfold binary at h
  split at h
  · unfold plus at h
    split at h <;> cases h
    exact .misfit (by simp)
  · exact raises_of_numeric (fun x y hxy => by cases hxy) h
  · exact raises_of_numeric (fun x y hxy => by cases hxy) h
  · refine raises_of_numeric (fun x y hxy => ?_) h
    unfold divide at hxy
    split at hxy <;> cases hxy
    exact .misfit (by simp)
  · exact raises_of_numeric (fun x y hxy => by cases hxy) h
  · cases h
    exact .misfit (by simp)
  · cases h
    exact .misfit (by simp)
  · cases h
    exact .misfit (by simp)
  · cases h
  · cases h
  · cases h
    refine .stray ?_
    -- Every symbol that stands in a chain has had its rule above.
    rintro ⟨t, ht⟩
    obtain ⟨s, hs, hkind⟩ := Grammar.mem_binarySymbols_of_tier? ht
    simp only [Grammar.binarySymbols, List.mem_cons, List.not_mem_nil, or_false] at hs
    rcases hs with rfl | rfl | rfl | rfl | rfl | rfl | rfl | rfl | rfl | rfl <;> contradiction

theorem raises_of_unary (h : unary op a = .error f) : Raises .unary op op.kind.isUnary f := by
  unfold unary at h
  split at h
  · unfold negate at h
    split at h <;> cases h
    exact .misfit (by simp)
  · cases h
  · cases h
    refine .stray fun hunary => ?_
    obtain ⟨s, hs, hkind⟩ := Grammar.isUnary_iff.1 hunary
    simp only [Grammar.signs, List.mem_cons, List.not_mem_nil, or_false] at hs
    rcases hs with rfl | rfl <;> contradiction

end Operator

namespace Evaluation

variable {α β : Type} {P : Fault → Prop}

/-- Whatever the variables are, the step fails with no other fault. -/
def FaultsOnly (P : Fault → Prop) (step : Evaluation α) : Prop :=
  ∀ b b' f, step b = .error f b' → P f

theorem FaultsOnly.bind {step : Evaluation α} {next : α → Evaluation β} (hstep : FaultsOnly P step)
    (hnext : ∀ a, FaultsOnly P (next a)) : FaultsOnly P (step >>= next) := by
  intro b b' f h
  cases hs : step b with
  | ok a b₁ =>
    rw [bind_eq_of_ok hs] at h
    exact hnext a b₁ b' f h
  | error e b₁ =>
    rw [bind_eq_of_error hs] at h
    cases h
    exact hstep b b' f hs

theorem faultsOnly_pure (a : α) : FaultsOnly P (pure a) := fun _ _ _ => nofun

theorem faultsOnly_ofResult {r : Except Fault α} (h : ∀ f, r = .error f → P f) :
    FaultsOnly P (ofResult r) := by
  intro b b' f hr
  cases r with
  | ok a => cases hr
  | error e =>
    cases hr
    exact h f rfl

theorem faultsOnly_read {name : Token} (h : P (.runtime ⟨name, .undefinedVariable⟩)) :
    FaultsOnly P (read name) := by
  intro b b' f hr
  simp only [read, Bindings.read] at hr
  cases hget : b.get? name.lexeme with
  | some v => simp [hget] at hr
  | none =>
    simp only [hget] at hr
    cases hr
    exact h

theorem faultsOnly_assign {name : Token} (v : Value)
    (h : P (.runtime ⟨name, .undefinedVariable⟩)) : FaultsOnly P (assign name v) := by
  intro b b' f hr
  simp only [assign, Bindings.assign] at hr
  cases hget : b.get? name.lexeme with
  | some v => simp [hget] at hr
  | none =>
    simp only [hget] at hr
    cases hr
    exact h

end Evaluation

end TreeWalk
