import Mathlib.Data.List.Forall2
import TreeWalk.Proofs.Semantics.Blame
import TreeWalk.Proofs.Semantics.Flat
import TreeWalk.Proofs.Semantics.Tokens

/-! Two programs side by side. Where their trees are the same up to names and operators that stand
for one another, and names that do so are read alike, the programs do the same step by step: both
are done, or both stop at the same place and for the same cause. -/
namespace TreeWalk

/-- Which names and operators of one program stand for which of another. -/
structure Correspondence where
  name : Token → Token → Prop
  operator : Token → Token → Prop

/-- The same tree with corresponding tokens. -/
inductive Expr.Matches (c : Correspondence) : Expr → Expr → Prop
  | assign {name name' : Token} {value value' : Expr} (hname : c.name name name')
      (hvalue : Matches c value value') : Matches c (.assign name value) (.assign name' value')
  | binary {left left' right right' : Expr} {op op' : Token} (hleft : Matches c left left')
      (hop : c.operator op op') (hright : Matches c right right') :
      Matches c (.binary left op right) (.binary left' op' right')
  | grouping {inner inner' : Expr} (h : Matches c inner inner') :
      Matches c (.grouping inner) (.grouping inner')
  | literal (value : Value) : Matches c (.literal value) (.literal value)
  | unary {op op' : Token} {right right' : Expr} (hop : c.operator op op')
      (hright : Matches c right right') : Matches c (.unary op right) (.unary op' right')
  | reference {name name' : Token} (hname : c.name name name') :
      Matches c (.reference name) (.reference name')

/-- The same statement with corresponding tokens. A declaration may be annotated otherwise. -/
inductive Stmt.Matches (c : Correspondence) : Stmt → Stmt → Prop
  | expression {e e' : Expr} (h : e.Matches c e') : Matches c (.expression e) (.expression e')
  | print {e e' : Expr} (h : e.Matches c e') : Matches c (.print e) (.print e')
  | declare {name name' : Token} (hname : c.name name name') (type type' : Token) {e e' : Expr}
      (h : e.Matches c e') :
      Matches c (.declare name type (some e)) (.declare name' type' (some e'))
  | declareOnly {name name' : Token} (hname : c.name name name') (type type' : Token) :
      Matches c (.declare name type none) (.declare name' type' none)

/-- Faults of one cause, at tokens that correspond. -/
inductive Fault.Matches (c : Correspondence) : Fault → Fault → Prop
  | runtime {t t' : Token} (h : c.name t t' ∨ c.operator t t') (cause : RuntimeError.Cause) :
    Matches c (.runtime ⟨t, cause⟩) (.runtime ⟨t', cause⟩)
  | stray (o : StrayOperator) : Matches c (.stray o) (.stray o)

/-- Variables of two programs go together if names that correspond have one value or none, and still
do after another one is given to both. -/
structure Correspondence.Couples (c : Correspondence) (R : Bindings → Bindings → Prop) : Prop where
  kind_eq : ∀ {op op'}, c.operator op op' → op'.kind = op.kind
  get?_eq : ∀ {x x' b b'}, c.name x x' → R b b' → b.get? x.lexeme = b'.get? x'.lexeme
  define : ∀ {x x' b b'}, c.name x x' → R b b' → ∀ v,
    R (b.define x.lexeme v) (b'.define x'.lexeme v)

/-- Both succeed with results that go together, or both fail with errors that do. -/
inductive Alike {ε α : Type} (E : ε → ε → Prop) (A : α → α → Prop) :
    Except ε α → Except ε α → Prop
  | ok {a a' : α} (h : A a a') : Alike E A (.ok a) (.ok a')
  | error {e e' : ε} (h : E e e') : Alike E A (.error e) (.error e')

variable {c : Correspondence} {R : Bindings → Bindings → Prop}

namespace Operator

/-- An operator that blames itself alone does what one in its place does. -/
theorem alike_of_mapTokens {op op' : Token} {f : Token → Token} {r : Except Fault Value}
    (h : c.operator op op') (hf : f op = op')
    (hblame : ∀ e, r = .error (.runtime e) → e.token = op) :
    Alike (Fault.Matches c) Eq r (r.mapError (Fault.mapTokens f)) := by
  cases r with
  | ok v => exact .ok rfl
  | error fault =>
    cases fault with
    | stray o => exact .error (.stray o)
    | runtime e =>
      obtain ⟨t, cause⟩ := e
      obtain rfl : t = op := hblame _ rfl
      obtain rfl : f t = op' := hf
      exact .error (.runtime (.inr h) cause)

variable {op op' : Token}

theorem exists_mapTokens (hkind : op'.kind = op.kind) :
    ∃ f : Token → Token, (∀ t, (f t).kind = t.kind) ∧ f op = op' := by
  obtain ⟨kind, lexeme, line⟩ := op'
  obtain rfl : kind = op.kind := hkind
  exact ⟨fun t => ⟨t.kind, lexeme, line⟩, fun _ => rfl, rfl⟩

variable (h : c.operator op op') (hkind : op'.kind = op.kind)

include h hkind

theorem alike_binary (a b : Value) :
    Alike (Fault.Matches c) Eq (binary op a b) (binary op' a b) := by
  obtain ⟨f, hf, hop⟩ := exists_mapTokens hkind
  have hsame := alike_of_mapTokens h hop fun e he =>
    (raises_of_binary (a := a) (b := b) he).token_eq
  rwa [← binary_map hf, hop] at hsame

theorem alike_unary (a : Value) : Alike (Fault.Matches c) Eq (unary op a) (unary op' a) := by
  obtain ⟨f, hf, hop⟩ := exists_mapTokens hkind
  have hsame := alike_of_mapTokens h hop fun e he => (raises_of_unary (a := a) he).token_eq
  rwa [← unary_map hf, hop] at hsame

end Operator

namespace Flat

inductive Step.Matches (c : Correspondence) : Step → Step → Prop
  | push (v : Value) : Matches c (.push v) (.push v)
  | read {x x' : Token} (h : c.name x x') : Matches c (.read x) (.read x')
  | write {x x' : Token} (h : c.name x x') : Matches c (.write x) (.write x')
  | unary {op op' : Token} (h : c.operator op op') : Matches c (.unary op) (.unary op')
  | binary {op op' : Token} (h : c.operator op op') : Matches c (.binary op) (.binary op')
  | print : Matches c .print .print
  | define {x x' : Token} (h : c.name x x') : Matches c (.define x) (.define x')
  | discard : Matches c .discard .discard

/-- The same values wait, the same was printed, and the variables go together. -/
inductive State.Matches (R : Bindings → Bindings → Prop) : State → State → Prop
  | intro (stack : List Value) {b b' : Bindings} (h : R b b') (printed : String) :
    Matches R ⟨stack, b, printed⟩ ⟨stack, b', printed⟩

inductive Stop.Matches (c : Correspondence) : Stop → Stop → Prop
  | fault {f f' : Fault} (h : f.Matches c f') : Matches c (.fault f) (.fault f')
  | missingValue : Matches c .missingValue .missingValue

theorem alike_pushResult {r r' : Except Fault Value} (hr : Alike (Fault.Matches c) Eq r r')
    {s s' : State} (hs : s.Matches R s') :
    Alike (Stop.Matches c) (State.Matches R) (pushResult r s) (pushResult r' s') := by
  obtain ⟨stack, hb, printed⟩ := hs
  cases hr with
  | ok h =>
    subst h
    exact .ok (.intro _ hb printed)
  | error h => exact .error (.fault h)

/-- Steps that match do the same to states that do. -/
theorem Step.Matches.alike_perform (hc : c.Couples R) {step step' : Step} (h : step.Matches c step')
    {s s' : State} (hs : s.Matches R s') :
    Alike (Stop.Matches c) (State.Matches R) (step.perform s) (step'.perform s') := by
  obtain ⟨stack, hb, printed⟩ := hs
  cases h with
  | push v => exact .ok (.intro (v :: stack) hb printed)
  | @read x x' hx =>
    simp only [Step.perform, Bindings.read, hc.get?_eq hx hb]
    cases Bindings.get? _ x'.lexeme with
    | some v => exact .ok (.intro (v :: stack) hb printed)
    | none => exact .error (.fault (.runtime (.inl hx) _))
  | @write x x' hx =>
    cases stack with
    | nil => exact .error .missingValue
    | cons v stack =>
      simp only [Step.perform, Bindings.assign, hc.get?_eq hx hb]
      cases Bindings.get? _ x'.lexeme with
      | some u => exact .ok (.intro (v :: stack) (hc.define hx hb v) printed)
      | none => exact .error (.fault (.runtime (.inl hx) _))
  | unary hop =>
    cases stack with
    | nil => exact .error .missingValue
    | cons a stack =>
      exact alike_pushResult (Operator.alike_unary hop (hc.kind_eq hop) a) (.intro stack hb printed)
  | binary hop =>
    rcases stack with _ | ⟨v, _ | ⟨u, stack⟩⟩
    · exact .error .missingValue
    · exact .error .missingValue
    · exact alike_pushResult (Operator.alike_binary hop (hc.kind_eq hop) u v)
        (.intro stack hb printed)
  | print =>
    cases stack with
    | nil => exact .error .missingValue
    | cons v stack => exact .ok (.intro stack hb _)
  | define hx =>
    cases stack with
    | nil => exact .error .missingValue
    | cons v stack => exact .ok (.intro stack (hc.define hx hb v) printed)
  | discard =>
    cases stack with
    | nil => exact .error .missingValue
    | cons v stack => exact .ok (.intro stack hb printed)

/-- The steps before step `k` have been performed, and it fails. -/
def FailsAt (steps : List Step) (s : State) (k : Nat) (e : Stop) (s' : State) : Prop :=
  ∃ step, steps[k]? = some step ∧ run (steps.take k) s = .ok () s' ∧ step.perform s' = .error e

theorem FailsAt.run_eq {steps : List Step} {s s' : State} {k : Nat} {e : Stop}
    (h : FailsAt steps s k e s') : run steps s = .error e s' := by
  obtain ⟨step, hstep, hbefore, hfails⟩ := h
  obtain ⟨hk, rfl⟩ := List.getElem?_eq_some_iff.1 hstep
  rw [← List.take_append_drop k steps, List.drop_eq_getElem_cons hk, run_append, hbefore]
  exact run_cons_of_error hfails _

theorem FailsAt.cons {step : Step} {steps : List Step} {s s₁ s' : State} {k : Nat} {e : Stop}
    (h : FailsAt steps s₁ k e s') (hstep : step.perform s = .ok s₁) :
    FailsAt (step :: steps) s (k + 1) e s' := by
  obtain ⟨last, hlast, hbefore, hfails⟩ := h
  exact ⟨last, hlast, (run_cons_of_ok hstep _).trans hbefore, hfails⟩

/-- How two lists of steps end that match: both are done, or both fail at one place. -/
inductive EndAlike (c : Correspondence) (R : Bindings → Bindings → Prop) (steps : List Step)
    (s : State) (steps' : List Step) (s' : State) : Prop
  | done {t t' : State} (h : run steps s = .ok () t) (h' : run steps' s' = .ok () t')
      (ht : t.Matches R t')
  | stop (k : Nat) {e e' : Stop} {t t' : State} (h : FailsAt steps s k e t)
      (h' : FailsAt steps' s' k e' t') (he : e.Matches c e') (ht : t.Matches R t')

theorem endAlike (hc : c.Couples R) {steps steps' : List Step}
    (h : List.Forall₂ (Step.Matches c) steps steps') {s s' : State} (hs : s.Matches R s') :
    EndAlike c R steps s steps' s' := by
  induction h generalizing s s' with
  | nil => exact .done rfl rfl hs
  | @cons step step' steps steps' hstep hsteps ih =>
    have hperform := hstep.alike_perform hc hs
    generalize hs₁ : step.perform s = r, hs₁' : step'.perform s' = r' at hperform
    cases hperform with
    | error he => exact .stop 0 ⟨step, rfl, rfl, hs₁⟩ ⟨step', rfl, rfl, hs₁'⟩ he hs
    | ok ht =>
      cases ih ht with
      | done h h' hu =>
        exact .done ((run_cons_of_ok hs₁ _).trans h) ((run_cons_of_ok hs₁' _).trans h') hu
      | stop k h h' he hu => exact .stop (k + 1) (h.cons hs₁) (h'.cons hs₁') he hu

end Flat

open Flat

theorem Expr.Matches.steps {e e' : Expr} (h : e.Matches c e') :
    List.Forall₂ (Step.Matches c) e.steps e'.steps := by
  induction h with
  | assign hname _ ih => exact List.rel_append ih (.cons (.write hname) .nil)
  | binary _ hop _ ihl ihr =>
    exact List.rel_append (List.rel_append ihl ihr) (.cons (.binary hop) .nil)
  | grouping _ ih => exact ih
  | literal value => exact .cons (.push value) .nil
  | unary hop _ ih => exact List.rel_append ih (.cons (.unary hop) .nil)
  | reference hname => exact .cons (.read hname) .nil

theorem Stmt.Matches.steps {s s' : Stmt} (h : s.Matches c s') :
    List.Forall₂ (Step.Matches c) s.steps s'.steps := by
  cases h with
  | expression h => exact List.rel_append h.steps (.cons .discard .nil)
  | print h => exact List.rel_append h.steps (.cons .print .nil)
  | declare hname type type' h => exact List.rel_append h.steps (.cons (.define hname) .nil)
  | declareOnly hname => exact .cons (.push .absent) (.cons (.define hname) .nil)

/-- Expressions that match come to the same value, or fail for one cause. -/
theorem Expr.Matches.alike_eval (hc : c.Couples R) {e e' : Expr} (h : e.Matches c e')
    {b b' : Bindings} (hb : R b b') :
    Alike (Fault.Matches c) Eq (outcomeOf (e.eval b)) (outcomeOf (e'.eval b')) ∧
      R (stateOf (e.eval b)) (stateOf (e'.eval b')) := by
  have hflat := computes_steps [] b "" e
  have hflat' := computes_steps [] b' "" e'
  generalize e.eval b = r, e'.eval b' = r' at hflat hflat' ⊢
  cases endAlike hc h.steps (.intro [] hb "") with
  | done hrun hrun' ht =>
    rw [hrun] at hflat
    rw [hrun'] at hflat'
    cases ht with
    | intro stack hb₁ printed =>
      cases hflat
      cases hflat'
      exact ⟨.ok rfl, hb₁⟩
  | stop k hfails hfails' he ht =>
    rw [hfails.run_eq] at hflat
    rw [hfails'.run_eq] at hflat'
    cases ht with
    | intro stack hb₁ printed =>
      cases hflat
      cases hflat'
      cases he with
      | fault hf => exact ⟨.error hf, hb₁⟩

/-- The statement fails at its step `k`. Every node of its trees has one step, save for brackets,
which cannot fail. -/
def Stmt.FailsAt (s : Stmt) (m : Machine) (k : Nat) (f : Fault) (m' : Machine) : Prop :=
  s.exec m = .error (.fault f) m' ∧ ∃ stack, Flat.FailsAt s.steps
    ⟨[], m.bindings, m.output.text⟩ k (.fault f) ⟨stack, m'.bindings, m'.output.text⟩

/-- Machines with one output that takes everything, and variables that go together. -/
inductive Machine.Matches (R : Bindings → Bindings → Prop) : Machine → Machine → Prop
  | intro {b b' : Bindings} (h : R b b') (printed : String) :
    Matches R ⟨b, ⟨printed, none⟩⟩ ⟨b', ⟨printed, none⟩⟩

/-- How two statements end that match: both are done, or both fail at one of their steps. -/
inductive Stmt.EndAlike (c : Correspondence) (R : Bindings → Bindings → Prop) (s : Stmt)
    (m : Machine) (s' : Stmt) (m' : Machine) : Prop
  | done {m₁ m₁' : Machine} (h : s.exec m = .ok () m₁) (h' : s'.exec m' = .ok () m₁')
      (hm : m₁.Matches R m₁')
  | stop (k : Nat) {f f' : Fault} {m₁ m₁' : Machine} (h : s.FailsAt m k f m₁)
      (h' : s'.FailsAt m' k f' m₁') (hf : f.Matches c f') (hm : m₁.Matches R m₁')

theorem Stmt.Matches.endAlike (hc : c.Couples R) {s s' : Stmt} (h : s.Matches c s')
    {m m' : Machine} (hm : m.Matches R m') : s.EndAlike c R m s' m' := by
  obtain ⟨hb, printed⟩ := hm
  rename_i b b'
  have hflat := executes_steps [] b printed s
  have hflat' := executes_steps [] b' printed s'
  cases Flat.endAlike hc h.steps (.intro [] hb printed) with
  | done hrun hrun' ht =>
    rw [hrun] at hflat
    rw [hrun'] at hflat'
    cases ht with
    | intro stack hb₁ printed₁ =>
      generalize hs : s.exec _ = r, hs' : s'.exec _ = r' at hflat hflat'
      cases hflat
      cases hflat'
      exact .done hs hs' (.intro hb₁ printed₁)
  | stop k hfails hfails' he ht =>
    rw [hfails.run_eq] at hflat
    rw [hfails'.run_eq] at hflat'
    cases ht with
    | intro stack hb₁ printed₁ =>
      generalize hs : s.exec _ = r, hs' : s'.exec _ = r' at hflat hflat'
      cases hflat
      cases hflat'
      cases he with
      | fault hf =>
        exact .stop k ⟨hs, stack, hfails⟩ ⟨hs', stack, hfails'⟩ hf (.intro hb₁ printed₁)

namespace Machine

/-- The program fails at step `k` of its statement `n`, with those before it done. -/
def FailsAt (program : List Stmt) (m : Machine) (n k : Nat) (f : Fault) (m' : Machine) : Prop :=
  ∃ s m₁, program[n]? = some s ∧ run (program.take n) m = .ok () m₁ ∧ s.FailsAt m₁ k f m'

theorem FailsAt.run_eq {program : List Stmt} {m m' : Machine} {n k : Nat} {f : Fault}
    (h : FailsAt program m n k f m') : run program m = .error (.fault f) m' := by
  obtain ⟨s, m₁, hs, hbefore, hfails, -⟩ := h
  obtain ⟨hn, rfl⟩ := List.getElem?_eq_some_iff.1 hs
  rw [← List.take_append_drop n program, List.drop_eq_getElem_cons hn, run_append, hbefore]
  exact (run_cons _ _ m₁).trans (by rw [hfails])

theorem FailsAt.cons {s : Stmt} {program : List Stmt} {m m₁ m' : Machine} {n k : Nat} {f : Fault}
    (h : FailsAt program m₁ n k f m') (hs : s.exec m = .ok () m₁) :
    FailsAt (s :: program) m (n + 1) k f m' := by
  obtain ⟨last, m₂, hlast, hbefore, hfails⟩ := h
  refine ⟨last, m₂, hlast, ?_, hfails⟩
  rw [List.take_succ_cons, run_cons, hs]
  exact hbefore

/-- How two programs end that match: both are done, or both fail at one step of one statement. -/
inductive EndAlike (c : Correspondence) (R : Bindings → Bindings → Prop) (program : List Stmt)
    (m : Machine) (program' : List Stmt) (m' : Machine) : Prop
  | done {m₁ m₁' : Machine} (h : run program m = .ok () m₁) (h' : run program' m' = .ok () m₁')
      (hm : m₁.Matches R m₁')
  | stop (n k : Nat) {f f' : Fault} {m₁ m₁' : Machine} (h : FailsAt program m n k f m₁)
      (h' : FailsAt program' m' n k f' m₁') (hf : f.Matches c f') (hm : m₁.Matches R m₁')

theorem endAlike (hc : c.Couples R) {program program' : List Stmt}
    (h : List.Forall₂ (Stmt.Matches c) program program') {m m' : Machine} (hm : m.Matches R m') :
    EndAlike c R program m program' m' := by
  induction h generalizing m m' with
  | nil => exact .done rfl rfl hm
  | @cons s s' program program' hs hprogram ih =>
    cases hs.endAlike hc hm with
    | stop k h h' hf hm₁ => exact .stop 0 k ⟨s, m, rfl, rfl, h⟩ ⟨s', m', rfl, rfl, h'⟩ hf hm₁
    | done h h' hm₁ =>
      cases ih hm₁ with
      | done hrun hrun' hm₂ =>
        exact .done (by rw [run_cons, h]; exact hrun) (by rw [run_cons, h']; exact hrun') hm₂
      | stop n k hfails hfails' hf hm₂ =>
        exact .stop (n + 1) k (hfails.cons h) (hfails'.cons h') hf hm₂

end Machine

end TreeWalk
