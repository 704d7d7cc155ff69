import TreeWalk.Semantics.Execution

/-! Programs as flat lists of steps on a stack of values. Every tree has its steps in post-order,
the left operand first. Walking the trees does what the steps do one after another, up to the first
step that fails. -/
namespace TreeWalk

namespace Flat

inductive Step
  | push (v : Value)
  | read (name : Token)
  | write (name : Token)
  | unary (op : Token)
  | binary (op : Token)
  | print
  | define (name : Token)
  | discard
deriving DecidableEq

/-- Values that wait for their operator, the variables, and what has been printed. -/
structure State where
  stack : List Value
  bindings : Bindings
  printed : String

inductive Stop
  | fault (f : Fault)
  | missingValue

/-- The result of an operator goes on the stack. -/
def pushResult (r : Except Fault Value) (s : State) : Except Stop State :=
  match r with
  | .ok v => .ok { s with stack := v :: s.stack }
  | .error f => .error (.fault f)

/-- A step takes what it needs from the stack. A written value stays there. A step that fails
changes nothing. -/
def Step.perform : Step → State → Except Stop State
  | push v, s => .ok { s with stack := v :: s.stack }
  | read name, s =>
    match s.bindings.read name with
    | .ok v => .ok { s with stack := v :: s.stack }
    | .error e => .error (.fault (.runtime e))
  | write name, ⟨v :: stack, bindings, printed⟩ =>
    match bindings.assign name v with
    | .ok bindings => .ok ⟨v :: stack, bindings, printed⟩
    | .error e => .error (.fault (.runtime e))
  | unary op, ⟨a :: stack, bindings, printed⟩ =>
    pushResult (Operator.unary op a) ⟨stack, bindings, printed⟩
  | binary op, ⟨b :: a :: stack, bindings, printed⟩ =>
    pushResult (Operator.binary op a b) ⟨stack, bindings, printed⟩
  | print, ⟨v :: stack, bindings, printed⟩ =>
    .ok ⟨stack, bindings, printed ++ (v.display ++ "\n")⟩
  | define name, ⟨v :: stack, bindings, printed⟩ =>
    .ok ⟨stack, bindings.define name.lexeme v, printed⟩
  | discard, ⟨_ :: stack, bindings, printed⟩ => .ok ⟨stack, bindings, printed⟩
  | _, _ => .error .missingValue

/-- Performs steps in order, up to the first that fails. -/
def run : List Step → State → EStateM.Result Stop State Unit
  | [], s => .ok () s
  | step :: steps, s =>
    match step.perform s with
    | .ok s' => run steps s'
    | .error e => .error e s

@[simp] theorem run_nil (s : State) : run [] s = .ok () s := rfl

theorem run_cons_of_ok {step : Step} {s s' : State} (h : step.perform s = .ok s')
    (steps : List Step) : run (step :: steps) s = run steps s' := by
  rw [run, h]

theorem run_cons_of_error {step : Step} {s : State} {e : Stop} (h : step.perform s = .error e)
    (steps : List Step) : run (step :: steps) s = .error e s := by
  rw [run, h]

theorem run_append (steps more : List Step) (s : State) :
    run (steps ++ more) s =
      match run steps s with
      | .ok _ s => run more s
      | .error e s => .error e s := by
  induction steps generalizing s with
  | nil => rfl
  | cons step steps ih =>
    cases h : step.perform s with
    | ok s' => rw [List.cons_append, run_cons_of_ok h, run_cons_of_ok h, ih]
    | error e => rw [List.cons_append, run_cons_of_error h, run_cons_of_error h]

/-- Steps that stop do so at one of them: those before it have been performed, and it fails. -/
theorem exists_of_run_error {steps : List Step} {s s' : State} {e : Stop}
    (h : run steps s = .error e s') :
    ∃ before step after, steps = before ++ step :: after ∧ run before s = .ok () s' ∧
      step.perform s' = .error e := by
  induction steps generalizing s with
  | nil => cases h
  | cons step steps ih =>
    cases hstep : step.perform s with
    | error e' =>
      rw [run_cons_of_error hstep] at h
      cases h
      exact ⟨[], step, steps, rfl, rfl, hstep⟩
    | ok s₁ =>
      rw [run_cons_of_ok hstep] at h
      obtain ⟨before, last, after, rfl, hbefore, hlast⟩ := ih h
      exact ⟨step :: before, last, after, rfl, (run_cons_of_ok hstep before).trans hbefore, hlast⟩

end Flat

open Flat

/-- The steps that leave the value of an expression on the stack. Brackets are none. -/
def Expr.steps : Expr → List Step
  | assign name value => value.steps ++ [.write name]
  | binary left op right => left.steps ++ right.steps ++ [.binary op]
  | grouping inner => inner.steps
  | literal value => [.push value]
  | unary op right => right.steps ++ [.unary op]
  | reference name => [.read name]

def Stmt.steps : Stmt → List Step
  | expression e => e.steps ++ [.discard]
  | print e => e.steps ++ [.print]
  | declare name _ (some e) => e.steps ++ [.define name]
  | declare name _ none => [.push .absent, .define name]

namespace Flat

/-- The steps of an expression put its value on a stack, or fail as it does. -/
inductive Computes (stack : List Value) (printed : String) :
    EStateM.Result Stop State Unit → EStateM.Result Fault Bindings Value → Prop
  | value (v : Value) (bindings : Bindings) :
    Computes stack printed (.ok () ⟨v :: stack, bindings, printed⟩) (.ok v bindings)
  | fault (stack' : List Value) (f : Fault) (bindings : Bindings) :
    Computes stack printed (.error (.fault f) ⟨stack', bindings, printed⟩) (.error f bindings)

/-- The steps of statements leave the stack as it was, or fail as the statements do. -/
inductive Executes (stack : List Value) :
    EStateM.Result Stop State Unit → EStateM.Result Halt Machine Unit → Prop
  | done (bindings : Bindings) (printed : String) :
    Executes stack (.ok () ⟨stack, bindings, printed⟩) (.ok () ⟨bindings, ⟨printed, none⟩⟩)
  | fault (stack' : List Value) (f : Fault) (bindings : Bindings) (printed : String) :
    Executes stack (.error (.fault f) ⟨stack', bindings, printed⟩)
      (.error (.fault f) ⟨bindings, ⟨printed, none⟩⟩)

variable (stack : List Value) (bindings : Bindings) (printed : String)

theorem computes_of_pushResult {step : Step} {waiting : List Value} {r : Except Fault Value}
    (h : step.perform ⟨waiting, bindings, printed⟩ = pushResult r ⟨stack, bindings, printed⟩) :
    Computes stack printed (run [step] ⟨waiting, bindings, printed⟩)
      (Evaluation.ofResult r bindings) := by
  cases r with
  | ok v =>
    rw [run_cons_of_ok h]
    exact .value v bindings
  | error f =>
    rw [run_cons_of_error h]
    exact .fault waiting f bindings

theorem computes_write (name : Token) (v : Value) :
    Computes stack printed (run [.write name] ⟨v :: stack, bindings, printed⟩)
      (Evaluation.assign name v bindings) := by
  simp only [run, Step.perform, Evaluation.assign]
  cases bindings.assign name v with
  | ok bindings' => exact .value v bindings'
  | error e => exact .fault (v :: stack) (.runtime e) bindings

theorem computes_read (name : Token) :
    Computes stack printed (run [.read name] ⟨stack, bindings, printed⟩)
      (Evaluation.read name bindings) := by
  simp only [run, Step.perform, Evaluation.read]
  cases bindings.read name with
  | ok v => exact .value v bindings
  | error e => exact .fault stack (.runtime e) bindings

theorem computes_steps (e : Expr) :
    Computes stack printed (run e.steps ⟨stack, bindings, printed⟩) (e.eval bindings) := by
  induction e generalizing stack bindings with
  | assign name value ih =>
    have hvalue := ih stack bindings
    rw [Expr.steps, run_append, Expr.eval_assign]
    generalize run value.steps _ = flat, value.eval bindings = walk at hvalue ⊢
    cases hvalue with
    | value v bindings' => exact computes_write stack bindings' printed name v
    | fault stack' f bindings' => exact .fault stack' f bindings'
  | binary left op right ihl ihr =>
    have hleft := ihl stack bindings
    rw [Expr.steps, List.append_assoc, run_append, Expr.eval_binary]
    generalize run left.steps _ = flat, left.eval bindings = walk at hleft ⊢
    cases hleft with
    | fault stack' f bindings' => exact .fault stack' f bindings'
    | value a bindings₁ =>
      -- the value of the left operand waits below those of the right one
      have hright := ihr (a :: stack) bindings₁
      simp only [run_append]
      generalize run right.steps _ = flat, right.eval bindings₁ = walk at hright ⊢
      cases hright with
      | value b bindings₂ => exact computes_of_pushResult stack bindings₂ printed rfl
      | fault stack' f bindings' => exact .fault stack' f bindings'
  | grouping inner ih => exact ih stack bindings
  | literal value => exact .value value bindings
  | unary op right ih =>
    have hright := ih stack bindings
    rw [Expr.steps, run_append, Expr.eval_unary]
    generalize run right.steps _ = flat, right.eval bindings = walk at hright ⊢
    cases hright with
    | value a bindings' => exact computes_of_pushResult stack bindings' printed rfl
    | fault stack' f bindings' => exact .fault stack' f bindings'
  | reference name => exact computes_read stack bindings printed name

theorem executes_steps (s : Stmt) :
    Executes stack (run s.steps ⟨stack, bindings, printed⟩)
      (s.exec ⟨bindings, ⟨printed, none⟩⟩) := by
  cases s with
  | expression e =>
    have he := computes_steps stack bindings printed e
    rw [Stmt.steps, run_append, Stmt.exec_expression]
    generalize run e.steps _ = flat, e.eval bindings = walk at he ⊢
    cases he with
    | value v bindings' => exact .done bindings' printed
    | fault stack' f bindings' => exact .fault stack' f bindings' printed
  | print e =>
    have he := computes_steps stack bindings printed e
    rw [Stmt.steps, run_append, Stmt.exec_print]
    generalize run e.steps _ = flat, e.eval bindings = walk at he ⊢
    cases he with
    | value v bindings' => exact .done bindings' (printed ++ (v.display ++ "\n"))
    | fault stack' f bindings' => exact .fault stack' f bindings' printed
  | declare name type initial =>
    cases initial with
    | none => exact .done (bindings.define name.lexeme .absent) printed
    | some e =>
      have he := computes_steps stack bindings printed e
      rw [Stmt.steps, run_append, Stmt.exec_declare]
      generalize run e.steps _ = flat, e.eval bindings = walk at he ⊢
      cases he with
      | value v bindings' => exact .done (bindings'.define name.lexeme v) printed
      | fault stack' f bindings' => exact .fault stack' f bindings' printed

theorem executes_flatMap_steps (program : List Stmt) :
    Executes [] (run (program.flatMap Stmt.steps) ⟨[], bindings, printed⟩)
      (Machine.run program ⟨bindings, ⟨printed, none⟩⟩) := by
  induction program generalizing bindings printed with
  | nil => exact .done bindings printed
  | cons s program ih =>
    have hs := executes_steps [] bindings printed s
    rw [List.flatMap_cons, run_append, Machine.run_cons]
    generalize run s.steps _ = flat, s.exec _ = walk at hs ⊢
    cases hs with
    | done bindings' printed' => exact ih bindings' printed'
    | fault stack f bindings' printed' => exact .fault stack f bindings' printed'

/-- With an output that takes everything, a program does what its steps do in order: all of them, or
those before the first that fails. It then stops with the fault of that step, and keeps what the
steps before it have defined, written and printed, and nothing else. No step misses a value. -/
theorem run_flatMap_steps (program : List Stmt) :
    (∃ bindings' printed',
      run (program.flatMap Stmt.steps) ⟨[], bindings, printed⟩ =
        .ok () ⟨[], bindings', printed'⟩ ∧
      Machine.run program ⟨bindings, ⟨printed, none⟩⟩ =
        .ok () ⟨bindings', ⟨printed', none⟩⟩) ∨
    ∃ before step after stack bindings' printed' f,
      program.flatMap Stmt.steps = before ++ step :: after ∧
      run before ⟨[], bindings, printed⟩ = .ok () ⟨stack, bindings', printed'⟩ ∧
      step.perform ⟨stack, bindings', printed'⟩ = .error (.fault f) ∧
      run (program.flatMap Stmt.steps) ⟨[], bindings, printed⟩ =
        .error (.fault f) ⟨stack, bindings', printed'⟩ ∧
      Machine.run program ⟨bindings, ⟨printed, none⟩⟩ =
        .error (.fault f) ⟨bindings', ⟨printed', none⟩⟩ := by
  have hexecutes := executes_flatMap_steps bindings printed program
  generalize hflat : run (program.flatMap Stmt.steps) _ = flat at hexecutes
  generalize Machine.run program _ = walk at hexecutes ⊢
  cases hexecutes with
  | done bindings' printed' => exact .inl ⟨bindings', printed', rfl, rfl⟩
  | fault stack f bindings' printed' =>
    obtain ⟨before, step, after, hsteps, hbefore, hstep⟩ := exists_of_run_error hflat
    exact .inr ⟨before, step, after, stack, bindings', printed', f, hsteps, hbefore, hstep, rfl,
      rfl⟩

end Flat

end TreeWalk
