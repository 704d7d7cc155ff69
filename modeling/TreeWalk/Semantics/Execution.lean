import TreeWalk.Semantics.Evaluation
import TreeWalk.Semantics.Zoom
import TreeWalk.Text.Sink

/-! Executing statements one after another, with one set of variables and one output. -/
namespace TreeWalk

structure Machine where
  bindings : Bindings := {}
  output : Sink := {}

/-- Why a program stops before its end. -/
inductive Halt
  | fault (f : Fault)
  | output (e : StreamError)
deriving DecidableEq

/-- Steps of a program. What was done before a halt stays done. -/
abbrev Execution := EStateM Halt Machine

namespace Machine

def evaluate (e : Expr) : Execution Value :=
  zoom bindings (fun m b => { m with bindings := b }) .fault e.eval

def define (name : Token) (v : Value) : Execution Unit := fun m =>
  .ok () { m with bindings := m.bindings.define name.lexeme v }

/-- A printed value ends its line. -/
def print (v : Value) : Execution Unit :=
  zoom output (fun m out => { m with output := out }) .output (Sink.write (v.display ++ "\n"))

end Machine

namespace Stmt

/-- A variable without an initial value is `none`. -/
def exec : Stmt → Execution Unit
  | expression e => do
    let _ ← Machine.evaluate e
  | print e => do
    let v ← Machine.evaluate e
    Machine.print v
  | declare name _ (some e) => do
    let v ← Machine.evaluate e
    Machine.define name v
  | declare name _ none => Machine.define name .absent

theorem exec_expression (e : Expr) (m : Machine) :
    (expression e).exec m =
      match e.eval m.bindings with
      | .ok _ b => .ok () { m with bindings := b }
      | .error f b => .error (.fault f) { m with bindings := b } := by
  simp only [exec, Machine.evaluate, bind, EStateM.bind, zoom]
  cases e.eval m.bindings <;> rfl

theorem exec_print (e : Expr) (m : Machine) :
    (print e).exec m =
      match e.eval m.bindings with
      | .ok v b => Machine.print v { m with bindings := b }
      | .error f b => .error (.fault f) { m with bindings := b } := by
  simp only [exec, Machine.evaluate, bind, EStateM.bind, zoom]
  cases e.eval m.bindings <;> rfl

theorem exec_declare (name type : Token) (e : Expr) (m : Machine) :
    (declare name type (some e)).exec m =
      match e.eval m.bindings with
      | .ok v b => .ok () { m with bindings := b.define name.lexeme v }
      | .error f b => .error (.fault f) { m with bindings := b } := by
  simp only [exec, Machine.evaluate, bind, EStateM.bind, zoom]
  cases e.eval m.bindings <;> rfl

@[simp] theorem exec_declare_none (name type : Token) (m : Machine) :
    (declare name type none).exec m =
      .ok () { m with bindings := m.bindings.define name.lexeme .absent } := rfl

end Stmt

namespace Machine

/-- A program stops at the first statement that fails. -/
def run : List Stmt → Execution Unit
  | [] => pure ()
  | s :: program => do
    s.exec
    run program

@[simp] theorem run_nil (m : Machine) : run [] m = .ok () m := rfl

theorem run_cons (s : Stmt) (program : List Stmt) (m : Machine) :
    run (s :: program) m =
      match s.exec m with
      | .ok _ m => run program m
      | .error h m => .error h m := by
  simp only [run, bind, EStateM.bind]
  cases s.exec m <;> rfl

theorem run_append (ps qs : List Stmt) (m : Machine) :
    run (ps ++ qs) m =
      match run ps m with
      | .ok _ m => run qs m
      | .error h m => .error h m := by
  induction ps generalizing m with
  | nil => rfl
  | cons s ps ih =>
    rw [List.cons_append, run_cons, run_cons]
    cases s.exec m with
    | ok _ m => exact ih m
    | error h m => rfl

end Machine

end TreeWalk
