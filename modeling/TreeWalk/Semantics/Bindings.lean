import Std.Data.ExtTreeMap
import TreeWalk.Semantics.Fault
import TreeWalk.Value

/-! The variables of a program and their values. A name must be defined before it can be read or
assigned to. -/
namespace TreeWalk

structure Bindings where
  values : Std.ExtTreeMap String Value := ∅

namespace Bindings

def get? (b : Bindings) (name : String) : Option Value := b.values[name]?

/-- A new definition of a name replaces the old one. -/
def define (b : Bindings) (name : String) (v : Value) : Bindings := ⟨b.values.insert name v⟩

@[ext] theorem ext {a b : Bindings} (h : ∀ name, a.get? name = b.get? name) : a = b := by
  cases a
  cases b
  exact congrArg mk (Std.ExtTreeMap.ext_getElem? h)

@[simp] theorem get?_empty (name : String) : ({} : Bindings).get? name = none := by
  simp [get?]

theorem get?_define (b : Bindings) (x y : String) (v : Value) :
    (b.define x v).get? y = if x = y then some v else b.get? y := by
  simp [get?, define, Std.ExtTreeMap.getElem?_insert]

@[simp] theorem get?_define_self (b : Bindings) (x : String) (v : Value) :
    (b.define x v).get? x = some v := by simp [get?_define]

theorem get?_define_of_ne {x y : String} (h : x ≠ y) (b : Bindings) (v : Value) :
    (b.define x v).get? y = b.get? y := by simp [get?_define, h]

/-- The value of the variable that a token names. -/
def read (b : Bindings) (name : Token) : Except RuntimeError Value :=
  match b.get? name.lexeme with
  | some v => .ok v
  | none => .error ⟨name, .undefinedVariable⟩

/-- Gives a variable that is already defined another value. -/
def assign (b : Bindings) (name : Token) (v : Value) : Except RuntimeError Bindings :=
  match b.get? name.lexeme with
  | some _ => .ok (b.define name.lexeme v)
  | none => .error ⟨name, .undefinedVariable⟩

theorem read_of_get? {b : Bindings} {name : Token} {v : Value} (h : b.get? name.lexeme = some v) :
    b.read name = .ok v := by simp [read, h]

theorem read_of_get?_none {b : Bindings} {name : Token} (h : b.get? name.lexeme = none) :
    b.read name = .error ⟨name, .undefinedVariable⟩ := by simp [read, h]

theorem assign_of_get? {b : Bindings} {name : Token} {u : Value} (h : b.get? name.lexeme = some u)
    (v : Value) : b.assign name v = .ok (b.define name.lexeme v) := by simp [assign, h]

theorem assign_of_get?_none {b : Bindings} {name : Token} (h : b.get? name.lexeme = none)
    (v : Value) : b.assign name v = .error ⟨name, .undefinedVariable⟩ := by simp [assign, h]

end Bindings

end TreeWalk
