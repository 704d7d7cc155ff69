import TreeWalk.Text.Numeric

/-! Runtime values, their text, their truth and the language's equality. -/
namespace TreeWalk

inductive Value
  | absent
  | boolean (b : Bool)
  | number (x : Float)
  | text (s : String)
deriving DecidableEq

namespace Value

/-- Numbers show all their digits in place, and texts show without quotes. -/
def display : Value → String
  | absent => "none"
  | boolean true => "true"
  | boolean false => "false"
  | number x => positionalText x
  | text s => s

/-- All values are true but `none` and `false`. -/
def isTruthy : Value → Bool
  | absent | boolean false => false
  | _ => true

/-- Numbers compare as IEEE 754 says: the two zeros are equal, and NaN equals nothing. -/
def ieeeEqual : Value → Value → Bool
  | absent, absent => true
  | boolean a, boolean b => a == b
  | number x, number y => x == y
  | text s, text t => s == t
  | _, _ => false

/-- The language's equality, in which NaN equals itself. -/
def isEqual : Value → Value → Bool
  | number x, number y => (x.isNaN && y.isNaN) || x == y
  | a, b => ieeeEqual a b

end Value

end TreeWalk
