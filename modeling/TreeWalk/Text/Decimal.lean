/-! Decimal numbers: reading the digits of a numeral, and two ways to lay digits out as text. -/
namespace TreeWalk

/-- The number `digits * 10 ^ scale`. -/
structure Decimal where
  digits : Nat
  scale : Int
deriving DecidableEq

namespace Decimal

def digitValue (c : Char) : Nat := c.toNat - '0'.toNat

def natOfDigits (cs : List Char) : Nat := cs.foldl (fun n c => 10 * n + digitValue c) 0

@[simp] theorem natOfDigits_nil : natOfDigits [] = 0 := rfl

@[simp] theorem natOfDigits_append_singleton (cs : List Char) (c : Char) :
    natOfDigits (cs ++ [c]) = 10 * natOfDigits cs + digitValue c := by
  simp [natOfDigits]

/-- The decimal that a numeral spells, digits with or without a point and further digits. -/
def ofNumeral (text : List Char) : Decimal :=
  let whole := text.takeWhile Char.isDigit
  let places := (text.dropWhile Char.isDigit).drop 1
  ⟨natOfDigits (whole ++ places), -places.length⟩

/-- The double nearest to a decimal, infinity where it lies beyond them all. -/
def toFloat (d : Decimal) : Float :=
  Float.ofScientific d.digits (d.scale < 0) d.scale.natAbs

def zeros (n : Nat) : List Char := List.replicate n '0'

/-- All digits in place: zeros up to the point on either side, a point only before a fraction. -/
def positional (d : Decimal) : List Char :=
  let ds := Nat.toDigits 10 d.digits
  match d.scale with
  | .ofNat n => ds ++ zeros n
  | .negSucc n =>
    let places := n + 1
    let padded := zeros (places + 1 - ds.length) ++ ds
    padded.take (padded.length - places) ++ '.' :: padded.drop (padded.length - places)

/-- The power of ten of the leading digit. -/
def leadingPower (d : Decimal) : Int := d.scale + (Nat.toDigits 10 d.digits).length - 1

/-- One digit, the others after a point, then the power of ten of the first. -/
def scientific (d : Decimal) : List Char :=
  let mantissa := match Nat.toDigits 10 d.digits with
    | first :: second :: more => first :: '.' :: second :: more
    | ds => ds
  mantissa ++ 'e' :: (toString d.leadingPower).toList

end Decimal

end TreeWalk
