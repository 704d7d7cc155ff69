import TreeWalk.Text.Decimal

/-! The shortest decimal of a double: of all decimals that lie nearer to it than to any other
double, one on the coarsest grid of powers of ten, and there the nearest. -/
namespace TreeWalk

/-- The double `mantissa * 2 ^ exponent`. Below the least mantissa of its length the doubles lie
twice as close, so there the gap to the next smaller one is `narrow`. -/
structure Magnitude where
  mantissa : Nat
  exponent : Int
  narrow : Bool
deriving DecidableEq

namespace Magnitude

/-- The magnitude of a finite double, from its bits without the sign. -/
def ofBits (bits : Nat) : Magnitude :=
  let implicit : Nat := 1 <<< 52
  let fraction : Nat := bits % implicit
  let power : Nat := bits / implicit
  if power = 0 then ⟨fraction, -1074, false⟩
  else ⟨implicit + fraction, power - 1075, fraction = 0 ∧ 1 < power⟩

/-- A quarter of the last binary place, in a unit that also measures the grid `10 ^ scale`. -/
def quarter (v : Magnitude) (scale : Int) : Nat :=
  Nat.pow 10 (-scale).toNat <<< (v.exponent - 2).toNat

/-- The step of the grid `10 ^ scale`, in the same unit. -/
def step (v : Magnitude) (scale : Int) : Nat :=
  Nat.pow 10 scale.toNat <<< (2 - v.exponent).toNat

/-- The double itself, in the same unit. -/
def inUnits (v : Magnitude) (scale : Int) : Nat := 4 * v.mantissa * v.quarter scale

/-- Whether `n * 10 ^ scale` is nearer to this double than to any other, with the halfway points
going to the double of even mantissa. -/
def Covers (v : Magnitude) (scale : Int) (n : Nat) : Prop :=
  let low := (4 * v.mantissa - if v.narrow then 1 else 2) * v.quarter scale
  let high := (4 * v.mantissa + 2) * v.quarter scale
  let point := n * v.step scale
  if v.mantissa % 2 = 0 then low ≤ point ∧ point ≤ high else low < point ∧ point < high

instance (v : Magnitude) (scale : Int) (n : Nat) : Decidable (v.Covers scale n) := by
  unfold Covers
  infer_instance

/-- The last point of a grid that does not exceed the double. -/
def floorOn (v : Magnitude) (scale : Int) : Nat := v.inUnits scale / v.step scale

/-- The point of a grid that stands for the double: of the two around it the one it covers, of both
the nearer, and halfway between them the upper. -/
def onGrid? (v : Magnitude) (scale : Int) : Option Nat :=
  let n := v.floorOn scale
  let below := v.inUnits scale - n * v.step scale
  let above := (n + 1) * v.step scale - v.inUnits scale
  if v.Covers scale n ∧ (v.Covers scale (n + 1) → below < above) then some n
  else if v.Covers scale (n + 1) then some (n + 1)
  else none

theorem covers_of_onGrid? {v : Magnitude} {scale : Int} {n : Nat} (h : v.onGrid? scale = some n) :
    v.Covers scale n := by
  simp only [onGrid?] at h
  split at h
  · rename_i hn
    cases h
    exact hn.1
  · split at h
    · cases h
      assumption
    · cases h

/-- The first of `count` ever finer grids that has a point for the double. -/
def search (v : Magnitude) : (count : Nat) → (scale : Int) → Decimal
  | 0, scale => ⟨v.floorOn scale, scale⟩
  | count + 1, scale =>
    match v.onGrid? scale with
    | some n => ⟨n, scale⟩
    | none => v.search count (scale - 1)

/-- The digits before the point. -/
def wholeLength (v : Magnitude) : Nat :=
  (Nat.toDigits 10 ((v.mantissa <<< v.exponent.toNat) >>> (-v.exponent).toNat)).length

/-- The search begins with the first power of ten beyond the double, and ends with the one that is
less than the distance of any two. -/
def shortest (v : Magnitude) : Decimal := v.search (v.wholeLength + 325) v.wholeLength

end Magnitude

end TreeWalk
