import TreeWalk.Text.Shortest

/-! The texts of a double: all of its shortest digits in place, or the compact form that names the
power of ten of very large and very small numbers. -/
namespace TreeWalk

/-- The texts that two notations share: a sign, then the name of what is no number, else the layout
of the shortest digits. -/
def floatText (layout : Decimal → List Char) (x : Float) : String :=
  if x.isNaN then "NaN" else
  let bits := x.toBits.toNat
  let sign := if bits >>> 63 = 1 then "-" else ""
  let magnitude := bits % (1 <<< 63)
  if magnitude = 0x7ff0000000000000 then sign ++ "inf"
  else if magnitude = 0 then sign ++ String.ofList (layout ⟨0, 0⟩)
  else sign ++ String.ofList (layout (Magnitude.ofBits magnitude).shortest)

def positionalText : Float → String := floatText Decimal.positional

/-- A whole number keeps a point and a zero; powers of ten under -4 and over 15 are named. -/
def compactText : Float → String := floatText fun d =>
  if d.leadingPower < -4 ∨ 16 ≤ d.leadingPower then d.scientific
  else if 0 ≤ d.scale then d.positional ++ ['.', '0']
  else d.positional

example : positionalText 0.1 = "0.1" := by decide +kernel
example : positionalText 1e21 = "1000000000000000000000" := by decide +kernel
example : positionalText 2.98023223876953125e-8 = "0.000000029802322387695313" := by decide +kernel
example : positionalText (-0.0) = "-0" := by decide +kernel
example : compactText 1e16 = "1e16" := by decide +kernel
example : compactText 0.0001 = "0.0001" := by decide +kernel

end TreeWalk
