import Mathlib
import TreeWalk.Semantics.Evaluation

/-! The language's equality. It is an equivalence, and on numbers that of IEEE 754, except that a NaN
is equal to every NaN. `!=` is the negation of `==`, with the same effects. -/
-- The lemmas of Batteries on the bits of doubles come with the whole of Mathlib only.
namespace TreeWalk

/-! The bits of doubles. -/
namespace Pattern

open Float.Model Float.Model.UnpackedFloat

/-- The exponent and the mantissa, without the sign. -/
def unsigned (w : UInt64) : Nat := w.toNat % 2 ^ 63

/-- The exponent is all ones, and the mantissa is not that of infinity. -/
def IsNaN (w : UInt64) : Prop := 0x7ff0000000000000 < unsigned w

def IsZero (w : UInt64) : Prop := unsigned w = 0

/-- A NaN is equal to nothing, and the sign of a zero does not count. -/
def IeeeEqual (v w : UInt64) : Prop := ¬IsNaN v ∧ ¬IsNaN w ∧ (v = w ∨ IsZero v ∧ IsZero w)

instance (w : UInt64) : Decidable (IsNaN w) := inferInstanceAs (Decidable (_ < _))

instance (w : UInt64) : Decidable (IsZero w) := inferInstanceAs (Decidable (_ = _))

instance (v w : UInt64) : Decidable (IeeeEqual v w) := inferInstanceAs (Decidable (_ ∧ _))

theorem isNaNBits_iff (w : UInt64) : @isNaNBits Format.binary64 w.toBitVec ↔ IsNaN w := by
  have hlt : w.toNat < 2 ^ 64 := w.toNat_lt
  have hones : (-1#11).toNat = 2047 := rfl
  have hexponent : (@unpackExponent Format.binary64 w.toBitVec).toNat =
      w.toNat / 2 ^ 52 % 2 ^ 11 := by
    rw [unpackExponent_def, BitVec.extractLsb'_toNat, Nat.shiftRight_eq_div_pow]
    rfl
  have hmantissa : (@unpackMantissa Format.binary64 w.toBitVec).toNat = w.toNat % 2 ^ 52 := by
    rw [unpackMantissa_def, BitVec.extractLsb'_toNat, Nat.shiftRight_zero]
    rfl
  rw [isNaNBits, decide_eq_true_iff, Ne, ← BitVec.toNat_inj, ← BitVec.toNat_inj, hexponent,
    hmantissa, hones, BitVec.toNat_zero, IsNaN, unsigned]
  omega

/-- There is one NaN, whatever bits it is made from. -/
theorem toBits_ofBits (w : UInt64) :
    (Float.ofBits w).toBits = if IsNaN w then Float.nan.toBits else w := by
  have h := @pack_unpack Format.binary64 w.toBitVec
  simp only [isNaNBits_iff] at h
  rw [← UInt64.toBitVec_inj, apply_ite UInt64.toBitVec]
  exact h (by decide)

theorem ofBits_eq_nan_iff (w : UInt64) : Float.ofBits w = Float.nan ↔ IsNaN w := by
  rw [← Float.toBits_inj, toBits_ofBits]
  split
  · simpa
  · rename_i h
    refine iff_of_false ?_ h
    rintro rfl
    exact h (by decide +kernel)

theorem isZero_iff (w : UInt64) : IsZero w ↔ w = 0 ∨ w = 0x8000000000000000 := by
  have hlt : w.toNat < 2 ^ 64 := w.toNat_lt
  have hplus : (0 : UInt64).toNat = 0 := rfl
  have hminus : (0x8000000000000000 : UInt64).toNat = 2 ^ 63 := rfl
  rw [← UInt64.toNat_inj, ← UInt64.toNat_inj, IsZero, unsigned, hplus, hminus]
  omega

theorem beq_ofBits_iff (v w : UInt64) : Float.ofBits v == Float.ofBits w ↔ IeeeEqual v w := by
  have hplus : (0 : Float).toBits = 0 := by decide +kernel
  have hminus : (-0 : Float).toBits = 0x8000000000000000 := by decide +kernel
  rw [Float.beq_iff_ne_nan_and_eq, Ne, Ne, ofBits_eq_nan_iff, ofBits_eq_nan_iff, IeeeEqual]
  refine and_congr_right fun hv => and_congr_right fun hw => ?_
  simp only [← Float.toBits_inj, toBits_ofBits, if_neg hv, if_neg hw, hplus, hminus, isZero_iff]
  grind

example : IeeeEqual 0 0x8000000000000000 := by decide

end Pattern

namespace Value

/-- The number with these bits. -/
def double (w : UInt64) : Value := number (.ofBits w)

theorem double_toBits (x : Float) : double x.toBits = number x := by
  rw [double, Float.ofBits_toBits]

/-- Numbers are compared by their bits, and other values for being the same. -/
theorem ieeeEqual_iff (a b : Value) :
    a.ieeeEqual b ↔ (∃ v w, Pattern.IeeeEqual v w ∧ a = double v ∧ b = double w) ∨
      a = b ∧ ∀ w, a ≠ double w := by
  cases a <;> cases b
  case number.number x y =>
    constructor
    · intro h
      refine .inl ⟨x.toBits, y.toBits, ?_, (double_toBits x).symm, (double_toBits y).symm⟩
      rw [← Pattern.beq_ofBits_iff, Float.ofBits_toBits, Float.ofBits_toBits]
      exact h
    · rintro (⟨v, w, h, hx, hy⟩ | ⟨-, h⟩)
      · rw [hx, hy]
        exact (Pattern.beq_ofBits_iff v w).2 h
      · exact absurd (double_toBits x).symm (h x.toBits)
  all_goals simp [ieeeEqual, double]

/-- The two equalities differ on a pair of NaNs only. -/
theorem isEqual_ne_ieeeEqual_iff (a b : Value) :
    a.isEqual b ≠ a.ieeeEqual b ↔ a = number .nan ∧ b = number .nan := by
  cases a <;> cases b
  case number.number x y =>
    simp only [isEqual, ieeeEqual, Float.isNaN_eq_decide_eq_nan, number.injEq]
    by_cases hx : x = .nan <;> by_cases hy : y = .nan <;> simp [hx, hy]
  all_goals simp [isEqual]

theorem eq_nan_iff (a : Value) : a = number .nan ↔ ∃ w, Pattern.IsNaN w ∧ a = double w := by
  constructor
  · rintro rfl
    exact ⟨Float.nan.toBits, by decide +kernel, (double_toBits .nan).symm⟩
  · rintro ⟨w, hw, rfl⟩
    rw [double, (Pattern.ofBits_eq_nan_iff w).2 hw]

/-- One value for all that are equal to it: of the two zeros, the positive one. -/
def representative : Value → Value
  | number x => number (if x == 0 then 0 else x)
  | a => a

/-- As having the same representative, equality is an equivalence without a look at NaN and zeros. -/
theorem isEqual_iff (a b : Value) : a.isEqual b ↔ a.representative = b.representative := by
  cases a <;> cases b
  case number.number x y =>
    have hplus : (0 : Float) ≠ .nan := by decide +kernel
    have hminus : (-0 : Float) ≠ .nan := by decide +kernel
    simp only [isEqual, representative, Float.isNaN_eq_decide_eq_nan, number.injEq]
    grind [Float.beq_iff_ne_nan_and_eq]
  all_goals simp [isEqual, ieeeEqual, representative]

theorem equivalence_isEqual : Equivalence fun a b : Value => a.isEqual b = true := by
  simp only [isEqual_iff]
  exact eq_equivalence.comap representative

@[simp] theorem isTruthy_boolean (b : Bool) : (boolean b).isTruthy = b := by
  cases b <;> rfl

end Value

namespace Expr

variable {equals differs not : Token} {l r : Expr} {env env₁ env₂ : Bindings} {a b : Value}

theorem eval_equals (hequals : equals.kind = .symbol .equalEqual) (hl : l.eval env = .ok a env₁)
    (hr : r.eval env₁ = .ok b env₂) :
    (binary l equals r).eval env = .ok (.boolean (a.isEqual b)) env₂ := by
  simp only [eval_binary, hl, hr, Operator.binary, hequals, Evaluation.ofResult]

/-- Wherever its operands come to, `l != r` is `!(l == r)`. -/
theorem eval_differs (hequals : equals.kind = .symbol .equalEqual)
    (hdiffers : differs.kind = .symbol .bangEqual) (hnot : not.kind = .symbol .bang) :
    (binary l differs r).eval = (unary not (grouping (binary l equals r))).eval := by
  funext env
  rw [eval_unary, eval_grouping, eval_binary, eval_binary]
  cases l.eval env with
  | error f env₁ => rfl
  | ok a env₁ =>
    dsimp only
    cases r.eval env₁ with
    | error f env₂ => rfl
    | ok b env₂ =>
      simp only [Operator.binary, Operator.unary, hequals, hdiffers, hnot, Evaluation.ofResult,
        Value.isTruthy_boolean]

end Expr

namespace Value

open Pattern

/-- Equality is an equivalence. It is that of IEEE 754 except that two NaNs are equal, whatever
their bits. Where both operands have values, `==` and `!=` have opposite ones and the same
effects. -/
theorem equality_lawful :
    (Equivalence fun a b : Value => a.isEqual b = true) ∧
    (∀ a b : Value, a.isEqual b ≠ a.ieeeEqual b ↔
      (∃ v, IsNaN v ∧ a = double v) ∧ ∃ w, IsNaN w ∧ b = double w) ∧
    (∀ a b : Value, a.ieeeEqual b ↔
      (∃ v w, IeeeEqual v w ∧ a = double v ∧ b = double w) ∨ a = b ∧ ∀ w, a ≠ double w) ∧
    ∀ (equals differs : Token) (l r : Expr) (env env₁ env₂ : Bindings) (a b : Value),
      equals.kind = .symbol .equalEqual → differs.kind = .symbol .bangEqual →
      l.eval env = .ok a env₁ → r.eval env₁ = .ok b env₂ →
        (Expr.binary l equals r).eval env = .ok (.boolean (a.isEqual b)) env₂ ∧
        (Expr.binary l differs r).eval env = .ok (.boolean !a.isEqual b) env₂ := by
  refine ⟨equivalence_isEqual, fun a b => ?nans, ieeeEqual_iff, ?operators⟩
  case nans => rw [isEqual_ne_ieeeEqual_iff, eq_nan_iff, eq_nan_iff]
  case operators =>
    intro equals differs l r env env₁ env₂ a b hequals hdiffers hl hr
    have hnot : (⟨.symbol .bang, "!", 1⟩ : Token).kind = .symbol .bang := rfl
    have hsame := Expr.eval_equals hequals hl hr
    refine ⟨hsame, ?_⟩
    rw [Expr.eval_differs hequals hdiffers hnot, Expr.eval_unary, Expr.eval_grouping, hsame]
    simp only [Operator.unary, Evaluation.ofResult, isTruthy_boolean]

/-- `(x = n) == x` is true of a NaN `n` that has a sign, which IEEE 754 has differ from itself. The
right operand reads what the left one assigns, and `x` keeps it. -/
theorem equality_lawful_nan :
    let x : Token := ⟨.identifier, "x", 1⟩
    let n : Value := double 0xfff8000000000001
    let l : Expr := .grouping (.assign x (.literal n))
    let r : Expr := .reference x
    let env : Bindings := ({} : Bindings).define "x" .absent
    n.ieeeEqual n = false ∧
      (Expr.binary l ⟨.symbol .equalEqual, "==", 1⟩ r).eval env =
        .ok (.boolean true) (env.define "x" n) ∧
      (Expr.binary l ⟨.symbol .bangEqual, "!=", 1⟩ r).eval env =
        .ok (.boolean false) (env.define "x" n) := by
  intro x n l r env
  obtain ⟨hequivalence, hnans, -, hoperators⟩ := equality_lawful
  have hx : env.get? x.lexeme = some .absent := Bindings.get?_define_self _ _ _
  have hl : l.eval env = .ok n (env.define "x" n) := by
    simp only [l, x, Expr.eval_grouping, Expr.eval_assign, Expr.eval_literal, Evaluation.assign,
      Bindings.assign_of_get? hx]
  have hread : (env.define "x" n).read x = .ok n :=
    Bindings.read_of_get? (Bindings.get?_define_self _ _ _)
  have hr : r.eval (env.define "x" n) = .ok n (env.define "x" n) := by
    simp only [r, Expr.eval_reference, Evaluation.read, hread]
  have hself : n.isEqual n = true := hequivalence.refl n
  have hnan : ∃ w, IsNaN w ∧ n = double w := ⟨_, by decide, rfl⟩
  have hother : n.isEqual n ≠ n.ieeeEqual n := (hnans n n).2 ⟨hnan, hnan⟩
  refine ⟨?_, ?_⟩
  · rw [hself] at hother
    exact Bool.eq_false_of_not_eq_true hother.symm
  · obtain ⟨hequals, hdiffers⟩ := hoperators ⟨.symbol .equalEqual, "==", 1⟩
      ⟨.symbol .bangEqual, "!=", 1⟩ l r env _ _ n n rfl rfl hl hr
    rw [hself] at hequals hdiffers
    exact ⟨hequals, hdiffers⟩

end Value

end TreeWalk
