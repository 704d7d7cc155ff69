import TreeWalk.Proofs.Text.Numeral

/-! What numerals are read as: doubles without a sign, infinity among them. All others show as
numerals that are read as them again. -/
namespace TreeWalk

open Float.Model Float.Model.UnpackedFloat

/-- A number or infinity, without a minus sign. -/
inductive IsUnsigned : UnpackedFloat → Prop
  | zero : IsUnsigned (.zero .positive)
  | finite {m : Nat} {e : Int} (hm : 0 < m) : IsUnsigned (.finite .positive m e hm)
  | infinity : IsUnsigned (.infinity .positive)

namespace IsUnsigned

variable {u v : UnpackedFloat}

theorem roundWithAccuracy (m : Nat) (e : Int) (a : Accuracy) :
    IsUnsigned (UnpackedFloat.roundWithAccuracy Format.binary64 .positive m e a) := by
  simp only [UnpackedFloat.roundWithAccuracy]
  split
  · exact .zero
  · exact .finite _

theorem mul_finite (hu : IsUnsigned u) {m : Nat} {e : Int} (hm : 0 < m) :
    IsUnsigned (UnpackedFloat.mul Format.binary64 u (.finite .positive m e hm)) := by
  cases hu with
  | zero => exact .zero
  | finite _ => exact roundWithAccuracy _ _ _
  | infinity => exact .infinity

theorem div_finite (hu : IsUnsigned u) {m : Nat} {e : Int} (hm : 0 < m) :
    IsUnsigned (UnpackedFloat.div Format.binary64 u (.finite .positive m e hm)) := by
  cases hu with
  | zero => exact .zero
  | finite _ => exact roundWithAccuracy _ _ _
  | infinity => exact .infinity

theorem ofScientific (m : Nat) (e : Int) :
    IsUnsigned (UnpackedFloat.ofScientific Format.binary64 m e) := by
  rw [UnpackedFloat.ofScientific]
  split
  · exact .zero
  split
  · exact .infinity
  split
  · exact .zero
  split
  · exact mul_finite (.finite _) _
  · exact div_finite (.finite _) _

/-- The exponents of numbers are less than that of infinity, which has no other bits. -/
theorem toNat_pack_le (hu : IsUnsigned u) :
    (UnpackedFloat.pack Format.binary64 u).toNat ≤ 0x7ff0000000000000 := by
  cases hu with
  | zero => decide
  | infinity => decide
  | @finite m e hm =>
    have hmantissa : (BitVec.ofNat 52 m).toNat < 2 ^ 52 := BitVec.isLt _
    have hsign : Sign.positive.toBitVec.toNat = 0 := rfl
    simp only [UnpackedFloat.pack]
    generalize (e + Format.binary64.exponentBias +
      Format.binary64.mantissaBitsWithoutImplicit).toNat = n
    -- Where the exponent does not fit the bits are those of infinity.
    split
    · decide
    rename_i hfits
    have hexponent : (BitVec.ofNat 11 n).toNat ≤ 2046 := by
      rw [BitVec.toNat_ofNat]
      omega
    split
    · rw [toNat_packComponents, hsign]
      omega
    · rw [toNat_packComponents, hsign, BitVec.toNat_zero]
      omega

end IsUnsigned

/-- Whole numbers that are read without rounding. -/
theorem isUnsigned_ofNat {n : Nat} (hn : n < 2 ^ 53) :
    IsUnsigned n.toUInt64.toFloat.toModel.unpack := by
  rcases Nat.eq_zero_or_pos n with rfl | hpos
  · exact .zero
  · rw [Magnitude.float_ofNat hpos hn, Magnitude.IsDouble.unpack_float]
    exact .finite _

namespace Decimal

/-- Digits and a power of ten that are doubles both. -/
theorem toBits_quick_le {n : Nat} (hn : n < 2 ^ 53) {u : Magnitude} (hu : u.IsDouble)
    {power : Float} (hpower : power = hu.float .positive) (negative : Bool) :
    (if negative then n.toUInt64.toFloat / power
      else n.toUInt64.toFloat * power).toBits.toNat ≤ 0x7ff0000000000000 := by
  have hdigits := isUnsigned_ofNat hn
  have hunpack : power.toModel.unpack = .finite .positive u.mantissa u.exponent hu.pos := by
    rw [hpower, hu.unpack_float]
  split
  · show (UnpackedFloat.pack Format.binary64 (UnpackedFloat.div Format.binary64
      n.toUInt64.toFloat.toModel.unpack power.toModel.unpack)).toNat ≤ _
    rw [hunpack]
    exact (hdigits.div_finite hu.pos).toNat_pack_le
  · show (UnpackedFloat.pack Format.binary64 (UnpackedFloat.mul Format.binary64
      n.toUInt64.toFloat.toModel.unpack power.toModel.unpack)).toNat ≤ _
    rw [hunpack]
    exact (hdigits.mul_finite hu.pos).toNat_pack_le

theorem toBits_toFloat_le (d : Decimal) : d.toFloat.toBits.toNat ≤ 0x7ff0000000000000 := by
  rw [toFloat, Float.ofScientific]
  split
  · rename_i hquick
    obtain ⟨u, hu, htable, -⟩ := exists_powerOfTen d.scale.natAbs (Nat.lt_succ_of_le hquick.2)
    exact toBits_quick_le hquick.1 hu htable _
  · exact (IsUnsigned.ofScientific _ _).toNat_pack_le

/-- What is read as a number below infinity shows as a numeral that is read so again. -/
theorem spells_positionalText_toFloat {d : Decimal} (h : ¬d.toFloat.isInf) :
    Segment.Spells (.token (.number d.toFloat)) (positionalText d.toFloat).toList := by
  refine spells_positionalText (lt_of_le_of_ne d.toBits_toFloat_le fun hbits => h ?_)
  have hinfinity : d.toFloat = Float.inf := float_eq_of_toBits (hbits.trans (by decide +kernel))
  rw [hinfinity]
  decide +kernel

end Decimal

end TreeWalk
