import Mathlib
import TreeWalk.Proofs.Text.Rounding

/-! Doubles as bits. A positive double is the magnitude that its bits without the sign hold, and
the operations on doubles work on these magnitudes. -/
-- The lemmas of Batteries on the bits of doubles come with the whole of Mathlib only.
namespace TreeWalk

open Float.Model Float.Model.UnpackedFloat

theorem toNat_packComponents (sign : Sign) (exponent : BitVec 11) (mantissa : BitVec 52) :
    (packComponents Format.binary64 sign exponent mantissa).toNat =
      2 ^ 63 * sign.toBitVec.toNat + (2 ^ 52 * exponent.toNat + mantissa.toNat) := by
  have hmantissa : mantissa.toNat < 2 ^ 52 := mantissa.isLt
  have hexponent : exponent.toNat < 2 ^ 11 := exponent.isLt
  rw [packComponents, BitVec.toNat_append, BitVec.toNat_append,
    ← Nat.shiftLeft_add_eq_or_of_lt hmantissa, ← Nat.shiftLeft_add_eq_or_of_lt hexponent]
  simp only [Nat.shiftLeft_eq]
  omega

/-- Components whose exponent is neither all zeros nor all ones. The first place of the mantissa is
not among them. -/
theorem unpack_packComponents_full (sign : Sign) {n m : Nat} (hpos : 0 < n) (hn : n < 2047)
    (hfull : 2 ^ 52 ≤ m) (hm : m < 2 ^ 53) :
    UnpackedFloat.unpack Format.binary64
        (packComponents Format.binary64 sign (.ofNat 11 n) (.ofNat 52 m)) =
      .finite sign m (n - 1075) (by omega) := by
  have hones : (-1#11).toNat = 2047 := rfl
  have hexponent : (BitVec.ofNat 11 n).toNat = n := by
    rw [BitVec.toNat_ofNat]
    omega
  have hne : BitVec.ofNat 11 n ≠ -1#11 := by
    rw [Ne, ← BitVec.toNat_inj, hexponent, hones]
    omega
  have hne' : BitVec.ofNat 11 n ≠ 0#11 := by
    rw [Ne, ← BitVec.toNat_inj, hexponent, BitVec.toNat_zero]
    omega
  have hmantissa : (1#1 ++ BitVec.ofNat 52 m).toNat = m := by
    have hrest : (BitVec.ofNat 52 m).toNat < 2 ^ 52 := BitVec.isLt _
    rw [BitVec.toNat_append, ← Nat.shiftLeft_add_eq_or_of_lt hrest, BitVec.toNat_ofNat,
      BitVec.toNat_ofNat, Nat.shiftLeft_eq]
    omega
  simp only [UnpackedFloat.unpack, unpackMantissa_packComponents, unpackExponent_packComponents,
    unpackSign_packComponents, Sign.ofBitVec_toBitVec, if_neg hne, if_neg hne', hmantissa,
    hexponent]
  rfl

/-- With an exponent of zeros the mantissa has no other place. -/
theorem unpack_packComponents_short (sign : Sign) {m : Nat} (hpos : 0 < m) (hm : m < 2 ^ 52) :
    UnpackedFloat.unpack Format.binary64
        (packComponents Format.binary64 sign 0#11 (.ofNat 52 m)) =
      .finite sign m (-1074) hpos := by
  have hmantissa : (BitVec.ofNat 52 m).toNat = m := by
    rw [BitVec.toNat_ofNat]
    omega
  have hne : BitVec.ofNat 52 m ≠ 0#52 := by
    rw [Ne, ← BitVec.toNat_inj, hmantissa, BitVec.toNat_zero]
    omega
  have hzero : 0#11 ≠ -1#11 := by decide
  simp only [UnpackedFloat.unpack, unpackMantissa_packComponents, unpackExponent_packComponents,
    unpackSign_packComponents, Sign.ofBitVec_toBitVec]
  rw [if_neg hzero, if_true, dif_neg hne]
  simp only [hmantissa]
  rfl

/-- The bits of a double decide it. -/
theorem float_eq_of_toBits {x y : Float} (h : x.toBits.toNat = y.toBits.toNat) : x = y :=
  Float.toBits_inj.1 (UInt64.toNat_inj.1 h)

namespace Magnitude

variable {v : Magnitude}

/-- The bits of a positive double without the sign. -/
def bits (v : Magnitude) : Nat :=
  if 2 ^ 52 ≤ v.mantissa then 2 ^ 52 * (v.exponent + 1075).toNat + (v.mantissa - 2 ^ 52)
  else v.mantissa

theorem IsDouble.log2_add_one (hv : v.IsDouble) :
    v.mantissa.log2 + 1 = Format.binary64.mantissaBits ↔ 2 ^ 52 ≤ v.mantissa := by
  have hlt : v.mantissa.log2 < 53 := (Nat.log2_lt hv.pos.ne').2 hv.mantissa_lt
  have hle : 52 ≤ v.mantissa.log2 ↔ 2 ^ 52 ≤ v.mantissa := Nat.le_log2 hv.pos.ne'
  rw [← hle]
  show v.mantissa.log2 + 1 = 1 + 52 ↔ _
  omega

/-- A mantissa that takes all places is packed without the first one, which the exponent shows. -/
theorem IsDouble.pack_eq (hv : v.IsDouble) (sign : Sign) :
    UnpackedFloat.pack Format.binary64 (.finite sign v.mantissa v.exponent hv.pos) =
      if 2 ^ 52 ≤ v.mantissa then
        packComponents Format.binary64 sign (.ofNat 11 (v.exponent + 1075).toNat)
          (.ofNat 52 v.mantissa)
      else packComponents Format.binary64 sign 0#11 (.ofNat 52 v.mantissa) := by
  have hleast := hv.le_exponent
  have hgreatest := hv.exponent_le
  have hbias : v.exponent + Format.binary64.exponentBias +
      Format.binary64.mantissaBitsWithoutImplicit = v.exponent + 1075 := by
    simp only [Format.exponentBias]
    omega
  have hfits : ¬2 ^ 11 ≤ (v.exponent + 1075).toNat + 1 := by omega
  simp only [UnpackedFloat.pack, hbias, hv.log2_add_one]
  rw [if_neg hfits]

theorem toNat_pack (hv : v.IsDouble) (sign : Sign) :
    (UnpackedFloat.pack Format.binary64 (.finite sign v.mantissa v.exponent hv.pos)).toNat =
      2 ^ 63 * sign.toBitVec.toNat + v.bits := by
  have hleast := hv.le_exponent
  have hgreatest := hv.exponent_le
  have hlt := hv.mantissa_lt
  rw [hv.pack_eq, bits]
  split
  · rename_i hfull
    rw [toNat_packComponents, BitVec.toNat_ofNat, BitVec.toNat_ofNat]
    omega
  · rename_i hshort
    rw [toNat_packComponents, BitVec.toNat_zero, BitVec.toNat_ofNat]
    omega

theorem unpack_pack (hv : v.IsDouble) (sign : Sign) :
    UnpackedFloat.unpack Format.binary64
        (UnpackedFloat.pack Format.binary64 (.finite sign v.mantissa v.exponent hv.pos)) =
      .finite sign v.mantissa v.exponent hv.pos := by
  have hleast := hv.le_exponent
  have hgreatest := hv.exponent_le
  rw [hv.pack_eq]
  split
  · rename_i hfull
    have hexponent : ((v.exponent + 1075).toNat : Int) - 1075 = v.exponent := by omega
    rw [unpack_packComponents_full sign (by omega) (by omega) hfull hv.mantissa_lt]
    simp only [hexponent]
  · rename_i hshort
    have hexponent := hv.full.resolve_left hshort
    rw [unpack_packComponents_short sign hv.pos (by omega)]
    simp only [hexponent]

theorem isDouble_ofBits {n : Nat} (hpos : 0 < n) (hn : n < 0x7ff0000000000000) :
    (ofBits n).IsDouble := by
  have hone : 1 <<< 52 = 4503599627370496 := rfl
  simp only [ofBits, hone]
  split
  · rename_i hzero
    constructor <;> dsimp only <;> omega
  · rename_i hpower
    constructor <;> dsimp only
    · omega
    · omega
    · omega
    · omega
    · omega
    · intro hm he
      rw [decide_eq_true_eq]
      omega

theorem bits_ofBits {n : Nat} (hn : n < 0x7ff0000000000000) : (ofBits n).bits = n := by
  have hone : 1 <<< 52 = 4503599627370496 := rfl
  simp only [ofBits, hone]
  split
  · rw [bits]
    dsimp only
    split <;> omega
  · rw [bits]
    dsimp only
    split <;> omega

namespace IsDouble

/-- The double that has this magnitude and a sign. -/
def float (hv : v.IsDouble) (sign : Sign) : Float :=
  .ofModel (.pack (.finite sign v.mantissa v.exponent hv.pos))

variable {v₁ v₂ : Magnitude} (hv : v.IsDouble)

theorem unpack_float (sign : Sign) :
    (hv.float sign).toModel.unpack = .finite sign v.mantissa v.exponent hv.pos :=
  unpack_pack hv sign

theorem toBits_float (sign : Sign) :
    (hv.float sign).toBits.toNat = 2 ^ 63 * sign.toBitVec.toNat + v.bits :=
  toNat_pack hv sign

theorem neg_float (sign : Sign) : -hv.float sign = hv.float (-sign) := by
  show Float.ofModel (.pack (hv.float sign).toModel.unpack.neg) = _
  rw [unpack_float]
  rfl

theorem eq_float {x : Float} {sign : Sign}
    (h : x.toBits.toNat = 2 ^ 63 * sign.toBitVec.toNat + v.bits) : x = hv.float sign :=
  float_eq_of_toBits (h.trans (hv.toBits_float sign).symm)

theorem mul_float (h₁ : v₁.IsDouble) (h₂ : v₂.IsDouble)
    (hfull : 2 ^ 52 ≤ v₁.mantissa * v₂.mantissa) (h : v.Nearest (v₁.value * v₂.value)) :
    h₁.float .positive * h₂.float .positive = hv.float .positive := by
  show Float.ofModel (.pack (UnpackedFloat.mul Format.binary64
    (h₁.float .positive).toModel.unpack (h₂.float .positive).toModel.unpack)) = _
  rw [unpack_float, unpack_float, mul_of_nearest hv h₁.pos h₂.pos hfull h]
  rfl

theorem div_float (h₁ : v₁.IsDouble) (h₂ : v₂.IsDouble) (h : v.Nearest (v₁.value / v₂.value)) :
    h₁.float .positive / h₂.float .positive = hv.float .positive := by
  show Float.ofModel (.pack (UnpackedFloat.div Format.binary64
    (h₁.float .positive).toModel.unpack (h₂.float .positive).toModel.unpack)) = _
  rw [unpack_float, unpack_float, div_of_nearest hv h₁.pos h₂.pos h]
  rfl

end IsDouble

end Magnitude

end TreeWalk
