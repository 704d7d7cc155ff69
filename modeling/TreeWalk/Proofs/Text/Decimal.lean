import TreeWalk.Proofs.Text.Packing

/-! Reading decimals as doubles. A decimal without zeros to be added that lies nearest to a double
is read as that double, through doubles where its digits and its power of ten are doubles, and
through whole numbers of any length where they are not. -/
namespace TreeWalk

open Float.Model Float.Model.UnpackedFloat

namespace Magnitude

/-- A positive whole number of up to 53 places. -/
def ofNat (n : Nat) : Magnitude := ⟨n <<< (52 - n.log2), n.log2 - 52, true⟩

theorem log2_le {n : Nat} (hpos : 0 < n) (hn : n < 2 ^ 53) : n.log2 ≤ 52 :=
  Nat.le_of_lt_succ ((Nat.log2_lt hpos.ne').2 hn)

theorem le_mantissa_ofNat {n : Nat} (hpos : 0 < n) (hn : n < 2 ^ 53) :
    2 ^ 52 ≤ (ofNat n).mantissa := by
  have hlog := log2_le hpos hn
  rw [ofNat, Nat.shiftLeft_eq]
  calc 2 ^ 52 = 2 ^ n.log2 * 2 ^ (52 - n.log2) := by rw [← Nat.pow_add]; congr 1; omega
    _ ≤ n * 2 ^ (52 - n.log2) := Nat.mul_le_mul_right _ (Nat.log2_self_le hpos.ne')

theorem mantissa_ofNat_lt {n : Nat} (hpos : 0 < n) (hn : n < 2 ^ 53) :
    (ofNat n).mantissa < 2 ^ 53 := by
  have hlog := log2_le hpos hn
  rw [ofNat, Nat.shiftLeft_eq]
  calc n * 2 ^ (52 - n.log2) < 2 ^ (n.log2 + 1) * 2 ^ (52 - n.log2) :=
        Nat.mul_lt_mul_of_pos_right Nat.lt_log2_self (Nat.two_pow_pos _)
    _ = 2 ^ 53 := by rw [← Nat.pow_add]; congr 1; omega

theorem isDouble_ofNat {n : Nat} (hpos : 0 < n) (hn : n < 2 ^ 53) : (ofNat n).IsDouble := by
  have hlog := log2_le hpos hn
  have hlow := le_mantissa_ofNat hpos hn
  have hexponent : (ofNat n).exponent = n.log2 - 52 := rfl
  exact ⟨by omega, mantissa_ofNat_lt hpos hn, by omega, by omega, .inl hlow, fun _ _ => rfl⟩

theorem value_ofNat {n : Nat} (hpos : 0 < n) (hn : n < 2 ^ 53) : (ofNat n).value = n := by
  have hlog := log2_le hpos hn
  have hexponent : (n.log2 : Int) - 52 = -((52 - n.log2 : Nat) : Int) := by omega
  rw [value, ofNat, hexponent, zpow_neg, zpow_natCast, Nat.shiftLeft_eq]
  push_cast
  field_simp

theorem float_ofNat {n : Nat} (hpos : 0 < n) (hn : n < 2 ^ 53) :
    n.toUInt64.toFloat = (isDouble_ofNat hpos hn).float .positive := by
  have hv := isDouble_ofNat hpos hn
  have hlog := log2_le hpos hn
  have htoNat : n.toUInt64.toNat = n := by
    rw [Nat.toUInt64_eq, UInt64.toNat_ofNat']
    omega
  have hgt : compare (n : Int) 0 = .gt := Int.compare_eq_gt.2 (by omega)
  have hdecrease : decreaseExponent n 0 (Format.binary64.targetExponent (totalExponent n 0)) =
      ((ofNat n).mantissa, (ofNat n).exponent) := by
    have hshift : (0 - Format.binary64.targetExponent (totalExponent n 0)).toNat =
        52 - n.log2 := by
      rw [targetExponent_totalExponent]
      omega
    rw [decreaseExponent, hshift, ofNat]
    ext <;> dsimp only
    omega
  have hkeeps := Keeps.exact (ofNat n).mantissa
  have hplaces : (ofNat n).value / 2 ^ (ofNat n).exponent = (ofNat n).mantissa :=
    mul_div_cancel_right₀ _ (two_zpow_pos _).ne'
  rw [← hplaces] at hkeeps
  have hround : UnpackedFloat.normalize Format.binary64 n 0 .positive =
      .finite .positive (ofNat n).mantissa (ofNat n).exponent hv.pos := by
    simp only [UnpackedFloat.normalize, hgt, UnpackedFloat.round, Int.toNat_natCast, hdecrease]
    have hfull : 2 ^ 52 ≤ (ofNat n).mantissa := le_mantissa_ofNat hpos hn
    exact roundWithAccuracy_of_nearest hv (nearest_value _) hkeeps (.inr hfull) _
  show Float.ofModel
    (.pack (UnpackedFloat.normalize Format.binary64 n.toUInt64.toNat 0 .positive)) = _
  rw [htoNat, hround]
  rfl

end Magnitude

theorem exactlyRepresentablePowersOfTen_bits :
    ∀ k : Fin Float.exactlyRepresentablePowersOfTen.size,
      let n := Float.exactlyRepresentablePowersOfTen[k].toBits.toNat
      0 < n ∧ n < 0x7ff0000000000000 ∧ -52 ≤ (Magnitude.ofBits n).exponent ∧
        (Magnitude.ofBits n).mantissa * 2 ^ ((Magnitude.ofBits n).exponent + 52).toNat =
          10 ^ k.val * 2 ^ 52 := by
  decide +kernel

/-- The powers of ten that are doubles. -/
theorem exists_powerOfTen (k : Nat) (hk : k < Float.exactlyRepresentablePowersOfTen.size) :
    ∃ (v : Magnitude) (hv : v.IsDouble),
      Float.exactlyRepresentablePowersOfTen[k] = hv.float .positive ∧ v.value = 10 ^ k := by
  obtain ⟨hpos, hn, hleast, hvalue⟩ := exactlyRepresentablePowersOfTen_bits ⟨k, hk⟩
  have hv := Magnitude.isDouble_ofBits hpos hn
  refine ⟨_, hv, hv.eq_float ?_, ?_⟩
  · rw [Magnitude.bits_ofBits hn]
    show _ = 2 ^ 63 * 0 + _
    rw [Nat.mul_zero, Nat.zero_add]
    rfl
  · generalize Magnitude.ofBits _ = v at hleast hvalue
    have hcast : (v.mantissa * 2 ^ (v.exponent + 52).toNat : ℚ) = 10 ^ k * 2 ^ 52 := by
      exact_mod_cast hvalue
    rw [← zpow_natCast, Int.toNat_of_nonneg (by omega), two_zpow_add, ← mul_assoc] at hcast
    exact mul_right_cancel₀ (by norm_num) hcast

/-- What the exact arithmetic on whole numbers makes of a decimal. -/
theorem ofScientific_of_nearest {v : Magnitude} (hv : v.IsDouble) {n k : Nat} (hpos : 0 < n)
    (hk : k ≤ 2048) (hq : v.Nearest (n / 10 ^ k)) :
    UnpackedFloat.ofScientific Format.binary64 n (-k) =
      .finite .positive v.mantissa v.exponent hv.pos := by
  have hlarge : ¬(-k : Int) > 2 ^ Format.binary64.exponentBits := by
    show ¬(-k : Int) > 2 ^ 11
    omega
  have hsmall : ¬(-k : Int) < -((2 ^ Format.binary64.exponentBits : Int) + n.log2) := by
    show ¬(-k : Int) < -((2 ^ 11 : Int) + n.log2)
    omega
  rw [UnpackedFloat.ofScientific, dif_neg hpos.ne', if_neg hlarge, if_neg hsmall]
  split
  · rename_i hzero
    obtain rfl : k = 0 := by omega
    have hten : (((n <<< 53 : Nat) : ℚ) * 2 ^ (-(53 : Nat) : Int) *
        ((10 ^ 0 : Nat) * 2 ^ (0 : Int))) = n / 10 ^ 0 := by
      rw [Nat.shiftLeft_eq, zpow_neg, zpow_natCast]
      push_cast
      field_simp
      norm_num
    rw [← hten] at hq
    have hfull : 2 ^ 52 ≤ n <<< 53 * 10 ^ 0 := by
      rw [Nat.shiftLeft_eq]
      omega
    exact mul_of_nearest hv _ _ hfull hq
  · have hexponent : (-(-k : Int)).toNat = k := by omega
    have hten : (n * 2 ^ (0 : Int) / ((10 ^ k : Nat) * 2 ^ (0 : Int)) : ℚ) = n / 10 ^ k := by
      push_cast
      simp
    rw [← hten] at hq
    simp only [hexponent]
    exact div_of_nearest hv hpos (Nat.pow_pos (by decide)) hq

namespace Decimal

/-- Digits and a power of ten that are doubles both. -/
theorem quick_of_nearest {v u : Magnitude} (hv : v.IsDouble) (hu : u.IsDouble) {n k : Nat}
    (hpos : 0 < n) (hn : n < 2 ^ 53) (hvalue : u.value = 10 ^ k) (hq : v.Nearest (n / 10 ^ k))
    {power : Float} (hpower : power = hu.float .positive) :
    (if decide ((-k : Int) < 0) then n.toUInt64.toFloat / power
      else n.toUInt64.toFloat * power) = hv.float .positive := by
  have hdouble := Magnitude.isDouble_ofNat hpos hn
  rw [hpower, Magnitude.float_ofNat hpos hn]
  split
  · refine hv.div_float hdouble hu ?_
    rwa [Magnitude.value_ofNat hpos hn, hvalue]
  · rename_i hnonneg
    rw [decide_eq_true_eq] at hnonneg
    obtain rfl : k = 0 := by omega
    have hfull : 2 ^ 52 ≤ (Magnitude.ofNat n).mantissa := Magnitude.le_mantissa_ofNat hpos hn
    refine hv.mul_float hdouble hu (hfull.trans (Nat.le_mul_of_pos_right _ hu.pos)) ?_
    rwa [Magnitude.value_ofNat hpos hn, hvalue, pow_zero, mul_one, ← div_one (n : ℚ),
      ← pow_zero 10]

/-- A decimal with digits before and after the point is read as the double that is nearest. -/
theorem toFloat_of_nearest {v : Magnitude} (hv : v.IsDouble) {n k : Nat} (hpos : 0 < n)
    (hk : k ≤ 2048) (hq : v.Nearest (n / 10 ^ k)) :
    toFloat ⟨n, -k⟩ = hv.float .positive := by
  have habs : (-k : Int).natAbs = k := by omega
  simp only [toFloat, habs]
  rw [Float.ofScientific]
  split
  · rename_i h
    obtain ⟨u, hu, htable, hvalue⟩ := exists_powerOfTen k (Nat.lt_succ_of_le h.2)
    exact quick_of_nearest hv hu hpos h.1 hvalue hq htable
  · have hexponent : (if decide ((-k : Int) < 0) then Int.negOfNat k else Int.ofNat k) = -k := by
      split
      · rw [Int.negOfNat_eq]
        rfl
      · rename_i hnonneg
        rw [decide_eq_true_eq] at hnonneg
        obtain rfl : k = 0 := by omega
        rfl
    simp only [hexponent, Float.Model.ofScientific, ofScientific_of_nearest hv hpos hk hq]
    rfl

end Decimal

end TreeWalk
