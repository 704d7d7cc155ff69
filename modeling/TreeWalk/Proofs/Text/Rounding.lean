import Mathlib.Algebra.Order.Field.Power
import Mathlib.Tactic.FieldSimp
import Mathlib.Tactic.Linarith
import Mathlib.Tactic.NormNum
import Mathlib.Tactic.Positivity
import Mathlib.Tactic.Ring
import TreeWalk.Text.Shortest

/-! Rounding to doubles. A number that lies nearer to a double than to any other is rounded to that
double, whether it is a product, a quotient or a whole number. -/
namespace TreeWalk

open Float.Model Float.Model.UnpackedFloat

theorem two_zpow_pos (e : Int) : (0 : ℚ) < 2 ^ e := zpow_pos (by norm_num) e

theorem lt_of_two_zpow_lt {d e : Int} (h : (2 : ℚ) ^ d < 2 ^ e) : d < e :=
  (zpow_lt_zpow_iff_right₀ (by norm_num)).1 h

theorem two_zpow_add (d e : Int) : (2 : ℚ) ^ (d + e) = 2 ^ d * 2 ^ e :=
  zpow_add₀ (by norm_num) d e

/-- The digits that are kept of a number, with half a last place where the round bit is set, and a
rest that is nothing where the sticky bit is not set. -/
def Keeps (em : ExtendedMantissa) (x : ℚ) : Prop :=
  ∃ rest : ℚ, x = em.mantissa + (if em.roundBit then 1 / 2 else 0) + rest ∧ 0 ≤ rest ∧
    rest < 1 / 2 ∧ (rest = 0 ↔ em.stickyBit = false)

namespace Keeps

variable {em : ExtendedMantissa} {x : ℚ}

theorem exact (m : Nat) : Keeps (.ofMantissaAndAccuracy m .exact) m :=
  ⟨0, by simp [ExtendedMantissa.ofMantissaAndAccuracy], le_rfl, by norm_num,
    by simp [ExtendedMantissa.ofMantissaAndAccuracy]⟩

/-- The whole part is kept, and the remainder compared with half of the divisor. -/
theorem quotient (m : Nat) {n : Nat} (hn : 0 < n) :
    Keeps (.ofMantissaAndAccuracy (m / n) (accuracyOfFraction (m % n) n)) (m / n : ℚ) := by
  have hpos : (0 : ℚ) < n := by exact_mod_cast hn
  have hlt : ((m % n : Nat) : ℚ) < n := by exact_mod_cast Nat.mod_lt m hn
  have hsplit : (m / n : ℚ) = (m / n : Nat) + (m % n : Nat) / n := by
    have hdiv : (m : ℚ) = (n * (m / n) + m % n : Nat) := by rw [Nat.div_add_mod]
    rw [hdiv]
    push_cast
    field_simp
  have hcast : ((2 * (m % n) : Nat) : ℚ) = 2 * (m % n : Nat) := by push_cast; ring
  unfold accuracyOfFraction
  split
  · rename_i hzero
    rw [hsplit, hzero]
    simpa using exact (m / n)
  · rename_i hne
    have hrest : (0 : ℚ) < (m % n : Nat) := by exact_mod_cast Nat.pos_of_ne_zero hne
    rcases Nat.lt_trichotomy (2 * (m % n)) n with h | h | h
    · rw [Nat.compare_eq_lt.2 h]
      refine ⟨(m % n : Nat) / n, ?_, by positivity, ?_, ?_⟩
      · simp [ExtendedMantissa.ofMantissaAndAccuracy, hsplit]
      · rw [div_lt_iff₀ hpos]
        have hhalf : ((2 * (m % n) : Nat) : ℚ) < n := by exact_mod_cast h
        linarith
      · have hne' : ((m % n : Nat) : ℚ) / n ≠ 0 := by positivity
        simp only [ExtendedMantissa.ofMantissaAndAccuracy, hne', Bool.true_eq_false]
    · rw [Nat.compare_eq_eq.2 h]
      refine ⟨0, ?_, le_rfl, by norm_num, by simp [ExtendedMantissa.ofMantissaAndAccuracy]⟩
      have hhalf : ((2 * (m % n) : Nat) : ℚ) = n := by exact_mod_cast h
      have hplace : ((m % n : Nat) : ℚ) / n = 1 / 2 := by
        rw [div_eq_iff hpos.ne']
        linarith
      simp [ExtendedMantissa.ofMantissaAndAccuracy, hsplit, hplace]
    · rw [Nat.compare_eq_gt.2 h]
      have hhalf : (n : ℚ) < (2 * (m % n) : Nat) := by exact_mod_cast h
      have hplace : 1 / 2 < ((m % n : Nat) : ℚ) / n := by
        rw [lt_div_iff₀ hpos]
        linarith
      have hone : ((m % n : Nat) : ℚ) / n < 1 := by rwa [div_lt_one hpos]
      refine ⟨(m % n : Nat) / n - 1 / 2, ?_, by linarith, by linarith, ?_⟩
      · simp [ExtendedMantissa.ofMantissaAndAccuracy, hsplit]
      · have hne' : ((m % n : Nat) : ℚ) / n - 1 / 2 ≠ 0 := by linarith
        simp only [ExtendedMantissa.ofMantissaAndAccuracy, hne', Bool.true_eq_false]

theorem le (h : Keeps em x) : em.mantissa ≤ x := by
  obtain ⟨rest, rfl, hnonneg, -, -⟩ := h
  split <;> linarith

theorem lt (h : Keeps em x) : x < em.mantissa + 1 := by
  obtain ⟨rest, rfl, -, hhalf, -⟩ := h
  split <;> linarith

theorem shiftRightOne (h : Keeps em x) : Keeps em.shiftRightOne (x / 2) := by
  obtain ⟨rest, rfl, hnonneg, hhalf, hsticky⟩ := h
  obtain ⟨m, round, sticky⟩ := em
  dsimp only at hsticky ⊢
  have hm : (m : ℚ) = 2 * (m / 2 : Nat) + (m % 2 : Nat) := by
    exact_mod_cast (Nat.div_add_mod m 2).symm
  refine ⟨((if round then 1 / 2 else 0) + rest) / 2, ?_, ?_, ?_, ?_⟩
  · rw [hm]
    rcases Nat.mod_two_eq_zero_or_one m with hmod | hmod <;>
      simp only [ExtendedMantissa.shiftRightOne, hmod] <;> norm_num <;> ring
  · split <;> linarith
  · split <;> linarith
  · simp only [ExtendedMantissa.shiftRightOne, Bool.or_eq_false_iff, ← hsticky]
    cases round with
    | false => simp
    | true =>
      simp only [if_true, Bool.true_eq_false, false_and, iff_false]
      intro hzero
      linarith

theorem shiftRight (h : Keeps em x) (n : Nat) : Keeps (em >>> n) (x / 2 ^ n) := by
  induction n with
  | zero => simpa [HShiftRight.hShiftRight, Nat.repeat] using h
  | succ n ih =>
    have hstep := ih.shiftRightOne
    rwa [div_div, ← pow_succ] at hstep

/-- A number within half a place of a whole one is rounded to it, and from halfway if it is even. -/
theorem roundedMantissa_eq (h : Keeps em x) {m : Nat} (hlow : m - 1 / 2 ≤ x)
    (hhigh : x ≤ m + 1 / 2) (hodd : m % 2 = 1 → m - 1 / 2 < x ∧ x < m + 1 / 2) :
    em.roundedMantissa = m := by
  obtain ⟨rest, rfl, hnonneg, hhalf, hsticky⟩ := h
  obtain ⟨k, round, sticky⟩ := em
  dsimp only at hsticky hlow hhigh hodd ⊢
  have hle (a b : Nat) (hab : (a : ℚ) < b + 1) : a ≤ b := by
    have hab' : a < b + 1 := by exact_mod_cast hab
    omega
  cases round <;> cases sticky <;>
    simp only [if_true, if_false, Bool.false_eq_true, Bool.true_eq_false, iff_true,
      iff_false] at hsticky hlow hhigh hodd
  · -- nothing is left out
    subst hsticky
    show k = m
    exact le_antisymm (hle _ _ (by linarith)) (hle _ _ (by linarith))
  · -- less than half a place
    show k = m
    exact le_antisymm (hle _ _ (by linarith)) (hle _ _ (by linarith))
  · -- half a place
    subst hsticky
    show k + k % 2 = m
    have hmk : m ≤ k + 1 := hle _ _ (by push_cast; linarith)
    have hkm : k ≤ m := hle _ _ (by linarith)
    have heven : m % 2 = 0 := by
      by_contra hne
      obtain ⟨hlow', hhigh'⟩ := hodd (by omega)
      rcases Nat.eq_or_lt_of_le hkm with rfl | hlt
      · linarith
      · obtain rfl : m = k + 1 := by omega
        push_cast at hlow'
        linarith
    omega
  · -- more than half a place
    show k + 1 = m
    have hpos : 0 < rest := lt_of_le_of_ne hnonneg (Ne.symm hsticky)
    exact le_antisymm (hle _ _ (by push_cast; linarith)) (hle _ _ (by push_cast; linarith))

end Keeps

namespace Magnitude

/-- A positive double. All 53 places are taken, or else the exponent is the least one. -/
structure IsDouble (v : Magnitude) : Prop where
  pos : 0 < v.mantissa
  mantissa_lt : v.mantissa < 2 ^ 53
  le_exponent : -1074 ≤ v.exponent
  exponent_le : v.exponent ≤ 971
  full : 2 ^ 52 ≤ v.mantissa ∨ v.exponent = -1074
  narrow : v.mantissa = 2 ^ 52 → -1074 < v.exponent → v.narrow

def value (v : Magnitude) : ℚ := v.mantissa * 2 ^ v.exponent

/-- Whether a number is nearer to this double than to any other, with the halfway points going to
the double of even mantissa. -/
def Nearest (v : Magnitude) (q : ℚ) : Prop :=
  let low : ℚ := v.mantissa - if v.narrow then 1 / 4 else 1 / 2
  let high : ℚ := v.mantissa + 1 / 2
  let places := q / 2 ^ v.exponent
  if v.mantissa % 2 = 0 then low ≤ places ∧ places ≤ high else low < places ∧ places < high

variable {v : Magnitude} {q : ℚ}

theorem nearest_value (v : Magnitude) : v.Nearest v.value := by
  have hplaces : v.value / 2 ^ v.exponent = v.mantissa :=
    mul_div_cancel_right₀ _ (two_zpow_pos _).ne'
  unfold Nearest
  rw [hplaces]
  dsimp only
  split <;> split <;> constructor <;> linarith

/-- A number nearest to a double is at most half a place away, and less above a gap that is
narrow. -/
theorem Nearest.bounds (h : v.Nearest q) :
    v.mantissa - 1 / 2 ≤ q / 2 ^ v.exponent ∧ q / 2 ^ v.exponent ≤ v.mantissa + 1 / 2 ∧
      (v.mantissa % 2 = 1 → v.mantissa - 1 / 2 < q / 2 ^ v.exponent ∧
        q / 2 ^ v.exponent < v.mantissa + 1 / 2) ∧
      (v.narrow → v.mantissa - 1 / 4 ≤ q / 2 ^ v.exponent) := by
  unfold Nearest at h
  dsimp only at h
  split at h
  · rename_i heven
    refine ⟨?_, h.2, fun hodd => by omega, fun hnarrow => by simpa [hnarrow] using h.1⟩
    refine le_trans ?_ h.1
    split <;> linarith
  · have hlow : (v.mantissa : ℚ) - 1 / 2 < q / 2 ^ v.exponent := by
      refine lt_of_le_of_lt ?_ h.1
      split <;> linarith
    exact ⟨hlow.le, h.2.le, fun _ => ⟨hlow, h.2⟩,
      fun hnarrow => by simpa [hnarrow] using h.1.le⟩

end Magnitude

theorem targetExponent_eq (e : Int) : Format.binary64.targetExponent e = max (e - 53) (-1074) :=
  rfl

/-- Mantissas of up to 53 places stay as they are. -/
theorem shiftToTargetExponent_of_lt {m : Nat} {e : Int} (hm : m < 2 ^ 53) (he : -1074 ≤ e) :
    shiftToTargetExponent Format.binary64 m e .exact =
      (.ofMantissaAndAccuracy m .exact, e) := by
  have hlog : m.log2 < 53 := by
    by_cases hzero : m = 0
    · simp [hzero]
    · exact (Nat.log2_lt hzero).2 hm
  have htarget : Format.binary64.targetExponent (totalExponent m e) ≤ e := by
    rw [targetExponent_eq, totalExponent]
    omega
  have hshift : (Format.binary64.targetExponent (totalExponent m e) - e).toNat = 0 := by omega
  simp [shiftToTargetExponent, shiftToExponent, hshift, HShiftRight.hShiftRight, Nat.repeat]

/-- One place more is a carry, and the mantissa is a power of two. -/
theorem shiftToTargetExponent_carry {e : Int} (he : -1074 ≤ e) :
    shiftToTargetExponent Format.binary64 (2 ^ 53) e .exact =
      (.ofMantissaAndAccuracy (2 ^ 52) .exact, e + 1) := by
  have htarget : Format.binary64.targetExponent (totalExponent (2 ^ 53) e) = e + 1 := by
    rw [targetExponent_eq, totalExponent, Nat.log2_two_pow]
    omega
  have hshift : (e + 1 - e).toNat = 1 := by omega
  rw [shiftToTargetExponent, htarget, shiftToExponent, hshift]
  rfl

theorem roundWithAccuracy_eq {m m₁ m₂ : Nat} {e e₁ e₂ : Int} {a : Accuracy} {em : ExtendedMantissa}
    (hfirst : shiftToTargetExponent Format.binary64 m e a = (em, e₁))
    (hrounded : em.roundedMantissa = m₁)
    (hsecond : shiftToTargetExponent Format.binary64 m₁ e₁ .exact =
      (.ofMantissaAndAccuracy m₂ .exact, e₂)) (hpos : 0 < m₂) (sign : Sign) :
    roundWithAccuracy Format.binary64 sign m e a = .finite sign m₂ e₂ hpos := by
  unfold roundWithAccuracy
  rw [hfirst]
  dsimp only
  rw [hrounded, hsecond]
  exact dif_neg hpos.ne'

theorem lt_two_zpow {q : ℚ} {e : Int} {k : Nat} (h : q / 2 ^ e < 2 ^ k) : q < 2 ^ (k + e) := by
  rwa [div_lt_iff₀ (two_zpow_pos e), ← zpow_natCast, ← two_zpow_add] at h

theorem two_zpow_le {q : ℚ} {e : Int} {k : Nat} (h : 2 ^ k ≤ q / 2 ^ e) : 2 ^ (k + e) ≤ q := by
  rwa [le_div_iff₀ (two_zpow_pos e), ← zpow_natCast, ← two_zpow_add] at h

/-- A number has no place before the first one of its whole part. -/
theorem lt_two_zpow_log2 {q : ℚ} {e : Int} {m : Nat} (h : q / 2 ^ e < m + 1) :
    q < 2 ^ (((m.log2 + 1 : Nat) : Int) + e) := by
  have hm : ((m + 1 : Nat) : ℚ) ≤ (2 ^ (m.log2 + 1) : Nat) := by exact_mod_cast Nat.lt_log2_self
  push_cast at hm
  exact lt_two_zpow (lt_of_lt_of_le h hm)

theorem two_zpow_log2_le {q : ℚ} {e : Int} {m : Nat} (hpos : m ≠ 0) (h : m ≤ q / 2 ^ e) :
    2 ^ ((m.log2 : Int) + e) ≤ q := by
  have hm : ((2 ^ m.log2 : Nat) : ℚ) ≤ m := by exact_mod_cast Nat.log2_self_le hpos
  push_cast at hm
  exact two_zpow_le (hm.trans h)

namespace Magnitude.Nearest

variable {v : Magnitude} {q : ℚ}

theorem lt_two_zpow (hq : v.Nearest q) (hv : v.IsDouble) :
    q < 2 ^ (((53 : Nat) : Int) + v.exponent) := by
  have hm : ((v.mantissa + 1 : Nat) : ℚ) ≤ (2 ^ 53 : Nat) := by exact_mod_cast hv.mantissa_lt
  push_cast at hm
  exact TreeWalk.lt_two_zpow (by linarith [hq.bounds.2.1])

/-- Of the doubles that take all places only the least is nearest to a number below them. -/
theorem mantissa_eq (hq : v.Nearest q) (hfull : 2 ^ 52 ≤ v.mantissa)
    (hless : q / 2 ^ v.exponent < 2 ^ 52) : v.mantissa = 2 ^ 52 := by
  have hm : (v.mantissa : ℚ) < (2 ^ 52 + 1 : Nat) := by
    push_cast
    linarith [hq.bounds.1]
  have hm' : v.mantissa < 2 ^ 52 + 1 := by exact_mod_cast hm
  omega

theorem le_of_narrow (hq : v.Nearest q) (hpower : v.mantissa = 2 ^ 52) (hgap : v.narrow) :
    2 ^ 52 - 1 / 4 ≤ q / 2 ^ v.exponent := by
  have hplaces := hq.bounds.2.2.2 hgap
  rw [hpower] at hplaces
  push_cast at hplaces
  exact hplaces

end Magnitude.Nearest

/-- The exponent to which a number is rounded, as its first place and the least exponent have it. -/
theorem targetExponent_totalExponent (m : Nat) (e : Int) :
    Format.binary64.targetExponent (totalExponent m e) = max (m.log2 + e - 52) (-1074) := by
  rw [targetExponent_eq, totalExponent]
  omega

/-- A number is rounded to the exponent of the double that is nearest. It may lie below a power of
two, with the exponent one less, and then the gap there is narrow. -/
theorem targetExponent_of_nearest {v : Magnitude} (hv : v.IsDouble) {q : ℚ} (hq : v.Nearest q)
    {m : Nat} {e : Int} (hlow : m ≤ q / 2 ^ e) (hhigh : q / 2 ^ e < m + 1)
    (he : e ≤ -1074 ∨ 2 ^ 52 ≤ m) :
    Format.binary64.targetExponent (totalExponent m e) = v.exponent ∨
      Format.binary64.targetExponent (totalExponent m e) = v.exponent - 1 ∧
        v.mantissa = 2 ^ 52 ∧ v.narrow ∧ q / 2 ^ v.exponent < 2 ^ 52 := by
  have hleast := hv.le_exponent
  have hbelow := lt_two_zpow_log2 hhigh
  rw [targetExponent_totalExponent]
  have hle : max ((m.log2 : Int) + e - 52) (-1074) ≤ v.exponent := by
    by_cases hzero : m = 0
    · simp only [hzero, Nat.log2_zero]
      omega
    · have hlt := lt_of_two_zpow_lt
        (lt_of_le_of_lt (two_zpow_log2_le hzero hlow) (hq.lt_two_zpow hv))
      omega
  by_cases heq : max ((m.log2 : Int) + e - 52) (-1074) = v.exponent
  · exact .inl heq
  -- The number has a place less than the double, which must then be a power of two.
  have hfull : 2 ^ 52 ≤ v.mantissa := hv.full.resolve_right (by omega)
  have hless : q < 2 ^ (((52 : Nat) : Int) + v.exponent) :=
    lt_of_lt_of_le hbelow (zpow_le_zpow_right₀ (by norm_num) (by omega))
  rw [two_zpow_add, ← div_lt_iff₀ (two_zpow_pos _), zpow_natCast] at hless
  have hpower := hq.mantissa_eq hfull hless
  have hgap := hv.narrow hpower (by omega)
  have hbottom : 2 ^ (((51 : Nat) : Int) + v.exponent) ≤ q :=
    two_zpow_le (by linarith [hq.le_of_narrow hpower hgap])
  have hlt := lt_of_two_zpow_lt (lt_of_le_of_lt hbottom hbelow)
  exact .inr ⟨by omega, hpower, hgap, hless⟩

/-- Over a narrow gap a power of two is reached with one place more. -/
theorem Keeps.roundedMantissa_of_narrow {em : ExtendedMantissa} {v : Magnitude} {q : ℚ}
    (h : Keeps em (q / 2 ^ (v.exponent - 1))) (hq : v.Nearest q) (hpower : v.mantissa = 2 ^ 52)
    (hgap : v.narrow) (hless : q / 2 ^ v.exponent < 2 ^ 52) : em.roundedMantissa = 2 ^ 53 := by
  have hplaces := hq.le_of_narrow hpower hgap
  have hdouble : q / 2 ^ (v.exponent - 1) = 2 * (q / 2 ^ v.exponent) := by
    rw [zpow_sub_one₀ (by norm_num)]
    field_simp
  rw [hdouble] at h
  refine h.roundedMantissa_eq ?_ ?_ (by norm_num)
  · push_cast
    linarith
  · push_cast
    linarith

/-- The shift to an exponent that is not less. -/
theorem exists_shiftToTargetExponent {m : Nat} {e : Int} (a : Accuracy)
    (h : e ≤ Format.binary64.targetExponent (totalExponent m e)) :
    ∃ n : Nat, Format.binary64.targetExponent (totalExponent m e) = e + n ∧
      shiftToTargetExponent Format.binary64 m e a =
        (ExtendedMantissa.ofMantissaAndAccuracy m a >>> n, e + n) := by
  obtain ⟨n, hn⟩ := Int.le.dest h
  have hshift : (e + n - e).toNat = n := by omega
  exact ⟨n, hn.symm, by rw [shiftToTargetExponent, ← hn, shiftToExponent, hshift]⟩

/-- Rounding a number whose digits are kept to enough places gives the double that is nearest. -/
theorem roundWithAccuracy_of_nearest {v : Magnitude} (hv : v.IsDouble) {q : ℚ} (hq : v.Nearest q)
    {m : Nat} {e : Int} {a : Accuracy} (hkeeps : Keeps (.ofMantissaAndAccuracy m a) (q / 2 ^ e))
    (he : e ≤ -1074 ∨ 2 ^ 52 ≤ m) (sign : Sign) :
    roundWithAccuracy Format.binary64 sign m e a =
      .finite sign v.mantissa v.exponent hv.pos := by
  have hmantissa : (ExtendedMantissa.ofMantissaAndAccuracy m a).mantissa = m := by
    cases a with
    | exact => rfl
    | inexact o => cases o <;> rfl
  have hlow := hkeeps.le
  have hhigh := hkeeps.lt
  rw [hmantissa] at hlow hhigh
  have hreach : e ≤ Format.binary64.targetExponent (totalExponent m e) := by
    rw [targetExponent_totalExponent]
    rcases he with he | hm
    · omega
    · have hlog : 52 ≤ m.log2 := (Nat.le_log2 (by omega)).2 hm
      omega
  obtain ⟨n, htarget, hshift⟩ := exists_shiftToTargetExponent a hreach
  have hkept := hkeeps.shiftRight n
  rw [div_div, ← zpow_natCast, ← two_zpow_add] at hkept
  rcases targetExponent_of_nearest hv hq hlow hhigh he with
    hexponent | ⟨hexponent, hpower, hgap, hless⟩
  · rw [← htarget, hexponent] at hkept hshift
    obtain ⟨hnear, hnear', hodd, -⟩ := hq.bounds
    have hrounded := hkept.roundedMantissa_eq hnear hnear' hodd
    exact roundWithAccuracy_eq hshift hrounded
      (shiftToTargetExponent_of_lt hv.mantissa_lt hv.le_exponent) hv.pos sign
  · -- Rounding carries up to the power of two, and its last place is shifted out again.
    have hleast : -1074 ≤ v.exponent - 1 := by
      rw [← hexponent, targetExponent_totalExponent]
      omega
    rw [← htarget, hexponent] at hkept hshift
    have hrounded := hkept.roundedMantissa_of_narrow hq hpower hgap hless
    have hcarry := roundWithAccuracy_eq hshift hrounded (shiftToTargetExponent_carry hleast)
      (by norm_num) sign
    rw [hcarry, finite.injEq]
    exact ⟨rfl, hpower.symm, sub_add_cancel v.exponent 1⟩

section Operations

variable {v : Magnitude} {m₁ m₂ : Nat} {e₁ e₂ : Int}

theorem mul_of_nearest (hv : v.IsDouble) (h₁ : 0 < m₁) (h₂ : 0 < m₂) (hm : 2 ^ 52 ≤ m₁ * m₂)
    (hq : v.Nearest (m₁ * 2 ^ e₁ * (m₂ * 2 ^ e₂))) :
    mul Format.binary64 (.finite .positive m₁ e₁ h₁) (.finite .positive m₂ e₂ h₂) =
      .finite .positive v.mantissa v.exponent hv.pos := by
  have hplaces : (m₁ * 2 ^ e₁ * (m₂ * 2 ^ e₂) / 2 ^ (e₁ + e₂) : ℚ) = (m₁ * m₂ : Nat) := by
    rw [two_zpow_add]
    push_cast
    field_simp
  have hkeeps := Keeps.exact (m₁ * m₂)
  rw [← hplaces] at hkeeps
  exact roundWithAccuracy_of_nearest hv hq hkeeps (.inr hm) _

/-- A quotient is taken to at least 53 places, or to the least exponent. -/
theorem exists_divCore (m₁ m₂ : Nat) (e₁ e₂ : Int) :
    ∃ n : Nat, divCore Format.binary64 m₁ e₁ m₂ e₂ =
        (m₁ * 2 ^ n / m₂, e₁ - e₂ - n, accuracyOfFraction (m₁ * 2 ^ n % m₂) m₂) ∧
      (e₁ - e₂ - n ≤ -1074 ∨ m₂.log2 + 53 ≤ m₁.log2 + n) := by
  generalize ht : min (e₁ - e₂) (Format.binary64.targetExponent
    (totalExponent m₁ e₁ - totalExponent m₂ e₂)) = t
  have hplaces : t = e₁ - e₂ - (e₁ - e₂ - t).toNat := by omega
  refine ⟨(e₁ - e₂ - t).toNat, ?_, ?_⟩
  · rw [← hplaces, divCore, ht, Nat.shiftLeft_eq]
  · rw [targetExponent_eq, totalExponent, totalExponent] at ht
    omega

theorem div_of_nearest (hv : v.IsDouble) (h₁ : 0 < m₁) (h₂ : 0 < m₂)
    (hq : v.Nearest (m₁ * 2 ^ e₁ / (m₂ * 2 ^ e₂))) :
    div Format.binary64 (.finite .positive m₁ e₁ h₁) (.finite .positive m₂ e₂ h₂) =
      .finite .positive v.mantissa v.exponent hv.pos := by
  obtain ⟨n, hcore, hn⟩ := exists_divCore m₁ m₂ e₁ e₂
  have hm₂ : (m₂ : ℚ) ≠ 0 := by exact_mod_cast h₂.ne'
  have hplaces : (m₁ * 2 ^ e₁ / (m₂ * 2 ^ e₂) / 2 ^ (e₁ - e₂ - n) : ℚ) =
      (m₁ * 2 ^ n : Nat) / m₂ := by
    rw [zpow_sub₀ (by norm_num), zpow_sub₀ (by norm_num), zpow_natCast]
    push_cast
    field_simp
  have hkeeps := Keeps.quotient (m₁ * 2 ^ n) h₂
  rw [← hplaces] at hkeeps
  have hfull : e₁ - e₂ - n ≤ -1074 ∨ 2 ^ 52 ≤ m₁ * 2 ^ n / m₂ := by
    refine hn.imp_right fun hlog => ?_
    rw [Nat.le_div_iff_mul_le h₂]
    calc 2 ^ 52 * m₂ ≤ 2 ^ 52 * 2 ^ (m₂.log2 + 1) := Nat.mul_le_mul_left _ Nat.lt_log2_self.le
      _ = 2 ^ (m₂.log2 + 53) := by rw [← Nat.pow_add]; congr 1; omega
      _ ≤ 2 ^ (m₁.log2 + n) := Nat.pow_le_pow_right (by decide) hlog
      _ = 2 ^ m₁.log2 * 2 ^ n := Nat.pow_add ..
      _ ≤ m₁ * 2 ^ n := Nat.mul_le_mul_right _ (Nat.log2_self_le h₁.ne')
  have hround : div Format.binary64 (.finite .positive m₁ e₁ h₁) (.finite .positive m₂ e₂ h₂) =
      let (m, e, a) := divCore Format.binary64 m₁ e₁ m₂ e₂
      roundWithAccuracy Format.binary64 .positive m e a := rfl
  rw [hround, hcore]
  exact roundWithAccuracy_of_nearest hv hq hkeeps hfull _

end Operations

end TreeWalk
