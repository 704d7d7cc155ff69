import TreeWalk.Proofs.Text.Rounding

/-! The shortest decimal of a double lies nearest to it. The search for it ends, at the latest with
the grid that is finer than half of the least distance between two doubles. -/
namespace TreeWalk

namespace Magnitude

variable {v : Magnitude}

theorem le_quarter (v : Magnitude) (scale : Int) : 10 ^ (-scale).toNat ≤ v.quarter scale := by
  rw [quarter, Nat.shiftLeft_eq]
  exact Nat.le_mul_of_pos_right _ (Nat.two_pow_pos _)

theorem quarter_pos (v : Magnitude) (scale : Int) : 0 < v.quarter scale :=
  Nat.lt_of_lt_of_le (Nat.pow_pos (by decide)) (v.le_quarter scale)

theorem step_pos (v : Magnitude) (scale : Int) : 0 < v.step scale := by
  rw [step, Nat.shiftLeft_eq]
  exact Nat.mul_pos (Nat.pow_pos (by decide)) (Nat.two_pow_pos _)

/-- The step of a grid in quarters of the last place. -/
theorem step_eq (v : Magnitude) (scale : Int) :
    (v.step scale : ℚ) = 4 * (10 ^ scale / 2 ^ v.exponent) * v.quarter scale := by
  have hten : (10 : ℚ) ^ scale.toNat = 10 ^ scale * 10 ^ (-scale).toNat := by
    rw [← zpow_natCast, ← zpow_natCast, ← zpow_add₀ (by norm_num)]
    congr 1
    omega
  have htwo : (2 : ℚ) ^ (2 - v.exponent).toNat * 2 ^ v.exponent =
      4 * 2 ^ (v.exponent - 2).toNat := by
    have hfour : (4 : ℚ) = 2 ^ (2 : Int) := by norm_num
    rw [hfour, ← zpow_natCast, ← zpow_natCast, ← two_zpow_add, ← two_zpow_add]
    congr 1
    omega
  have hpos := two_zpow_pos v.exponent
  simp only [step, quarter, Nat.shiftLeft_eq, Nat.pow_eq, Nat.cast_mul, Nat.cast_pow,
    Nat.cast_ofNat, hten]
  field_simp
  exact htwo

/-- What a double covers is nearest to it. -/
theorem Covers.nearest {scale : Int} {n : Nat} (h : v.Covers scale n) (hpos : 0 < v.mantissa) :
    v.Nearest (n * 10 ^ scale) := by
  have hquarter : (0 : ℚ) < v.quarter scale := by exact_mod_cast v.quarter_pos scale
  have hpoint : ((n * v.step scale : Nat) : ℚ) =
      4 * (n * 10 ^ scale / 2 ^ v.exponent) * v.quarter scale := by
    push_cast
    rw [step_eq]
    ring
  have hlow : ((((4 * v.mantissa - if v.narrow then 1 else 2) * v.quarter scale) : Nat) : ℚ) =
      4 * (v.mantissa - if v.narrow then 1 / 4 else 1 / 2) * v.quarter scale := by
    split
    · rw [Nat.cast_mul, Nat.cast_sub (by omega)]
      push_cast
      ring
    · rw [Nat.cast_mul, Nat.cast_sub (by omega)]
      push_cast
      ring
  have hhigh : (((4 * v.mantissa + 2) * v.quarter scale : Nat) : ℚ) =
      4 * (v.mantissa + 1 / 2) * v.quarter scale := by
    push_cast
    ring
  unfold Covers at h
  unfold Nearest
  dsimp only at h ⊢
  generalize (n * 10 ^ scale / 2 ^ v.exponent : ℚ) = x at hpoint ⊢
  generalize (v.mantissa - if v.narrow then 1 / 4 else 1 / 2 : ℚ) = low at hlow ⊢
  generalize (v.mantissa + 1 / 2 : ℚ) = high at hhigh ⊢
  split at h
  · rename_i heven
    rw [if_pos heven]
    rw [← Nat.cast_le (α := ℚ), ← Nat.cast_le (α := ℚ), hlow, hpoint, hhigh,
      mul_le_mul_iff_left₀ hquarter, mul_le_mul_iff_left₀ hquarter] at h
    constructor <;> linarith
  · rename_i hodd
    rw [if_neg hodd]
    rw [← Nat.cast_lt (α := ℚ), ← Nat.cast_lt (α := ℚ), hlow, hpoint, hhigh,
      mul_lt_mul_iff_left₀ hquarter, mul_lt_mul_iff_left₀ hquarter] at h
    constructor <;> linarith

/-- A grid that is finer than half of the last place has a point for the double. -/
theorem exists_onGrid? {scale : Int} (h : v.step scale < 2 * v.quarter scale) :
    ∃ n, v.onGrid? scale = some n := by
  have hcovers : v.Covers scale (v.floorOn scale + 1) := by
    have hfloor : v.step scale * v.floorOn scale ≤ v.inUnits scale := Nat.mul_div_le _ _
    have hceiling : v.inUnits scale < v.step scale * (v.floorOn scale + 1) :=
      Nat.lt_mul_div_succ _ (v.step_pos scale)
    have hlow : (4 * v.mantissa - if v.narrow then 1 else 2) * v.quarter scale ≤
        v.inUnits scale := Nat.mul_le_mul_right _ (Nat.sub_le _ _)
    have hhigh : (4 * v.mantissa + 2) * v.quarter scale =
        v.inUnits scale + 2 * v.quarter scale := Nat.add_mul ..
    rw [Nat.mul_succ] at hceiling
    unfold Covers
    dsimp only
    rw [Nat.add_mul, Nat.one_mul, Nat.mul_comm (v.floorOn scale), hhigh]
    split <;> omega
  simp only [onGrid?, if_pos hcovers]
  split <;> exact ⟨_, rfl⟩

theorem search_covers {count : Nat} {scale : Int} (h : ∃ n, v.onGrid? (scale - count) = some n) :
    v.Covers (v.search (count + 1) scale).scale (v.search (count + 1) scale).digits ∧
      scale - count ≤ (v.search (count + 1) scale).scale := by
  induction count generalizing scale with
  | zero =>
    obtain ⟨n, hn⟩ := h
    rw [Nat.cast_zero, sub_zero] at hn ⊢
    simp only [search, hn]
    exact ⟨covers_of_onGrid? hn, le_rfl⟩
  | succ count ih =>
    rw [search]
    cases hn : v.onGrid? scale with
    | some n =>
      dsimp only
      exact ⟨covers_of_onGrid? hn, by omega⟩
    | none =>
      have hscale : scale - (count + 1 : Nat) = scale - 1 - count := by omega
      rw [hscale] at h ⊢
      exact ih h

theorem shortest_nearest (hv : v.IsDouble) :
    v.Nearest (v.shortest.digits * 10 ^ v.shortest.scale) ∧ -324 ≤ v.shortest.scale := by
  have hfine : v.step (-324) < 2 * v.quarter (-324) := by
    have hleast : (2 - v.exponent).toNat ≤ 1076 := by
      have hexponent := hv.le_exponent
      omega
    calc v.step (-324) = 2 ^ (2 - v.exponent).toNat := by simp [step, Nat.shiftLeft_eq]
      _ ≤ 2 ^ 1076 := Nat.pow_le_pow_right (by decide) hleast
      _ < 2 * 10 ^ (-(-324) : Int).toNat := by decide +kernel
      _ ≤ 2 * v.quarter (-324) := Nat.mul_le_mul_left 2 (v.le_quarter _)
  have hlast : (v.wholeLength : Int) - (v.wholeLength + 324 : Nat) = -324 := by omega
  have hfound : ∃ n, v.onGrid? (v.wholeLength - (v.wholeLength + 324 : Nat)) = some n := by
    rw [hlast]
    exact exists_onGrid? hfine
  obtain ⟨hcovers, hscale⟩ := search_covers hfound
  rw [hlast] at hscale
  exact ⟨hcovers.nearest hv.pos, hscale⟩

end Magnitude

end TreeWalk
