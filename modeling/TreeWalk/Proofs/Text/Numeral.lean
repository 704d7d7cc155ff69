import TreeWalk.Proofs.Lexis.Spelling
import TreeWalk.Proofs.Text.Decimal
import TreeWalk.Proofs.Text.Shortest
import TreeWalk.Text.Numeric

/-! The text of a finite double: a numeral that is read as its magnitude, after a sign where the
double has one. -/
namespace TreeWalk

namespace Decimal

theorem natOfDigits_eq (cs : List Char) : natOfDigits cs = Nat.ofDigitChars 10 cs 0 := rfl

theorem natOfDigits_toDigits (n : Nat) : natOfDigits (Nat.toDigits 10 n) = n :=
  Nat.ofDigitChars_ten_toDigits

theorem natOfDigits_append_zeros (cs : List Char) (n : Nat) :
    natOfDigits (cs ++ zeros n) = natOfDigits cs * 10 ^ n := by
  rw [natOfDigits_eq, Nat.ofDigitChars_append, zeros, Nat.ofDigitChars_replicate_zero,
    Nat.mul_comm, natOfDigits_eq]

theorem natOfDigits_zeros_append (n : Nat) (cs : List Char) :
    natOfDigits (zeros n ++ cs) = natOfDigits cs := by
  rw [natOfDigits_eq, Nat.ofDigitChars_append, zeros, Nat.ofDigitChars_replicate_zero,
    Nat.mul_zero, natOfDigits_eq]

theorem isDigit_of_mem_zeros {n : Nat} {c : Char} (h : c ∈ zeros n) : c.isDigit := by
  rw [List.eq_of_mem_replicate h]
  rfl

theorem isDigit_of_mem_toDigits {n : Nat} {c : Char} (h : c ∈ Nat.toDigits 10 n) : c.isDigit :=
  Nat.isDigit_of_mem_toDigits (by decide) (by decide) h

/-- Digits with a point before the last places of them. -/
theorem spells_pointed {ds : List Char} {places : Nat} (hd : ∀ c ∈ ds, c.isDigit)
    (hpos : 0 < places) (hlt : places < ds.length) :
    Segment.Spells (.token (.number (toFloat ⟨natOfDigits ds, -places⟩)))
      (ds.take (ds.length - places) ++ '.' :: ds.drop (ds.length - places)) := by
  have hwhole : (ds.take (ds.length - places)).length = ds.length - places := by
    rw [List.length_take]
    omega
  have hplaces : (ds.drop (ds.length - places)).length = places := by
    rw [List.length_drop]
    omega
  have hne : ds.take (ds.length - places) ≠ [] := List.ne_nil_of_length_pos (by omega)
  have hne' : ds.drop (ds.length - places) ≠ [] := List.ne_nil_of_length_pos (by omega)
  have hspells := Segment.Spells.fractional hne (fun c hc => hd c (List.mem_of_mem_take hc))
    hne' (fun c hc => hd c (List.mem_of_mem_drop hc))
  rwa [List.take_append_drop, hplaces] at hspells

/-- All digits in place spell the number, with as many places as its scale is below zero. -/
theorem spells_positional (d : Decimal) :
    Segment.Spells (.token (.number
      (toFloat ⟨d.digits * 10 ^ d.scale.toNat, -((-d.scale).toNat : Nat)⟩))) d.positional := by
  obtain ⟨digits, scale⟩ := d
  cases scale with
  | ofNat n =>
    have hdigits (c : Char) (hc : c ∈ Nat.toDigits 10 digits ++ zeros n) : c.isDigit :=
      (List.mem_append.1 hc).elim isDigit_of_mem_toDigits isDigit_of_mem_zeros
    have hspells := Segment.Spells.whole
      (List.append_ne_nil_of_left_ne_nil Nat.toDigits_ne_nil _) hdigits
    rw [natOfDigits_append_zeros, natOfDigits_toDigits] at hspells
    have hscale : -((-Int.ofNat n).toNat : Int) = 0 := by
      rw [Int.ofNat_eq_natCast]
      omega
    simp only [hscale]
    exact hspells
  | negSucc n =>
    generalize hpadded : zeros (n + 1 + 1 - (Nat.toDigits 10 digits).length) ++
      Nat.toDigits 10 digits = padded
    have hlength : n + 1 < padded.length := by
      rw [← hpadded, List.length_append, zeros, List.length_replicate]
      omega
    have hdigits (c : Char) (hc : c ∈ padded) : c.isDigit := by
      rw [← hpadded] at hc
      exact (List.mem_append.1 hc).elim isDigit_of_mem_zeros isDigit_of_mem_toDigits
    have hspells := spells_pointed hdigits n.succ_pos hlength
    rw [← hpadded, natOfDigits_zeros_append, natOfDigits_toDigits, hpadded] at hspells
    have hscale : (Int.negSucc n).toNat = 0 := rfl
    simp only [positional, hscale, hpadded, Nat.pow_zero, Nat.mul_one]
    exact hspells

/-- A decimal is a whole number over the power of ten that its places make. -/
theorem whole_div_places (d : Decimal) :
    ((d.digits * 10 ^ d.scale.toNat : Nat) / 10 ^ (-d.scale).toNat : ℚ) =
      d.digits * 10 ^ d.scale := by
  have hscale : d.scale = d.scale.toNat - (-d.scale).toNat := by omega
  have hten : (10 : ℚ) ^ d.scale = 10 ^ d.scale.toNat / 10 ^ (-d.scale).toNat := by
    conv_lhs => rw [hscale]
    rw [zpow_sub₀ (by norm_num), zpow_natCast, zpow_natCast]
  rw [hten]
  push_cast
  ring

end Decimal

namespace Magnitude

theorem IsDouble.pos_of_nearest {v : Magnitude} {q : ℚ} (hv : v.IsDouble) (hq : v.Nearest q) :
    0 < q := by
  have hone : (1 : ℚ) ≤ v.mantissa := by exact_mod_cast hv.pos
  have hplaces : 0 < q / 2 ^ v.exponent := by linarith [hq.bounds.1]
  exact (div_pos_iff_of_pos_right (two_zpow_pos _)).1 hplaces

/-- The shortest digits of a double are read as that double. -/
theorem IsDouble.spells_shortest {v : Magnitude} (hv : v.IsDouble) :
    Segment.Spells (.token (.number (hv.float .positive))) v.shortest.positional := by
  obtain ⟨hnearest, hscale⟩ := shortest_nearest hv
  rw [← v.shortest.whole_div_places] at hnearest
  have hpos : 0 < v.shortest.digits * 10 ^ v.shortest.scale.toNat := by
    refine Nat.pos_of_ne_zero fun hzero => ?_
    have hlt := hv.pos_of_nearest hnearest
    simp [hzero] at hlt
  rw [← Decimal.toFloat_of_nearest hv hpos (by omega) hnearest]
  exact v.shortest.spells_positional

end Magnitude

/-- The text of a number that is read as a literal, or as one after a minus sign. -/
inductive ReadsAs : List Char → Float → Prop
  | unsigned {numeral : List Char} {m : Float}
    (h : Segment.Spells (.token (.number m)) numeral) : ReadsAs numeral m
  | negated {numeral : List Char} {m : Float}
    (h : Segment.Spells (.token (.number m)) numeral) : ReadsAs ('-' :: numeral) (-m)

open Float.Model Float.Model.UnpackedFloat

/-- The exponent of a finite double is not all ones. -/
theorem lt_of_isFinite {x : Float} (hx : x.isFinite) :
    x.toBits.toNat % 2 ^ 63 < 0x7ff0000000000000 := by
  let bits : BitVec Format.binary64.numBits := x.toBits.toBitVec
  have hexponent : (unpackExponent bits).toNat = x.toBits.toNat / 2 ^ 52 % 2 ^ 11 := by
    rw [unpackExponent, BitVec.toNat_cast, BitVec.extractLsb_toNat, Nat.shiftRight_eq_div_pow]
    rfl
  by_contra hge
  have hones : unpackExponent bits = -1#11 := by
    apply BitVec.eq_of_toNat_eq
    rw [hexponent]
    show _ = 2047
    omega
  have hunpack : x.isFinite = (UnpackedFloat.unpack Format.binary64 bits).isFinite := rfl
  rw [hunpack, UnpackedFloat.unpack] at hx
  simp only [hones, if_true] at hx
  split at hx <;> cases hx

theorem isNaN_eq_false_of_lt {x : Float} (hx : x.toBits.toNat % 2 ^ 63 < 0x7ff0000000000000) :
    x.isNaN = false := by
  rw [Float.isNaN_eq_decide_eq_nan, decide_eq_false_iff_not]
  rintro rfl
  exact absurd hx (by decide +kernel)

/-- A numeral of the magnitude, after a minus sign where the sign bit is set. -/
theorem readsAs_of_toBits {x m : Float} {numeral : List Char}
    (h : Segment.Spells (.token (.number m)) numeral)
    (hm : m.toBits.toNat = x.toBits.toNat % 2 ^ 63)
    (hneg : (-m).toBits.toNat = 2 ^ 63 + m.toBits.toNat) :
    ReadsAs ((if x.toBits.toNat >>> 63 = 1 then "-" else "").toList ++ numeral) x := by
  have hlt : x.toBits.toNat < 2 ^ 64 := x.toBits.toNat_lt
  rw [Nat.shiftRight_eq_div_pow]
  split
  · rename_i hsign
    obtain rfl : x = -m := float_eq_of_toBits (by omega)
    exact .negated h
  · rename_i hsign
    obtain rfl : x = m := float_eq_of_toBits (by omega)
    exact .unsigned h

/-- The text of a double is a numeral of its magnitude, after its sign. -/
theorem exists_numeral {x : Float} (hx : x.toBits.toNat % 2 ^ 63 < 0x7ff0000000000000) :
    ∃ (m : Float) (numeral : List Char),
      (positionalText x).toList =
        (if x.toBits.toNat >>> 63 = 1 then "-" else "").toList ++ numeral ∧
      Segment.Spells (.token (.number m)) numeral ∧
      m.toBits.toNat = x.toBits.toNat % 2 ^ 63 ∧
      (-m).toBits.toNat = 2 ^ 63 + m.toBits.toNat := by
  have hshift : 1 <<< 63 = 2 ^ 63 := rfl
  simp only [positionalText, floatText, isNaN_eq_false_of_lt hx, Bool.false_eq_true, if_false,
    hshift, if_neg hx.ne]
  split
  · rename_i hzero
    rw [String.toList_append, String.toList_ofList]
    exact ⟨_, _, rfl, Decimal.spells_positional ⟨0, 0⟩, hzero.symm, rfl⟩
  · rename_i hpos
    rw [String.toList_append, String.toList_ofList]
    have hv := Magnitude.isDouble_ofBits (Nat.pos_of_ne_zero hpos) hx
    have hbits : (hv.float .positive).toBits.toNat = x.toBits.toNat % 2 ^ 63 := by
      rw [hv.toBits_float, Magnitude.bits_ofBits hx]
      exact Nat.zero_add _
    refine ⟨_, _, rfl, hv.spells_shortest, hbits, ?_⟩
    rw [hv.neg_float, hv.toBits_float, hv.toBits_float]
    show 2 ^ 63 * 1 + _ = 2 ^ 63 + (2 ^ 63 * 0 + _)
    omega

theorem readsAs_positionalText {x : Float} (hx : x.isFinite) :
    ReadsAs (positionalText x).toList x := by
  obtain ⟨m, numeral, htext, hspells, hm, hneg⟩ := exists_numeral (lt_of_isFinite hx)
  rw [htext]
  exact readsAs_of_toBits hspells hm hneg

/-- Without a sign the text is the numeral alone. -/
theorem spells_positionalText {x : Float} (hx : x.toBits.toNat < 0x7ff0000000000000) :
    Segment.Spells (.token (.number x)) (positionalText x).toList := by
  have hmagnitude : x.toBits.toNat % 2 ^ 63 = x.toBits.toNat := by omega
  have hsign : ¬x.toBits.toNat >>> 63 = 1 := by
    rw [Nat.shiftRight_eq_div_pow]
    omega
  obtain ⟨m, numeral, htext, hspells, hm, -⟩ := exists_numeral (hmagnitude ▸ hx)
  obtain rfl : m = x := float_eq_of_toBits (hm.trans hmagnitude)
  rw [htext, if_neg hsign]
  exact hspells

end TreeWalk
