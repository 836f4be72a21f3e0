import ApiDocs.Double.Basic
import Mathlib.Algebra.Order.Field.Power
import Mathlib.Data.Rat.Cast.Order
import Mathlib.Tactic.FieldSimp
import Mathlib.Tactic.Linarith
import Mathlib.Tactic.Positivity
import Mathlib.Tactic.Ring
/-!
# How far rounding goes

The double nearest to a fraction is at most half a unit of its last bit away from it, and there is
none only when the fraction is beyond all finite doubles.
-/
namespace ApiDocs.Double

/-- A double without its sign. -/
def magnitude (x : Double) : ℚ :=
  x.significand * 2 ^ x.exponent

/-- A double of at most 53 bits that is not too large. -/
structure IsFinite (x : Double) : Prop where
  significand_lt : x.significand < 2 ^ 53
  exponent_le : x.exponent ≤ 971

/-- The last bit of the largest doubles. -/
def largestUnit : ℚ :=
  2 ^ (971 : ℤ)

theorem largestUnit_pos : 0 < largestUnit :=
  zpow_pos (by norm_num) _

/-- Fractions from this one on are beyond all finite doubles. -/
def overflowLimit : ℚ :=
  (2 ^ 53 - 1 / 2) * largestUnit

theorem magnitude_nonneg (x : Double) : 0 ≤ x.magnitude :=
  mul_nonneg (Nat.cast_nonneg _) (zpow_nonneg (by norm_num) _)

theorem isFinite_zero (negative : Bool) : (zero negative).IsFinite :=
  ⟨by simp [zero], by simp [zero, minExponent]⟩

theorem IsFinite.neg {x : Double} (h : x.IsFinite) : x.neg.IsFinite :=
  ⟨h.significand_lt, h.exponent_le⟩

theorem upScale_pos (e : Int) : 0 < upScale e :=
  Nat.pow_pos (by decide)

theorem downScale_pos (e : Int) : 0 < downScale e :=
  Nat.pow_pos (by decide)

/-- A power is the quotient of its positive part and its negative part. -/
theorem pow_toNat_eq {base : ℚ} (hbase : base ≠ 0) (e : Int) :
    base ^ e.toNat = base ^ e * base ^ (-e).toNat := by
  rw [← zpow_natCast, ← zpow_natCast, ← zpow_add₀ hbase]
  congr 1
  omega

theorem upScale_eq (e : Int) : (upScale e : ℚ) = 2 ^ e * downScale e := by
  have hpow : (2 : ℚ) ^ e.toNat = 2 ^ e * 2 ^ (-e).toNat := pow_toNat_eq (by norm_num) e
  exact_mod_cast hpow

private theorem log2_bounds {n : Nat} (hn : n ≠ 0) :
    (2 : ℚ) ^ (n.log2 : ℤ) ≤ n ∧ (n : ℚ) < 2 ^ ((n.log2 : ℤ) + 1) := by
  have hlow : 2 ^ n.log2 ≤ n := Nat.log2_self_le hn
  have hhigh : n < 2 ^ (n.log2 + 1) := Nat.lt_log2_self
  constructor
  · rw [zpow_natCast]
    exact_mod_cast hlow
  · rw [← Nat.cast_succ, zpow_natCast]
    exact_mod_cast hhigh

section Target

variable {num den : Nat}

private theorem fits_iff (hden : 0 < den) (e : Int) :
    num * downScale e < 2 * hiddenBit * (den * upScale e) ↔
      (num : ℚ) / den < 2 ^ 53 * 2 ^ e := by
  have hcast : (num * downScale e < 2 * hiddenBit * (den * upScale e)) ↔
      ((num : ℚ) * downScale e < 2 * (hiddenBit : ℚ) * (den * upScale e)) := by
    exact_mod_cast Iff.rfl
  have hdown : (0 : ℚ) < downScale e := by exact_mod_cast downScale_pos e
  have hden' : (0 : ℚ) < den := by exact_mod_cast hden
  have hbit : (2 : ℚ) * (hiddenBit : ℚ) = 2 ^ 53 := by norm_num [hiddenBit]
  rw [hcast, upScale_eq, hbit, div_lt_iff₀ hden']
  constructor
  · intro h
    have h' : (num : ℚ) * downScale e < 2 ^ 53 * 2 ^ e * den * downScale e := by linarith
    exact lt_of_mul_lt_mul_right h' hdown.le
  · intro h
    have h' := mul_lt_mul_of_pos_right h hdown
    linarith

private def firstExponent (num den : Nat) : Int :=
  num.log2 - den.log2 - 53

private theorem targetExponent_eq : targetExponent num den = max minExponent
    (if num * downScale (firstExponent num den) <
        2 * hiddenBit * (den * upScale (firstExponent num den))
      then firstExponent num den else firstExponent num den + 1) :=
  rfl

private theorem firstExponent_bounds (hnum : num ≠ 0) (hden : 0 < den) :
    2 ^ 52 * 2 ^ firstExponent num den ≤ (num : ℚ) / den ∧
      (num : ℚ) / den < 2 ^ 53 * 2 ^ (firstExponent num den + 1) := by
  obtain ⟨hnumLow, hnumHigh⟩ := log2_bounds hnum
  obtain ⟨hdenLow, hdenHigh⟩ := log2_bounds (Nat.ne_of_gt hden)
  have hden' : (0 : ℚ) < den := by exact_mod_cast hden
  have hpow : ∀ (bits : ℕ) (shift e : ℤ), e = firstExponent num den + bits + shift →
      (2 : ℚ) ^ e = 2 ^ bits * 2 ^ firstExponent num den * 2 ^ shift := by
    rintro bits shift _ rfl
    rw [zpow_add₀ (by norm_num), zpow_add₀ (by norm_num), zpow_natCast, mul_comm (2 ^ bits)]
  constructor
  · rw [le_div_iff₀ hden']
    calc (2 : ℚ) ^ 52 * 2 ^ firstExponent num den * den
        ≤ 2 ^ 52 * 2 ^ firstExponent num den * 2 ^ ((den.log2 : ℤ) + 1) := by gcongr
      _ = 2 ^ (num.log2 : ℤ) := (hpow 52 _ _ (by rw [firstExponent]; push_cast; ring)).symm
      _ ≤ (num : ℚ) := hnumLow
  · rw [div_lt_iff₀ hden']
    calc (num : ℚ) < 2 ^ ((num.log2 : ℤ) + 1) := hnumHigh
      _ = 2 ^ 54 * 2 ^ firstExponent num den * 2 ^ (den.log2 : ℤ) :=
          hpow 54 _ _ (by rw [firstExponent]; push_cast; ring)
      _ = 2 ^ 53 * 2 ^ (firstExponent num den + 1) * 2 ^ (den.log2 : ℤ) := by
          rw [zpow_add_one₀ (by norm_num)]
          ring
      _ ≤ 2 ^ 53 * 2 ^ (firstExponent num den + 1) * den := by gcongr

/-- At its target exponent a fraction has at most 53 bits before the point, and it has exactly so
many if that exponent is not the smallest. -/
theorem targetExponent_spec (hnum : num ≠ 0) (hden : 0 < den) :
    (num : ℚ) / den < 2 ^ 53 * 2 ^ targetExponent num den ∧
      (minExponent < targetExponent num den →
        2 ^ 52 * 2 ^ targetExponent num den ≤ (num : ℚ) / den) := by
  obtain ⟨hleast, hhigh⟩ := firstExponent_bounds hnum hden
  obtain ⟨e, he, hupper, hlower⟩ : ∃ e : ℤ, targetExponent num den = max minExponent e ∧
      (num : ℚ) / den < 2 ^ 53 * 2 ^ e ∧ 2 ^ 52 * 2 ^ e ≤ (num : ℚ) / den := by
    by_cases hfits : num * downScale (firstExponent num den) <
        2 * hiddenBit * (den * upScale (firstExponent num den))
    · refine ⟨firstExponent num den, ?_, (fits_iff hden _).mp hfits, hleast⟩
      rw [targetExponent_eq, if_pos hfits]
    · refine ⟨firstExponent num den + 1, ?_, hhigh, ?_⟩
      · rw [targetExponent_eq, if_neg hfits]
      · rw [fits_iff hden, not_lt] at hfits
        rw [zpow_add_one₀ (by norm_num)]
        linarith
  rw [he]
  constructor
  · refine hupper.trans_le ?_
    have hmono : (2 : ℚ) ^ e ≤ 2 ^ max minExponent e :=
      zpow_le_zpow_right₀ (by norm_num) (le_max_right _ _)
    linarith
  · intro hlt
    rw [max_eq_right (by omega)]
    exact hlower

/-- A rounded quotient is at most one half away. -/
theorem roundQuotient_spec (hden : 0 < den) :
    (roundQuotient num den : ℚ) ≤ num / den + 1 / 2 ∧
      (num : ℚ) / den - 1 / 2 ≤ roundQuotient num den := by
  have hdivMod := Nat.div_add_mod num den
  have hden' : (0 : ℚ) < den := by exact_mod_cast hden
  have hbounds : 2 * (den * roundQuotient num den) ≤ 2 * num + den ∧
      2 * num ≤ 2 * (den * roundQuotient num den) + den := by
    have hmod := Nat.mod_lt num hden
    simp only [roundQuotient]
    split
    · next hup =>
      have hhalf : den ≤ 2 * (num % den) := by
        simp only [Bool.or_eq_true, Bool.and_eq_true, decide_eq_true_eq, beq_iff_eq] at hup
        omega
      rw [Nat.mul_add, Nat.mul_one]
      omega
    · next hdown =>
      have hhalf : 2 * (num % den) ≤ den := by
        simp only [Bool.or_eq_true, Bool.and_eq_true, decide_eq_true_eq, beq_iff_eq] at hdown
        omega
      omega
  have hupper : 2 * ((den : ℚ) * roundQuotient num den) ≤ 2 * num + den := by
    exact_mod_cast hbounds.1
  have hlower : 2 * (num : ℚ) ≤ 2 * (den * roundQuotient num den) + den := by
    exact_mod_cast hbounds.2
  have hquotient : (num : ℚ) / den * den = num := div_mul_cancel₀ _ hden'.ne'
  constructor <;> nlinarith

private def rounded (num den : Nat) : Nat :=
  roundQuotient (num * downScale (targetExponent num den)) (den * upScale (targetExponent num den))

private theorem rounded_spec (hnum : num ≠ 0) (hden : 0 < den) :
    rounded num den ≤ 2 ^ 53 ∧
      (rounded num den : ℚ) * 2 ^ targetExponent num den ≤
        (num : ℚ) / den + 2 ^ targetExponent num den / 2 ∧
      (num : ℚ) / den - 2 ^ targetExponent num den / 2 ≤
        rounded num den * 2 ^ targetExponent num den := by
  set e := targetExponent num den with he
  have hscale : (0 : ℚ) < 2 ^ e := zpow_pos (by norm_num) e
  have hdown : (0 : ℚ) < downScale e := by exact_mod_cast downScale_pos e
  have hden' : (0 : ℚ) < den := by exact_mod_cast hden
  have hspec : (rounded num den : ℚ) ≤ _ ∧ _ ≤ (rounded num den : ℚ) :=
    @roundQuotient_spec (num * downScale e) _ (Nat.mul_pos hden (upScale_pos e))
  have hquotient : ((num * downScale e : ℕ) : ℚ) / (den * upScale e : ℕ) = num / den / 2 ^ e := by
    push_cast
    rw [upScale_eq]
    field_simp
  rw [hquotient] at hspec
  have hlt := (targetExponent_spec hnum hden).1
  rw [← he] at hlt
  have hback : (num : ℚ) / den / 2 ^ e * 2 ^ e = num / den := div_mul_cancel₀ _ hscale.ne'
  refine ⟨?_, ?_, ?_⟩
  · have hquot : (num : ℚ) / den / 2 ^ e < 2 ^ 53 := by rwa [div_lt_iff₀ hscale]
    have hlt' : (rounded num den : ℚ) < 2 ^ 53 + 1 := by linarith [hspec.1]
    have hnat : rounded num den < 2 ^ 53 + 1 := by exact_mod_cast hlt'
    omega
  · nlinarith [hspec.1]
  · nlinarith [hspec.2]

private theorem nearest_cases {negative : Bool} (hnum : num ≠ 0) :
    (targetExponent num den ≤ 971 ∧ rounded num den ≠ 2 ^ 53 ∧
        nearest negative num den = some ⟨negative, rounded num den, targetExponent num den⟩) ∨
      (targetExponent num den ≤ 970 ∧ rounded num den = 2 ^ 53 ∧
        nearest negative num den = some ⟨negative, hiddenBit, targetExponent num den + 1⟩) ∨
      ((971 < targetExponent num den ∨ targetExponent num den = 971 ∧ rounded num den = 2 ^ 53) ∧
        nearest negative num den = none) := by
  have hbit : 2 * hiddenBit = 2 ^ 53 := by decide
  have hnearest : nearest negative num den =
      if rounded num den = 2 ^ 53 then
        if targetExponent num den + 1 > 971 then none
        else some ⟨negative, hiddenBit, targetExponent num den + 1⟩
      else if targetExponent num den > 971 then none
        else some ⟨negative, rounded num den, targetExponent num den⟩ := by
    rw [nearest, if_neg hnum, ← hbit, rounded]
    dsimp only
    split
    · rfl
    · rfl
  by_cases hcarry : rounded num den = 2 ^ 53
  · rw [if_pos hcarry] at hnearest
    by_cases hlarge : targetExponent num den + 1 > 971
    · exact .inr (.inr ⟨by omega, by rw [hnearest, if_pos hlarge]⟩)
    · exact .inr (.inl ⟨by omega, hcarry, by rw [hnearest, if_neg hlarge]⟩)
  · rw [if_neg hcarry] at hnearest
    by_cases hlarge : targetExponent num den > 971
    · exact .inr (.inr ⟨.inl hlarge, by rw [hnearest, if_pos hlarge]⟩)
    · exact .inl ⟨by omega, hcarry, by rw [hnearest, if_neg hlarge]⟩

/-- What is rounded is finite and at most half a bit away. -/
theorem nearest_spec {negative : Bool} (hnum : num ≠ 0) (hden : 0 < den) {x : Double}
    (h : nearest negative num den = some x) :
    x.IsFinite ∧ x.magnitude ≤ (num : ℚ) / den + 2 ^ targetExponent num den / 2 ∧
      (num : ℚ) / den - 2 ^ targetExponent num den / 2 ≤ x.magnitude := by
  obtain ⟨hle, hupper, hlower⟩ := rounded_spec hnum hden
  rcases @nearest_cases num den negative hnum with
    ⟨hexponent, hne, heq⟩ | ⟨hexponent, hcarry, heq⟩ | ⟨_, heq⟩
  · obtain rfl := Option.some.inj (heq.symm.trans h)
    exact ⟨⟨by dsimp only; omega, hexponent⟩, hupper, hlower⟩
  · obtain rfl := Option.some.inj (heq.symm.trans h)
    have hsame : magnitude ⟨negative, hiddenBit, targetExponent num den + 1⟩ =
        rounded num den * 2 ^ targetExponent num den := by
      rw [magnitude, hcarry, zpow_add₀ (by norm_num), zpow_one]
      norm_num [hiddenBit]
      ring
    rw [hsame]
    exact ⟨⟨by simp [hiddenBit], by dsimp only; omega⟩, hupper, hlower⟩
  · rw [heq] at h
    cases h

theorem isFinite_of_nearest {negative : Bool} (hden : 0 < den) {x : Double}
    (h : nearest negative num den = some x) : x.IsFinite := by
  by_cases hnum : num = 0
  · rw [nearest, if_pos hnum] at h
    exact Option.some.inj h ▸ isFinite_zero negative
  · exact (nearest_spec hnum hden h).1

/-- There is no nearest double only beyond the largest. -/
theorem overflowLimit_le_of_nearest {negative : Bool} (hden : 0 < den)
    (h : nearest negative num den = none) : overflowLimit ≤ (num : ℚ) / den := by
  have hnum : num ≠ 0 := by
    rintro rfl
    rw [nearest, if_pos rfl] at h
    cases h
  obtain ⟨_, hspec⟩ := targetExponent_spec hnum hden
  rcases @nearest_cases num den negative hnum with
    ⟨_, _, heq⟩ | ⟨_, _, heq⟩ | ⟨hlarge, _⟩
  · rw [heq] at h
    cases h
  · rw [heq] at h
    cases h
  · rcases hlarge with hlarge | ⟨hexponent, hcarry⟩
    · have hbits := hspec (by simp only [minExponent]; omega)
      have hpow : largestUnit * 2 ≤ 2 ^ targetExponent num den := by
        rw [largestUnit, ← zpow_add_one₀ (by norm_num)]
        exact zpow_le_zpow_right₀ (by norm_num) (by omega)
      have hpos := largestUnit_pos
      rw [overflowLimit]
      linarith
    · obtain ⟨_, hupper, _⟩ := rounded_spec hnum hden
      rw [hcarry, hexponent, ← largestUnit] at hupper
      push_cast at hupper
      rw [overflowLimit]
      linarith

private theorem half_bit_le (hnum : num ≠ 0) (hden : 0 < den) :
    (2 : ℚ) ^ targetExponent num den / 2 ≤ num / den / 2 ^ 53 ∨
      (2 : ℚ) ^ targetExponent num den / 2 ≤ 1 / 2 ^ 53 ∧ (num : ℚ) / den < 1 := by
  obtain ⟨hupper, hspec⟩ := targetExponent_spec hnum hden
  by_cases hmin : minExponent < targetExponent num den
  · left
    have hbits := hspec hmin
    linarith
  · right
    rw [not_lt, minExponent] at hmin
    have hpow : (2 : ℚ) ^ targetExponent num den ≤ 2 ^ (-53 : ℤ) :=
      zpow_le_zpow_right₀ (by norm_num) (by omega)
    norm_num at hpow
    constructor <;> linarith

/-- A fraction that is not less than one is rounded by a small part of itself. -/
theorem magnitude_le_of_nearest {negative : Bool} (hden : 0 < den) (hle : den ≤ num) {x : Double}
    (h : nearest negative num den = some x) :
    x.magnitude ≤ (num : ℚ) / den * (1 + 1 / 2 ^ 53) ∧ 1 / 2 ≤ x.magnitude := by
  have hnum : num ≠ 0 := by omega
  have hden' : (0 : ℚ) < den := by exact_mod_cast hden
  have hone : 1 ≤ (num : ℚ) / den := by
    rw [le_div_iff₀ hden', one_mul]
    exact_mod_cast hle
  obtain ⟨_, hupper, hlower⟩ := nearest_spec hnum hden h
  rcases half_bit_le hnum hden with hhalf | ⟨_, hlt⟩
  · constructor <;> linarith
  · linarith

/-- Any fraction at most doubles, or stays below one. -/
theorem magnitude_le_double_of_nearest {negative : Bool} (hden : 0 < den) {x : Double}
    (h : nearest negative num den = some x) : x.magnitude ≤ 2 * ((num : ℚ) / den) + 1 := by
  have hnonneg : 0 ≤ (num : ℚ) / den := by positivity
  by_cases hnum : num = 0
  · rw [nearest, if_pos hnum] at h
    rw [← Option.some.inj h, magnitude, zero]
    norm_num
    linarith
  · obtain ⟨_, hupper, _⟩ := nearest_spec hnum hden h
    rcases half_bit_le hnum hden with hhalf | ⟨hhalf, _⟩ <;> linarith

end Target

section Arithmetic

variable {x y : Double}

/-- Small natural numbers have a nearest double. -/
theorem exists_ofNat? {n : Nat} (hn : (n : ℚ) < overflowLimit) : ∃ x, ofNat? n = some x := by
  cases h : ofNat? n with
  | some x => exact ⟨x, rfl⟩
  | none =>
    have hlimit := overflowLimit_le_of_nearest Nat.one_pos h
    rw [Nat.cast_one, div_one] at hlimit
    linarith

theorem magnitude_ofNat? {n : Nat} (hn : 0 < n) (h : ofNat? n = some x) :
    x.magnitude ≤ n * (1 + 1 / 2 ^ 53) ∧ 1 / 2 ≤ x.magnitude := by
  have hbounds := magnitude_le_of_nearest Nat.one_pos hn h
  rwa [Nat.cast_one, div_one] at hbounds

private theorem product_eq : ((x.significand * y.significand * upScale (x.exponent + y.exponent) : ℕ)
      : ℚ) / (downScale (x.exponent + y.exponent) : ℕ) = x.magnitude * y.magnitude := by
  have hdown : (0 : ℚ) < downScale (x.exponent + y.exponent) := by
    exact_mod_cast downScale_pos _
  rw [div_eq_iff hdown.ne']
  push_cast
  rw [upScale_eq, zpow_add₀ (by norm_num), magnitude, magnitude]
  ring

/-- A product that is not too large can be rounded. -/
theorem exists_mul (h : x.magnitude * y.magnitude < overflowLimit) : ∃ z, x.mul y = some z := by
  cases hmul : x.mul y with
  | some z => exact ⟨z, rfl⟩
  | none =>
    have hlimit := overflowLimit_le_of_nearest (downScale_pos _) hmul
    rw [product_eq] at hlimit
    linarith

private theorem quotient_eq : ((x.significand * upScale (x.exponent - y.exponent) : ℕ) : ℚ) /
    ((y.significand * downScale (x.exponent - y.exponent) : ℕ) : ℚ) =
      x.magnitude / y.magnitude := by
  have hdown : (0 : ℚ) < downScale (x.exponent - y.exponent) := by
    exact_mod_cast downScale_pos _
  push_cast
  rw [upScale_eq, zpow_sub₀ (by norm_num), magnitude, magnitude]
  have hx : (2 : ℚ) ^ x.exponent ≠ 0 := zpow_ne_zero _ (by norm_num)
  have hy : (2 : ℚ) ^ y.exponent ≠ 0 := zpow_ne_zero _ (by norm_num)
  by_cases hzero : (y.significand : ℚ) = 0
  · simp [hzero]
  · field_simp

/-- A quotient by a number that is not too small can be rounded, and does not grow much. -/
theorem exists_div (hy : 1 / 2 ≤ y.magnitude) (h : 2 * x.magnitude < overflowLimit) :
    ∃ z, x.div y = some z ∧ z.magnitude ≤ 4 * x.magnitude + 1 := by
  have hsignificand : 0 < y.significand := by
    rw [Nat.pos_iff_ne_zero]
    intro hzero
    rw [magnitude, hzero, Nat.cast_zero, zero_mul] at hy
    norm_num at hy
  have hden : 0 < y.significand * downScale (x.exponent - y.exponent) :=
    Nat.mul_pos hsignificand (downScale_pos _)
  have hquotient : x.magnitude / y.magnitude ≤ 2 * x.magnitude := by
    rw [div_le_iff₀ (by linarith)]
    have hx := magnitude_nonneg x
    nlinarith
  cases hdiv : x.div y with
  | some z =>
    have hbound := magnitude_le_double_of_nearest hden hdiv
    rw [quotient_eq] at hbound
    exact ⟨z, rfl, by linarith⟩
  | none =>
    have hlimit := overflowLimit_le_of_nearest hden hdiv
    rw [quotient_eq] at hlimit
    linarith

end Arithmetic

end ApiDocs.Double
