import ApiDocs.Double.Shortest
import ApiDocs.Proofs.Double.Rounding
import Mathlib.Data.List.TakeWhile
/-!
# How large the shortest decimal is

The decimal that is written for a double is a point of a grid that lies in the rounding interval of
the double, so it exceeds the double by half a bit at most. Below the largest power of ten a
coarser bound does.
-/
namespace ApiDocs.Double

variable {x : Double}

/-- The number that a decimal writes. -/
def Decimal.value (d : Decimal) : ℚ :=
  Nat.ofDigitChars 10 d.digits 0 * 10 ^ (d.point - d.digits.length)

theorem upTen_eq (e : Int) : (upTen e : ℚ) = 10 ^ e * downTen e := by
  have hpow : (10 : ℚ) ^ e.toNat = 10 ^ e * 10 ^ (-e).toNat := pow_toNat_eq (by norm_num) e
  exact_mod_cast hpow

private theorem upTen_pos (e : Int) : 0 < upTen e :=
  Nat.pow_pos (by decide)

private theorem downTen_pos (e : Int) : 0 < downTen e :=
  Nat.pow_pos (by decide)

theorem exists_zeros (digits : List Char) :
    ∃ k, digits = dropZeros digits ++ List.replicate k '0' := by
  refine ⟨(digits.reverse.takeWhile (· == '0')).length, ?_⟩
  have hzeros : digits.reverse.takeWhile (· == '0') =
      List.replicate (digits.reverse.takeWhile (· == '0')).length '0' := by
    rw [List.eq_replicate_iff]
    refine ⟨rfl, fun c hc => ?_⟩
    simpa using List.mem_takeWhile_imp hc
  have hsplit := List.takeWhile_append_dropWhile (p := (· == '0')) (l := digits.reverse)
  have hreverse := congrArg List.reverse hsplit
  rw [List.reverse_append, List.reverse_reverse, hzeros, List.reverse_replicate] at hreverse
  exact hreverse.symm

/-- Zeros at the end of the digits do not count. -/
theorem value_dropZeros (a : Nat) (point : Int) :
    Decimal.value ⟨dropZeros (Nat.toDigits 10 a), point⟩ =
      a * 10 ^ (point - (Nat.toDigits 10 a).length) := by
  obtain ⟨k, hk⟩ := exists_zeros (Nat.toDigits 10 a)
  have hdigits : Nat.ofDigitChars 10 (Nat.toDigits 10 a) 0 = a := Nat.ofDigitChars_ten_toDigits
  rw [hk, Nat.ofDigitChars_append, Nat.ofDigitChars_replicate_zero] at hdigits
  have hlength := congrArg List.length hk
  rw [List.length_append, List.length_replicate] at hlength
  have hpow : (10 : ℚ) ^ (point - (dropZeros (Nat.toDigits 10 a)).length) =
      10 ^ k * 10 ^ (point - (Nat.toDigits 10 a).length) := by
    rw [← zpow_natCast, ← zpow_add₀ (by norm_num), hlength]
    congr 1
    push_cast
    ring
  rw [Decimal.value]
  dsimp only
  rw [hpow, ← mul_assoc]
  congr 1
  rw [mul_comm]
  exact_mod_cast hdigits

private theorem toDigits_length_pos (a : Nat) : 0 < (Nat.toDigits 10 a).length :=
  List.length_pos_iff.mpr Nat.toDigits_ne_nil

private theorem lt_pow_length (a : Nat) : a < 10 ^ (Nat.toDigits 10 a).length :=
  (Nat.length_toDigits_le_iff (by decide) (toDigits_length_pos a)).mp (Nat.le_refl _)

private theorem pow_le_of_lt_length {a count : Nat} (hcount : 0 < count)
    (h : count < (Nat.toDigits 10 a).length) : 10 ^ count ≤ a := by
  have hiff := Nat.length_toDigits_le_iff (b := 10) (n := a) (by decide) hcount
  omega

section Grid

variable {point : Int} {count a : Nat}

-- A quarter of the last bit of a double over the distance of the points of a grid, as a
-- fraction.
private def quarterNum (x : Double) (shift : Int) : Nat :=
  upScale (x.exponent - 2) * upTen shift
private def quarterDen (x : Double) (shift : Int) : Nat :=
  downScale (x.exponent - 2) * downTen shift

private theorem quarterNum_pos (x : Double) (shift : Int) : 0 < quarterNum x shift :=
  Nat.mul_pos (upScale_pos _) (upTen_pos _)

private theorem quarterDen_pos (x : Double) (shift : Int) : 0 < quarterDen x shift :=
  Nat.mul_pos (downScale_pos _) (downTen_pos _)

private theorem quarter_eq (x : Double) (shift : Int) :
    (quarterNum x shift : ℚ) = 2 ^ x.exponent / 4 * 10 ^ shift * quarterDen x shift := by
  rw [quarterNum, quarterDen]
  push_cast
  rw [upScale_eq, upTen_eq, zpow_sub₀ (by norm_num)]
  norm_num
  ring

private def floorPoint (x : Double) (shift : Int) : Nat :=
  4 * x.significand * quarterNum x shift / quarterDen x shift

private theorem floorPoint_le (x : Double) (shift : Int) :
    (floorPoint x shift : ℚ) ≤ x.magnitude * 10 ^ shift := by
  have hfloor : ((floorPoint x shift * quarterDen x shift : ℕ) : ℚ) ≤
      (4 * x.significand * quarterNum x shift : ℕ) := by
    exact_mod_cast Nat.div_mul_le_self _ _
  have hden : (0 : ℚ) < quarterDen x shift := by exact_mod_cast quarterDen_pos x shift
  push_cast at hfloor
  rw [quarter_eq] at hfloor
  refine le_of_mul_le_mul_right (hfloor.trans_eq ?_) hden
  rw [magnitude]
  ring

private theorem lt_floorPoint_add_one (x : Double) (shift : Int) :
    x.magnitude * 10 ^ shift < floorPoint x shift + 1 := by
  have hceil : ((4 * x.significand * quarterNum x shift : ℕ) : ℚ) <
      ((quarterDen x shift * (floorPoint x shift + 1) : ℕ) : ℚ) := by
    exact_mod_cast Nat.lt_mul_div_succ _ (quarterDen_pos x shift)
  have hden : (0 : ℚ) < quarterDen x shift := by exact_mod_cast quarterDen_pos x shift
  push_cast at hceil
  rw [quarter_eq, mul_comm (quarterDen x shift : ℚ)] at hceil
  refine lt_of_mul_lt_mul_right (lt_of_eq_of_lt ?_ hceil) hden.le
  rw [magnitude]
  ring

private theorem lowerWidth_bounds (x : Double) : 1 ≤ lowerWidth x ∧ lowerWidth x ≤ 2 := by
  unfold lowerWidth
  split <;> decide

-- Whether a multiple of `den` lies in the rounding interval, in units of which a quarter of the
-- last bit is `num`.
private def hits (x : Double) (num den a : Nat) : Bool :=
  if x.significand % 2 == 0 then
    (4 * x.significand - lowerWidth x) * num ≤ a * den && a * den ≤ (4 * x.significand + 2) * num
  else (4 * x.significand - lowerWidth x) * num < a * den && a * den < (4 * x.significand + 2) * num

private theorem hits_bounds {num den a : Nat} (h : hits x num den a) :
    (4 * x.significand - lowerWidth x) * num ≤ a * den ∧
      a * den ≤ (4 * x.significand + 2) * num := by
  unfold hits at h
  split at h
  · simpa using h
  · simp only [Bool.and_eq_true, decide_eq_true_eq] at h
    exact ⟨h.1.le, h.2.le⟩

private theorem outside_of_not_hits {num den a : Nat} (h : hits x num den a = false) :
    a * den ≤ (4 * x.significand - lowerWidth x) * num ∨
      (4 * x.significand + 2) * num ≤ a * den := by
  unfold hits at h
  split at h <;> simp only [Bool.and_eq_false_iff, decide_eq_false_iff_not] at h <;> omega

private theorem coarse_of_not_hits {num den : Nat} (hx : x.significand ≠ 0) (hnum : 0 < num)
    (hden : 0 < den) (hbelow : hits x num den (4 * x.significand * num / den) = false)
    (habove : hits x num den (4 * x.significand * num / den + 1) = false) : 3 * num ≤ den := by
  set floor := 4 * x.significand * num / den
  obtain ⟨hnarrow, hwide⟩ := lowerWidth_bounds x
  have hfloor : floor * den ≤ 4 * x.significand * num := Nat.div_mul_le_self _ _
  have hceil : 4 * x.significand * num < (floor + 1) * den := by
    rw [Nat.mul_comm (floor + 1)]
    exact Nat.lt_mul_div_succ _ hden
  have hlow : (4 * x.significand - lowerWidth x) * num + num ≤ 4 * x.significand * num := by
    rw [← Nat.add_one_mul]
    exact Nat.mul_le_mul_right num (by omega)
  have hhigh : (4 * x.significand + 2) * num = 4 * x.significand * num + 2 * num := Nat.add_mul ..
  have hgap : (floor + 1) * den = floor * den + den := Nat.add_one_mul ..
  have hbelow' : floor * den ≤ (4 * x.significand - lowerWidth x) * num := by
    have houtside := outside_of_not_hits hbelow
    omega
  have habove' : (4 * x.significand + 2) * num ≤ (floor + 1) * den := by
    have houtside := outside_of_not_hits habove
    omega
  omega

private theorem gridPoint?_eq (x : Double) (point : Int) (count : Nat) :
    gridPoint? x point count =
      let num := quarterNum x (count - point)
      let den := quarterDen x (count - point)
      let floor := floorPoint x (count - point)
      let below := 4 * x.significand * num - floor * den
      let above := (floor + 1) * den - 4 * x.significand * num
      match hits x num den floor, hits x num den (floor + 1) with
      | true, true =>
        if below < above || (below == above && floor % 2 == 0) then some floor else some (floor + 1)
      | true, false => some floor
      | false, true => some (floor + 1)
      | false, false => none :=
  rfl

private theorem hits_of_gridPoint? (h : gridPoint? x point count = some a) :
    (a = floorPoint x (count - point) ∨ a = floorPoint x (count - point) + 1) ∧
      hits x (quarterNum x (count - point)) (quarterDen x (count - point)) a := by
  rw [gridPoint?_eq] at h
  dsimp only at h
  split at h
  · next hbelow habove =>
    split at h
    · obtain rfl := Option.some.inj h
      exact ⟨.inl rfl, hbelow⟩
    · obtain rfl := Option.some.inj h
      exact ⟨.inr rfl, habove⟩
  · next hbelow _ =>
    obtain rfl := Option.some.inj h
    exact ⟨.inl rfl, hbelow⟩
  · next habove =>
    obtain rfl := Option.some.inj h
    exact ⟨.inr rfl, habove⟩
  · cases h

/-- What a point of the grid that is chosen has to do with the double. -/
structure OnGrid (x : Double) (point : Int) (count a : Nat) : Prop where
  pos : 0 < a
  near : ∃ floor : Nat, (a = floor ∨ a = floor + 1) ∧
    (floor : ℚ) ≤ x.magnitude * 10 ^ (count - point) ∧
    x.magnitude * 10 ^ (count - point) < floor + 1
  high : (a : ℚ) ≤ (x.significand + 1 / 2) * 2 ^ x.exponent * 10 ^ (count - point)

theorem onGrid_of_gridPoint? (hx : x.significand ≠ 0) (h : gridPoint? x point count = some a) :
    OnGrid x point count a := by
  obtain ⟨hchoice, hhits⟩ := hits_of_gridPoint? h
  obtain ⟨hlow, hhigh⟩ := hits_bounds hhits
  constructor
  · have hwide := (lowerWidth_bounds x).2
    have hpos : 0 < (4 * x.significand - lowerWidth x) * quarterNum x (count - point) :=
      Nat.mul_pos (by omega) (quarterNum_pos x _)
    exact Nat.pos_of_mul_pos_right (Nat.lt_of_lt_of_le hpos hlow)
  · exact ⟨_, hchoice, floorPoint_le x _, lt_floorPoint_add_one x _⟩
  · have hden : (0 : ℚ) < quarterDen x (count - point) := by
      exact_mod_cast quarterDen_pos x (count - point)
    have hhigh' : (a * quarterDen x (count - point) : ℚ) ≤
        (4 * x.significand + 2) * quarterNum x (count - point) := by
      exact_mod_cast hhigh
    rw [quarter_eq] at hhigh'
    refine le_of_mul_le_mul_right (hhigh'.trans_eq ?_) hden
    ring

/-- A grid that is fine enough has a point that is chosen. -/
theorem gridPoint?_ne_none (hx : x.significand ≠ 0)
    (hfine : downScale (x.exponent - 2) * downTen (count - point) <
      3 * (upScale (x.exponent - 2) * upTen (count - point))) :
    gridPoint? x point count ≠ none := by
  intro h
  rw [gridPoint?_eq] at h
  dsimp only at h
  split at h
  · split at h <;> cases h
  · cases h
  · cases h
  · next hbelow habove =>
    have hcoarse : 3 * quarterNum x (count - point) ≤ quarterDen x (count - point) :=
      coarse_of_not_hits hx (quarterNum_pos x _) (quarterDen_pos x _) hbelow habove
    exact absurd hfine (Nat.not_lt.mpr hcoarse)

end Grid

/-- The digits that are found are a point of one of the first grids, or else the significand. -/
theorem searchDigits_cases (x : Double) (point : Int) (attempts count : Nat) :
    (∃ a c, searchDigits x point attempts count = (a, c) ∧ count ≤ c ∧ c < count + attempts ∧
        gridPoint? x point c = some a) ∨
      searchDigits x point attempts count = (x.significand, count + attempts) ∧
        ∀ c, count ≤ c → c < count + attempts → gridPoint? x point c = none := by
  induction attempts generalizing count with
  | zero => exact .inr ⟨rfl, fun c hle hlt => by omega⟩
  | succ attempts ih =>
    rw [searchDigits]
    cases hpoint : gridPoint? x point count with
    | some a => exact .inl ⟨a, count, rfl, Nat.le_refl _, by omega, hpoint⟩
    | none =>
      rcases ih (count + 1) with ⟨a, c, hfound, hle, hlt, hc⟩ | ⟨hfound, hnone⟩
      · exact .inl ⟨a, c, hfound, by omega, by omega, hc⟩
      · refine .inr ⟨by rw [hfound, Nat.add_right_comm, Nat.add_assoc], fun c hle hlt => ?_⟩
        rcases Nat.eq_or_lt_of_le hle with rfl | hlt'
        · exact hpoint
        · exact hnone c hlt' (by omega)

/-- The decimal of a double, in terms of the digits that were found. -/
theorem shortest_eq (x : Double) {a count : Nat}
    (h : searchDigits x (pointPosition x) 17 1 = (a, count)) :
    x.shortest = ⟨dropZeros (Nat.toDigits 10 a),
      if (Nat.toDigits 10 a).length > count then pointPosition x + 1 else pointPosition x⟩ := by
  rw [shortest, h]

/-- The digits are those of a positive number, up to zeros at their end. -/
theorem exists_digits_shortest (hx : x.significand ≠ 0) :
    ∃ a, 0 < a ∧ x.shortest.digits = dropZeros (Nat.toDigits 10 a) := by
  rcases searchDigits_cases x (pointPosition x) 17 1 with ⟨a, c, hfound, _, _, hpoint⟩ | ⟨hfound, _⟩
  · exact ⟨a, (onGrid_of_gridPoint? hx hpoint).pos, by rw [shortest_eq x hfound]⟩
  · exact ⟨x.significand, Nat.pos_of_ne_zero hx, by rw [shortest_eq x hfound]⟩

private theorem below_iff (x : Double) (k : Int) :
    x.significand * upScale x.exponent * downTen k < upTen k * downScale x.exponent ↔
      x.magnitude < 10 ^ k := by
  have hcast : (x.significand * upScale x.exponent * downTen k < upTen k * downScale x.exponent) ↔
      ((x.significand : ℚ) * upScale x.exponent * downTen k <
        (upTen k : ℚ) * downScale x.exponent) := by
    exact_mod_cast Iff.rfl
  have hdown : (0 : ℚ) < downScale x.exponent := by exact_mod_cast downScale_pos _
  have hten : (0 : ℚ) < downTen k := by exact_mod_cast downTen_pos _
  have hleft : (x.significand : ℚ) * upScale x.exponent * downTen k =
      x.magnitude * (downScale x.exponent * downTen k) := by
    rw [upScale_eq, magnitude]
    ring
  have hright : (upTen k : ℚ) * downScale x.exponent =
      10 ^ k * (downScale x.exponent * downTen k) := by
    rw [upTen_eq]
    ring
  rw [hcast, hleft, hright]
  exact mul_lt_mul_iff_left₀ (mul_pos hdown hten)

private def bits (x : Double) : Int :=
  x.significand.log2 + x.exponent

private def guess (x : Double) : Int :=
  bits x * 30103 / 100000

private theorem pointPosition_cases (x : Double) :
    (∃ i : Nat, i < 4 ∧ pointPosition x = guess x + i ∧ x.magnitude < 10 ^ pointPosition x ∧
        ∀ j < i, 10 ^ (guess x + (j : Int)) ≤ x.magnitude) ∨
      pointPosition x = guess x + 4 ∧
        ∀ j < 4, 10 ^ (guess x + ((j : Nat) : Int)) ≤ x.magnitude := by
  have heq : pointPosition x = (((List.range 4).find? fun i : Nat =>
      decide (x.significand * upScale x.exponent * downTen (guess x + i) <
        upTen (guess x + i) * downScale x.exponent)).map fun i : Nat =>
          guess x + (i : Int)).getD (guess x + 4) := by
    rw [pointPosition, List.find?_map]
    rfl
  simp only [below_iff] at heq
  cases hfind : (List.range 4).find? fun i : Nat =>
      decide (x.magnitude < 10 ^ (guess x + (i : Int))) with
  | none =>
    rw [hfind] at heq
    rw [List.find?_range_eq_none] at hfind
    exact .inr ⟨heq, fun j hj => by simpa using hfind j hj⟩
  | some i =>
    rw [hfind] at heq
    obtain ⟨hbelow, hrange, hearlier⟩ := List.find?_range_eq_some.mp hfind
    rw [List.mem_range] at hrange
    have hpoint : pointPosition x = guess x + i := heq
    refine .inl ⟨i, hrange, hpoint, ?_, fun j hj => by simpa using hearlier j hj⟩
    rw [hpoint]
    exact of_decide_eq_true hbelow

private theorem magnitude_lt_bits (x : Double) : x.magnitude < 2 ^ (bits x + 1) := by
  have hlog : x.significand < 2 ^ (x.significand.log2 + 1) := Nat.lt_log2_self
  have hlog' : (x.significand : ℚ) < 2 ^ ((x.significand.log2 : ℤ) + 1) := by
    rw [← Nat.cast_succ, zpow_natCast]
    exact_mod_cast hlog
  have hpow : (2 : ℚ) ^ (bits x + 1) = 2 ^ ((x.significand.log2 : ℤ) + 1) * 2 ^ x.exponent := by
    rw [← zpow_add₀ (by norm_num), bits]
    congr 1
    ring
  rw [hpow, magnitude]
  exact mul_lt_mul_of_pos_right hlog' (zpow_pos (by norm_num) _)

private theorem bits_le (h : x.IsFinite) (hx : x.significand ≠ 0) : bits x ≤ 1023 := by
  have hlog : x.significand.log2 < 53 := (Nat.log2_lt hx).mpr h.significand_lt
  have hexponent := h.exponent_le
  rw [bits]
  omega

private theorem magnitude_lt_ten {m n : Nat} (hbits : bits x < m) (hpow : 2 ^ m ≤ 10 ^ n) :
    x.magnitude < 10 ^ (n : ℤ) := by
  calc x.magnitude < 2 ^ (bits x + 1) := magnitude_lt_bits x
    _ ≤ 2 ^ (m : ℤ) := zpow_le_zpow_right₀ (by norm_num) (by omega)
    _ ≤ 10 ^ (n : ℤ) := by
        rw [zpow_natCast, zpow_natCast]
        exact_mod_cast hpow

private theorem lt_of_ten_le {k : ℤ} {n : Nat} (hlow : 10 ^ k ≤ x.magnitude)
    (hhigh : x.magnitude < 10 ^ (n : ℤ)) : k < n :=
  (zpow_lt_zpow_iff_right₀ (by norm_num)).mp (lt_of_le_of_lt hlow hhigh)

/-- Large doubles have at most 309 digits before the point, and as many only from the largest
power of ten on. -/
theorem pointPosition_spec (h : x.IsFinite) (hx : x.significand ≠ 0)
    (hlarge : 308 ≤ pointPosition x) : x.magnitude < 10 ^ pointPosition x ∧
      (pointPosition x = 308 ∨ pointPosition x = 309 ∧ 10 ^ (308 : ℤ) ≤ x.magnitude) := by
  have hbits := bits_le h hx
  have hguess : guess x = bits x * 30103 / 100000 := rfl
  have hmax : x.magnitude < 10 ^ ((309 : ℕ) : ℤ) :=
    magnitude_lt_ten (m := 1024) (by omega) (by decide +kernel)
  rcases pointPosition_cases x with ⟨i, hi, hpoint, hbelow, hearlier⟩ | ⟨hpoint, hnone⟩
  · refine ⟨hbelow, ?_⟩
    by_cases hleast : pointPosition x = 308
    · exact .inl hleast
    have hpassed := hearlier (i - 1) (by omega)
    have hmost := lt_of_ten_le hpassed hmax
    have hposition : guess x + ((i - 1 : ℕ) : ℤ) = 308 := by omega
    rw [hposition] at hpassed
    exact .inr ⟨by omega, hpassed⟩
  · -- the fourth position is beyond the number after all
    exfalso
    have hpassed := hnone 3 (by decide)
    have hmost := lt_of_ten_le hpassed hmax
    have hless : x.magnitude < 10 ^ ((307 : ℕ) : ℤ) :=
      magnitude_lt_ten (m := 1017) (by omega) (by decide +kernel)
    have hmost' := lt_of_ten_le hpassed hless
    omega

/-- The largest power of ten that has a nearest double. -/
def largestTen : ℚ :=
  10 ^ (308 : ℤ)

private theorem lt_pow_length_cast (a : Nat) :
    (a : ℚ) < 10 ^ ((Nat.toDigits 10 a).length : ℤ) := by
  rw [zpow_natCast]
  exact_mod_cast lt_pow_length a

private theorem exponent_eq_of_large (h : x.IsFinite) (hx : x.significand ≠ 0)
    (hlarge : 10 ^ (308 : ℤ) ≤ x.magnitude) : x.exponent = 971 := by
  have hexponent := h.exponent_le
  by_contra hne
  have hlog : x.significand.log2 < 53 := (Nat.log2_lt hx).mpr h.significand_lt
  have hbits : bits x < (1023 : ℕ) := by
    rw [bits]
    omega
  exact absurd (lt_of_ten_le hlarge (magnitude_lt_ten hbits (by decide +kernel))) (lt_irrefl _)

private theorem value_le_of_few (a : Nat) {point : Int} (h : point ≤ 308) :
    (a : ℚ) * 10 ^ (point - ((Nat.toDigits 10 a).length : ℤ)) ≤ largestTen := by
  calc (a : ℚ) * 10 ^ (point - ((Nat.toDigits 10 a).length : ℤ))
      ≤ 10 ^ ((Nat.toDigits 10 a).length : ℤ) * 10 ^ (308 - ((Nat.toDigits 10 a).length : ℤ)) := by
        gcongr
        · exact (lt_pow_length_cast a).le
        · norm_num
    _ = largestTen := by
        rw [← zpow_add₀ (by norm_num), largestTen, add_sub_cancel]

private theorem value_le_of_carry {a count : Nat} (hx : x.IsFinite)
    (hbelow : x.magnitude < 10 ^ (308 : ℤ)) (hcount : 0 < count)
    (hlength : count < (Nat.toDigits 10 a).length)
    (ha : OnGrid x 308 count a ∨ a = x.significand ∧ count = 18) :
    (a : ℚ) * 10 ^ (309 - ((Nat.toDigits 10 a).length : ℤ)) ≤ largestTen := by
  have hcarry : 10 ^ count ≤ a := pow_le_of_lt_length hcount hlength
  rcases ha with hgrid | ⟨rfl, rfl⟩
  · obtain ⟨floor, hchoice, hfloor, _⟩ := hgrid.near
    have hpow : (10 : ℚ) ^ (308 : ℤ) * 10 ^ ((count : ℤ) - 308) = 10 ^ count := by
      rw [← zpow_add₀ (by norm_num), ← zpow_natCast]
      congr 1
      ring
    have hscaled : x.magnitude * 10 ^ ((count : ℤ) - 308) < 10 ^ count := by
      rw [← hpow]
      exact mul_lt_mul_of_pos_right hbelow (zpow_pos (by norm_num) _)
    have hlt : floor < 10 ^ count := by exact_mod_cast hfloor.trans_lt hscaled
    have hle : a ≤ 10 ^ count := by omega
    have hle' : (a : ℚ) ≤ 10 ^ (count : ℤ) := by
      rw [zpow_natCast]
      exact_mod_cast hle
    calc (a : ℚ) * 10 ^ (309 - ((Nat.toDigits 10 a).length : ℤ))
        ≤ 10 ^ (count : ℤ) * 10 ^ (308 - (count : ℤ)) := by
          gcongr ?_ * 10 ^ ?_
          · norm_num
          · omega
      _ = largestTen := by
          rw [← zpow_add₀ (by norm_num), largestTen]
          congr 1
          ring
  · have hsignificand := hx.significand_lt
    have hsmall : 2 ^ 53 < 10 ^ 18 := by decide
    omega

private theorem value_le_of_top {a count : Nat} (hlarge : 10 ^ (308 : ℤ) ≤ x.magnitude)
    (hexponent : x.exponent = 971) (hcount : 0 < count) (hgrid : OnGrid x 309 count a) {point : Int}
    (hpoint : point = if (Nat.toDigits 10 a).length > count then 310 else 309) :
    (a : ℚ) * 10 ^ (point - ((Nat.toDigits 10 a).length : ℤ)) ≤
      (x.significand + 1 / 2) * largestUnit := by
  obtain ⟨floor, hchoice, _, hceil⟩ := hgrid.near
  have hpow : (10 : ℚ) ^ (308 : ℤ) * 10 ^ ((count : ℤ) - 309) = ((10 ^ (count - 1) : ℕ) : ℚ) := by
    rw [← zpow_add₀ (by norm_num), Nat.cast_pow, ← zpow_natCast]
    congr 1
    push_cast [Nat.cast_sub hcount]
    ring
  have hscaled : ((10 ^ (count - 1) : ℕ) : ℚ) < floor + 1 := by
    refine lt_of_le_of_lt ?_ hceil
    rw [← hpow]
    exact mul_le_mul_of_nonneg_right hlarge (zpow_nonneg (by norm_num) _)
  have hleast : 10 ^ (count - 1) ≤ a := by
    have hlt : 10 ^ (count - 1) < floor + 1 := by exact_mod_cast hscaled
    omega
  have hlength : count ≤ (Nat.toDigits 10 a).length := by
    have hlt := Nat.lt_of_le_of_lt hleast (lt_pow_length a)
    have hcmp := (Nat.pow_lt_pow_iff_right (by decide : 1 < 10)).mp hlt
    omega
  have hposition : point - ((Nat.toDigits 10 a).length : ℤ) ≤ 309 - (count : ℤ) := by
    split at hpoint <;> omega
  calc (a : ℚ) * 10 ^ (point - ((Nat.toDigits 10 a).length : ℤ))
      ≤ a * 10 ^ (309 - (count : ℤ)) := by
        gcongr
        norm_num
    _ ≤ (x.significand + 1 / 2) * 2 ^ x.exponent * 10 ^ ((count : ℤ) - 309) *
          10 ^ (309 - (count : ℤ)) := by
        gcongr
        exact hgrid.high
    _ = (x.significand + 1 / 2) * largestUnit := by
        rw [mul_assoc, ← zpow_add₀ (by norm_num), hexponent, largestUnit, sub_add_sub_cancel',
          sub_self, zpow_zero, mul_one]

/-- The decimal of a double is at most the largest power of ten, or the double is in the last
decade and its decimal at most half a bit above it. -/
theorem value_shortest_le (h : x.IsFinite) (hx : x.significand ≠ 0) :
    x.shortest.value ≤ largestTen ∨
      x.exponent = 971 ∧ x.shortest.value ≤ (x.significand + 1 / 2) * largestUnit := by
  obtain ⟨a, count, hfound⟩ : ∃ a count, searchDigits x (pointPosition x) 17 1 = (a, count) :=
    ⟨_, _, rfl⟩
  set point := if (Nat.toDigits 10 a).length > count then pointPosition x + 1
    else pointPosition x with hpoint
  have hvalue : x.shortest.value = a * 10 ^ (point - (Nat.toDigits 10 a).length) := by
    rw [shortest_eq x hfound, value_dropZeros]
  rw [hvalue]
  by_cases hfew : point ≤ 308
  · exact .inl (value_le_of_few a hfew)
  · have hlarge : 308 ≤ pointPosition x := by
      split at hpoint <;> omega
    obtain ⟨hbelow, hleast | ⟨hmost, htop⟩⟩ := pointPosition_spec h hx hlarge
    · left
      have hlength : count < (Nat.toDigits 10 a).length := by
        by_contra hshort
        rw [if_neg hshort] at hpoint
        omega
      have hposition : point = 309 := by
        rw [if_pos hlength] at hpoint
        omega
      rw [hposition]
      rw [hleast] at hbelow hfound
      rcases searchDigits_cases x 308 17 1 with ⟨a', c, hfound', hle, _, hgrid⟩ | ⟨hfound', _⟩
      · obtain ⟨rfl, rfl⟩ := Prod.mk.inj (hfound'.symm.trans hfound)
        exact value_le_of_carry h hbelow hle hlength (.inl (onGrid_of_gridPoint? hx hgrid))
      · obtain ⟨rfl, rfl⟩ := Prod.mk.inj (hfound'.symm.trans hfound)
        exact value_le_of_carry h hbelow (by decide) hlength (.inr ⟨rfl, rfl⟩)
    · right
      have hexponent := exponent_eq_of_large h hx htop
      refine ⟨hexponent, ?_⟩
      rw [hmost] at hfound hpoint
      have hfine : gridPoint? x 309 17 ≠ none := by
        apply gridPoint?_ne_none hx
        rw [hexponent]
        decide +kernel
      rcases searchDigits_cases x 309 17 1 with ⟨a', c, hfound', hle, _, hgrid⟩ | ⟨_, hnone⟩
      · obtain ⟨rfl, rfl⟩ := Prod.mk.inj (hfound'.symm.trans hfound)
        exact value_le_of_top htop hexponent hle (onGrid_of_gridPoint? hx hgrid) hpoint
      · exact absurd (hnone 17 (by decide) (by decide)) hfine

private theorem ten_zpow_le {m n : Nat} (h : 10 ^ n ≤ (2 ^ 53 - 3) * 2 ^ m) :
    (10 : ℚ) ^ (n : ℤ) ≤ (2 ^ 53 - 3) * 2 ^ (m : ℤ) := by
  have hcast : ((10 ^ n : ℕ) : ℚ) ≤ (((2 ^ 53 - 3) * 2 ^ m : ℕ) : ℚ) := by exact_mod_cast h
  rw [zpow_natCast, zpow_natCast]
  push_cast at hcast
  linarith

theorem largestTen_le : largestTen ≤ (2 ^ 53 - 3) * largestUnit :=
  ten_zpow_le (n := 308) (m := 971) (by decide +kernel)

/-- But for the two largest doubles, a decimal may be rounded up twice and is not too large. -/
theorem value_shortest_lt (h : x.IsFinite) (hx : x.significand ≠ 0)
    (htop : x.exponent = 971 → x.significand ≤ 2 ^ 53 - 3) :
    x.shortest.value * (1 + 1 / 2 ^ 53) ^ 2 < overflowLimit := by
  have hunit := largestUnit_pos
  have hvalue : x.shortest.value ≤ (2 ^ 53 - 5 / 2) * largestUnit := by
    rcases value_shortest_le h hx with hsmall | ⟨hexponent, hnear⟩
    · have hten := largestTen_le
      linarith
    · have hsignificand : (x.significand : ℚ) ≤ 2 ^ 53 - 3 := by
        have hcast : (x.significand : ℚ) ≤ ((2 ^ 53 - 3 : ℕ) : ℚ) :=
          Nat.cast_le.mpr (htop hexponent)
        norm_num at hcast ⊢
        exact hcast
      have hscaled := mul_le_mul_of_nonneg_right hsignificand hunit.le
      linarith
  rw [overflowLimit]
  calc x.shortest.value * (1 + 1 / 2 ^ 53) ^ 2
      ≤ (2 ^ 53 - 5 / 2) * largestUnit * (1 + 1 / 2 ^ 53) ^ 2 := by gcongr
    _ = (2 ^ 53 - 5 / 2) * (1 + 1 / 2 ^ 53) ^ 2 * largestUnit := by ring
    _ < (2 ^ 53 - 1 / 2) * largestUnit := by
        apply mul_lt_mul_of_pos_right ?_ hunit
        norm_num

end ApiDocs.Double
