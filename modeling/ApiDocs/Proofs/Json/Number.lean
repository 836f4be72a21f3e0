import ApiDocs.Proofs.Double.Shortest
import ApiDocs.Proofs.Json.Scalar
/-!
# Doubles in JSON text

A decimal is read by scaling its digits by a power of ten, which rounds twice and may go beyond the
largest double. The text of a finite double stays far enough below it to be read, though not
always as the same double.
-/
namespace ApiDocs

namespace Json

open Double (Decimal magnitude_nonneg largestUnit largestTen overflowLimit)

private theorem overflowLimit_ge : 2 ^ 100 ≤ overflowLimit := by
  have hunit : (2 : ℚ) ^ 100 ≤ largestUnit := by
    rw [Double.largestUnit, ← zpow_natCast]
    exact zpow_le_zpow_right₀ (by norm_num) (by norm_num)
  rw [overflowLimit]
  linarith

private theorem overflowLimit_lt : overflowLimit < 10 * largestTen := by
  have hpow : ∀ {m n : ℕ}, 2 ^ 53 * 2 ^ m ≤ 10 * 10 ^ n →
      (2 : ℚ) ^ 53 * 2 ^ (m : ℤ) ≤ 10 * 10 ^ (n : ℤ) := by
    intro m n h
    rw [zpow_natCast, zpow_natCast]
    exact_mod_cast h
  have hlimit : 2 ^ 53 * largestUnit ≤ 10 * largestTen :=
    hpow (m := 971) (n := 308) (by decide +kernel)
  have hunit := Double.largestUnit_pos
  rw [overflowLimit]
  linarith

private theorem ten_pow_lt {n : Nat} (hn : n ≤ maxPower) : (10 : ℚ) ^ n < overflowLimit := by
  have hle : (10 : ℚ) ^ n ≤ largestTen := by
    rw [largestTen, ← zpow_natCast]
    exact zpow_le_zpow_right₀ (by norm_num) (by simp only [maxPower] at hn; omega)
  have hten := Double.largestTen_le
  have hunit := Double.largestUnit_pos
  rw [overflowLimit]
  linarith

private theorem exists_powerOfTen? {n : Nat} (hn : n ≤ maxPower) : ∃ p, powerOfTen? n = some p ∧
    p.magnitude ≤ 10 ^ n * (1 + 1 / 2 ^ 53) ∧ 1 / 2 ≤ p.magnitude := by
  obtain ⟨p, hp⟩ := Double.exists_ofNat? (n := 10 ^ n) (by
    push_cast
    exact ten_pow_lt hn)
  have hbounds := Double.magnitude_ofNat? (Nat.pow_pos (by decide)) hp
  push_cast at hbounds
  refine ⟨p, ?_, hbounds⟩
  rw [powerOfTen?, if_pos hn]
  exact hp

private theorem word_le {n : Nat} (hn : n ≤ wordLimit) : (n : ℚ) ≤ 2 ^ 64 := by
  have hle : n ≤ 2 ^ 64 := Nat.le_trans hn (by decide)
  exact_mod_cast hle

section Scale

variable {x : Double} {exponent : Int}

private theorem exists_scaleByTen_up (hexponent : 0 ≤ exponent) (hmax : exponent ≤ maxPower)
    (hx : x.magnitude * (10 ^ exponent * (1 + 1 / 2 ^ 53)) < overflowLimit) :
    ∃ y, scaleByTen x exponent = some y := by
  obtain ⟨n, rfl⟩ := Int.eq_ofNat_of_zero_le hexponent
  obtain ⟨p, hp, hupper, _⟩ := exists_powerOfTen? (Int.ofNat_le.mp hmax)
  rw [zpow_natCast] at hx
  obtain ⟨y, hy⟩ := Double.exists_mul (lt_of_le_of_lt
    (mul_le_mul_of_nonneg_left hupper (magnitude_nonneg x)) hx)
  by_cases hzero : x.isZero
  · exact ⟨x, by rw [scaleByTen, if_pos hzero]⟩
  · refine ⟨y, ?_⟩
    rw [scaleByTen, if_neg hzero, if_pos hexponent, Int.toNat_natCast, hp]
    exact hy

private theorem exists_scaleByTen_down (hexponent : exponent < 0) (hx : x.magnitude ≤ 2 ^ 65) :
    ∃ y, scaleByTen x exponent = some y := by
  have hlimit := overflowLimit_ge
  have hdivide : ∀ {x : Double} {n : Nat}, n ≤ maxPower → x.magnitude ≤ 2 ^ 70 →
      ∃ p, powerOfTen? n = some p ∧ ∃ y, x.div p = some y ∧ y.magnitude ≤ 4 * x.magnitude + 1 := by
    intro x n hn hx
    obtain ⟨p, hp, _, hlower⟩ := exists_powerOfTen? hn
    exact ⟨p, hp, Double.exists_div hlower (by linarith)⟩
  by_cases hzero : x.isZero
  · exact ⟨x, by rw [scaleByTen, if_pos hzero]⟩
  rw [scaleByTen, if_neg hzero, if_neg (by omega)]
  split
  · next hnear =>
    obtain ⟨p, hp, y, hy, _⟩ := hdivide (x := x) (n := (-exponent).toNat)
      (by simp only [maxPower] at hnear ⊢; omega) (by linarith)
    exact ⟨y, by rw [hp]; exact hy⟩
  · obtain ⟨p, hp, y, hy, hbound⟩ := hdivide (x := x) (n := maxPower) (Nat.le_refl _) (by linarith)
    rw [hp, Option.bind_eq_bind, Option.bind_some, hy]
    simp only [Option.bind_some]
    split
    · next hnear =>
      obtain ⟨p', hp', z, hz, _⟩ := hdivide (x := y) (n := (-(exponent + maxPower)).toNat)
        (by simp only [maxPower] at hnear ⊢; omega) (by linarith)
      exact ⟨z, by rw [hp']; exact hz⟩
    · exact ⟨_, rfl⟩

private theorem exists_scaleByTen {n : Nat} (hn : n ≤ wordLimit) (hx : Double.ofNat? n = some x)
    (h : (n : ℚ) * 10 ^ exponent * (1 + 1 / 2 ^ 53) ^ 2 < overflowLimit) :
    ∃ y, scaleByTen x exponent = some y := by
  by_cases hzero : n = 0
  · have hxzero : x.isZero := by
      rw [hzero] at hx
      cases hx
      rfl
    exact ⟨x, by rw [scaleByTen, if_pos hxzero]⟩
  obtain ⟨hupper, _⟩ := Double.magnitude_ofNat? (Nat.pos_of_ne_zero hzero) hx
  by_cases hsign : exponent < 0
  · apply exists_scaleByTen_down hsign
    have hsmall := word_le hn
    linarith
  · have hone : (1 : ℚ) ≤ n := by exact_mod_cast Nat.pos_of_ne_zero hzero
    have hten : (0 : ℚ) < 10 ^ exponent := zpow_pos (by norm_num) _
    apply exists_scaleByTen_up (by omega)
    · -- the power of ten alone is below the limit
      by_contra hgt
      have hpow : 10 * largestTen ≤ 10 ^ exponent := by
        rw [largestTen, mul_comm, ← zpow_add_one₀ (by norm_num)]
        exact zpow_le_zpow_right₀ (by norm_num) (by simp only [maxPower] at hgt; omega)
      have hoverflow := overflowLimit_lt
      have hvalue : (10 : ℚ) ^ exponent ≤ n * 10 ^ exponent := le_mul_of_one_le_left hten.le hone
      have hrounded : (n : ℚ) * 10 ^ exponent ≤ n * 10 ^ exponent * (1 + 1 / 2 ^ 53) ^ 2 := by
        apply le_mul_of_one_le_right (by positivity)
        norm_num
      linarith
    · calc x.magnitude * (10 ^ exponent * (1 + 1 / 2 ^ 53))
          ≤ (n : ℚ) * (1 + 1 / 2 ^ 53) * (10 ^ exponent * (1 + 1 / 2 ^ 53)) := by gcongr
        _ = (n : ℚ) * 10 ^ exponent * (1 + 1 / 2 ^ 53) ^ 2 := by ring
        _ < overflowLimit := h

end Scale

namespace NumberToken

/-- The number that a token writes, without its sign. -/
def magnitude (t : NumberToken) : ℚ :=
  Nat.ofDigitChars 10 (t.whole ++ t.fraction.getD []) 0 *
    10 ^ (t.exponent.getD 0 - ((t.fraction.getD []).length : ℤ))

private theorem takeDigits_spec {n : Nat} (hn : n ≤ wordLimit) (cs : List Char) :
    (takeDigits n cs).1 ≤ wordLimit ∧ (takeDigits n cs).2 ≤ cs.length ∧
      (takeDigits n cs).1 * 10 ^ (cs.length - (takeDigits n cs).2) ≤ Nat.ofDigitChars 10 cs n := by
  induction cs generalizing n with
  | nil => simp [takeDigits, hn]
  | cons c cs ih =>
    by_cases hfits : n * 10 + digitValue c ≤ wordLimit
    · obtain ⟨hlimit, hlength, hle⟩ := ih hfits
      have hnext : Nat.ofDigitChars 10 (c :: cs) n =
          Nat.ofDigitChars 10 cs (n * 10 + digitValue c) := by
        rw [Nat.ofDigitChars_cons, digitValue, Nat.mul_comm]
      simp only [takeDigits, hfits, if_true, List.length_cons, hnext, Nat.add_sub_add_right]
      exact ⟨hlimit, Nat.succ_le_succ hlength, hle⟩
    · simp only [takeDigits, hfits, if_false, Nat.sub_zero]
      refine ⟨hn, Nat.zero_le _, ?_⟩
      rw [Nat.ofDigitChars_eq_ofDigitChars_zero, Nat.mul_comm]
      exact Nat.le_add_right _ _

private theorem double?_eq {t : NumberToken}
    (hwhole : Nat.ofDigitChars 10 t.whole 0 ≤ wordLimit) {n decimals : Nat}
    (htaken : takeDigits (Nat.ofDigitChars 10 t.whole 0) (t.fraction.getD []) = (n, decimals)) :
    t.double? = (Double.ofNat? n).bind fun x =>
      (scaleByTen x (t.exponent.getD 0 - decimals)).bind fun x =>
        some (if t.negative then x.neg else x) := by
  simp only [double?, takeDigits_eq 0 t.whole hwhole, htaken, Nat.sub_self, Nat.cast_zero,
    Int.zero_sub, ← sub_eq_neg_add]
  rfl

/-- A number that may be rounded up twice without being too large is read. -/
theorem exists_double? {t : NumberToken} (hwhole : Nat.ofDigitChars 10 t.whole 0 ≤ wordLimit)
    (h : t.magnitude * (1 + 1 / 2 ^ 53) ^ 2 < overflowLimit) : ∃ x, t.double? = some x := by
  obtain ⟨hlimit, hlength, hle⟩ := takeDigits_spec hwhole (t.fraction.getD [])
  cases htaken : takeDigits (Nat.ofDigitChars 10 t.whole 0) (t.fraction.getD []) with
  | mk n decimals =>
    rw [htaken] at hlimit hlength hle
    dsimp only at hlimit hlength hle
    have hvalue : (n : ℚ) * 10 ^ (t.exponent.getD 0 - (decimals : ℤ)) ≤ t.magnitude := by
      have hcast : ((n * 10 ^ ((t.fraction.getD []).length - decimals) : ℕ) : ℚ) ≤
          (Nat.ofDigitChars 10 (t.whole ++ t.fraction.getD []) 0 : ℕ) := by
        rw [Nat.ofDigitChars_append]
        exact Nat.cast_le.mpr hle
      rw [Nat.cast_mul, Nat.cast_pow, Nat.cast_ofNat, ← zpow_natCast] at hcast
      have hpow : (10 : ℚ) ^ (t.exponent.getD 0 - (decimals : ℤ)) =
          10 ^ (((t.fraction.getD []).length - decimals : ℕ) : ℤ) *
            10 ^ (t.exponent.getD 0 - ((t.fraction.getD []).length : ℤ)) := by
        rw [← zpow_add₀ (by norm_num)]
        congr 1
        omega
      rw [hpow, ← mul_assoc, magnitude]
      exact mul_le_mul_of_nonneg_right hcast (zpow_nonneg (by norm_num) _)
    have hrounded : (n : ℚ) * 10 ^ (t.exponent.getD 0 - (decimals : ℤ)) * (1 + 1 / 2 ^ 53) ^ 2 <
        overflowLimit :=
      lt_of_le_of_lt (mul_le_mul_of_nonneg_right hvalue (by positivity)) h
    obtain ⟨x, hx⟩ : ∃ x, Double.ofNat? n = some x := by
      apply Double.exists_ofNat?
      have hsmall := word_le hlimit
      have hoverflow := overflowLimit_ge
      linarith
    obtain ⟨y, hy⟩ := exists_scaleByTen hlimit hx hrounded
    refine ⟨if t.negative then y.neg else y, ?_⟩
    rw [double?_eq hwhole htaken, hx, Option.bind_some, hy, Option.bind_some]

end NumberToken

/-- Digits that start with no zero. -/
structure Significant (digits : List Char) : Prop where
  nonempty : digits ≠ []
  head : digits.head? ≠ some '0'
  isDigit : ∀ c ∈ digits, c.isDigit

theorem significant_shortest {x : Double} (hx : x.significand ≠ 0) :
    Significant x.shortest.digits := by
  obtain ⟨a, ha, hdigits⟩ := Double.exists_digits_shortest hx
  obtain ⟨k, hk⟩ := Double.exists_zeros (Nat.toDigits 10 a)
  have hhead := Text.head?_toDigits_ne ha
  rw [hdigits]
  refine ⟨?_, ?_, ?_⟩
  · intro hnil
    rw [hnil, List.nil_append] at hk
    cases k with
    | zero => exact Nat.toDigits_ne_nil hk
    | succ k =>
      rw [hk] at hhead
      exact hhead rfl
  · intro hzero
    obtain ⟨ds, hds⟩ := List.head?_eq_some_iff.mp hzero
    rw [hk, hds] at hhead
    exact hhead rfl
  · intro c hc
    apply Text.isDigit_of_mem_toDigits (n := a) c
    rw [hk]
    exact List.mem_append_left _ hc

private theorem zero_isDigit : ∀ c ∈ ['0'], c.isDigit := by
  intro c hc
  rw [List.mem_singleton.mp hc]
  rfl

private theorem zeros_isDigit (n : Int) : ∀ c ∈ Double.zeros n, c.isDigit := by
  intro c hc
  rw [List.eq_of_mem_replicate hc]
  rfl

private theorem ofDigitChars_lt {digits : List Char} (h : ∀ c ∈ digits, c.isDigit) (n : Nat) :
    Nat.ofDigitChars 10 digits n < (n + 1) * 10 ^ digits.length := by
  induction digits generalizing n with
  | nil => simp
  | cons d digits ih =>
    obtain ⟨hd, hrest⟩ := List.forall_mem_cons.mp h
    have hvalue : d.toNat - '0'.toNat ≤ 9 := by
      have hbound := (Char.isDigit_iff_toNat.mp hd).2
      simp only [Char.reduceToNat] at hbound ⊢
      omega
    rw [Nat.ofDigitChars_cons, List.length_cons, Nat.pow_succ', ← Nat.mul_assoc]
    apply Nat.lt_of_lt_of_le (ih hrest _)
    apply Nat.mul_le_mul_right
    omega

private theorem ofDigitChars_le_wordLimit {digits : List Char} (h : ∀ c ∈ digits, c.isDigit)
    (hlength : digits.length ≤ 16) : Nat.ofDigitChars 10 digits 0 ≤ wordLimit := by
  have hlt := ofDigitChars_lt h 0
  have hpow : 10 ^ digits.length ≤ 10 ^ 16 := Nat.pow_le_pow_right (by decide) hlength
  rw [wordLimit]
  omega

namespace NumberToken

def plain (negative : Bool) (d : Decimal) : NumberToken :=
  if d.point ≤ 0 then ⟨negative, ['0'], some (Double.zeros (-d.point) ++ d.digits), none⟩
  else if d.digits.length ≤ d.point then
    ⟨negative, d.digits ++ Double.zeros (d.point - d.digits.length), some ['0'], none⟩
  else ⟨negative, d.digits.take d.point.toNat, some (d.digits.drop d.point.toNat), none⟩

def scientific (negative : Bool) (d : Decimal) : NumberToken :=
  ⟨negative, d.digits.take 1, if d.digits.length ≤ 1 then none else some (d.digits.drop 1),
    some (d.point - 1)⟩

/-- The token that the text of a double is. -/
def ofDouble (x : Double) : NumberToken :=
  if x.isZero then ⟨x.negative, ['0'], some ['0'], none⟩
  else if -5 < x.shortest.point && x.shortest.point ≤ 16 then plain x.negative x.shortest
  else scientific x.negative x.shortest

section Value

variable {negative : Bool} {d : Decimal}

private theorem magnitude_plain : (plain negative d).magnitude = d.value := by
  rw [plain, Decimal.value]
  split
  · have hlength : (Double.zeros (-d.point)).length = (-d.point).toNat := List.length_replicate
    have hpoint : (0 : Int) - ((-d.point).toNat + d.digits.length : Nat) =
        d.point - d.digits.length := by omega
    simp only [magnitude, Option.getD_some, Option.getD_none, List.length_append, hlength, hpoint]
    rw [List.cons_append, Nat.ofDigitChars_cons, List.nil_append, Nat.ofDigitChars_append,
      Double.zeros, Nat.ofDigitChars_replicate_zero]
    simp
  split
  · have hpow : (10 : ℚ) ^ (d.point - d.digits.length) = 10 ^ (d.point - d.digits.length).toNat := by
      rw [← zpow_natCast]
      congr 1
      omega
    simp only [magnitude, Option.getD_some, Option.getD_none, Nat.ofDigitChars_append, Double.zeros,
      Nat.ofDigitChars_replicate_zero, hpow, Nat.ofDigitChars_cons, Nat.ofDigitChars_nil]
    push_cast
    norm_num
    ring
  · simp only [magnitude, Option.getD_some, Option.getD_none, List.take_append_drop,
      List.length_drop]
    congr 2
    omega

private theorem magnitude_scientific (hd : d.digits ≠ []) :
    (scientific negative d).magnitude = d.value := by
  have hlength := List.length_pos_iff.mpr hd
  have hfraction : (scientific negative d).fraction.getD [] = d.digits.drop 1 := by
    rw [scientific]
    dsimp only
    split
    · next hle => exact (List.drop_eq_nil_of_le hle).symm
    · rfl
  rw [magnitude, hfraction, scientific, Decimal.value]
  simp only [List.take_append_drop, Option.getD_some, List.length_drop]
  congr 2
  omega

theorem magnitude_ofDouble {x : Double} (hx : x.significand ≠ 0) :
    (ofDouble x).magnitude = x.shortest.value := by
  rw [ofDouble, if_neg (by simpa [Double.isZero] using hx)]
  split
  · exact magnitude_plain
  · exact magnitude_scientific (significant_shortest hx).nonempty

private theorem whole_plain_le (hd : Significant d.digits) (hpoint : d.point ≤ 16) :
    Nat.ofDigitChars 10 (plain negative d).whole 0 ≤ wordLimit := by
  rw [plain]
  split
  · exact @ofDigitChars_le_wordLimit ['0'] zero_isDigit (by decide)
  split
  · apply ofDigitChars_le_wordLimit
    · exact List.forall_mem_append.mpr ⟨hd.isDigit, zeros_isDigit _⟩
    · simp only [List.length_append, Double.zeros, List.length_replicate]
      omega
  · apply ofDigitChars_le_wordLimit
    · exact fun c hc => hd.isDigit c (List.mem_of_mem_take hc)
    · simp only [List.length_take]
      omega

private theorem whole_scientific_le (hd : Significant d.digits) :
    Nat.ofDigitChars 10 (scientific negative d).whole 0 ≤ wordLimit := by
  apply ofDigitChars_le_wordLimit
  · exact fun c hc => hd.isDigit c (List.mem_of_mem_take hc)
  · simp only [scientific, List.length_take]
    omega

private theorem whole_ofDouble_le (x : Double) :
    Nat.ofDigitChars 10 (ofDouble x).whole 0 ≤ wordLimit := by
  rw [ofDouble]
  split
  · exact @ofDigitChars_le_wordLimit ['0'] zero_isDigit (by decide)
  · next hzero =>
    have hd := significant_shortest (x := x) (by simpa [Double.isZero] using hzero)
    split
    · next hplain =>
      apply whole_plain_le hd
      simp only [Bool.and_eq_true, decide_eq_true_eq] at hplain
      exact hplain.2
    · exact whole_scientific_le hd

end Value

private theorem double?_largest : ∀ negative, ∀ m ∈ [2 ^ 53 - 1, 2 ^ 53 - 2],
    (ofDouble ⟨negative, m, 971⟩).double?.isSome := by
  decide +kernel

/-- Every finite double is read from its text. -/
theorem exists_double?_ofDouble {x : Double} (h : x.IsFinite) :
    ∃ y, (ofDouble x).double? = some y := by
  by_cases hx : x.significand = 0
  · have hzero : ofDouble x = ⟨x.negative, ['0'], some ['0'], none⟩ := by
      rw [ofDouble, if_pos (by simpa [Double.isZero] using hx)]
    rw [hzero]
    cases x.negative <;> exact ⟨_, rfl⟩
  by_cases htop : x.exponent = 971 → x.significand ≤ 2 ^ 53 - 3
  · apply exists_double? (whole_ofDouble_le x)
    rw [magnitude_ofDouble hx]
    exact Double.value_shortest_lt h hx htop
  · -- rounding up twice would go too far, but it is not needed for these
    push Not at htop
    have hsignificand := h.significand_lt
    have hlargest := double?_largest x.negative x.significand (by
      simp only [List.mem_cons, List.not_mem_nil, or_false]
      omega)
    rw [← htop.1] at hlargest
    exact Option.isSome_iff_exists.mp hlargest

end NumberToken

section Text

variable {rest : List Char}

private theorem unsigned?_plain (negative : Bool) (whole fraction : List Char)
    (hwhole : whole? (whole ++ '.' :: (fraction ++ rest)) = some (whole, '.' :: (fraction ++ rest)))
    (hne : fraction ≠ []) (hfraction : ∀ c ∈ fraction, c.isDigit) (hrest : EndsNumber rest) :
    unsigned? negative (whole ++ '.' :: (fraction ++ rest)) =
      some (⟨negative, whole, some fraction, none⟩, rest) := by
  simp [unsigned?, hwhole, fraction?_digits hne hfraction hrest.endsDigits, hrest.exponent?_eq]

private theorem unsigned?_plainText (negative : Bool) {d : Decimal} (hd : Significant d.digits)
    (hrest : EndsNumber rest) : unsigned? negative (Double.plainText d ++ rest) =
      some (NumberToken.plain negative d, rest) := by
  have hpoint : ∀ cs, EndsDigits ('.' :: cs) := fun cs => endsDigits_cons (by decide)
  rw [Double.plainText, NumberToken.plain]
  split
  · rw [List.cons_append, List.cons_append, List.cons_append, List.cons_append]
    exact unsigned?_plain negative ['0'] _ (whole?_zero (hpoint _))
      (by simp [hd.nonempty]) (List.forall_mem_append.mpr ⟨zeros_isDigit _, hd.isDigit⟩) hrest
  split
  · rw [List.append_assoc]
    refine unsigned?_plain negative _ ['0'] (whole?_digits ?_ ?_ ?_ (hpoint _))
      (by decide) zero_isDigit hrest
    · simp [hd.nonempty]
    · rw [List.head?_append_of_ne_nil _ hd.nonempty]
      exact hd.head
    · exact List.forall_mem_append.mpr ⟨hd.isDigit, zeros_isDigit _⟩
  · next hpositive hinside =>
    rw [List.append_assoc, List.cons_append]
    obtain ⟨first, others, hdigits⟩ := List.exists_cons_of_ne_nil hd.nonempty
    obtain ⟨n, hn⟩ : ∃ n, d.point.toNat = n + 1 := ⟨d.point.toNat - 1, by omega⟩
    refine unsigned?_plain negative _ _ (whole?_digits ?_ ?_ ?_ (hpoint _)) ?_ ?_ hrest
    · rw [hdigits, hn, List.take_succ_cons]
      exact List.cons_ne_nil _ _
    · have hhead := hd.head
      rw [hdigits] at hhead
      rw [hdigits, hn, List.take_succ_cons]
      exact hhead
    · exact fun c hc => hd.isDigit c (List.mem_of_mem_take hc)
    · rw [Ne, List.drop_eq_nil_iff]
      omega
    · exact fun c hc => hd.isDigit c (List.mem_of_mem_drop hc)

private theorem exponent?_text (e : Int) (hrest : EndsDigits rest) :
    exponent? ('e' :: ((if e < 0 then ['-'] else ['+']) ++ (Nat.toDigits 10 e.natAbs ++ rest))) =
      some (some e, rest) := by
  have hdigits := digits1?_digits Nat.toDigits_ne_nil
    (Text.isDigit_of_mem_toDigits (n := e.natAbs)) hrest
  by_cases hnegative : e < 0
  · have hvalue : -(e.natAbs : Int) = e := by omega
    rw [if_pos hnegative]
    simp only [exponent?, List.singleton_append, hdigits, Option.map_some, natOfDigits_toDigits,
      hvalue]
    rfl
  · have hvalue : (e.natAbs : Int) = e := by omega
    rw [if_neg hnegative]
    simp only [exponent?, List.singleton_append, hdigits, Option.map_some, natOfDigits_toDigits,
      hvalue]
    rfl

private def mantissa : List Char → List Char
  | first :: second :: others => first :: '.' :: second :: others
  | short => short

private theorem unsigned?_mantissa (negative : Bool) {digits tail : List Char} {e : Int}
    (hd : Significant digits) (htail : tail.head? = some 'e')
    (hexponent : exponent? tail = some (some e, rest)) :
    unsigned? negative (mantissa digits ++ tail) =
      some (⟨negative, digits.take 1, if digits.length ≤ 1 then none else some (digits.drop 1),
        some e⟩, rest) := by
  have hends : EndsDigits tail := by
    intro c hc
    rw [htail] at hc
    cases hc
    decide
  obtain ⟨first, others, rfl⟩ := List.exists_cons_of_ne_nil hd.nonempty
  obtain ⟨hfirst, hothers⟩ := List.forall_mem_cons.mp hd.isDigit
  have hwhole : ∀ {rest}, EndsDigits rest → whole? (first :: rest) = some ([first], rest) :=
    whole?_digits (List.cons_ne_nil first []) (by simpa using hd.head) (by simpa using hfirst)
  cases others with
  | nil =>
    have hfraction : fraction? tail = some (none, tail) := fraction?_of_ne (by simp [htail])
    simp [unsigned?, mantissa, hwhole hends, hfraction, hexponent]
  | cons second others =>
    have hfraction := fraction?_digits (List.cons_ne_nil _ _) hothers hends
    rw [List.cons_append] at hfraction
    have hpoint : EndsDigits ('.' :: second :: (others ++ tail)) := endsDigits_cons (by decide)
    simp [unsigned?, mantissa, hwhole hpoint, hfraction, hexponent]

private theorem unsigned?_exponentText (negative : Bool) {d : Decimal} (hd : Significant d.digits)
    (hrest : EndsNumber rest) : unsigned? negative (Double.exponentText doubleStyle d ++ rest) =
      some (NumberToken.scientific negative d, rest) := by
  have htext : Double.exponentText doubleStyle d ++ rest = mantissa d.digits ++
      ('e' :: ((if d.point - 1 < 0 then ['-'] else ['+']) ++
        (Nat.toDigits 10 (d.point - 1).natAbs ++ rest))) := by
    rw [Double.exponentText, doubleStyle]
    simp only [if_true, List.append_assoc, List.cons_append]
    rfl
  rw [htext]
  exact unsigned?_mantissa negative hd rfl (exponent?_text (d.point - 1) hrest.endsDigits)

private theorem isDigit_of_unsigned? {negative : Bool} {cs : List Char}
    {r : NumberToken × List Char} (h : unsigned? negative cs = some r) :
    ∃ d ds, cs = d :: ds ∧ d.isDigit := by
  obtain ⟨⟨whole, front⟩, hwhole, _⟩ := Option.bind_eq_some_iff.mp h
  cases cs with
  | nil => cases hwhole
  | cons d ds =>
    refine ⟨d, ds, rfl, ?_⟩
    by_contra hd
    have hzero : d ≠ '0' := by
      rintro rfl
      exact hd rfl
    simp [whole?.eq_def, hzero, digits1?, hd] at hwhole

private def unsignedText (x : Double) : List Char :=
  if x.isZero then ['0', '.', '0']
  else if -5 < x.shortest.point && x.shortest.point ≤ 16 then Double.plainText x.shortest
  else Double.exponentText doubleStyle x.shortest

private theorem text_eq (x : Double) :
    x.text doubleStyle = (if x.negative then ['-'] else []) ++ unsignedText x := by
  rw [Double.text, unsignedText]
  split <;> rfl

private theorem unsigned?_unsignedText (x : Double) (hrest : EndsNumber rest) :
    unsigned? x.negative (unsignedText x ++ rest) = some (NumberToken.ofDouble x, rest) := by
  rw [unsignedText, NumberToken.ofDouble]
  split
  · exact unsigned?_plain x.negative ['0'] ['0'] (whole?_zero (endsDigits_cons (by decide)))
      (by decide) zero_isDigit hrest
  next hzero =>
  have hd := significant_shortest (x := x) (by simpa [Double.isZero] using hzero)
  split
  · exact unsigned?_plainText x.negative hd hrest
  · exact unsigned?_exponentText x.negative hd hrest

private theorem exists_digit_unsignedText (x : Double) :
    ∃ d ds, unsignedText x = d :: ds ∧ d.isDigit := by
  have hends : EndsNumber [] := by simp [EndsNumber]
  have hread := unsigned?_unsignedText x hends
  rw [List.append_nil] at hread
  exact isDigit_of_unsigned? hread

/-- The text of a double is one token, whatever follows it. -/
theorem numberToken?_text (x : Double) (hrest : EndsNumber rest) :
    numberToken? (x.text doubleStyle ++ rest) = some (NumberToken.ofDouble x, rest) := by
  have hunsigned := unsigned?_unsignedText x hrest
  obtain ⟨d, ds, htext, hd⟩ := exists_digit_unsignedText x
  rw [htext, List.cons_append] at hunsigned
  rw [text_eq, htext, List.append_assoc, List.cons_append, numberToken?_sign _ hd, hunsigned]

private theorem exists_cons_text (x : Double) :
    ∃ c cs, x.text doubleStyle = c :: cs ∧ (c = '-' ∨ c.isDigit) := by
  obtain ⟨d, ds, htext, hd⟩ := exists_digit_unsignedText x
  rw [text_eq, htext]
  cases x.negative with
  | true => exact ⟨'-', d :: ds, rfl, .inl rfl⟩
  | false => exact ⟨d, ds, rfl, .inr hd⟩

private theorem integer?_ofDouble (x : Double) : (NumberToken.ofDouble x).integer? = none := by
  have hmark : (NumberToken.ofDouble x).fraction.isNone = false ∨
      (NumberToken.ofDouble x).exponent.isNone = false := by
    rw [NumberToken.ofDouble, NumberToken.plain, NumberToken.scientific]
    repeat' split
    all_goals simp
  rcases hmark with hmark | hmark <;> simp [NumberToken.integer?, hmark]

end Text

end Json

/-- The numbers that a text can give. -/
def Number.IsFinite : Number → Prop
  | .int n => Number.isExact n
  | .double x => x.IsFinite

/-- The number that the text of a number is read as. -/
def Number.reread : Number → Number
  | .int n => .int n
  | .double x => .double ((Json.NumberToken.ofDouble x).double?.getD x)

namespace Json

theorem exists_cons_numberText (n : Number) :
    ∃ c cs, numberText n = c :: cs ∧ (c = '-' ∨ c.isDigit) := by
  cases n with
  | double x => exact exists_cons_text x
  | int n =>
    obtain ⟨d, ds, hds⟩ := List.exists_cons_of_ne_nil
      (Nat.toDigits_ne_nil (b := 10) (n := n.natAbs))
    have hd : d.isDigit := Text.isDigit_of_mem_toDigits (n := n.natAbs) d (by simp [hds])
    rw [numberText, intText, hds]
    split
    · exact ⟨'-', d :: ds, rfl, .inl rfl⟩
    · exact ⟨d, ds, rfl, .inr hd⟩

/-- A number that a text can give is read from its text, whatever follows it. -/
theorem number?_numberText {n : Number} (h : n.IsFinite) {rest : List Char}
    (hrest : EndsNumber rest) :
    number? (numberText n ++ rest) = some (.number n.reread, rest) := by
  cases n with
  | int n => exact number?_intText h hrest
  | double x =>
    obtain ⟨y, hy⟩ := NumberToken.exists_double?_ofDouble h
    simp [number?, numberText, numberToken?_text x hrest, NumberToken.number?, integer?_ofDouble,
      Number.reread, hy]

end Json
end ApiDocs
