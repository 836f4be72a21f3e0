/-!
# Double-precision numbers

Finite binary numbers with 53 significant bits, in exact integer arithmetic. `Double.nearest`
rounds a fraction to the nearest such number, a tie to the one with an even significand; products
and quotients are rounded once, from their exact value.
-/
namespace ApiDocs

/-- The number `± significand · 2 ^ exponent`. Zero keeps its sign. -/
structure Double where
  negative : Bool
  significand : Nat
  exponent : Int
deriving Repr, BEq, DecidableEq, Inhabited

namespace Double

/-- The exponent of the smallest numbers, and the largest exponent of a finite number. -/
def minExponent : Int := -1074
def maxExponent : Int := 971

/-- The significands of normal numbers lie from this one up to its double, exclusive. -/
def hiddenBit : Nat := 4503599627370496

def zero (negative : Bool) : Double :=
  ⟨negative, 0, minExponent⟩

def isZero (x : Double) : Bool :=
  x.significand == 0

def neg (x : Double) : Double :=
  { x with negative := !x.negative }

/-- The positive part `2 ^ e` of a power of two, as a factor of a numerator. -/
def upScale (e : Int) : Nat := Nat.pow 2 e.toNat
/-- The negative part `2 ^ (-e)` of a power of two, as a factor of a denominator. -/
def downScale (e : Int) : Nat := Nat.pow 2 (-e).toNat

/-- The positive part of a power of ten. -/
def upTen (e : Int) : Nat := Nat.pow 10 e.toNat
/-- The negative part of a power of ten. -/
def downTen (e : Int) : Nat := Nat.pow 10 (-e).toNat

/-- The exponent at which `num / den` has 53 significant bits, but at least the smallest one. -/
def targetExponent (num den : Nat) : Int :=
  let low : Int := (num.log2 : Int) - (den.log2 : Int) - 53
  let fits := num * downScale low < 2 * hiddenBit * (den * upScale low)
  max minExponent (if fits then low else low + 1)

/-- The quotient of two numbers, rounded to the nearest integer, a tie to the even one. -/
def roundQuotient (num den : Nat) : Nat :=
  let q := num / den
  let r := num % den
  if 2 * r > den || (2 * r == den && q % 2 == 1) then q + 1 else q

/-- The double nearest to `± num / den`; none if that is beyond the largest finite one. -/
def nearest (negative : Bool) (num den : Nat) : Option Double :=
  if num = 0 then some (zero negative)
  else
    let e := targetExponent num den
    let m := roundQuotient (num * downScale e) (den * upScale e)
    let (m, e) := if m = 2 * hiddenBit then (hiddenBit, e + 1) else (m, e)
    if e > maxExponent then none else some ⟨negative, m, e⟩

/-- The double nearest to a natural number. -/
def ofNat? (n : Nat) : Option Double :=
  nearest false n 1

/-- The rounded product; none if it is too large. -/
def mul (x y : Double) : Option Double :=
  let e := x.exponent + y.exponent
  nearest (x.negative != y.negative) (x.significand * y.significand * upScale e) (downScale e)

/-- The rounded quotient of `x` by a nonzero `y`; none if it is too large. -/
def div (x y : Double) : Option Double :=
  let e := x.exponent - y.exponent
  nearest (x.negative != y.negative) (x.significand * upScale e) (y.significand * downScale e)

/-- The double nearest to the decimal `± digits · 10 ^ exponent`; none if it is too large. The
first tests settle, without a large power, the decimals far outside the range. -/
def ofDecimal (negative : Bool) (digits : Nat) (exponent : Int) : Option Double :=
  let size : Int := (Nat.toDigits 10 digits).length
  if digits = 0 then some (zero negative)
  else if exponent + size > 400 then none
  else if exponent + size < -400 then some (zero negative)
  else nearest negative (digits * upTen exponent) (downTen exponent)

end Double
end ApiDocs
