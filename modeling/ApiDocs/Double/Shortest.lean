import ApiDocs.Double.Basic
/-!
# Shortest decimal text

The fewest decimal digits that read back as the same double, and of the decimals with that many
digits the nearest one. The digits are then laid out plainly or with an exponent.
-/
namespace ApiDocs.Double

/-- Significant decimal digits and the position of the point before them: the value is
`0.d₁d₂… · 10 ^ point`. -/
structure Decimal where
  digits : List Char
  point : Int
deriving Repr, BEq, DecidableEq

/-- The rounding interval of a nonzero double in quarter units of its last bit: its width below
and its width above the value `4 · significand`. Below a power of two the gap is half as wide. -/
def lowerWidth (x : Double) : Nat :=
  if x.significand = hiddenBit && x.exponent > minExponent then 1 else 2

/-- The number of decimal digits before the point of a nonzero double, negative for the zeros
after the point: the least `k` with value below `10 ^ k`. -/
def pointPosition (x : Double) : Int :=
  let bits : Int := (x.significand.log2 : Int) + x.exponent
  let guess : Int := bits * 30103 / 100000
  let below (k : Int) : Bool :=
    x.significand * upScale x.exponent * downTen k < upTen k * downScale x.exponent
  ((List.range 4).map fun i : Nat => guess + (i : Int)).find? below |>.getD (guess + 4)

/-- The multiple of `10 ^ (point - count)` that reads back as `x`, if one of the two neighbours
of `x` on that grid does: the nearer one, of two equally near ones the even one. -/
def gridPoint? (x : Double) (point : Int) (count : Nat) : Option Nat :=
  let shift : Int := count - point
  let quarter : Int := x.exponent - 2
  let num := upScale quarter * upTen shift
  let den := downScale quarter * downTen shift
  let value := 4 * x.significand * num
  let low := (4 * x.significand - lowerWidth x) * num
  let high := (4 * x.significand + 2) * num
  let even := x.significand % 2 == 0
  let hits (a : Nat) : Bool :=
    if even then low ≤ a * den && a * den ≤ high else low < a * den && a * den < high
  let a := value / den
  let below := value - a * den
  let above := (a + 1) * den - value
  match hits a, hits (a + 1) with
  | true, true => if below < above || (below == above && a % 2 == 0) then some a else some (a + 1)
  | true, false => some a
  | false, true => some (a + 1)
  | false, false => none

/-- The digits of the first grid that holds a decimal reading back as `x`. -/
def searchDigits (x : Double) (point : Int) : (attempts count : Nat) → Nat × Nat
  | 0, count => (x.significand, count)
  | attempts + 1, count =>
    match gridPoint? x point count with
    | some a => (a, count)
    | none => searchDigits x point attempts (count + 1)

def dropZeros (digits : List Char) : List Char :=
  (digits.reverse.dropWhile (· == '0')).reverse

/-- The shortest decimal that reads back as a nonzero double. Seventeen digits always do. -/
def shortest (x : Double) : Decimal :=
  let point := pointPosition x
  let (a, count) := searchDigits x point 17 1
  let digits := Nat.toDigits 10 a
  ⟨dropZeros digits, if digits.length > count then point + 1 else point⟩

/-- How an exponent is written: with a plus sign or without. -/
structure Style where
  plusSign : Bool
deriving Repr, BEq, DecidableEq

def zeros (n : Int) : List Char :=
  List.replicate n.toNat '0'

/-- Digits with a point in their midst, or with zeros between them and the point. -/
def plainText (d : Decimal) : List Char :=
  let count : Int := d.digits.length
  if d.point ≤ 0 then '0' :: '.' :: zeros (-d.point) ++ d.digits
  else if count ≤ d.point then d.digits ++ zeros (d.point - count) ++ ['.', '0']
  else d.digits.take d.point.toNat ++ '.' :: d.digits.drop d.point.toNat

/-- One digit before the point, the others after it, and an exponent. -/
def exponentText (style : Style) (d : Decimal) : List Char :=
  let mantissa :=
    match d.digits with
    | first :: second :: rest => first :: '.' :: second :: rest
    | short => short
  let e := d.point - 1
  let sign := if e < 0 then ['-'] else if style.plusSign then ['+'] else []
  mantissa ++ 'e' :: sign ++ Nat.toDigits 10 e.natAbs

/-- The text of a double: plain from `0.00001` up to sixteen digits before the point, else with
an exponent. Plain text always has a digit after the point. -/
def text (style : Style) (x : Double) : List Char :=
  let sign := if x.negative then ['-'] else []
  if x.isZero then sign ++ ['0', '.', '0']
  else
    let d := x.shortest
    sign ++ if -5 < d.point && d.point ≤ 16 then plainText d else exponentText style d

end ApiDocs.Double
