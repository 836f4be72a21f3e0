import ApiDocs.Json.Value
/-!
# Plain scalars

What a YAML text means when it stands without quotes: null, a truth value, an integer, a number
with a fraction, or itself. A run of digits after a superfluous zero is text.
-/
namespace ApiDocs.Yaml

/-- The meaning of a plain scalar. -/
inductive Plain where
  | null
  | bool (value : Bool)
  | int (value : Int)
  /-- An integer of more than 64 bits, but at most 128. -/
  | wideInt
  | double (value : Double)
  /-- Infinity, or no number at all. -/
  | notFinite
  | text
deriving Repr, BEq, DecidableEq

/-- The value of a digit in a radix up to 16. -/
def digit? (radix : Nat) (c : Char) : Option Nat :=
  let value :=
    if c.isDigit then c.toNat - '0'.toNat
    else if 'a' ≤ c && c ≤ 'f' then c.toNat - 'a'.toNat + 10
    else if 'A' ≤ c && c ≤ 'F' then c.toNat - 'A'.toNat + 10
    else 16
  if value < radix then some value else none

/-- The value of digits in a radix, continuing a number. -/
def digitsFrom? (radix : Nat) (n : Nat) : List Char → Option Nat
  | [] => some n
  | c :: cs => (digit? radix c).bind fun d => digitsFrom? radix (n * radix + d) cs

/-- The value of a nonempty run of digits in a radix. -/
def digits? (radix : Nat) (cs : List Char) : Option Nat :=
  if cs.isEmpty then none else digitsFrom? radix 0 cs

/-- The text without one sign in front. -/
def dropSign : List Char → List Char
  | '+' :: cs => cs
  | '-' :: cs => cs
  | cs => cs

/-- A zero before more digits, possibly after a sign: text, not a number. -/
def isPaddedDigits (cs : List Char) : Bool :=
  match dropSign cs with
  | '0' :: c :: rest => (c :: rest).all Char.isDigit
  | _ => false

/-- The value of an unsigned integer in decimal, or with `0x`, `0o` or `0b` in front. -/
def magnitude? : List Char → Option Nat
  | '0' :: 'x' :: cs => digits? 16 cs
  | '0' :: 'o' :: cs => digits? 8 cs
  | '0' :: 'b' :: cs => digits? 2 cs
  | cs => digits? 10 cs

/-- The value of an integer, with an optional sign. -/
def integer? (cs : List Char) : Option Int :=
  if isPaddedDigits cs then none
  else
    match cs with
    | '-' :: cs => (magnitude? cs).map fun n => -(n : Int)
    | '+' :: cs => (magnitude? cs).map Int.ofNat
    | cs => (magnitude? cs).map Int.ofNat

/-- The decimal exponent after the letter `e`; zero when the text ends instead. -/
def exponent? : List Char → Option Int
  | [] => some 0
  | c :: cs =>
    if c = 'e' || c = 'E' then
      match cs with
      | '-' :: cs => (digits? 10 cs).map fun n => -(n : Int)
      | '+' :: cs => (digits? 10 cs).map Int.ofNat
      | cs => (digits? 10 cs).map Int.ofNat
    else none

/-- Digits with an optional point among, before or after them, and an optional exponent. -/
def decimal? (negative : Bool) (cs : List Char) : Option Double := do
  let whole := cs.takeWhile Char.isDigit
  let rest := cs.dropWhile Char.isDigit
  let (fraction, rest) :=
    match rest with
    | '.' :: rest => (rest.takeWhile Char.isDigit, rest.dropWhile Char.isDigit)
    | rest => ([], rest)
  let digits ← digits? 10 (whole ++ fraction)
  let exponent ← exponent? rest
  Double.ofDecimal negative digits (exponent - fraction.length)

/-- The finite number that a text writes, with an optional sign. -/
def number? : List Char → Option Double
  | '-' :: cs => decimal? true cs
  | '+' :: cs => decimal? false cs
  | cs => decimal? false cs

def nullWords : List String := ["", "~", "null", "Null", "NULL"]
def trueWords : List String := ["true", "True", "TRUE"]
def falseWords : List String := ["false", "False", "FALSE"]
/-- The spellings of infinity and of no number. -/
def notFiniteWords : List String :=
  [".inf", ".Inf", ".INF", "+.inf", "+.Inf", "+.INF", "-.inf", "-.Inf", "-.INF", ".nan", ".NaN", ".NAN"]

/-- The integers of at most 128 bits, signed or unsigned. -/
def isWide (n : Int) : Bool :=
  -170141183460469231731687303715884105728 ≤ n && n ≤ 340282366920938463463374607431768211455

/-- The number that a text writes, if it is not an integer of at most 128 bits. -/
def resolveNumber (s : String) : Plain :=
  if s ∈ notFiniteWords then .notFinite
  else if isPaddedDigits s.toList then .text
  else
    match number? s.toList with
    | some x => .double x
    | none => .text

/-- The meaning of a text without quotes. -/
def resolve (s : String) : Plain :=
  if s ∈ nullWords then .null
  else if s ∈ trueWords then .bool true
  else if s ∈ falseWords then .bool false
  else
    match integer? s.toList with
    | some n => if Number.isExact n then .int n else if isWide n then .wideInt else resolveNumber s
    | none => resolveNumber s

end ApiDocs.Yaml
