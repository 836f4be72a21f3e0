import ApiDocs.Json.Value
/-!
# Reading JSON text

A strict reader: no comments, no trailing commas, no raw control characters in strings, no lone
surrogates, nothing after the value, and at most 127 levels of arrays and objects. Every part of
the grammar is a function from the remaining characters to a result and what is left of them.

A number that is written as an integer and fits 64 bits is an integer; any other is a double. Its
value is taken from the leading digits that fit 64 bits, scaled by a power of ten.
-/
namespace ApiDocs.Json

def isSpace (c : Char) : Bool :=
  c == ' ' || c == '\t' || c == '\n' || c == '\r'

def skipSpace (cs : List Char) : List Char :=
  cs.dropWhile isSpace

def digitValue (c : Char) : Nat :=
  c.toNat - '0'.toNat

/-- The value of a hexadecimal digit of either case. -/
def hexValue? (c : Char) : Option Nat :=
  if c.isDigit then some (digitValue c)
  else if 'a' ≤ c && c ≤ 'f' then some (c.toNat - 'a'.toNat + 10)
  else if 'A' ≤ c && c ≤ 'F' then some (c.toNat - 'A'.toNat + 10)
  else none

/-- The value of four hexadecimal digits. -/
def hex4? (a b c d : Char) : Option Nat := do
  let a ← hexValue? a
  let b ← hexValue? b
  let c ← hexValue? c
  let d ← hexValue? d
  pure (((a * 16 + b) * 16 + c) * 16 + d)

/-- The first half of a pair of code units above the basic plane. -/
def isLeadingHalf (unit : Nat) : Bool := 0xD800 ≤ unit && unit ≤ 0xDBFF
/-- The second half of such a pair. -/
def isTrailingHalf (unit : Nat) : Bool := 0xDC00 ≤ unit && unit ≤ 0xDFFF

def joinHalves (leading trailing : Nat) : Char :=
  Char.ofNat (0x10000 + (leading - 0xD800) * 0x400 + (trailing - 0xDC00))

/-- The character of an escape of one letter. -/
def escapeLetter? (c : Char) : Option Char :=
  match c with
  | '"' => some '"'
  | '\\' => some '\\'
  | '/' => some '/'
  | 'b' => some '\x08'
  | 'f' => some '\x0c'
  | 'n' => some '\n'
  | 'r' => some '\r'
  | 't' => some '\t'
  | _ => none

def prepend (c : Char) (r : List Char × List Char) : List Char × List Char :=
  (c :: r.1, r.2)

/-- The characters of a string after its opening quote, up to the closing one. -/
def stringRest : List Char → Option (List Char × List Char)
  | [] => none
  | '"' :: rest => some ([], rest)
  | '\\' :: 'u' :: a :: b :: c :: d :: rest =>
    match hex4? a b c d with
    | none => none
    | some unit =>
      if isTrailingHalf unit then none
      else if isLeadingHalf unit then
        match rest with
        | '\\' :: 'u' :: e :: f :: g :: h :: rest =>
          match hex4? e f g h with
          | none => none
          | some low =>
            if isTrailingHalf low then (stringRest rest).map (prepend (joinHalves unit low))
            else none
        | _ => none
      else (stringRest rest).map (prepend (Char.ofNat unit))
  | '\\' :: c :: rest =>
    match escapeLetter? c with
    | none => none
    | some c => (stringRest rest).map (prepend c)
  | c :: rest => if c = '\\' || c.toNat < 0x20 then none else (stringRest rest).map (prepend c)

def string? : List Char → Option (String × List Char)
  | '"' :: rest => (stringRest rest).map fun r => (String.ofList r.1, r.2)
  | _ => none

/-- The largest integer that fits 64 bits. -/
def wordLimit : Nat := 18446744073709551615

/-- Append decimal digits to a number as long as it fits 64 bits; the second result counts the
digits taken. -/
def takeDigits (n : Nat) : List Char → Nat × Nat
  | [] => (n, 0)
  | c :: cs =>
    let next := n * 10 + digitValue c
    if next ≤ wordLimit then
      let r := takeDigits next cs
      (r.1, r.2 + 1)
    else (n, 0)

def maxPower : Nat := 308

/-- A power of ten as a double; exponents above the largest finite power give none. -/
def powerOfTen? (n : Nat) : Option Double :=
  if n ≤ maxPower then Double.ofNat? (Nat.pow 10 n) else none

/-- Scale a double by a power of ten. A large negative exponent is applied in two steps, and
what two steps do not exhaust is zero. -/
def scaleByTen (x : Double) (exponent : Int) : Option Double :=
  if x.isZero then some x
  else if exponent ≥ 0 then do x.mul (← powerOfTen? exponent.toNat)
  else if exponent ≥ -maxPower then do x.div (← powerOfTen? (-exponent).toNat)
  else do
    let y ← x.div (← powerOfTen? maxPower)
    let left := exponent + maxPower
    if left ≥ -maxPower then y.div (← powerOfTen? (-left).toNat)
    else pure (Double.zero x.negative)

structure NumberToken where
  negative : Bool
  whole : List Char
  fraction : Option (List Char)
  exponent : Option Int
deriving Repr, BEq, DecidableEq

namespace NumberToken

/-- The integer that the token writes, if it writes one that is kept exactly. -/
def integer? (t : NumberToken) : Option Int :=
  let (n, taken) := takeDigits 0 t.whole
  let value : Int := if t.negative then -(n : Int) else n
  if t.fraction.isNone && t.exponent.isNone && taken == t.whole.length && Number.isExact value &&
      !(t.negative && n == 0) then some value
  else none

/-- The double that the token writes; none if it is too large. -/
def double? (t : NumberToken) : Option Double := do
  let (n, taken) := takeDigits 0 t.whole
  let (n, decimals) := takeDigits n (t.fraction.getD [])
  let exponent : Int := (t.whole.length - taken : Nat) - (decimals : Int) + t.exponent.getD 0
  let x ← Double.ofNat? n
  let x ← scaleByTen x exponent
  pure (if t.negative then x.neg else x)

def number? (t : NumberToken) : Option Number :=
  match t.integer? with
  | some n => some (.int n)
  | none => t.double?.map .double

end NumberToken

def digits1? (cs : List Char) : Option (List Char × List Char) :=
  let ds := cs.takeWhile Char.isDigit
  if ds.isEmpty then none else some (ds, cs.dropWhile Char.isDigit)

/-- The digits before the point: no zero before another digit. -/
def whole? : List Char → Option (List Char × List Char)
  | '0' :: rest => if rest.head?.any Char.isDigit then none else some (['0'], rest)
  | cs => digits1? cs

/-- The digits after a point, if there is a point. -/
def fraction? : List Char → Option (Option (List Char) × List Char)
  | '.' :: rest => (digits1? rest).map fun r => (some r.1, r.2)
  | cs => some (none, cs)

def natOfDigits (ds : List Char) : Nat :=
  ds.foldl (fun n c => n * 10 + digitValue c) 0

/-- The exponent after the letter `e`, if there is that letter. -/
def exponent? : List Char → Option (Option Int × List Char)
  | c :: rest =>
    if c = 'e' || c = 'E' then
      match rest with
      | '+' :: rest => (digits1? rest).map fun r => (some (natOfDigits r.1 : Int), r.2)
      | '-' :: rest => (digits1? rest).map fun r => (some (-(natOfDigits r.1 : Int)), r.2)
      | rest => (digits1? rest).map fun r => (some (natOfDigits r.1 : Int), r.2)
    else some (none, c :: rest)
  | [] => some (none, [])

/-- The parts of a number after its sign. -/
def unsigned? (negative : Bool) (cs : List Char) : Option (NumberToken × List Char) := do
  let (whole, cs) ← whole? cs
  let (fraction, cs) ← fraction? cs
  let (exponent, cs) ← exponent? cs
  pure (⟨negative, whole, fraction, exponent⟩, cs)

def numberToken? : List Char → Option (NumberToken × List Char)
  | '-' :: rest => unsigned? true rest
  | cs => unsigned? false cs

def number? (cs : List Char) : Option (Json × List Char) := do
  let (t, rest) ← numberToken? cs
  let n ← t.number?
  pure (.number n, rest)

/-- The items of an array after its opening bracket and at least one item to come, each read by
`item`. The bound counts items and is never reached when it is the length of the text. -/
def items? {α : Type} (item : List Char → Option (α × List Char)) :
    (bound : Nat) → List Char → Option (List α × List Char)
  | 0, _ => none
  | bound + 1, cs => do
    let (v, rest) ← item cs
    match skipSpace rest with
    | ',' :: rest =>
      let (vs, rest) ← items? item bound rest
      pure (v :: vs, rest)
    | ']' :: rest => pure ([v], rest)
    | _ => none

/-- The members of an object after its opening brace and at least one member to come. How a value
is read may depend on its key. -/
def members? {α : Type} (value : String → List Char → Option (α × List Char)) :
    (bound : Nat) → List Char → Option (List (String × α) × List Char)
  | 0, _ => none
  | bound + 1, cs => do
    let (k, rest) ← string? (skipSpace cs)
    match skipSpace rest with
    | ':' :: rest =>
      let (v, rest) ← value k rest
      match skipSpace rest with
      | ',' :: rest =>
        let (ms, rest) ← members? value bound rest
        pure ((k, v) :: ms, rest)
      | '}' :: rest => pure ([(k, v)], rest)
      | _ => none
    | _ => none

/-- A value that holds at most `levels` levels of arrays and objects. -/
def value? : (levels : Nat) → List Char → Option (Json × List Char)
  | levels, cs =>
    match skipSpace cs with
    | 'n' :: 'u' :: 'l' :: 'l' :: rest => some (.null, rest)
    | 't' :: 'r' :: 'u' :: 'e' :: rest => some (.bool true, rest)
    | 'f' :: 'a' :: 'l' :: 's' :: 'e' :: rest => some (.bool false, rest)
    | '"' :: rest => (string? ('"' :: rest)).map fun r => (.str r.1, r.2)
    | '[' :: rest =>
      match levels with
      | 0 => none
      | levels + 1 =>
        match skipSpace rest with
        | ']' :: rest => some (.arr [], rest)
        | rest => (items? (value? levels) rest.length rest).map fun r => (.arr r.1, r.2)
    | '{' :: rest =>
      match levels with
      | 0 => none
      | levels + 1 =>
        match skipSpace rest with
        | '}' :: rest => some (.obj {}, rest)
        | rest => (members? (fun _ => value? levels) rest.length rest).map fun r =>
          (.obj (OrderedMap.ofList r.1), r.2)
    | cs => number? cs

/-- The most levels of arrays and objects that a text may hold. -/
def maxLevels : Nat := 127

/-- The value of a text; none if the text is not exactly one value. -/
def parse? (text : String) : Option Json := do
  let (v, rest) ← value? maxLevels text.toList
  if (skipSpace rest).isEmpty then pure v else none

end ApiDocs.Json
