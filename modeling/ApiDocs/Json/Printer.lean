import ApiDocs.Json.Value
import ApiDocs.Double.Shortest
/-!
# JSON text

Two layouts of a value: compact text without blanks, and indented text with two spaces to a
level. Both write the members of an object in their order and differ only in blanks.
-/
namespace ApiDocs.Json

def hexDigit (n : Nat) : Char :=
  (Nat.toDigits 16 n).headD '0'

/-- The text of one character inside quotes: quotes, backslashes and the characters below space
are escaped, everything else stands for itself. -/
def escapeChar (c : Char) : List Char :=
  if c = '"' then ['\\', '"']
  else if c = '\\' then ['\\', '\\']
  else if c = '\n' then ['\\', 'n']
  else if c = '\t' then ['\\', 't']
  else if c = '\r' then ['\\', 'r']
  else if c = '\x08' then ['\\', 'b']
  else if c = '\x0c' then ['\\', 'f']
  else if c.toNat < 0x20 then ['\\', 'u', '0', '0', hexDigit (c.toNat / 16), hexDigit (c.toNat % 16)]
  else [c]

def quote (s : String) : List Char :=
  '"' :: s.toList.flatMap escapeChar ++ ['"']

def intText (n : Int) : List Char :=
  if n < 0 then '-' :: Nat.toDigits 10 n.natAbs else Nat.toDigits 10 n.natAbs

/-- JSON writes the sign of an exponent both ways. -/
def doubleStyle : Double.Style := ⟨true⟩

def numberText : Number → List Char
  | .int n => intText n
  | .double x => x.text doubleStyle

def nullText : List Char := ['n', 'u', 'l', 'l']
def trueText : List Char := ['t', 'r', 'u', 'e']
def falseText : List Char := ['f', 'a', 'l', 's', 'e']

def boolText (b : Bool) : List Char :=
  if b then trueText else falseText

mutual
def compact : Json → List Char
  | .null => nullText
  | .bool b => boolText b
  | .number n => numberText n
  | .str s => quote s
  | .arr [] => ['[', ']']
  | .arr (v :: vs) => '[' :: compact v ++ compactItems vs ++ [']']
  | .obj ⟨[]⟩ => ['{', '}']
  | .obj ⟨(k, v) :: ms⟩ => '{' :: quote k ++ ':' :: compact v ++ compactMembers ms ++ ['}']
/-- The items after the first one, each after a comma. -/
def compactItems : List Json → List Char
  | [] => []
  | v :: vs => ',' :: compact v ++ compactItems vs
/-- The members after the first one, each after a comma. -/
def compactMembers : List (String × Json) → List Char
  | [] => []
  | (k, v) :: ms => ',' :: quote k ++ ':' :: compact v ++ compactMembers ms
end

def newline (level : Nat) : List Char :=
  '\n' :: List.replicate (2 * level) ' '

mutual
/-- Indented text of a value that stands at a level. -/
def indented (level : Nat) : Json → List Char
  | .null => nullText
  | .bool b => boolText b
  | .number n => numberText n
  | .str s => quote s
  | .arr [] => ['[', ']']
  | .arr (v :: vs) =>
    '[' :: newline (level + 1) ++ indented (level + 1) v ++ indentedItems (level + 1) vs ++
      newline level ++ [']']
  | .obj ⟨[]⟩ => ['{', '}']
  | .obj ⟨(k, v) :: ms⟩ =>
    '{' :: newline (level + 1) ++ quote k ++ ':' :: ' ' :: indented (level + 1) v ++
      indentedMembers (level + 1) ms ++ newline level ++ ['}']
/-- The items after the first one, each on a line of its own. -/
def indentedItems (level : Nat) : List Json → List Char
  | [] => []
  | v :: vs => ',' :: newline level ++ indented level v ++ indentedItems level vs
/-- The members after the first one, each on a line of its own. -/
def indentedMembers (level : Nat) : List (String × Json) → List Char
  | [] => []
  | (k, v) :: ms =>
    ',' :: newline level ++ quote k ++ ':' :: ' ' :: indented level v ++ indentedMembers level ms
end

def compress (v : Json) : String :=
  String.ofList (compact v)

/-- The indented text of a value, without a final line feed. -/
def pretty (v : Json) : String :=
  String.ofList (indented 0 v)

end ApiDocs.Json
