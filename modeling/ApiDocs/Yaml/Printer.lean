import ApiDocs.Json.Printer
import ApiDocs.Yaml.Scalar
/-!
# YAML text

Values in block layout with two spaces to a level. Sequences in a mapping are not indented;
a collection in a sequence starts on the line of its dash. A text is written plainly where it
reads back as itself, else in quotes; a text of several lines is a literal block.
-/
namespace ApiDocs.Yaml

def isBreak (c : Char) : Bool :=
  c == '\n' || c == '\r' || c == '\u0085' || c == '\u2028' || c == '\u2029'

def isBlankOrBreak (c : Char) : Bool :=
  c == ' ' || c == '\t' || isBreak c

/-- The characters that may stand for themselves. -/
def isPrintable (c : Char) : Bool :=
  c == '\n' || (0x20 ≤ c.toNat && c.toNat ≤ 0x7E) ||
    (0xA0 ≤ c.toNat && c != '\ufeff' && c.toNat != 0xFFFE && c.toNat != 0xFFFF)

/-- The characters that no plain scalar may start with. -/
def isIndicator (c : Char) : Bool :=
  ['#', ',', '[', ']', '\x7b', '\x7d', '&', '*', '!', '|', '>', '\'', '"', '%', '@', '\x60'].contains c

/-- The end of a text, or a blank or break after it. -/
def endsWord : List Char → Bool
  | [] => true
  | c :: _ => isBlankOrBreak c

/-- Three equal marks that could be taken for the border of a document. -/
def isBorder : List Char → Bool
  | '-' :: '-' :: '-' :: _ => true
  | '.' :: '.' :: '.' :: _ => true
  | _ => false

/-- Whether a text that continues after `previous` holds a colon before a blank or its end, or a
number sign after a blank. -/
def hasInnerIndicator (previous : Char) : List Char → Bool
  | [] => false
  | c :: cs =>
    (c == ':' && endsWord cs) || (c == '#' && isBlankOrBreak previous) || hasInnerIndicator c cs

/-- Whether a text would be taken for something other than one plain scalar. -/
def hasIndicator : List Char → Bool
  | [] => false
  | c :: cs =>
    isBorder (c :: cs) || isIndicator c || ((c == '?' || c == ':' || c == '-') && endsWord cs) ||
      hasInnerIndicator c cs

/-- Whether two characters of the two classes stand next to each other somewhere. -/
def hasPair (p q : Char → Bool) : List Char → Bool
  | a :: b :: cs => (p a && q b) || hasPair p q (b :: cs)
  | _ => false

def isSpace (c : Char) : Bool :=
  c == ' '

/-- A text in which spaces before a break, or characters that do not print, force escapes. -/
def needsEscapes (cs : List Char) : Bool :=
  !cs.all isPrintable || hasPair isSpace isBreak cs

def allowsPlain (cs : List Char) : Bool :=
  !(needsEscapes cs || cs.any isBreak || cs.head?.any isSpace || cs.getLast?.any isSpace ||
    hasIndicator cs)

/-- Texts that may be written in single quotes. -/
def allowsSingle (cs : List Char) : Bool :=
  !(needsEscapes cs || hasPair isBreak isSpace cs)

/-- Texts that may be written as a literal block. -/
def allowsBlock (cs : List Char) : Bool :=
  !(needsEscapes cs || cs.getLast?.any isSpace)

inductive ScalarStyle where
  | plain
  | single
  | double
  | literal
deriving Repr, BEq, DecidableEq

/-- A text that does not read back as a text when it stands plainly. -/
def isAmbiguous (s : String) : Bool :=
  resolve s != .text || isPaddedDigits s.toList

def styleOf (s : String) : ScalarStyle :=
  let cs := s.toList
  if '\n' ∈ cs then if allowsBlock cs then .literal else .double
  else if !isAmbiguous s && allowsPlain cs then .plain
  else if allowsSingle cs then .single
  else .double

def spaces (n : Nat) : List Char :=
  List.replicate n ' '

/-- A text in single quotes, with quotes inside doubled. After a break the line is indented;
`fresh` tells that a line was just broken. -/
def singleRest (indent : Nat) : (fresh : Bool) → List Char → List Char
  | fresh, [] => if fresh then spaces indent ++ ['\''] else ['\'']
  | fresh, c :: cs =>
    if isBreak c then c :: singleRest indent true cs
    else
      let margin := if fresh then spaces indent else []
      if c = '\'' then margin ++ '\'' :: '\'' :: singleRest indent false cs
      else margin ++ c :: singleRest indent false cs

def upperHex (width n : Nat) : List Char :=
  let digits := (Nat.toDigits 16 n).map Char.toUpper
  List.replicate (width - digits.length) '0' ++ digits

/-- The text of one character inside double quotes. -/
def escapeChar (c : Char) : List Char :=
  match c with
  | '"' => ['\\', '"']
  | '\\' => ['\\', '\\']
  | '\x00' => ['\\', '0']
  | '\x07' => ['\\', 'a']
  | '\x08' => ['\\', 'b']
  | '\t' => ['\\', 't']
  | '\n' => ['\\', 'n']
  | '\x0b' => ['\\', 'v']
  | '\x0c' => ['\\', 'f']
  | '\r' => ['\\', 'r']
  | '\x1b' => ['\\', 'e']
  | '\u0085' => ['\\', 'N']
  | '\u2028' => ['\\', 'L']
  | '\u2029' => ['\\', 'P']
  | c =>
    if isPrintable c then [c]
    else if c.toNat ≤ 0xFF then '\\' :: 'x' :: upperHex 2 c.toNat
    else '\\' :: 'u' :: upperHex 4 c.toNat

/-- What a literal block does with the breaks at its end: strip, keep one, keep all. -/
def chompMark (cs : List Char) : List Char :=
  match cs.reverse with
  | [] => ['-']
  | [c] => if isBreak c then ['+'] else ['-']
  | last :: previous :: _ =>
    if !isBreak last then ['-'] else if isBreak previous then ['+'] else []

/-- The width of the margin is given when the block's first line does not show it. -/
def marginMark (cs : List Char) : List Char :=
  if cs.head?.any fun c => isSpace c || isBreak c then ['2'] else []

/-- The lines of a literal block; `fresh` tells that a line was just broken. -/
def literalLines (indent : Nat) : (fresh : Bool) → List Char → List Char
  | _, [] => []
  | fresh, c :: cs =>
    if isBreak c then c :: literalLines indent true cs
    else (if fresh then spaces indent else []) ++ c :: literalLines indent false cs

/-- A text in its layout, with lines after the first one indented. -/
def scalarText (indent : Nat) (s : String) : List Char :=
  let cs := s.toList
  match styleOf s with
  | .plain => cs
  | .single => '\'' :: singleRest indent false cs
  | .double => '"' :: cs.flatMap escapeChar ++ ['"']
  | .literal => '|' :: marginMark cs ++ chompMark cs ++ '\n' :: literalLines indent true cs

/-- A text in its layout, with the line ended. A literal block may have ended it. -/
def scalarLine (indent : Nat) (s : String) : List Char :=
  let text := scalarText indent s
  if styleOf s == .literal && text.getLast?.any isBreak then text else text ++ ['\n']

/-- The most bytes of a key that stands on the line of its value. -/
def simpleKeyLimit : Nat := 128

/-- Keys that stand on the line of their value. -/
def isSimpleKey (key : String) : Bool :=
  key.utf8ByteSize ≤ simpleKeyLimit && !key.toList.any isBreak

/-- YAML writes no plus sign before an exponent. -/
def doubleStyle : Double.Style := ⟨false⟩

def numberText : Number → List Char
  | .int n => Json.intText n
  | .double x => x.text doubleStyle

/-- The start of a mapping's entry up to the value. -/
def keyText (indent : Nat) (key : String) : List Char :=
  if isSimpleKey key then scalarText (indent + 2) key ++ [':']
  else '?' :: ' ' :: scalarLine (indent + 2) key ++ spaces indent ++ [':']

mutual
/-- A value after a mark such as a dash, up to the end of its last line. The mark stands in a
collection of this indent. -/
def afterMark (indent : Nat) : Json → List Char
  | .arr [] => [' ', '[', ']', '\n']
  | .arr (v :: vs) => ' ' :: items (indent + 2) (v :: vs)
  | .obj ⟨[]⟩ => [' ', '\x7b', '\x7d', '\n']
  | .obj ⟨(k, v) :: ms⟩ => ' ' :: members (indent + 2) ((k, v) :: ms)
  | .null => ' ' :: Json.nullText ++ ['\n']
  | .bool b => ' ' :: Json.boolText b ++ ['\n']
  | .number n => ' ' :: numberText n ++ ['\n']
  | .str s => ' ' :: scalarLine (indent + 2) s
/-- A value after the colon of a key on the same line. -/
def afterKey (indent : Nat) : Json → List Char
  | .arr [] => [' ', '[', ']', '\n']
  | .arr (v :: vs) => '\n' :: spaces indent ++ items indent (v :: vs)
  | .obj ⟨[]⟩ => [' ', '\x7b', '\x7d', '\n']
  | .obj ⟨(k, v) :: ms⟩ => '\n' :: spaces (indent + 2) ++ members (indent + 2) ((k, v) :: ms)
  | .null => ' ' :: Json.nullText ++ ['\n']
  | .bool b => ' ' :: Json.boolText b ++ ['\n']
  | .number n => ' ' :: numberText n ++ ['\n']
  | .str s => ' ' :: scalarLine (indent + 2) s
/-- The items of a sequence; the first line's margin is already there. -/
def items (indent : Nat) : List Json → List Char
  | [] => []
  | [v] => '-' :: afterMark indent v
  | v :: vs => '-' :: afterMark indent v ++ spaces indent ++ items indent vs
/-- The entries of a mapping; the first line's margin is already there. -/
def members (indent : Nat) : List (String × Json) → List Char
  | [] => []
  | [(k, v)] =>
    keyText indent k ++ (if isSimpleKey k then afterKey indent v else afterMark indent v)
  | (k, v) :: ms =>
    keyText indent k ++ (if isSimpleKey k then afterKey indent v else afterMark indent v) ++
      spaces indent ++ members indent ms
end

def document : Json → List Char
  | .arr [] => ['[', ']', '\n']
  | .arr (v :: vs) => items 0 (v :: vs)
  | .obj ⟨[]⟩ => ['\x7b', '\x7d', '\n']
  | .obj ⟨(k, v) :: ms⟩ => members 0 ((k, v) :: ms)
  | .null => Json.nullText ++ ['\n']
  | .bool b => Json.boolText b ++ ['\n']
  | .number n => numberText n ++ ['\n']
  | .str s => scalarLine 2 s

/-- The YAML text of a value, with a final line feed. -/
def print (v : Json) : String :=
  String.ofList (document v)

end ApiDocs.Yaml
