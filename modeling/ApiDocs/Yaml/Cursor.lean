import ApiDocs.Yaml.Printer
/-!
# Places in a YAML text

A place in a text with its line and column, and the folding of the gaps between the words of a
scalar that runs over several lines.
-/
namespace ApiDocs.Yaml

/-- What is left of a text, with the place where it starts. The column counts characters, the
index bytes. -/
structure Cursor where
  rest : List Char
  line : Nat := 0
  column : Nat := 0
  index : Nat := 0
deriving Repr, Inhabited

def width (cs : List Char) : Nat :=
  cs.foldl (fun n c => n + c.utf8Size) 0

def isBlank (c : Char) : Bool :=
  c == ' ' || c == '\t'

/-- The mark of byte order, which may start a line. -/
def orderMark : Char := '\ufeff'

namespace Cursor

/-- Pass characters of one line. -/
def skip (c : Cursor) (n : Nat) : Cursor :=
  { c with
    rest := c.rest.drop n, column := c.column + n, index := c.index + width (c.rest.take n) }

/-- Pass characters of one line that are in a class. -/
def skipWhile (c : Cursor) (p : Char → Bool) : Cursor :=
  c.skip (c.rest.takeWhile p).length

/-- Pass a line break, which may be of two characters. -/
def skipBreak (c : Cursor) : Cursor :=
  match c.rest with
  | '\r' :: '\n' :: rest => ⟨rest, c.line + 1, 0, c.index + 2⟩
  | ch :: rest => ⟨rest, c.line + 1, 0, c.index + ch.utf8Size⟩
  | [] => c

/-- The break at a place, as it counts in a scalar. -/
def breakChar (c : Cursor) : List Char :=
  match c.rest with
  | [] => []
  | '\u2028' :: _ => ['\u2028']
  | '\u2029' :: _ => ['\u2029']
  | _ => ['\n']

def atBreak (c : Cursor) : Bool :=
  c.rest.head?.any isBreak

def atBlank (c : Cursor) : Bool :=
  c.rest.head?.any isBlank

/-- Whether the text starts with this character. -/
def at? (c : Cursor) (ch : Char) : Bool :=
  c.rest.head? == some ch

/-- Whether the text goes on with a blank, a break or its end after so many characters. -/
def wordEndsAfter (c : Cursor) (n : Nat) : Bool :=
  endsWord (c.rest.drop n)

/-- Whether a line starts with the border of a document of this mark. -/
def atBorder (c : Cursor) (mark : Char) : Bool :=
  c.column == 0 && c.rest.take 3 == [mark, mark, mark] && c.wordEndsAfter 3

def atAnyBorder (c : Cursor) : Bool :=
  c.atBorder '-' || c.atBorder '.'

end Cursor

/-- What stands between two words of a scalar: blanks on one line, or breaks. A break that is
escaped does not count. -/
structure Gap where
  blanks : List Char := []
  breaks : List Char := []
  broken : Bool := false
  escaped : Bool := false
deriving Repr, Inhabited

/-- A gap as it counts: blanks stand, one break is a space, of several the first one is lost. -/
def Gap.folded (g : Gap) : List Char :=
  if !g.broken then g.blanks
  else
    match g.breaks with
    | '\n' :: more => if g.escaped then g.breaks else if more.isEmpty then [' '] else more
    | breaks => breaks

/-- Read a gap. Fails on a tab before the column at which a continued line may start. -/
def readGap (minColumn : Nat) : (bound : Nat) → Gap → Cursor → Option (Gap × Cursor)
  | 0, gap, c => some (gap, c)
  | bound + 1, gap, c =>
    if c.atBlank then
      if gap.broken then
        if c.at? '\t' && c.column < minColumn then none
        else readGap minColumn bound gap (c.skip 1)
      else readGap minColumn bound { gap with blanks := gap.blanks ++ c.rest.take 1 } (c.skip 1)
    else if c.atBreak then
      readGap minColumn bound
        { gap with blanks := [], broken := true, breaks := gap.breaks ++ c.breakChar } c.skipBreak
    else some (gap, c)

end ApiDocs.Yaml
