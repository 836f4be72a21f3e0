import ApiDocs.Yaml.Cursor
/-!
# Reading scalars

Plain, quoted and block scalars from the place where they start. Each reader gives the text, the
place after it, and fails where the text breaks the rules of its layout.
-/
namespace ApiDocs.Yaml

/-- The characters that end a plain scalar inside brackets. -/
def isFlowMark (c : Char) : Bool :=
  [',', '[', ']', '\x7b', '\x7d'].contains c

/-- A word of a plain scalar: up to a blank, or a colon before one, or a mark inside brackets. A
colon right before a mark is refused inside brackets. -/
def plainWord (flow : Bool) : List Char → Option (List Char)
  | [] => some []
  | c :: cs =>
    if isBlankOrBreak c then some []
    else if flow && c == ':' && cs.head?.any (fun d => isFlowMark d || d == '?') then none
    else if (c == ':' && endsWord cs) || (flow && isFlowMark c) then some []
    else (plainWord flow cs).map (c :: ·)

/-- A plain scalar, word by word, from a gap before the next word on. Continued lines start at
`minColumn` or after it, except inside brackets. The last result tells that the place after the
scalar is on a new line. The bound is not reached when it is above the number of characters left,
here and below. -/
def readPlain (flow : Bool) (minColumn : Nat) :
    (bound : Nat) → Gap → Cursor → Option (List Char × Cursor × Bool)
  | 0, gap, c => some ([], c, gap.broken)
  | bound + 1, gap, c =>
    if c.atAnyBorder || c.at? '#' then some ([], c, gap.broken)
    else do
      let word ← plainWord flow c.rest
      let c := c.skip word.length
      let (text, gap) := if word.isEmpty then ([], gap) else (gap.folded ++ word, {})
      if !c.atBlank && !c.atBreak then pure (text, c, gap.broken)
      else
        let (gap, c) ← readGap minColumn bound gap c
        if !flow && c.column < minColumn then pure (text, c, gap.broken)
        else
          let (rest, c, broken) ← readPlain flow minColumn bound gap c
          pure (text ++ rest, c, broken)

/-- The value of hexadecimal digits, all of which must be there. -/
def hexCode? (count : Nat) (cs : List Char) : Option Nat :=
  let ds := cs.take count
  if ds.length == count then digits? 16 ds else none

def codeChar? (count : Nat) (cs : List Char) : Option Char := do
  let n ← hexCode? count cs
  if n > 0x10FFFF || (0xD800 ≤ n && n ≤ 0xDFFF) then none else pure (Char.ofNat n)

/-- The character of an escape after its backslash, and the length of what was read. -/
def escape? : List Char → Option (Char × Nat)
  | [] => none
  | c :: cs =>
    match c with
    | '0' => some ('\x00', 1)
    | 'a' => some ('\x07', 1)
    | 'b' => some ('\x08', 1)
    | 't' => some ('\t', 1)
    | '\t' => some ('\t', 1)
    | 'n' => some ('\n', 1)
    | 'v' => some ('\x0b', 1)
    | 'f' => some ('\x0c', 1)
    | 'r' => some ('\r', 1)
    | 'e' => some ('\x1b', 1)
    | ' ' => some (' ', 1)
    | '"' => some ('"', 1)
    | '/' => some ('/', 1)
    | '\\' => some ('\\', 1)
    | 'N' => some ('\u0085', 1)
    | '_' => some ('\u00a0', 1)
    | 'L' => some ('\u2028', 1)
    | 'P' => some ('\u2029', 1)
    | 'x' => (codeChar? 2 cs).map fun c => (c, 3)
    | 'u' => (codeChar? 4 cs).map fun c => (c, 5)
    | 'U' => (codeChar? 8 cs).map fun c => (c, 9)
    | _ => none

/-- How a run of characters in quotes ended. -/
inductive QuotedStop where
  | closed
  | gap
  | escapedBreak

/-- What is next in quotes: a character and the length of its spelling, or the end of a word. -/
inductive QuotedStep where
  | char (value : Char) (length : Nat)
  | stop (how : QuotedStop)

/-- What is next in quotes; fails on an escape that means nothing. -/
def quotedStep? (single : Bool) : List Char → Option QuotedStep
  | [] => some (.stop .gap)
  | ch :: rest =>
    if isBlankOrBreak ch then some (.stop .gap)
    else if single then
      if ch = '\'' then
        if rest.head? = some '\'' then some (.char '\'' 2) else some (.stop .closed)
      else some (.char ch 1)
    else if ch = '"' then some (.stop .closed)
    else if ch = '\\' then
      if rest.head?.any isBreak then some (.stop .escapedBreak)
      else (escape? rest).map fun e => .char e.1 (e.2 + 1)
    else some (.char ch 1)

/-- The characters in quotes up to a blank, a break or the closing quote. -/
def readQuotedWord (single : Bool) :
    (bound : Nat) → Cursor → Option (List Char × Cursor × QuotedStop)
  | 0, _ => none
  | bound + 1, c => do
    match ← quotedStep? single c.rest with
    | .stop how => pure ([], c, how)
    | .char ch length =>
      let (word, c, how) ← readQuotedWord single bound (c.skip length)
      pure (ch :: word, c, how)

/-- A quoted scalar after its opening quote, word by word. -/
def readQuoted (single : Bool) : (bound : Nat) → Cursor → Option (List Char × Cursor)
  | 0, _ => none
  | bound + 1, c =>
    if c.atAnyBorder || c.rest.isEmpty then none
    else do
      let (word, c, how) ← readQuotedWord single (bound + 1) c
      match how with
      | .closed => pure (word, c.skip 1)
      | .gap =>
        let (gap, c) ← readGap 0 bound {} c
        let (rest, c) ← readQuoted single bound c
        pure (word ++ gap.folded ++ rest, c)
      | .escapedBreak =>
        let (gap, c) ←
          readGap 0 bound { broken := true, escaped := true } (c.skip 1).skipBreak
        let (rest, c) ← readQuoted single bound c
        pure (word ++ gap.folded ++ rest, c)

/-- What happens to the breaks at the end of a block. -/
inductive Chomp where
  | strip
  | clip
  | keep
deriving BEq

/-- The header of a block scalar after its indicator: the treatment of its end and the width of
its margin, in either order. A width of zero is refused. -/
def blockHeader? (cs : List Char) : Option (Chomp × Nat × Nat) :=
  let chomp? (c : Char) : Option Chomp :=
    if c = '+' then some .keep else if c = '-' then some .strip else none
  let width? (c : Char) : Option Nat :=
    if c.isDigit then some (c.toNat - '0'.toNat) else none
  match cs with
  | a :: b :: _ =>
    match chomp? a, width? a with
    | some chomp, _ =>
      match width? b with
      | some 0 => none
      | some width => some (chomp, width, 2)
      | none => some (chomp, 0, 1)
    | none, some 0 => none
    | none, some width =>
      match chomp? b with
      | some chomp => some (chomp, width, 2)
      | none => some (.clip, width, 1)
    | none, none => some (.clip, 0, 0)
  | [a] =>
    match chomp? a, width? a with
    | some chomp, _ => some (chomp, 0, 1)
    | none, some 0 => none
    | none, some width => some (.clip, width, 1)
    | none, none => some (.clip, 0, 0)
  | [] => some (.clip, 0, 0)

/-- Pass the margin of the next lines and the empty lines. A margin of zero is not known yet; then
the widest margin seen is measured. -/
def readMargin (margin : Nat) :
    (bound : Nat) → (breaks : List Char) → (widest : Nat) → Cursor → Option (List Char × Nat × Cursor)
  | 0, breaks, widest, c => some (breaks, widest, c)
  | bound + 1, breaks, widest, c =>
    let open? := margin == 0
    let pad := (c.rest.takeWhile isSpace).length
    let pad := if open? then pad else min pad (margin - c.column)
    let c := c.skip pad
    let widest := max widest c.column
    if (open? || c.column < margin) && c.at? '\t' then none
    else if !c.atBreak then some (breaks, widest, c)
    else readMargin margin bound (breaks ++ c.breakChar) widest c.skipBreak

/-- What is known of a block scalar before its next line. -/
structure Block where
  /-- The break that ended the last line. -/
  last : List Char := []
  /-- The empty lines after it. -/
  empty : List Char := []
  /-- Whether the last line started with a blank. -/
  indented : Bool := false

/-- The lines of a block scalar at its margin, and what is known at its end. -/
def readBlockLines (literal : Bool) (margin : Nat) :
    (bound : Nat) → Block → Cursor → Option (List Char × Block × Cursor)
  | 0, block, c => some ([], block, c)
  | bound + 1, block, c =>
    if c.column != margin || c.rest.isEmpty then some ([], block, c)
    else do
      let indented := c.atBlank
      let joint :=
        if !literal && block.last == ['\n'] && !block.indented && !indented then
          if block.empty.isEmpty then [' '] else []
        else block.last
      let line := c.rest.takeWhile fun ch => !isBreak ch
      let c := c.skip line.length
      let last := c.breakChar
      let (empty, _, c) ← readMargin margin (bound + 1) [] 0 c.skipBreak
      let (rest, known, c) ← readBlockLines literal margin bound { last, empty, indented } c
      pure (joint ++ block.empty ++ line ++ rest, known, c)

/-- A block scalar after its indicator, in a collection of this indent. -/
def readBlock (literal : Bool) (indent : Int) (bound : Nat) (c : Cursor) :
    Option (List Char × Cursor) := do
  let (chomp, width, length) ← blockHeader? c.rest
  let c := (c.skip length).skipWhile isBlank
  let c := if c.at? '#' then c.skipWhile fun ch => !isBreak ch else c
  if !c.rest.isEmpty && !c.atBreak then none
  else
    let c := if c.atBreak then c.skipBreak else c
    let least := (max (indent + 1) 1).toNat
    let given := if width == 0 then 0 else (max indent 0).toNat + width
    let (empty, widest, c) ← readMargin given bound [] 0 c
    let margin := if given == 0 then max widest least else given
    let (text, block, c) ← readBlockLines literal margin bound { empty } c
    let tail :=
      match chomp with
      | .strip => []
      | .clip => block.last
      | .keep => block.last ++ block.empty
    pure (text ++ tail, c)

end ApiDocs.Yaml
