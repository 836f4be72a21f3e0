import ApiDocs.Yaml.Tag
/-!
# Tokens of YAML text

The marks, names and scalars of a text, with the starts and ends of blocks that its indentation
implies. A key is known only at its colon: the places where one may have started are remembered,
and the tokens of a key and of a new mapping are put in there afterwards.
-/
namespace ApiDocs.Yaml

inductive Token where
  | versionDirective (major minor : Nat)
  | tagDirective (handle : String) (front : Tag)
  | documentStart
  | documentEnd
  | blockSequenceStart
  | blockMappingStart
  | blockEnd
  | flowSequenceStart
  | flowSequenceEnd
  | flowMappingStart
  | flowMappingEnd
  | blockEntry
  | flowEntry
  | key
  | value
  | alias (name : String)
  | anchor (name : String)
  | tag (handle : String) (suffix : Tag)
  | scalar (text : String) (plain : Bool)
  | streamEnd
deriving Repr, BEq, DecidableEq, Inhabited

/-- A place where a key may have started. -/
structure Candidate where
  /-- The number of tokens before it. -/
  number : Nat
  place : Cursor
  /-- Whether nothing but a key can stand there. -/
  required : Bool
deriving Repr, Inhabited

/-- How far a text has been read. -/
structure Lexer where
  cursor : Cursor
  /-- The tokens so far, the latest first, and their number. -/
  tokens : List Token := []
  count : Nat := 0
  /-- The column of the innermost block, and those of the blocks around it. -/
  indent : Int := -1
  outer : List Int := []
  /-- The number of open brackets. -/
  depth : Nat := 0
  keyAllowed : Bool := true
  /-- The candidate at each depth, innermost first. -/
  candidates : List (Option Candidate) := [none]
  ended : Bool := false
deriving Repr, Inhabited

namespace Lexer

def inFlow (s : Lexer) : Bool :=
  s.depth != 0

def push (s : Lexer) (t : Token) : Lexer :=
  { s with tokens := t :: s.tokens, count := s.count + 1 }

/-- Put a token in before those from a number on. -/
def insertAt (s : Lexer) (number : Nat) (t : Token) : Lexer :=
  let later := s.count - number
  { s with
    tokens := s.tokens.take later ++ t :: s.tokens.drop later, count := s.count + 1 }

def skip (s : Lexer) (n : Nat) : Lexer :=
  { s with cursor := s.cursor.skip n }

/-- Pass blanks, comments and breaks before a token. A tab is no blank where a key may start. -/
def toNextToken : (bound : Nat) → Lexer → Lexer
  | 0, s => s
  | bound + 1, s =>
    let c := s.cursor
    let c := if c.column == 0 && c.at? orderMark then c.skip 1 else c
    let c := c.skipWhile fun ch => ch == ' ' || (ch == '\t' && (s.inFlow || !s.keyAllowed))
    let c := if c.at? '#' then c.skipWhile fun ch => !isBreak ch else c
    if c.atBreak then
      toNextToken bound
        { s with cursor := c.skipBreak, keyAllowed := s.keyAllowed || !s.inFlow }
    else { s with cursor := c }

/-- The most bytes between the start of a key and its colon. -/
def keyLimit : Nat := 1024

/-- A candidate that may still be a key; fails if it had to be one. -/
def fresh? (c : Cursor) : Option Candidate → Option (Option Candidate)
  | none => some none
  | some k =>
    if k.place.line < c.line || k.place.index + keyLimit < c.index then
      if k.required then none else some none
    else some (some k)

/-- Give up the candidates that can no longer be keys. -/
def expireCandidates (s : Lexer) : Option Lexer := do
  let candidates ← s.candidates.mapM (fresh? s.cursor)
  pure { s with candidates }

/-- Give up the innermost candidate; fails if it had to be a key. -/
def dropCandidate (s : Lexer) : Option Lexer :=
  match s.candidates with
  | some k :: rest => if k.required then none else some { s with candidates := none :: rest }
  | _ => some s

/-- Remember the current place as a possible start of a key. -/
def saveCandidate (s : Lexer) : Option Lexer :=
  if s.keyAllowed then do
    let s ← s.dropCandidate
    let required := !s.inFlow && s.indent == s.cursor.column
    let k : Candidate := ⟨s.count, s.cursor, required⟩
    pure { s with candidates := some k :: s.candidates.drop 1 }
  else some s

/-- Open a block at a column, if it is inside the innermost one; its token goes before those from
a number on. -/
def openBlock (s : Lexer) (column number : Nat) (t : Token) : Lexer :=
  if !s.inFlow && s.indent < column then
    { s with indent := column, outer := s.indent :: s.outer }.insertAt number t
  else s

/-- Close the blocks that start after a column. The list is that of the blocks around. -/
def closeFrom (column : Int) : (outer : List Int) → Lexer → Lexer
  | [], s => { s with outer := [] }
  | next :: outer, s =>
    if s.indent > column then closeFrom column outer { s.push .blockEnd with indent := next }
    else { s with outer := next :: outer }

/-- Close the blocks that start after a column; brackets keep all open. -/
def closeBlocks (s : Lexer) (column : Int) : Lexer :=
  if s.inFlow then s else closeFrom column s.outer s

def readStreamEnd (s : Lexer) : Option Lexer := do
  let s ← (s.closeBlocks (-1)).dropCandidate
  pure { s.push .streamEnd with keyAllowed := false, ended := true }

def readBorder (s : Lexer) (t : Token) : Option Lexer := do
  let s ← (s.closeBlocks (-1)).dropCandidate
  pure ({ s with keyAllowed := false }.skip 3 |>.push t)

def readTag (s : Lexer) : Option Lexer := do
  let s ← s.saveCandidate
  let tag ← writtenTag? s.cursor.rest
  let s := { s with keyAllowed := false }.skip tag.length
  if s.cursor.wordEndsAfter 0 || (s.inFlow && s.cursor.at? ',') then
    pure (s.push (.tag tag.handle tag.suffix))
  else none

/-- A name after its mark. It ends with a blank, a break, the end or one of a few marks. -/
def readName (s : Lexer) (token : String → Token) : Option Lexer := do
  let s ← s.saveCandidate
  let name := (s.cursor.rest.drop 1).takeWhile isNameChar
  let s := { s with keyAllowed := false }.skip (name.length + 1)
  let ends := s.cursor.wordEndsAfter 0 ||
    s.cursor.rest.head?.any fun c => ['?', ':', ',', ']', '\x7d', '%', '@', '\x60'].contains c
  if name.isEmpty || !ends then none else pure (s.push (token (String.ofList name)))

/-- A directive after its mark: a version of the language, or an abbreviation of tags. -/
def directive? (c : Cursor) : Option (Token × Cursor) := do
  let name := c.rest.takeWhile isNameChar
  let c := c.skip name.length
  if !c.atBlank then none
  else
    let c := c.skipWhile isBlank
    if name = ['Y', 'A', 'M', 'L'] then
      let major := c.rest.takeWhile Char.isDigit
      let c := c.skip major.length
      if !c.at? '.' then none
      else
        let c := c.skip 1
        let minor := c.rest.takeWhile Char.isDigit
        let c := c.skip minor.length
        if major.length > 9 || minor.length > 9 then none
        else pure (.versionDirective (← digits? 10 major) (← digits? 10 minor), c)
    else if name = ['T', 'A', 'G'] then
      let h := handle c.rest
      let c := c.skip h.length
      if !(h = ['!'] || isClosedHandle h) || !c.atBlank then none
      else
        let c := c.skipWhile isBlank
        let written := c.rest.takeWhile (isTagChar true)
        let front ← Tag.ofChars? written
        let c := c.skip written.length
        if written.isEmpty || !c.wordEndsAfter 0 then none
        else pure (.tagDirective (String.ofList h) front, c)
    else none

/-- A directive. Nothing but a comment may follow it on its line. -/
def readDirective (s : Lexer) : Option Lexer := do
  let s ← (s.closeBlocks (-1)).dropCandidate
  let (token, c) ← directive? (s.cursor.skip 1)
  let c := c.skipWhile isBlank
  let c := if c.at? '#' then c.skipWhile fun ch => !isBreak ch else c
  if !c.rest.isEmpty && !c.atBreak then none
  else
    let c := if c.atBreak then c.skipBreak else c
    pure ({ s with keyAllowed := false, cursor := c }.push token)

def readFlowStart (s : Lexer) (t : Token) : Option Lexer := do
  let s ← s.saveCandidate
  pure ({ s with
    depth := s.depth + 1, candidates := none :: s.candidates, keyAllowed := true }.skip 1 |>.push t)

def readFlowEnd (s : Lexer) (t : Token) : Option Lexer := do
  let s ← s.dropCandidate
  let s := if s.inFlow then { s with depth := s.depth - 1, candidates := s.candidates.drop 1 } else s
  pure ({ s with keyAllowed := false }.skip 1 |>.push t)

def readFlowEntry (s : Lexer) : Option Lexer := do
  let s ← s.dropCandidate
  pure ({ s with keyAllowed := true }.skip 1 |>.push .flowEntry)

def readBlockEntry (s : Lexer) : Option Lexer := do
  if !s.inFlow && !s.keyAllowed then none
  else
    let s := s.openBlock s.cursor.column s.count .blockSequenceStart
    let s ← s.dropCandidate
    pure ({ s with keyAllowed := true }.skip 1 |>.push .blockEntry)

def readKey (s : Lexer) : Option Lexer := do
  if !s.inFlow && !s.keyAllowed then none
  else
    let s := s.openBlock s.cursor.column s.count .blockMappingStart
    let s ← s.dropCandidate
    pure ({ s with keyAllowed := !s.inFlow }.skip 1 |>.push .key)

/-- The colon of a value. The candidate at this depth, if there is one, was its key. -/
def readValue (s : Lexer) : Option Lexer :=
  match s.candidates with
  | some k :: rest =>
    let s := s.insertAt k.number .key
    let s := s.openBlock k.place.column k.number .blockMappingStart
    some ({ s with candidates := none :: rest, keyAllowed := false }.skip 1 |>.push .value)
  | _ =>
    if !s.inFlow && !s.keyAllowed then none
    else
      let s := s.openBlock s.cursor.column s.count .blockMappingStart
      some ({ s with keyAllowed := !s.inFlow }.skip 1 |>.push .value)

def readBlockScalar (s : Lexer) (bound : Nat) (literal : Bool) : Option Lexer := do
  let s ← s.dropCandidate
  let (text, c) ← readBlock literal s.indent bound (s.cursor.skip 1)
  pure ({ s with keyAllowed := true, cursor := c }.push (.scalar (String.ofList text) false))

def readQuotedScalar (s : Lexer) (bound : Nat) (single : Bool) : Option Lexer := do
  let s ← s.saveCandidate
  let (text, c) ← readQuoted single bound (s.cursor.skip 1)
  pure ({ s with keyAllowed := false, cursor := c }.push (.scalar (String.ofList text) false))

def readPlainScalar (s : Lexer) (bound : Nat) : Option Lexer := do
  let s ← s.saveCandidate
  let (text, c, broken) ← readPlain s.inFlow (s.indent + 1).toNat bound {} s.cursor
  pure ({ s with keyAllowed := broken, cursor := c }.push (.scalar (String.ofList text) true))

/-- Whether a plain scalar may start with a character, with the rest of the text after it. -/
def startsPlain (flow : Bool) (c : Char) (rest : List Char) : Bool :=
  if c == '-' then !rest.head?.any isBlank
  else if c == '?' || c == ':' then !flow && !endsWord rest
  else !isBlankOrBreak c && !isIndicator c

/-- Read the token at the current place. -/
def readToken (s : Lexer) (bound : Nat) : Option Lexer :=
  match s.cursor.rest with
  | [] => s.readStreamEnd
  | c :: rest =>
    if s.cursor.column == 0 && c == '%' then s.readDirective
    else if s.cursor.atBorder '-' then s.readBorder .documentStart
    else if s.cursor.atBorder '.' then s.readBorder .documentEnd
    else if c == '[' then s.readFlowStart .flowSequenceStart
    else if c == '\x7b' then s.readFlowStart .flowMappingStart
    else if c == ']' then s.readFlowEnd .flowSequenceEnd
    else if c == '\x7d' then s.readFlowEnd .flowMappingEnd
    else if c == ',' then s.readFlowEntry
    else if c == '-' && endsWord rest then s.readBlockEntry
    else if c == '?' && (s.inFlow || endsWord rest) then s.readKey
    else if c == ':' && (s.inFlow || endsWord rest) then s.readValue
    else if c == '*' then s.readName .alias
    else if c == '&' then s.readName .anchor
    else if c == '!' then s.readTag
    else if c == '|' && !s.inFlow then s.readBlockScalar bound true
    else if c == '>' && !s.inFlow then s.readBlockScalar bound false
    else if c == '\'' then s.readQuotedScalar bound true
    else if c == '"' then s.readQuotedScalar bound false
    else if startsPlain s.inFlow c rest then s.readPlainScalar bound
    else none

/-- Read all tokens. Each one takes at least one character, so the bound is never reached when it
is above the length of the text. -/
def run : (bound : Nat) → Lexer → Option (List Token)
  | 0, _ => none
  | bound + 1, s => do
    if s.ended then pure s.tokens.reverse
    else
      let s ← (s.toNextToken bound).expireCandidates
      let s ← (s.closeBlocks s.cursor.column).readToken bound
      s.run bound

end Lexer

/-- The characters that a text may hold. -/
def isAllowed (c : Char) : Bool :=
  c == '\t' || c == '\n' || c == '\r' || (0x20 ≤ c.toNat && c.toNat ≤ 0x7E) || c == '\u0085' ||
    (0xA0 ≤ c.toNat && c.toNat ≤ 0xFFFD) || 0x10000 ≤ c.toNat

/-- The tokens of a text; none if some part of it is no token. -/
def tokens? (text : String) : Option (List Token) :=
  let cs := text.toList
  if !cs.all isAllowed then none
  else Lexer.run (cs.length + 3) { cursor := { rest := cs } }

end ApiDocs.Yaml
