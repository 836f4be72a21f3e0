import ApiDocs.Yaml.ScalarReader
/-!
# Tags

A tag is a run of bytes. Escapes in it spell any bytes in the layout of UTF-8, whether they are
text or not, and a zero byte ends it. It is written with a handle that stands for its start.
-/
namespace ApiDocs.Yaml

abbrev Tag := List UInt8

namespace Tag

def ofString (s : String) : Tag :=
  s.toUTF8.toList

def text? (t : Tag) : Option String :=
  String.fromUTF8? ⟨t.toArray⟩

/-- The start of the tags of a document's own, and the tag that says nothing else. -/
def ownMark : Tag := ofString "!"

/-- The start that standard tags share. -/
def standardStart : Tag := ofString "tag:yaml.org,2002:"

/-- Whether a tag is one of the document's own. -/
def isOwn (t : Tag) : Bool :=
  ownMark.isPrefixOf t

def standardName? (t : Tag) : Option String :=
  if standardStart.isPrefixOf t then text? (t.drop standardStart.length) else none

/-- The number of bytes after the first byte of a character. -/
def trailing? (byte : Nat) : Option Nat :=
  if byte < 0x80 then some 0
  else if byte < 0xC0 then none
  else if byte < 0xE0 then some 1
  else if byte < 0xF0 then some 2
  else if byte < 0xF8 then some 3
  else none

/-- The number of bytes that a character still needs after one more; `due` is the number before,
zero between characters. -/
def dueAfter? (due byte : Nat) : Option Nat :=
  if due = 0 then trailing? byte
  else if 0x80 ≤ byte && byte < 0xC0 then some (due - 1)
  else none

/-- The bytes that characters of a tag and escapes among them spell. -/
def bytes? : (due : Nat) → List Char → Option (List UInt8)
  | due, [] => if due = 0 then some [] else none
  | due, '%' :: a :: b :: rest => do
    let byte ← hexCode? 2 [a, b]
    let due ← dueAfter? due byte
    let bytes ← bytes? due rest
    pure (byte.toUInt8 :: bytes)
  | due, c :: rest =>
    if c = '%' || due ≠ 0 then none else (bytes? 0 rest).map (c.toNat.toUInt8 :: ·)

/-- The tag that characters spell, up to the first zero byte. -/
def ofChars? (cs : List Char) : Option Tag :=
  (bytes? 0 cs).map fun bytes => bytes.takeWhile (· ≠ 0)

end Tag

/-- The characters of names of anchors, handles and directives. -/
def isNameChar (c : Char) : Bool :=
  c.isAlphanum || c == '_' || c == '-'

def isTagChar (inBrackets : Bool) (c : Char) : Bool :=
  isNameChar c || ";/?:@&=+$.!~*'()%".toList.contains c || (inBrackets && ",[]".toList.contains c)

/-- A handle: an exclamation mark, a name, and another mark if it is there. -/
def handle (cs : List Char) : List Char :=
  match cs with
  | '!' :: rest =>
    let name := rest.takeWhile isNameChar
    if (rest.drop name.length).head? = some '!' then '!' :: name ++ ['!'] else '!' :: name
  | _ => []

/-- Whether a handle ends in a mark of its own. -/
def isClosedHandle (h : List Char) : Bool :=
  h.length ≥ 2 && h.getLast? == some '!'

structure WrittenTag where
  /-- What stands for the start of the tag; nothing if the tag is given in full. -/
  handle : String
  suffix : Tag
  /-- The number of characters. -/
  length : Nat
deriving Repr, Inhabited

/-- A tag at the start of a text, after the mark of a tag in angle brackets. -/
def fullTag? (cs : List Char) : Option WrittenTag := do
  let written := cs.takeWhile (isTagChar true)
  let tag ← Tag.ofChars? written
  if written.isEmpty || (cs.drop written.length).head? ≠ some '>' then none
  else pure ⟨"", tag, written.length + 3⟩

/-- A tag at the start of a text. A mark alone is the whole tag. -/
def writtenTag? (cs : List Char) : Option WrittenTag :=
  match cs with
  | '!' :: '<' :: rest => fullTag? rest
  | _ =>
    let h := handle cs
    let written := (cs.drop h.length).takeWhile (isTagChar false)
    let length := h.length + written.length
    if isClosedHandle h then do
      let suffix ← Tag.ofChars? written
      if written.isEmpty then none else pure ⟨String.ofList h, suffix, length⟩
    else do
      let suffix ← Tag.ofChars? (h.drop 1 ++ written)
      pure (if suffix.isEmpty then ⟨"", Tag.ownMark, length⟩ else ⟨"!", suffix, length⟩)

end ApiDocs.Yaml
