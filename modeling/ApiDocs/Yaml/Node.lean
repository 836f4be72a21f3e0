import ApiDocs.Yaml.Token
import ApiDocs.OrderedMap
/-!
# The tree of a YAML document

Scalars, sequences and mappings, in blocks or in brackets, each possibly with an anchor and a tag.
A text holds one document at most, with directives before it. What is left out between two marks
is an empty plain scalar.
-/
namespace ApiDocs.Yaml

/-- What stands in front of a node. An anchor is a number; aliases refer to it. -/
structure Properties where
  anchor? : Option Nat := none
  tag? : Option Tag := none
deriving Repr, BEq, Inhabited

inductive Node where
  | scalar (properties : Properties) (text : String) (plain : Bool)
  | alias (anchor : Nat)
  | sequence (properties : Properties) (items : List Node)
  | mapping (properties : Properties) (entries : List (Node × Node))
deriving Repr, BEq, Inhabited

/-- The tokens that are left, with the meaning of names at this place. -/
structure TokenStream where
  tokens : List Token
  /-- The anchor that each name stands for at present. -/
  anchors : OrderedMap Nat := {}
  /-- What each handle of a tag stands for. -/
  handles : List (String × Tag) := []
deriving Inhabited

/-- A reader of tokens, which fails where they break the grammar. -/
abbrev TokenReader := StateT TokenStream Option

namespace TokenReader

def peek : TokenReader Token :=
  return (← get).tokens.headD .streamEnd

def skip : TokenReader Unit :=
  modify fun s => { s with tokens := s.tokens.drop 1 }

/-- Pass a token and see the one after it. -/
def skipPeek : TokenReader Token := do
  skip
  peek

/-- The number of an anchor that is set under a name. It is the count of the names known before,
so setting a known name again takes a number that a later anchor may take too. -/
def setAnchor (name : String) : TokenReader Nat := do
  let s ← get
  let number := s.anchors.size
  set { s with anchors := s.anchors.insert name number }
  pure number

/-- The tag that a handle and a suffix stand for. -/
def resolveTag (handle : String) (suffix : Tag) : TokenReader Tag := do
  if handle = "" then pure suffix
  else
    match (← get).handles.lookup handle with
    | some front => pure (front ++ suffix)
    | none => failure

/-- An anchor and a tag in either order, if they are there. -/
def properties : TokenReader Properties := do
  match ← peek with
  | .anchor name =>
    match ← skipPeek with
    | .tag handle suffix =>
      skip
      let tag ← resolveTag handle suffix
      pure ⟨some (← setAnchor name), some tag⟩
    | _ => pure ⟨some (← setAnchor name), none⟩
  | .tag handle suffix =>
    match ← skipPeek with
    | .anchor name =>
      skip
      let tag ← resolveTag handle suffix
      pure ⟨some (← setAnchor name), some tag⟩
    | _ => pure ⟨none, some (← resolveTag handle suffix)⟩
  | _ => pure {}

/-- The scalar that stands for what is left out. -/
def leftOut : Node :=
  .scalar {} "" true

mutual
/-- A node. Blocks are read only outside of brackets; `compact` tells that a sequence may stand
here without a block of its own. Every call passes a token or goes to a call that does, so the
bound is not reached when it is some times the number of tokens. -/
def node (bound : Nat) (block compact : Bool) : TokenReader Node :=
  match bound with
  | 0 => failure
  | bound + 1 => do
    match ← peek with
    | .alias name =>
      skip
      match (← get).anchors.get? name with
      | some number => pure (.alias number)
      | none => failure
    | _ => content bound block compact (← properties)

/-- A node after its properties. Properties alone stand for an empty scalar. -/
def content (bound : Nat) (block compact : Bool) (p : Properties) : TokenReader Node :=
  match bound with
  | 0 => failure
  | bound + 1 => do
    match ← peek, block, compact with
    | .blockEntry, _, true => .sequence p <$> compactItems bound
    | .scalar text plain, _, _ =>
      skip
      pure (.scalar p text plain)
    | .flowSequenceStart, _, _ =>
      skip
      .sequence p <$> flowItems bound true
    | .flowMappingStart, _, _ =>
      skip
      .mapping p <$> flowEntries bound true
    | .blockSequenceStart, true, _ =>
      skip
      .sequence p <$> blockItems bound
    | .blockMappingStart, true, _ =>
      skip
      .mapping p <$> blockEntries bound
    | _, _, _ => if p == {} then failure else pure (.scalar p "" true)

/-- A node, unless one of these tokens follows: then it is left out. -/
def nodeUnless (bound : Nat) (block compact : Bool) (stops : List Token) : TokenReader Node :=
  match bound with
  | 0 => failure
  | bound + 1 => do
    if stops.contains (← peek) then pure leftOut else node bound block compact

/-- The items of a block, up to its end. -/
def blockItems (bound : Nat) : TokenReader (List Node) :=
  match bound with
  | 0 => failure
  | bound + 1 => do
    match ← peek with
    | .blockEntry =>
      skip
      let item ← nodeUnless bound true false [.blockEntry, .blockEnd]
      return item :: (← blockItems bound)
    | .blockEnd =>
      skip
      pure []
    | _ => failure

/-- The items of a sequence without a block of its own. -/
def compactItems (bound : Nat) : TokenReader (List Node) :=
  match bound with
  | 0 => failure
  | bound + 1 => do
    match ← peek with
    | .blockEntry =>
      skip
      let item ← nodeUnless bound true false [.blockEntry, .key, .value, .blockEnd]
      return item :: (← compactItems bound)
    | _ => pure []

/-- The entries of a block, up to its end. -/
def blockEntries (bound : Nat) : TokenReader (List (Node × Node)) :=
  match bound with
  | 0 => failure
  | bound + 1 => do
    match ← peek with
    | .key =>
      skip
      let key ← nodeUnless bound true true [.key, .value, .blockEnd]
      let value ← valueAfterMark bound true [.key, .value, .blockEnd]
      return (key, value) :: (← blockEntries bound)
    | .blockEnd =>
      skip
      pure []
    | _ => failure

/-- A value after its mark; without a mark it is left out. -/
def valueAfterMark (bound : Nat) (block : Bool) (stops : List Token) : TokenReader Node :=
  match bound with
  | 0 => failure
  | bound + 1 => do
    match ← peek with
    | .value =>
      skip
      nodeUnless bound block block stops
    | _ => pure leftOut

/-- The items in brackets, up to the closing one; `first` tells that no comma is due. An item with
the mark of a key is a mapping of one entry. -/
def flowItems (bound : Nat) (first : Bool) : TokenReader (List Node) :=
  match bound with
  | 0 => failure
  | bound + 1 => do
    match ← peek, first with
    | .flowSequenceEnd, _ =>
      skip
      pure []
    | .flowEntry, false =>
      match ← skipPeek with
      | .flowSequenceEnd =>
        skip
        pure []
      | _ => itemThenItems bound
    | _, true => itemThenItems bound
    | _, false => failure

def itemThenItems (bound : Nat) : TokenReader (List Node) :=
  match bound with
  | 0 => failure
  | bound + 1 => do
    let item ← flowItem bound
    return item :: (← flowItems bound false)

/-- An item in brackets. A key that is left out there takes the token after its mark with it. -/
def flowItem (bound : Nat) : TokenReader Node :=
  match bound with
  | 0 => failure
  | bound + 1 => do
    match ← peek with
    | .key =>
      let next ← skipPeek
      let key ←
        if [.value, .flowEntry, .flowSequenceEnd].contains next then do
          skip
          pure leftOut
        else node bound false false
      let value ← valueAfterMark bound false [.flowEntry, .flowSequenceEnd]
      pure (.mapping {} [(key, value)])
    | _ => node bound false false

/-- The entries in braces, up to the closing one; `first` tells that no comma is due. -/
def flowEntries (bound : Nat) (first : Bool) : TokenReader (List (Node × Node)) :=
  match bound with
  | 0 => failure
  | bound + 1 => do
    match ← peek, first with
    | .flowMappingEnd, _ =>
      skip
      pure []
    | .flowEntry, false =>
      match ← skipPeek with
      | .flowMappingEnd =>
        skip
        pure []
      | _ => entryThenEntries bound
    | _, true => entryThenEntries bound
    | _, false => failure

/-- An entry in braces and those after it. A node without the mark of a key has no value. -/
def entryThenEntries (bound : Nat) : TokenReader (List (Node × Node)) :=
  match bound with
  | 0 => failure
  | bound + 1 => do
    match ← peek with
    | .key =>
      skip
      let key ← nodeUnless bound false false [.value, .flowEntry, .flowMappingEnd]
      let value ← valueAfterMark bound false [.flowEntry, .flowMappingEnd]
      return (key, value) :: (← flowEntries bound false)
    | _ =>
      let key ← node bound false false
      return (key, leftOut) :: (← flowEntries bound false)
end

/-- The directives before a document: the version at most once, and it has to be known; each
handle at most once. Tells whether there were any. -/
def directives : (bound : Nat) → (version : Bool) → TokenReader Bool
  | 0, _ => failure
  | bound + 1, version => do
    match ← peek with
    | .versionDirective major minor =>
      if version || major ≠ 1 || (minor ≠ 1 && minor ≠ 2) then failure
      else
        skip
        let _ ← directives bound true
        pure true
    | .tagDirective handle front =>
      let s ← get
      if (s.handles.lookup handle).isSome then failure
      else
        set { s with tokens := s.tokens.drop 1, handles := s.handles ++ [(handle, front)] }
        let _ ← directives bound version
        pure true
    | _ => pure false

/-- The handles that every document knows, unless it sets them itself. -/
def standardHandles : List (String × Tag) :=
  [("!", Tag.ownMark), ("!!", Tag.standardStart)]

def skipEnds : (bound : Nat) → TokenReader Unit
  | 0 => failure
  | bound + 1 => do
    match ← peek with
    | .documentEnd =>
      skip
      skipEnds bound
    | _ => pure ()

/-- The root of the document that starts here. -/
def rootNode (bound : Nat) : TokenReader Node := do
  let directed ← directives bound false
  modify fun s => { s with handles := s.handles ++ standardHandles }
  match ← peek with
  | .documentStart =>
    skip
    nodeUnless bound true false
      [.documentStart, .documentEnd, .streamEnd]
  | _ => if directed then failure else node bound true false

/-- The root of the only document; none if there is no document. -/
def onlyDocument (bound : Nat) : TokenReader (Option Node) := do
  match ← peek with
  | .streamEnd => pure none
  | _ =>
    let root ← rootNode bound
    skipEnds bound
    match ← peek with
    | .streamEnd => pure (some root)
    | _ => failure

end TokenReader

/-- The root of the only document of a list of tokens; no document is an empty scalar. -/
def Node.ofTokens? (tokens : List Token) : Option Node := do
  let (root, _) ← (TokenReader.onlyDocument (4 * tokens.length + 8)).run { tokens }
  pure (root.getD TokenReader.leftOut)

end ApiDocs.Yaml
