import ApiDocs.Json.Value
import ApiDocs.Yaml.Node
/-!
# The value of a YAML document

A document stands for a JSON value. Plain scalars are resolved, quoted ones are text; a standard
tag settles the kind of a scalar, a tag of the document's own is refused. Keys are text as they
are written. Aliases are followed, within a limit that grows with the document.
-/
namespace ApiDocs.Yaml

namespace Node

/-- The properties of a node; an alias has none. -/
def properties : Node → Properties
  | .scalar p _ _ => p
  | .alias _ => {}
  | .sequence p _ => p
  | .mapping p _ => p

mutual
/-- The number of events that a node amounts to: one for a scalar or an alias, two for the ends of
a collection. -/
def events : Node → Nat
  | .scalar _ _ _ => 1
  | .alias _ => 1
  | .sequence _ items => itemEvents items + 2
  | .mapping _ entries => entryEvents entries + 2
def itemEvents : List Node → Nat
  | [] => 0
  | n :: rest => n.events + itemEvents rest
def entryEvents : List (Node × Node) → Nat
  | [] => 0
  | (k, v) :: rest => k.events + v.events + entryEvents rest
end

/-- A node under its anchor. -/
def ownAnchor (n : Node) : List (Nat × Node) :=
  (n.properties.anchor?.map fun number => (number, n)).toList

mutual
/-- The nodes with an anchor, in the order in which they start. -/
def anchored : Node → List (Nat × Node)
  | .scalar p text plain => ownAnchor (.scalar p text plain)
  | .alias _ => []
  | .sequence p items => ownAnchor (.sequence p items) ++ itemsAnchored items
  | .mapping p entries => ownAnchor (.mapping p entries) ++ entriesAnchored entries
def itemsAnchored : List Node → List (Nat × Node)
  | [] => []
  | n :: rest => n.anchored ++ itemsAnchored rest
def entriesAnchored : List (Node × Node) → List (Nat × Node)
  | [] => []
  | (k, v) :: rest => k.anchored ++ v.anchored ++ entriesAnchored rest
end

end Node

/-- A tag that gives a node a kind of the document's own, which no value has. One whose bytes are no
text gives none. -/
def isForeign (tag : Tag) : Bool :=
  tag.isOwn && tag.text?.isSome

/-- The value of a plain scalar; one beyond the numbers that a value can hold fails. -/
def plainValue? (text : String) : Option Json :=
  match resolve text with
  | .null => some .null
  | .bool value => some (.bool value)
  | .int value => some (.number (.int value))
  | .wideInt => none
  | .double value => some (.number (.double value))
  | .notFinite => some .null
  | .text => some (.str text)

/-- The truth value that a text is tagged to be. -/
def boolValue? (text : String) : Option Json :=
  if text ∈ trueWords then some (.bool true)
  else if text ∈ falseWords then some (.bool false)
  else none

/-- The integer that a text is tagged to be. -/
def intValue? (text : String) : Option Json :=
  match integer? text.toList with
  | some n => if Number.isExact n then some (.number (.int n)) else none
  | none => none

/-- The number that a text is tagged to be; digits after a zero count too. -/
def floatValue? (text : String) : Option Json :=
  if text ∈ notFiniteWords then some .null
  else (number? text.toList).map fun x => .number (.double x)

/-- Null, if a text tagged to be null spells it out. -/
def nullValue? (text : String) : Option Json :=
  if text ≠ "" && text ∈ nullWords then some .null else none

/-- The value of a scalar without a tag. -/
def untaggedValue? (text : String) (plain : Bool) : Option Json :=
  if plain then plainValue? text else some (.str text)

/-- The value of a scalar under its tag. -/
def scalarValue? (p : Properties) (text : String) (plain : Bool) : Option Json :=
  match p.tag? with
  | none => untaggedValue? text plain
  | some tag =>
    if isForeign tag then none
    else if tag.isOwn then untaggedValue? text plain
    else
      match tag.standardName? with
      | some "bool" => boolValue? text
      | some "int" => intValue? text
      | some "float" => floatValue? text
      | some "null" => nullValue? text
      | _ => some (.str text)

/-- A computation that may fail and may follow so many aliases. -/
abbrev AliasLimited := StateT Nat Option

namespace AliasLimited

/-- The node that is meant: of an alias, the last node with its anchor. -/
def target (anchors : List (Nat × Node)) : Node → AliasLimited Node
  | .alias number => do
    match ← get with
    | 0 => failure
    | left + 1 =>
      set left
      match (anchors.reverse).lookup number with
      | some n => pure n
      | none => failure
  | n => pure n

/-- The text of a key, which must be a scalar. -/
def key (anchors : List (Nat × Node)) (n : Node) : AliasLimited String := do
  match ← target anchors n with
  | .scalar _ text _ => pure text
  | _ => failure

/-- The value of a node whose collections are nested no deeper than `depth`. -/
def value (anchors : List (Nat × Node)) : (depth : Nat) → Node → AliasLimited Json
  | 0, n => do
    match ← target anchors n with
    | .scalar p text plain => liftM (scalarValue? p text plain)
    | _ => failure
  | depth + 1, n => do
    match ← target anchors n with
    | .scalar p text plain => liftM (scalarValue? p text plain)
    | .alias _ => failure
    | .sequence p items =>
      if p.tag?.any isForeign then failure
      else .arr <$> items.mapM (value anchors depth)
    | .mapping p entries =>
      if p.tag?.any isForeign then failure
      else do
        let members ← entries.mapM fun e => do
          let k ← key anchors e.1
          let v ← value anchors depth e.2
          pure (k, v)
        pure (.obj (OrderedMap.ofList members))

end AliasLimited

def maxDepth : Nat := 128

/-- The number of aliases that may be followed for each event of a document. -/
def aliasesPerEvent : Nat := 100

def Node.value? (n : Node) : Option Json :=
  (AliasLimited.value n.anchored maxDepth n).run' (aliasesPerEvent * n.events)

def parse? (text : String) : Option Json := do
  let tokens ← tokens? text
  let root ← Node.ofTokens? tokens
  root.value?

end ApiDocs.Yaml
