import ApiDocs.Document.Basic
import ApiDocs.Json.Skip
/-!
# Files of tags

A file of tags is a JSON array of names with descriptions, each an object or a list of two. It is
read for these alone: other members of an object are passed over, and a member that is asked for
must not come twice.
-/
namespace ApiDocs.TagsFile

open Json

inductive Member where
  | name (text : String)
  | description (text? : Option String)
  | other
deriving Repr, BEq, DecidableEq, Inhabited

def text? (cs : List Char) : Option (String × List Char) :=
  string? (skipSpace cs)

def nullableText? (cs : List Char) : Option (Option String × List Char) :=
  match skipSpace cs with
  | 'n' :: 'u' :: 'l' :: 'l' :: rest => some (none, rest)
  | cs => (string? cs).map fun r => (some r.1, r.2)

def member? (key : String) (cs : List Char) : Option (Member × List Char) :=
  if key = "name" then (text? cs).map fun r => (.name r.1, r.2)
  else if key = "description" then (nullableText? cs).map fun r => (.description r.1, r.2)
  else (skipValue? (cs.length + 1) cs).map fun r => (.other, r.2)

def ofMembers? (members : List Member) : Option Tag :=
  let names := members.filterMap fun
    | .name text => some text
    | _ => none
  let descriptions := members.filterMap fun
    | .description text? => some text?
    | _ => none
  match names, descriptions with
  | [name], [] => some ⟨name, none⟩
  | [name], [description] => some ⟨name, description⟩
  | _, _ => none

def mark? (c : Char) (cs : List Char) : Option (List Char) :=
  match skipSpace cs with
  | d :: rest => if d = c then some rest else none
  | [] => none

/-- A tag as a list of its name and its description. -/
def listed? (cs : List Char) : Option (Tag × List Char) := do
  let (name, cs) ← text? cs
  let cs ← mark? ',' cs
  let (description, cs) ← nullableText? cs
  let cs ← mark? ']' cs
  pure (⟨name, description⟩, cs)

def tag? (cs : List Char) : Option (Tag × List Char) :=
  match skipSpace cs with
  | '{' :: rest => do
    let (members, rest) ← members? member? rest.length rest
    let tag ← ofMembers? (members.map Prod.snd)
    pure (tag, rest)
  | '[' :: rest => listed? rest
  | _ => none

/-- The tags after the opening bracket. -/
def tags? (cs : List Char) : Option (List Tag × List Char) :=
  match skipSpace cs with
  | ']' :: rest => some ([], rest)
  | cs => items? tag? cs.length cs

/-- The tags of a text; none if the text does not hold tags alone. -/
def parse? (text : String) : Option (List Tag) := do
  let cs ← mark? '[' text.toList
  let (tags, rest) ← tags? cs
  if (skipSpace rest).isEmpty then pure tags else none

end ApiDocs.TagsFile
