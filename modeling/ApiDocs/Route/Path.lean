import ApiDocs.Text.Blank
import ApiDocs.Text.Search
import ApiDocs.Text.Word
import ApiDocs.OrderedMap
/-!
# Paths of routes

A path names its parameters by placeholders in braces and its version by a segment `v1`. Groups
collect the routes whose paths differ in parameter segments only.
-/
namespace ApiDocs.Path

/-- The path of a route in the documents: one slash in front. -/
def documented (uri : String) : String :=
  "/" ++ Text.trimLeftSlashes uri

/-- The characters of a placeholder's name. -/
def isNameChar (c : Char) : Bool :=
  Text.isWord c || c == '?' || c == '-'

/-- The name of the placeholder that a text starts with: a brace, at least one character of a
name, a closing brace. -/
def placeholderAt? : List Char → Option (List Char)
  | '{' :: rest =>
    let name := rest.takeWhile isNameChar
    match rest.dropWhile isNameChar with
    | '}' :: _ => if name.isEmpty then none else some name
    | _ => none
  | _ => none

/-- The names of all placeholders, from left to right, skipping the first `skip` characters, which
belong to a placeholder already found. -/
def placeholderNames : (skip : Nat) → List Char → List String
  | _, [] => []
  | skip + 1, _ :: rest => placeholderNames skip rest
  | 0, c :: rest =>
    match placeholderAt? (c :: rest) with
    | some name => String.ofList name :: placeholderNames (name.length + 1) rest
    | none => placeholderNames 0 rest

/-- The names of all placeholders of a path, from left to right. -/
def placeholders (path : String) : List String :=
  placeholderNames 0 path.toList

/-- The length of the parameter segment that a text starts with: a slash and a placeholder of
word characters, possibly marked optional, possibly without a name. -/
def parameterSegment? : List Char → Option Nat
  | '/' :: '{' :: rest =>
    let name := rest.takeWhile Text.isWord
    match rest.dropWhile Text.isWord with
    | '}' :: _ => some (name.length + 3)
    | '?' :: '}' :: _ => some (name.length + 4)
    | _ => none
  | _ => none

/-- Drop every parameter segment, skipping the first `skip` characters, which belong to a segment
already dropped. -/
def dropParameters : (skip : Nat) → List Char → List Char
  | _, [] => []
  | skip + 1, _ :: rest => dropParameters skip rest
  | 0, c :: rest =>
    match parameterSegment? (c :: rest) with
    | some length => dropParameters (length - 1) rest
    | none => c :: dropParameters 0 rest

/-- The segment that may stand before the version. -/
def apiSegment : List Char := ['a', 'p', 'i', '/']

def dropApi (cs : List Char) : List Char :=
  (Text.stripStart? apiSegment cs).getD cs

/-- The group of a route: its path without parameter segments, a leading `api/` and outer
slashes. -/
def groupKey (uri : String) : String :=
  let path := dropApi (uri.toList.dropWhile (· == '/'))
  String.ofList (Text.dropBoth (· == '/') (dropParameters 0 path))

def maxVersion : Nat := 4294967295

def digitsValue (digits : List Char) : Nat :=
  digits.foldl (fun n c => n * 10 + (c.toNat - '0'.toNat)) 0

/-- The version that nonempty decimal digits write. -/
def version? (digits : List Char) : Option Nat :=
  let n := digitsValue digits
  if digits.isEmpty || n = 0 || n > maxVersion then none else some n

/-- The version of a path and what follows it: an optional slash, an optional `api/`, `v` and
the version, a slash, and a nonempty rest without a line feed. -/
def splitVersion (path : String) : Option (Nat × String) :=
  let cs := (Text.stripStart? ['/'] path.toList).getD path.toList
  match dropApi cs with
  | 'v' :: cs =>
    match cs.dropWhile Char.isDigit with
    | '/' :: rest =>
      if rest.isEmpty || '\n' ∈ rest then none
      else (version? (cs.takeWhile Char.isDigit)).map fun version => (version, String.ofList rest)
    | _ => none
  | _ => none

/-- The start of the paths of one version. -/
def versionMarker (version : Nat) : String :=
  s!"api/v{version}/"

/-- Whether a route's path belongs to a version. -/
def hasVersion (uri : String) (version : Nat) : Bool :=
  Text.startsWith (Text.trimLeftSlashes uri ++ "/") (versionMarker version)

/-- The path of a version and what follows it, as merged documents list it. -/
def ofVersion (version : Nat) (path : String) : String :=
  s!"/v{version}/{Text.trimLeftSlashes path}"

end ApiDocs.Path
