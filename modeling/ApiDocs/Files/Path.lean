/-!
# File paths

A path is a text whose parts are separated by slashes. Empty parts and `.` stay where they are; at
the end of a path they tell that it leads to a directory. `..` is the directory above and is
followed when files are looked up. A path that starts with a slash starts at the root.
-/
namespace ApiDocs.FilePath

/-- The path of `rest` seen from `base`; a path that starts at the root stays as it is. -/
def join (base rest : String) : String :=
  match rest.toList, base.toList.getLast? with
  | '/' :: _, _ => rest
  | _, none => rest
  | _, some '/' => base ++ rest
  | _, some _ => base ++ "/" ++ rest

def cut (separator : Char) : List Char → List (List Char)
  | [] => [[]]
  | c :: cs =>
    if c = separator then [] :: cut separator cs
    else
      match cut separator cs with
      | [] => [[c]]
      | word :: words => (c :: word) :: words

/-- The pieces of a path that stay where they are. -/
def staysInPlace (piece : List Char) : Bool :=
  piece.isEmpty || piece == ['.']

/-- Whether the end of a path tells that it leads to a directory. -/
def demandsDirectory (path : String) : Bool :=
  (cut '/' path.toList).getLast?.any staysInPlace

/-- Whether the last piece of a path that is not empty is `.`. -/
def endsInPlace (path : String) : Bool :=
  (cut '/' path.toList).reverse.find? (fun piece => !piece.isEmpty) == some ['.']

/-- Put pieces together with slashes between them. -/
def glue (pieces : List (List Char)) : String :=
  String.ofList (['/'].intercalate pieces)

/-- The path of the directory that holds what a path leads to. -/
def parent (path : String) : String :=
  let pieces := (cut '/' path.toList).reverse.dropWhile staysInPlace
  let front := glue ((pieces.drop 1).dropWhile staysInPlace).reverse
  if front.isEmpty && path.toList.head? = some '/' then "/" else front

def lengthLimit : Nat := 4095

def isLong (path : String) : Bool :=
  path.utf8ByteSize > lengthLimit

/-- Whether a path holds the character that ends names. -/
def hasNul (path : String) : Bool :=
  '\x00' ∈ path.toList

/-- Whether files may have a path at all. -/
def isValid (path : String) : Bool :=
  !hasNul path && !isLong path

/-- The name of the root among the parts of a path. -/
def rootName : String := "/"

def parentName : String := ".."

/-- A name that stands for a directory elsewhere: the root, or the one above. -/
def leadsOut (name : String) : Bool :=
  name == rootName || name == parentName

/-- The directory above the one that names lead to. There is nothing above the root; above the
start are the directories that `..` leads to. -/
def above (names : List String) : List String :=
  match names.getLast? with
  | none => [parentName]
  | some name =>
    if name = parentName then names ++ [parentName]
    else if names = [rootName] then names
    else names.dropLast

/-- The parts of a path that mean something, after the root if the path starts there. -/
def parts (path : String) : List String :=
  let names := ((cut '/' path.toList).filter fun piece => !staysInPlace piece).map String.ofList
  if path.toList.head? = some '/' then rootName :: names else names

/-- The names that parts lead to when everything on the way is a directory. -/
def resolve (names : List String) : List String → List String
  | [] => names
  | part :: parts =>
    if part = parentName then resolve (above names) parts else resolve (names ++ [part]) parts

def name? (path : String) : Option String :=
  (parts path).getLast?

/-- Whether a file name ends in a dot and the extension, after at least one other character. -/
def hasExtension (name extension : String) : Bool :=
  let suffix := '.' :: extension.toList
  suffix.isSuffixOf name.toList && suffix.length < name.toList.length

end ApiDocs.FilePath
