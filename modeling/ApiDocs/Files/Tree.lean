import ApiDocs.Files.Path
import ApiDocs.OrderedMap
/-!
# File trees

Directories and files as a value. Reading follows a path part by part and fails where a part is
missing or stands on a file; writing creates the directories on the way first.

A tree has no symbolic and no hard links, so that two places never show one file and a way that
leads through names leads to the place they spell. Names and paths are text.
-/
namespace ApiDocs

/-- What a file holds: text, or bytes that are no text. -/
inductive Content where
  | text (value : String)
  | bytes (value : ByteArray)
deriving BEq, Inhabited

/-- The content of a file of these bytes. -/
def Content.ofBytes (bytes : ByteArray) : Content :=
  match String.fromUTF8? bytes with
  | some value => .text value
  | none => .bytes bytes

/-- A file, or a directory with its entries by name. -/
inductive Entry where
  | file (content : Content)
  | directory (entries : OrderedMap Entry)
deriving Inhabited

/-- The entries of a directory, by name. -/
abbrev Directory := OrderedMap Entry

/-- Why a file could not be read or written. -/
inductive Fault where
  | missing
  | notDirectory
  | isDirectory
  | notText
  | badName
deriving Repr, BEq, DecidableEq, Inhabited

def Fault.message : Fault → String
  | .missing => "no such file or directory"
  | .notDirectory => "not a directory"
  | .isDirectory => "is a directory"
  | .notText => "the file is not valid text"
  | .badName => "invalid file name"

namespace Directory

def nameLimit : Nat := 255

def isLong (name : String) : Bool :=
  name.utf8ByteSize > nameLimit

/-- The entry below a directory, by plain names. -/
def find? (d : Directory) : List String → Option Entry
  | [] => some (.directory d)
  | name :: rest =>
    match d.get? name with
    | none => none
    | some (.file content) => if rest.isEmpty then some (.file content) else none
    | some (.directory inner) => find? inner rest

/-- The directory that an entry is; an empty one in place of a file or of nothing. -/
def ofEntry : Option Entry → Directory
  | some (.directory d) => d
  | _ => {}

/-- Write an entry below a directory, by plain names. -/
def put (entry : Entry) (d : Directory) : List String → Directory
  | [] => d
  | [name] => d.insert name entry
  | name :: rest => d.insert name (.directory (put entry (ofEntry (d.get? name)) rest))

/-- Change the directory below a directory, by plain names. -/
def modify (f : Directory → Directory) (d : Directory) : List String → Directory
  | [] => f d
  | name :: rest =>
    match d.get? name with
    | some (.directory inner) => d.insert name (.directory (modify f inner rest))
    | _ => d

/-- Follow the parts of a path from a place already reached. -/
def follow (d : Directory) : (reached : List String) → List String → Except Fault (List String)
  | reached, [] => .ok reached
  | reached, name :: rest =>
    match d.find? reached with
    | none => .error .missing
    | some (.file _) => .error .notDirectory
    | some (.directory _) =>
      if name = FilePath.parentName then follow d (FilePath.above reached) rest
      else if isLong name then .error .badName
      else if (d.find? (reached ++ [name])).isNone then .error .missing
      else follow d (reached ++ [name]) rest

/-- Follow the parts of a path and create the directories that are missing. -/
def makeAll (d : Directory) :
    (reached : List String) → List String → Except Fault (List String) × Directory
  | reached, [] => (.ok reached, d)
  | reached, name :: rest =>
    if name = FilePath.parentName then makeAll d (FilePath.above reached) rest
    else
      match d.find? (reached ++ [name]) with
      | some (.directory _) => makeAll d (reached ++ [name]) rest
      | some (.file _) => (.error .notDirectory, d)
      | none =>
        if isLong name then (.error .badName, d)
        else makeAll (put (.directory {}) d (reached ++ [name])) (reached ++ [name]) rest

end Directory

/-- All files that can be reached. -/
structure FileTree where
  root : Directory := {}
deriving Inhabited

namespace FileTree

/-- The entry at a path. An empty path leads nowhere. -/
def lookup (t : FileTree) (path : String) : Except Fault Entry :=
  if path = "" then .error .missing
  else if !FilePath.isValid path then .error .badName
  else
    match t.root.follow [] (FilePath.parts path) with
    | .error fault => .error fault
    | .ok names =>
      match t.root.find? names with
      | none => .error .missing
      | some (.directory d) => .ok (.directory d)
      | some (.file content) =>
        if FilePath.demandsDirectory path then .error .notDirectory else .ok (.file content)

def readText (t : FileTree) (path : String) : Except Fault String :=
  match t.lookup path with
  | .error fault => .error fault
  | .ok (.directory _) => .error .isDirectory
  | .ok (.file (.bytes _)) => .error .notText
  | .ok (.file (.text value)) => .ok value

def isDirectory (t : FileTree) (path : String) : Bool :=
  match t.lookup path with
  | .ok (.directory _) => true
  | _ => false

/-- The names that the path of a directory leads to. -/
def directoryAt (t : FileTree) (path : String) : Except Fault (List String) :=
  match t.lookup path with
  | .error fault => .error fault
  | .ok (.file _) => .error .notDirectory
  | .ok (.directory _) => t.root.follow [] (FilePath.parts path)

/-- Create the directories of a path that are missing, and tell where it leads. The directory
before a `.` at the end has to be there: only those above it are created. -/
def makeDirectories (t : FileTree) (path : String) : Except Fault (List String) × FileTree :=
  if !FilePath.isValid path then (.error .badName, t)
  else if FilePath.endsInPlace path then
    match t.root.makeAll [] (FilePath.parts (FilePath.parent path)) with
    | (.error fault, root) => (.error fault, ⟨root⟩)
    | (.ok _, root) => (directoryAt ⟨root⟩ path, ⟨root⟩)
  else
    let (reached, root) := t.root.makeAll [] (FilePath.parts path)
    (reached, ⟨root⟩)

/-- Write a file into a directory that is there. -/
def writeIn (t : FileTree) (directory : List String) (name : String) (content : Content) :
    Except Fault Unit × FileTree :=
  let place := directory ++ [name]
  if Directory.isLong name then (.error .badName, t)
  else if name = FilePath.parentName then (.error .isDirectory, t)
  else
    match t.root.find? place with
    | some (.directory _) => (.error .isDirectory, t)
    | _ => (.ok (), ⟨Directory.put (.file content) t.root place⟩)

/-- Write a file, with the directories on the way. Those stay when the file cannot be written. -/
def write (t : FileTree) (path : String) (content : Content) : Except Fault Unit × FileTree :=
  match FilePath.name? path with
  | none => (.error .isDirectory, t)
  | some name =>
    match t.makeDirectories (FilePath.parent path) with
    | (.error fault, t) => (.error fault, t)
    | (.ok directory, t) =>
      if !FilePath.isValid path then (.error .badName, t)
      else if FilePath.demandsDirectory path then (.error .isDirectory, t)
      else t.writeIn directory name content

/-- Remove the entries of a directory whose name does not pass a test. -/
def retain (t : FileTree) (path : String) (keep : String → Bool) :
    Except Fault Unit × FileTree :=
  match t.directoryAt path with
  | .error fault => (.error fault, t)
  | .ok names =>
    let stays := fun name => FilePath.leadsOut name || keep name
    (.ok (), ⟨t.root.modify (fun d => d.filterKeys stays) names⟩)

mutual
/-- The paths of an entry and of all below it; those of directories end in a slash. -/
def pathsOf (path : String) : Entry → List String
  | .file _ => [path]
  | .directory d => (path ++ "/") :: pathsIn (path ++ "/") d.entries
/-- The paths of entries with a text in front, and of all below them. -/
def pathsIn (front : String) : List (String × Entry) → List String
  | [] => []
  | (name, entry) :: rest => pathsOf (front ++ name) entry ++ pathsIn front rest
end

/-- The paths of everything below a directory, in no particular order. -/
def pathsBelow (t : FileTree) (path : String) : List String :=
  match t.lookup path with
  | .ok (.directory d) => pathsIn "" d.entries
  | _ => []

end FileTree
end ApiDocs
