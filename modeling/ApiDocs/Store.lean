import ApiDocs.Files.Scan
import ApiDocs.Format
import ApiDocs.Versions.Merge
/-!
# The store of documents

Path documents are kept as JSON files below one directory, merged documents in a directory for
each version, and pages in a directory of their own. All operations act on a file tree.
-/
namespace ApiDocs

abbrev FileEffect (α : Type) := Effect FileTree α

/-- Turn a fault of the file tree into a failure. -/
def ofFault {α : Type} : Except Fault α → Except Error α
  | .ok a => .ok a
  | .error fault => .error (.io fault.message)

namespace FileEffect

def read {α : Type} (look : FileTree → Except Fault α) : FileEffect α := do
  liftM (ofFault (look (← get)))

/-- Change the files; what was changed before a fault stays. -/
def change (act : FileTree → Except Fault Unit × FileTree) : FileEffect Unit := do
  let (result, files) := act (← get)
  set files
  liftM (ofFault result)

/-- Write a file, with the directories on the way. -/
def writeText (path text : String) : FileEffect Unit :=
  change fun files => files.write path (.text text)

/-- The text of a file; none if there is no file. -/
def readText? (path : String) : FileEffect (Option String) :=
  read fun files =>
    match files.readText path with
    | .ok text => .ok (some text)
    | .error .missing => .ok none
    | .error fault => .error fault

end FileEffect

/-- Where documents are kept: their directory, the directory of pages, and the format of merged
documents. -/
structure Store where
  root : String
  pages : String
  format : Format := .json
deriving Repr, BEq, Inhabited

namespace Store

/-- The store at a directory. Its pages are in a directory below it. -/
def ofRoot (root : String) : Store where
  root := root
  pages := FilePath.join root Scan.buildName

def documentPath (s : Store) (uri : String) : String :=
  FilePath.join s.root s!"{Text.trimSlashes uri}.json"

def mergedPath (s : Store) (version : Nat) (bucket : String) : String :=
  FilePath.join (FilePath.join s.root s!"v{version}") s!"{bucket}.{s.format.name}"

def pagePath (s : Store) (version : Nat) (bucket : String) : String :=
  FilePath.join s.pages s!"v{version}-{bucket}.html"

/-- The failure of a file whose text is not what it should be. -/
def corrupt (file : String) : Error :=
  .corruptArtifact file "the document cannot be read"

/-- Save a value as a path document, and tell its file. -/
def saveDocument (s : Store) (uri : String) (value : Json) : FileEffect String := do
  let path := s.documentPath uri
  FileEffect.writeText path value.pretty
  pure path

/-- Read a file in a format; none if there is no file. -/
def loadFile? (format : Format) (path : String) : FileEffect (Option Json) := do
  match ← FileEffect.readText? path with
  | none => pure none
  | some text =>
    match format.parse? text with
    | some value => pure (some value)
    | none => throw (corrupt path)

def loadDocument? (s : Store) (uri : String) : FileEffect (Option Json) :=
  loadFile? .json (s.documentPath uri)

/-- A merged document, if it was saved. -/
def loadMerged? (s : Store) (version : Nat) (bucket : String) : FileEffect (Option Json) :=
  loadFile? s.format (s.mergedPath version bucket)

/-- Save merged documents to the store. -/
def saver (s : Store) : Saver FileTree := fun version bucket document =>
  FileEffect.writeText (s.mergedPath version bucket) (s.format.print document.toJson)

/-- Remove everything but the pages that are kept below the store. -/
def deleteDocuments (s : Store) : FileEffect Unit :=
  FileEffect.change fun files =>
    match files.retain s.root (· == Scan.buildName) with
    | (.error .missing, files) => (.ok (), files)
    | answer => answer

/-- Add the path documents of files to a heap. Documents that are no objects are left out. -/
def addFiles (heap : VersionHeap) : List String → FileEffect VersionHeap
  | [] => pure heap
  | file :: files => do
    let text ← FileEffect.read fun tree => tree.readText file
    let some document := Json.parse? text | throw (corrupt file)
    if !document.isObject then addFiles heap files
    else
      let (.ok _, heap) := (VersionHeap.insertJson document).attempt heap | throw (corrupt file)
      addFiles heap files

/-- The path documents of the store, without files of reserved names. -/
def loadHeap (s : Store) (reserved : List String) : FileEffect VersionHeap := do
  addFiles {} ((← get).scan s.root reserved)

/-- The text in a template whose place a document takes. -/
def documentMarker : String := "%%SPECS%%"

def render (template : String) (document : Json) : String :=
  Text.replaceAll template documentMarker document.compress

/-- Write the page of a merged document, and tell its file. -/
def publish (s : Store) (version : Nat) (bucket template : String) : FileEffect String := do
  match ← s.loadMerged? version bucket with
  | none => throw (.invalidArgument s!"no merged document {s.mergedPath version bucket}")
  | some document =>
    let page := s.pagePath version bucket
    FileEffect.writeText page (render template document)
    pure page

end Store
end ApiDocs
