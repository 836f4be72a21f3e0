import ApiDocs.Command.Basic
import ApiDocs.Command.TagsFile
import ApiDocs.Store
/-!
# Carrying out commands

A command acts on files. When it fails it tells what it was about, from the outside in, and what
went wrong in the end.
-/
namespace ApiDocs

inductive Cause where
  | failed (error : Error)
  /-- A file that was named on the command line could not be read. -/
  | unreadable (fault : Fault)
  /-- A file that was named on the command line does not hold what it should. -/
  | malformed
deriving Repr, BEq, DecidableEq, Inhabited

def Cause.message : Cause → String
  | .failed e => e.message
  | .unreadable fault => fault.message
  | .malformed => "the file does not hold what it should"

/-- Why a command failed: what it was about, the outermost first, and the cause. A command that
stops by its own decision has no cause besides its text. -/
structure Failure where
  contexts : List String := []
  cause? : Option Cause := none
deriving Repr, BEq, DecidableEq, Inhabited

/-- The texts that tell of a failure, the outermost first. -/
def Failure.lines (f : Failure) : List String :=
  f.contexts ++ (f.cause?.map Cause.message).toList

abbrev CommandEffect (α : Type) := EStateM Failure FileTree α

namespace CommandEffect

def stop {α : Type} (text : String) : CommandEffect α :=
  throw { contexts := [text] }

/-- Run an effect on files; a failure is told with these contexts. -/
def about {α : Type} (contexts : List String) (effect : FileEffect α) : CommandEffect α :=
  fun files =>
    match effect.run files with
    | .ok a files => .ok a files
    | .error e files => .error ⟨contexts, some (.failed e)⟩ files

/-- The text of a file that was named on the command line. -/
def readNamed (context path : String) : CommandEffect String := do
  match (← get).readText path with
  | .ok text => pure text
  | .error fault => throw ⟨[context], some (.unreadable fault)⟩

end CommandEffect

namespace Command

open CommandEffect

/-- The file names of merged documents, which are no path documents. -/
def reservedNames : List String :=
  MergeStrategy.byModifier.buckets.map fun bucket => s!"{bucket}.json"

def loadHeap (store : Store) : CommandEffect VersionHeap :=
  about ["Failed to load path documents"] (store.loadHeap reservedNames)

/-- The latest version found in a heap. -/
def latestOf (heap : VersionHeap) (docs : String) : CommandEffect Nat :=
  match heap.latest? with
  | some latest => pure latest
  | none => stop s!"No versioned path documents found in {docs}"

/-- The latest version: the one given, or the greatest one found. -/
def chooseLatest (given? : Option Nat) (heap : VersionHeap) (docs : String) :
    CommandEffect Nat := do
  let latest ←
    match given? with
    | some latest => pure latest
    | none => latestOf heap docs
  if latest = 0 then stop "The latest version must be a positive integer" else pure latest

def loadTags (path : String) : CommandEffect (List Tag) := do
  let text ← readNamed s!"Failed to read tags file: {path}" path
  match TagsFile.parse? text with
  | some tags => pure tags
  | none => throw ⟨[s!"Failed to parse tags file: {path}"], some .malformed⟩

/-- Merge and save versions, one after another. -/
def mergeVersions (merger : Merger FileTree) : List Nat → CommandEffect Unit
  | [] => pure ()
  | version :: versions => do
    let _ ← about [s!"Failed to merge version {version}"] (merger.mergeAndSave version)
    mergeVersions merger versions

/-- Merge the path documents of a directory and save the merged documents there. -/
def runMerge (a : MergeArguments) : CommandEffect Unit := do
  if !(← get).isDirectory a.docs then stop s!"Documents directory does not exist: {a.docs}"
  else
    let store := { Store.ofRoot a.docs with format := a.format }
    let heap ← loadHeap store
    let latest ← chooseLatest a.latest? heap a.docs
    let versions ← about [] (liftM (a.version.resolve latest))
    let tags ←
      match a.tags? with
      | some path => loadTags path
      | none => pure []
    mergeVersions
      { heap
        root := ⟨a.title, a.baseUrl, tags⟩
        strategy? := some .byModifier
        saver? := some store.saver }
      versions

/-- The versions and buckets to publish: versions ascending, all buckets of each. -/
def pagesOf (versions : List Nat) : List (Nat × String) :=
  versions.flatMap fun version =>
    MergeStrategy.byModifier.buckets.map fun bucket => (version, bucket)

/-- Publish pages, one after another. When all versions are selected, those that were not merged
are left out. -/
def publishPages (store : Store) (template : String) (selector : VersionSelector) :
    List (Nat × String) → CommandEffect Unit
  | [] => pure ()
  | (version, bucket) :: pages => do
    let publish : FileEffect Unit := do
      try
        let _ ← store.publish version bucket template
      catch e =>
        match e, selector with
        | .invalidArgument _, .all => pure ()
        | e, _ => throw e
    about [s!"Failed to publish v{version} {bucket}"] publish
    publishPages store template selector pages

/-- The store that a publication works on. -/
def publishStore (a : PublishArguments) : Store :=
  let store := { Store.ofRoot a.docs with format := a.format }
  match a.output? with
  | some output => { store with pages := output }
  | none => store

/-- Put the merged documents of a directory into pages. -/
def runPublish (a : PublishArguments) : CommandEffect Unit := do
  let template ← readNamed s!"Failed to read template: {a.template}" a.template
  let store := publishStore a
  let heap ← loadHeap store
  let latest ← latestOf heap a.docs
  let versions ← about [] (liftM (a.version.resolve latest))
  publishPages store template a.version (pagesOf versions)

def run : Command → CommandEffect Unit
  | .merge a => runMerge a
  | .publish a => runPublish a

end Command
end ApiDocs
