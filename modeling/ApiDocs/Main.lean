import ApiDocs.Command.Arguments
import ApiDocs.Command.Run
import ApiDocs.Files.Changes
/-!
# The program

Reads the files that a command line speaks of, carries the command out, and writes the files that
have changed.
-/
namespace ApiDocs.Program

/-- The most levels of directories that are read. -/
def maxLevels : Nat := 256

/-- A file or directory with all that is below it. -/
def readEntry (levels : Nat) (path : String) : IO (Option Entry) := do
  try
    let real ← IO.FS.realPath path
    if ← real.isDir then
      match levels with
      | 0 => pure none
      | levels + 1 =>
        let names := (← real.readDir).map fun e => e.fileName
        let entries ← names.toList.filterMapM fun name => do
          let entry ← readEntry levels (FilePath.join path name)
          pure (entry.map fun entry => (name, entry))
        pure (some (.directory ⟨entries⟩))
    else pure (some (.file (Content.ofBytes (← IO.FS.readBinFile real))))
  catch _ => pure none

def sources : Command → List String
  | .merge a => a.docs :: a.tags?.toList
  | .publish a => a.docs :: a.template :: a.output?.toList

def readAll (t : FileTree) : List String → IO FileTree
  | [] => pure t
  | path :: paths => do
    match ← readEntry maxLevels path with
    | some entry => readAll (t.mount path entry) paths
    | none => readAll t paths

def pathOf (names : List String) : String :=
  names.foldl FilePath.join ""

/-- Write a file, with the directories on the way. -/
def writeFile (names : List String) (content : Content) : IO Unit := do
  if names.length > 1 then IO.FS.createDirAll (pathOf names.dropLast)
  match content with
  | .text value => IO.FS.writeFile (pathOf names) value
  | .bytes value => IO.FS.writeBinFile (pathOf names) value

def report (f : Failure) : IO Unit := do
  let err ← IO.getStderr
  f.lines.forM err.putStrLn

/-- Carry out a command. The result is the exit code. -/
def runCommand (command : Command) : IO UInt32 := do
  let before ← readAll {} (sources command)
  let (code, after) ←
    match command.run.run before with
    | .ok _ after => pure (0, after)
    | .error f after =>
      report f
      pure (1, after)
  (after.changedSince before).forM fun f => writeFile f.1 f.2
  pure code

/-- Answer a command line that is not carried out. -/
def answerUsage (u : Usage) : IO UInt32 := do
  if u.isAnswer then
    (← IO.getStdout).putStrLn u.message
    pure 0
  else
    (← IO.getStderr).putStrLn u.message
    pure 2

end ApiDocs.Program

/-- Merge or publish documents, as the command line says. -/
def main (args : List String) : IO UInt32 :=
  match ApiDocs.CommandLine.parse args with
  | .ok line => ApiDocs.Program.runCommand line.command
  | .error usage => ApiDocs.Program.answerUsage usage
