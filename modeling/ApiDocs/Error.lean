/-!
# Failures

The causes for which an operation of the library fails, and the text that tells a reader of each.
-/
namespace ApiDocs

/-- What is wrong with one definition of a property or parameter. -/
inductive Flaw where
  | blankName
  | emptyEnum
  | foreignDefault (value : String)
  | blankTarget
  | repeatedId
  | other (text : String)
deriving Repr, BEq, DecidableEq, Inhabited

def Flaw.message : Flaw → String
  | .blankName => "name must not be empty"
  | .emptyEnum => "enum has no values"
  | .foreignDefault value => s!"default \"{value}\" is not one of the enum values"
  | .blankTarget => "reference has no target schema"
  | .repeatedId => "schema is already registered"
  | .other text => text

inductive Error where
  /-- Files could not be read or written. -/
  | io (detail : String)
  /-- The definition `name` at a location of a contract or schema is not well formed. -/
  | definition (source location name : String) (flaw : Flaw)
  /-- A reference names a schema that is not registered. -/
  | unresolvedReference (schema : String)
  /-- Expanding references came back to a schema on the way; the chain ends in that schema. -/
  | cyclicReference (chain : List String)
  /-- A placeholder of a route's path is not among the path parameters of its contract. -/
  | pathContract (placeholder path contract : String)
  | mergeConfiguration (detail : String)
  /-- A stored file does not hold what it should. -/
  | corruptArtifact (file detail : String)
  | invalidArgument (detail : String)
  | serialization (detail : String)
deriving Repr, BEq, DecidableEq, Inhabited

namespace Error

def message : Error → String
  | .io detail => s!"IO error: {detail}"
  | .definition source location name flaw =>
    s!"\"{name}\" {location} parameter in {source} has invalid definition: {flaw.message}"
  | .unresolvedReference schema => s!"referenced schema {schema} is not registered"
  | .cyclicReference chain => "cyclic schema reference: " ++ String.intercalate " -> " chain
  | .pathContract placeholder path contract =>
    s!"{placeholder} path parameter in \"{path}\" route is not defined in path parameters of the " ++
      s!"specs ({contract})"
  | .mergeConfiguration detail => s!"merge configuration error: {detail}"
  | .corruptArtifact file detail => s!"corrupted document {file}: {detail}"
  | .invalidArgument detail => s!"invalid argument: {detail}"
  | .serialization detail => s!"serialization error: {detail}"

/-- A failure to write or read JSON. -/
def ofJson (detail : String) : Error :=
  .serialization s!"JSON serialization error: {detail}"

/-- A failure to write or read YAML. -/
def ofYaml (detail : String) : Error :=
  .serialization s!"YAML serialization error: {detail}"

/-- Whether the failure comes from expanding references. -/
def isCompilation : Error → Bool
  | .unresolvedReference _ => true
  | .cyclicReference _ => true
  | _ => false

/-- The text of the failure underneath, which only file failures have. -/
def cause? : Error → Option String
  | .io detail => some detail
  | _ => none

end Error
end ApiDocs
