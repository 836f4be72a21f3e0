import ApiDocs.Effect
import ApiDocs.Field.Validity
/-!
# Registered schemas

Schemas are registered once under an id and are well formed from then on. Mappings can be derived
from registered ones by merging several and by picking some names.
-/
namespace ApiDocs

structure Registry where
  schemas : OrderedMap Properties := {}
deriving Repr, Inhabited

namespace Registry

/-- The location of a schema as a whole. -/
def schemaLocation : String := "schema"

def contains (r : Registry) (id : String) : Bool :=
  r.schemas.contains id

/-- Register a schema. An id that is taken is reported before any flaw of the properties. -/
def register (id : String) (properties : Properties) : Effect Registry Unit := do
  if (← get).contains id then
    throw (.definition id schemaLocation id .repeatedId)
  else
    properties.check propertyLocation id
    modify fun r => ⟨r.schemas.insert id properties⟩

def size (r : Registry) : Nat :=
  r.schemas.size

def isEmpty (r : Registry) : Bool :=
  r.schemas.isEmpty

/-- The properties registered under an id. -/
def properties (r : Registry) (id : String) : Except Error Properties :=
  match r.schemas.get? id with
  | some properties => .ok properties
  | none => .error (.unresolvedReference id)

/-- Write the properties of schemas over a mapping, one schema after another. -/
def overlay (r : Registry) (base : Properties) : List String → Except Error Properties
  | [] => .ok base
  | id :: ids => do
    let properties ← r.properties id
    r.overlay (base.insertAll properties.entries) ids

/-- The properties of several schemas and then of `overrides` in one mapping, without the names
in `exclude`. A later definition of a name replaces an earlier one in its place. -/
def merge (r : Registry) (schemas : List String) (overrides : Properties)
    (exclude : List String) : Except Error Properties := do
  let merged ← r.overlay {} schemas
  pure (exclude.foldl OrderedMap.erase (merged.insertAll overrides.entries))

/-- The properties of a schema whose names are listed, in the schema's order. -/
def only (r : Registry) (schema : String) (names : List String) : Except Error Properties := do
  let properties ← r.properties schema
  pure (properties.filterKeys fun name => name ∈ names)

end Registry
end ApiDocs
