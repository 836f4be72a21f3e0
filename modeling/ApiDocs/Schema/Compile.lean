import ApiDocs.Registry
import ApiDocs.Schema.Basic
/-!
# Compiling fields to schemas

A shape becomes a schema by structural recursion, given what a reference stands for. Items,
properties and parameters each have schemas of their own, since each position shows other keywords.
References are then expanded with the trail of schemas on the way, so that a cycle is found when it
closes; the expansion ends because each step uses up one registered id.
-/
namespace ApiDocs

/-- What a reference stands for: the compiled properties of a schema. -/
abbrev Expansion := String → Except Error (OrderedMap Schema)

/-- Add to a schema what a property shows: description, example, default, deprecation. -/
def Schema.asProperty (schema : Schema) (field : Field) : Schema :=
  { schema with
    description := some field.description
    exampleValue := field.firstExample?
    defaultValue := field.type.default?
    deprecated := if field.deprecated then some true else none }

mutual
/-- The schema of an item of a shape, which shows nothing but the shape. -/
def Shape.schema (expand : Expansion) : Shape → Except Error Schema
  | .scalar kind => .ok { type := kind.name }
  | .enum values => .ok { type := "string", enum := some values }
  | .time _ => .ok { type := "string" }
  | .object properties => do
    let entries ← compileEntries expand properties.entries
    pure (Schema.object ⟨entries⟩)
  | .reference id => do
    let properties ← expand id
    pure (Schema.object properties)
  | .collection item => do
    let items ← item.shape.schema expand
    pure (Schema.array items)
/-- The schema of a property whose values have a shape. -/
def Shape.propertySchema (expand : Expansion) (field : Field) (shape : Shape) :
    Except Error Schema :=
  let schema := Schema.asProperty { type := shape.schemaType } field
  match shape with
  | .object properties => do
    let entries ← compileEntries expand properties.entries
    pure { schema with properties := some ⟨entries⟩ }
  | .reference id => do
    let properties ← expand id
    pure { schema with properties := some properties }
  | .collection item => do
    let items ← item.shape.schema expand
    pure { schema with items := some items }
  | .enum values => .ok { schema with enum := some values }
  | .scalar _ => .ok schema
  | .time _ => .ok schema
/-- The schemas of properties, in order. -/
def compileEntries (expand : Expansion) :
    List (String × Field) → Except Error (List (String × Schema))
  | [] => .ok []
  | (name, field) :: rest => do
    let schema ← field.type.shape.propertySchema expand field
    let rest ← compileEntries expand rest
    pure ((name, schema) :: rest)
end

/-- The schemas of a mapping's properties. -/
def Properties.schemas (expand : Expansion) (properties : Properties) :
    Except Error (OrderedMap Schema) := do
  let entries ← compileEntries expand properties.entries
  pure ⟨entries⟩

/-- The schema of a parameter, which shows the default and the format of moments. -/
def FieldType.parameterSchema (expand : Expansion) (type : FieldType) : Except Error Schema :=
  let schema : Schema := { type := type.shape.schemaType, defaultValue := type.default? }
  match type.shape with
  | .object properties => do
    let properties ← Properties.schemas expand properties
    pure { schema with properties := some properties }
  | .reference id => do
    let properties ← expand id
    pure { schema with properties := some properties }
  | .enum values => .ok { schema with enum := some values }
  | .collection item => do
    let items ← item.shape.schema expand
    pure { schema with items := some items }
  | .time granularity => .ok { schema with format := some granularity.format }
  | .scalar _ => .ok schema

namespace Registry

/-- The registered ids that are not on a trail. -/
def unused (r : Registry) (trail : List String) : List String :=
  r.schemas.keys.filter (· ∉ trail)

/-- Each step of a trail leaves fewer registered ids unused. -/
theorem unused_append_lt {r : Registry} {trail : List String} {id : String}
    {properties : Properties} (hid : id ∉ trail) (h : r.properties id = .ok properties) :
    (r.unused (trail ++ [id])).length < (r.unused trail).length := by
  have hget : r.schemas.get? id = some properties := by
    unfold Registry.properties at h
    split at h
    · simp_all
    · simp at h
  have hsplit : r.unused (trail ++ [id]) = (r.unused trail).filter (· ≠ id) := by
    simp only [unused, List.filter_filter]
    congr 1
    funext a
    by_cases ha : a = id <;> simp [ha]
  have hmem : id ∈ r.unused trail := by
    have hkey := OrderedMap.mem_keys_of_get? hget
    simp [unused, hid, hkey]
  rw [hsplit, List.length_filter_lt_length_iff_exists]
  exact ⟨id, hmem, by simp⟩

/-- The compiled properties of a registered schema, reached by a trail of schemas. A schema that
is on the trail already is a cycle. -/
def expand (r : Registry) (trail : List String) (id : String) :
    Except Error (OrderedMap Schema) :=
  if _ : id ∈ trail then .error (.cyclicReference (trail ++ [id]))
  else
    match _ : r.properties id with
    | .error e => .error e
    | .ok properties => properties.schemas fun next => r.expand (trail ++ [id]) next
termination_by (r.unused trail).length
decreasing_by exact unused_append_lt ‹_› ‹_›

def parameterSchema (r : Registry) (field : Field) : Except Error Schema :=
  field.type.parameterSchema (r.expand [])

/-- The schemas of a mapping's properties. -/
def propertySchemas (r : Registry) (properties : Properties) : Except Error (OrderedMap Schema) :=
  properties.schemas (r.expand [])

end Registry
end ApiDocs
