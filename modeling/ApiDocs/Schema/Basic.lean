import ApiDocs.Json.Record
/-!
# Schemas

The schema of a value in an API description, and its JSON form. A field that is absent is left
out of the JSON; an example or a default that is null is written and read back as null.
-/
namespace ApiDocs

/-- A schema. Only the type is always present. -/
structure Schema where
  type : String
  description : Option String := none
  exampleValue : Option Json := none
  defaultValue : Option Json := none
  deprecated : Option Bool := none
  properties : Option (OrderedMap Schema) := none
  items : Option Schema := none
  enum : Option (List String) := none
  format : Option String := none
deriving Repr, Inhabited

namespace Schema

/-- The schema of an object with these properties. -/
def object (properties : OrderedMap Schema) : Schema :=
  { type := "object", properties := some properties }

/-- The schema of an array of such items. -/
def array (items : Schema) : Schema :=
  { type := "array", items := some items }

mutual
def toJson : Schema → Json
  | { type, description, exampleValue, defaultValue, deprecated, properties, items, enum,
      format } =>
    .ofFields [
      Json.field "type" (.str type),
      Json.field? "description" .str description,
      Json.field? "example" id exampleValue,
      Json.field? "default" id defaultValue,
      Json.field? "deprecated" .bool deprecated,
      propertiesField properties,
      itemsField items,
      Json.field? "enum" Json.ofStrings enum,
      Json.field? "format" .str format]
/-- The member of the properties, if there are any. -/
def propertiesField : Option (OrderedMap Schema) → Option (String × Json)
  | none => none
  | some properties => some ("properties", .obj ⟨entriesToJson properties.entries⟩)
/-- The member of the items' schema, if there is one. -/
def itemsField : Option Schema → Option (String × Json)
  | none => none
  | some items => some ("items", items.toJson)
/-- The members of the properties, in order. -/
def entriesToJson : List (String × Schema) → List (String × Json)
  | [] => []
  | (name, schema) :: rest => (name, schema.toJson) :: entriesToJson rest
end

mutual
def ofJson? (j : Json) : Option Schema :=
  match hr : j.record? 9 with
  | none => none
  | some r => do
    let type ← r.required 0 "type" Json.asString?
    let description ← r.optional 1 "description" Json.asString?
    let deprecated ← r.optional 4 "deprecated" Json.asBool?
    let properties ←
      match hv : r.lookup 5 "properties" with
      | some (.obj members) =>
        have : sizeOf members.entries < sizeOf j := by
          have := Json.sizeOf_lookup_lt hr hv
          rcases members with ⟨entries⟩
          simp only [Json.obj.sizeOf_spec, OrderedMap.mk.sizeOf_spec] at this
          simp only
          omega
        (entriesOfJson? members.entries).map fun entries => some (OrderedMap.mk entries)
      | _ => r.optional 5 "properties" fun _ => none
    let items ←
      match hv : r.lookup 6 "items" with
      | some (.null) => some none
      | some v =>
        have : sizeOf v < sizeOf j := Json.sizeOf_lookup_lt hr hv
        (ofJson? v).map some
      | none => r.optional 6 "items" fun _ => none
    let enum ← r.optional 7 "enum" (Json.listOf? Json.asString?)
    let format ← r.optional 8 "format" Json.asString?
    pure {
      type, description, deprecated, properties, items, enum, format
      exampleValue := r.lookup 2 "example"
      defaultValue := r.lookup 3 "default" }
termination_by sizeOf j
/-- The properties of a schema from the members of an object. -/
def entriesOfJson? : List (String × Json) → Option (List (String × Schema))
  | [] => some []
  | (name, v) :: rest => do
    let schema ← ofJson? v
    let rest ← entriesOfJson? rest
    pure ((name, schema) :: rest)
termination_by entries => sizeOf entries
end

end Schema
end ApiDocs
