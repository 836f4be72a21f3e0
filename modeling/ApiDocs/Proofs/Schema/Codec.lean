import ApiDocs.Proofs.Json.Record
import ApiDocs.Schema.Basic
/-!
# Schemas survive their JSON form

By recursion over a schema, whose properties and items are schemas again.
-/
namespace ApiDocs.Schema

open Json (field field? get?_field get?_field? get?_noFields)
open Json.Record (required_named optional_named optional_null optional_some optional_absent
  optionalOf optionalOf_map lookup_named)

private theorem propertiesField_eq (value : Option (OrderedMap Schema)) :
    propertiesField value = field? "properties" (fun m => .obj ⟨entriesToJson m.entries⟩) value := by
  cases value <;> rfl

private theorem itemsField_eq (value : Option Schema) :
    itemsField value = field? "items" toJson value := by
  cases value <;> rfl

private def members (s : Schema) : OrderedMap Json :=
  ⟨[field "type" (.str s.type),
    field? "description" .str s.description,
    field? "example" id s.exampleValue,
    field? "default" id s.defaultValue,
    field? "deprecated" .bool s.deprecated,
    field? "properties" (fun m => .obj ⟨entriesToJson m.entries⟩) s.properties,
    field? "items" toJson s.items,
    field? "enum" Json.ofStrings s.enum,
    field? "format" .str s.format].filterMap id⟩

private theorem toJson_eq (s : Schema) : s.toJson = .obj s.members := by
  obtain ⟨type, description, exampleValue, defaultValue, deprecated, properties, items, enum,
    format⟩ := s
  rw [toJson, propertiesField_eq, itemsField_eq]
  rfl

/-- The properties of a schema from the value of its member. -/
def propertiesOfJson? : Json → Option (OrderedMap Schema)
  | .obj members => (entriesOfJson? members.entries).map OrderedMap.mk
  | _ => none

/-- The schema of a record, field by field. -/
def ofRecord? (r : Json.Record) : Option Schema := do
  let type ← r.required 0 "type" Json.asString?
  let description ← r.optional 1 "description" Json.asString?
  let deprecated ← r.optional 4 "deprecated" Json.asBool?
  let properties ← r.optional 5 "properties" propertiesOfJson?
  let items ← r.optional 6 "items" ofJson?
  let enum ← r.optional 7 "enum" (Json.listOf? Json.asString?)
  let format ← r.optional 8 "format" Json.asString?
  pure {
    type, description, deprecated, properties, items, enum, format
    exampleValue := r.lookup 2 "example"
    defaultValue := r.lookup 3 "default" }

theorem ofJson?_eq (j : Json) : ofJson? j = (j.record? 9).bind ofRecord? := by
  rw [ofJson?]
  split
  · next h =>
    rw [h]
    rfl
  · next r hr =>
    have hrecord : (j.record? 9).bind ofRecord? = ofRecord? r := by
      rw [hr]
      rfl
    rw [hrecord, ofRecord?]
    dsimp only
    congr 1
    funext type
    congr 1
    funext description
    congr 1
    funext deprecated
    split
    case' h_1 members hv =>
      have hread : r.optional 5 "properties" propertiesOfJson? =
          (entriesOfJson? members.entries).map fun entries => some ⟨entries⟩ := by
        rw [optional_some hv (by simp), propertiesOfJson?, Option.map_map]
        rfl
      rw [hread]
    case' h_2 hv =>
      have hread : (r.optional 5 "properties" fun _ => none) =
          r.optional 5 "properties" propertiesOfJson? := by
        cases h : r.lookup 5 "properties" with
        | none => exact optional_absent h _
        | some v =>
          cases v with
          | null => rw [optional_null h, optional_null h]
          | obj members => exact absurd h (hv members)
          | _ =>
            rw [optional_some h (by simp), optional_some h (by simp)]
            rfl
      rw [hread]
    all_goals
      congr 1
      funext properties
      split
      · next hv => rw [optional_null hv]
      · next hnull hv => rw [optional_some hv hnull]
      · next hv => rw [optional_absent hv ofJson?]

private theorem ofJson?_of_parts {s : Schema}
    (hproperties : ∀ m, s.properties = some m →
      entriesOfJson? (entriesToJson m.entries) = some m.entries)
    (hitems : ∀ items, s.items = some items → ofJson? items.toJson = some items) :
    ofJson? s.toJson = some s := by
  have hdescription : optionalOf Json.asString? (s.description.map .str) = some s.description :=
    optionalOf_map (fun _ _ => rfl) (by simp)
  have hdeprecated : optionalOf Json.asBool? (s.deprecated.map .bool) = some s.deprecated :=
    optionalOf_map (fun _ _ => rfl) (by simp)
  have hproperties' : optionalOf propertiesOfJson?
      (s.properties.map fun m => .obj ⟨entriesToJson m.entries⟩) = some s.properties := by
    refine optionalOf_map (fun m hm => ?_) (by simp)
    simp only [propertiesOfJson?, hproperties m hm, Option.map_some]
  have hitems' : optionalOf ofJson? (s.items.map toJson) = some s.items :=
    optionalOf_map hitems fun items => by simp [toJson_eq]
  have henum : optionalOf (Json.listOf? Json.asString?) (s.enum.map Json.ofStrings) =
      some s.enum :=
    optionalOf_map (fun values _ => Json.listOf?_ofStrings values) (by simp [Json.ofStrings])
  have hformat : optionalOf Json.asString? (s.format.map .str) = some s.format :=
    optionalOf_map (fun _ _ => rfl) (by simp)
  rw [toJson_eq, ofJson?_eq, Json.record?, Option.bind_some]
  simp only [ofRecord?, required_named, optional_named, lookup_named, members, get?_field,
    get?_field?, get?_noFields, String.reduceEq, if_true, if_false, Option.or_none,
    Option.bind_some, Json.asString?, Option.bind_eq_bind, Option.map_id_apply, hdescription,
    hdeprecated, hproperties', hitems', henum, hformat]
  cases s
  rfl

mutual
/-- A schema is read back from its JSON form. -/
theorem ofJson?_toJson : ∀ s : Schema, ofJson? s.toJson = some s
  | { properties := none, items := none, .. } => ofJson?_of_parts nofun nofun
  | { properties := some ⟨entries⟩, items := none, .. } => by
    refine ofJson?_of_parts ?_ nofun
    rintro _ ⟨⟩
    exact entriesOfJson?_entriesToJson entries
  | { properties := none, items := some items, .. } => by
    refine ofJson?_of_parts nofun ?_
    rintro _ ⟨⟩
    exact ofJson?_toJson items
  | { properties := some ⟨entries⟩, items := some items, .. } => by
    refine ofJson?_of_parts ?_ ?_
    · rintro _ ⟨⟩
      exact entriesOfJson?_entriesToJson entries
    · rintro _ ⟨⟩
      exact ofJson?_toJson items
theorem entriesOfJson?_entriesToJson : ∀ entries : List (String × Schema),
    entriesOfJson? (entriesToJson entries) = some entries
  | [] => by rw [entriesToJson, entriesOfJson?]
  | (name, schema) :: rest => by
    rw [entriesToJson, entriesOfJson?, ofJson?_toJson schema,
      entriesOfJson?_entriesToJson rest]
    rfl
end

theorem entriesToJson_eq (entries : List (String × Schema)) :
    entriesToJson entries = entries.map fun e => (e.1, e.2.toJson) := by
  induction entries with
  | nil => rw [entriesToJson, List.map_nil]
  | cons e rest ih =>
    obtain ⟨name, schema⟩ := e
    rw [entriesToJson, ih, List.map_cons]

/-- A schema has a member for an optional field exactly if the field is present. -/
theorem get?_toJson (s : Schema) :
    s.toJson.get? "description" = s.description.map .str ∧
    s.toJson.get? "example" = s.exampleValue ∧
    s.toJson.get? "default" = s.defaultValue ∧
    s.toJson.get? "deprecated" = s.deprecated.map .bool ∧
    s.toJson.get? "properties" = s.properties.map (Json.ofMap toJson) ∧
    s.toJson.get? "items" = s.items.map toJson ∧
    s.toJson.get? "enum" = s.enum.map Json.ofStrings ∧
    s.toJson.get? "format" = s.format.map .str := by
  have hproperties : (fun m : OrderedMap Schema => Json.obj ⟨entriesToJson m.entries⟩) =
      Json.ofMap toJson := by
    funext m
    rw [entriesToJson_eq]
    rfl
  rw [toJson_eq]
  simp only [Json.get?, members, get?_field, get?_field?, get?_noFields, String.reduceEq, if_true,
    if_false, Option.or_none, Option.map_id_apply, hproperties, and_self]

end ApiDocs.Schema
