import ApiDocs.Proofs.Document.Codec
/-!
# Documents survive their JSON form

A whole API description is read back from the JSON value that it is written as. Nothing is lost on
the way: an optional field has a member exactly if it is present, and a null that is given as an
example or as a default is written as null.
-/
namespace ApiDocs

open Json (field field? get?_field get?_field? get?_noFields ofMap mapOf?_ofMap listOf?_arr
  record?_ofFields)
open Json.Record (required_named optional_named optionalOf optionalOf_map)

/-- Every value is read back from the JSON value that it is written as. -/
def Json.Lawful {α : Type} (encode : α → Json) (decode : Json → Option α) : Prop :=
  ∀ a, decode (encode a) = some a

theorem Tag.ofJson?_toJson (t : Tag) : ofJson? t.toJson = some t := by
  have hdescription : optionalOf Json.asString? (t.description.map .str) = some t.description :=
    optionalOf_map (fun _ _ => rfl) (by simp)
  simp only [ofJson?, toJson, record?_ofFields, required_named, optional_named, get?_field,
    get?_field?, get?_noFields, String.reduceEq, if_true, if_false, Option.or_none,
    Option.bind_eq_bind, Option.bind_some, Json.asString?, hdescription]
  rfl

theorem Info.ofJson?_toJson (i : Info) : ofJson? i.toJson = some i := by
  simp only [ofJson?, toJson, record?_ofFields, required_named, get?_field, String.reduceEq,
    if_true, if_false, Option.bind_eq_bind, Option.bind_some, Json.asString?]
  rfl

theorem Server.ofJson?_toJson (s : Server) : ofJson? s.toJson = some s := by
  simp only [ofJson?, toJson, record?_ofFields, required_named, get?_field, if_true,
    Option.bind_eq_bind, Option.bind_some, Json.asString?]
  rfl

theorem PathDocument.ofJson?_toJson (d : PathDocument) :
    PathDocument.ofJson? (PathDocument.toJson d) = some d :=
  mapOf?_ofMap PathItem.ofJson?_toJson d

theorem Document.ofJson?_toJson (d : Document) : ofJson? d.toJson = some d := by
  simp only [ofJson?, toJson, record?_ofFields, required_named, get?_field, String.reduceEq,
    if_true, if_false, Option.bind_eq_bind, Option.bind_some, Json.asString?,
    Info.ofJson?_toJson, listOf?_arr Server.ofJson?_toJson, listOf?_arr Tag.ofJson?_toJson,
    PathDocument.ofJson?_toJson]
  rfl

theorem Parameter.get?_toJson (p : Parameter) :
    p.toJson.get? "example" = p.exampleValue ∧
    p.toJson.get? "required" = p.required.map .bool ∧
    p.toJson.get? "deprecated" = p.deprecated.map .bool := by
  simp only [Json.get?, toJson, Json.ofFields, get?_field, get?_field?, get?_noFields,
    String.reduceEq, if_true, if_false, Option.or_none, Option.map_id_apply, and_self]

theorem ResponseObject.get?_toJson (o : ResponseObject) :
    o.toJson.get? "headers" = o.headers.map (ofMap Header.toJson) := by
  simp only [Json.get?, toJson, Json.ofFields, get?_field, get?_field?, get?_noFields,
    String.reduceEq, if_true, if_false, Option.or_none]

theorem Operation.get?_toJson (o : Operation) :
    o.toJson.get? "deprecated" = o.deprecated.map .bool ∧
    o.toJson.get? "requestBody" = o.requestBody.map RequestBody.toJson := by
  simp only [Json.get?, toJson, Json.ofFields, get?_field, get?_field?, get?_noFields,
    String.reduceEq, if_true, if_false, Option.or_none, and_self]

/-- A path item has a member for a method exactly if it has an operation for it. -/
theorem PathItem.get?_toJson (p : PathItem) (m : Method) :
    (PathItem.toJson p).get? m.key = (p.get? m).map Operation.toJson := by
  cases m <;>
    simp only [Json.get?, PathItem.toJson, Json.ofFields, Method.all, List.map_cons, List.map_nil,
      get?_field?, get?_noFields, Method.key, String.reduceEq, if_true, if_false, Option.or_none]

theorem Tag.get?_toJson (t : Tag) : t.toJson.get? "description" = t.description.map .str := by
  simp only [Json.get?, toJson, Json.ofFields, get?_field, get?_field?, get?_noFields,
    String.reduceEq, if_true, if_false, Option.or_none]

/-- Documents and all their parts are read back as they are, with every map in its order. In the
JSON form an optional field that is absent has no member and one that is present has one, however
empty its value; an example or a default is its own member, also when it is null. -/
theorem document_survives_json :
    Json.Lawful Document.toJson Document.ofJson? ∧
    Json.Lawful PathItem.toJson PathItem.ofJson? ∧
    Json.Lawful Operation.toJson Operation.ofJson? ∧
    Json.Lawful Parameter.toJson Parameter.ofJson? ∧
    Json.Lawful RequestBody.toJson RequestBody.ofJson? ∧
    Json.Lawful ResponseObject.toJson ResponseObject.ofJson? ∧
    Json.Lawful Header.toJson Header.ofJson? ∧
    Json.Lawful Schema.toJson Schema.ofJson? ∧
    (∀ p : PathItem, ∀ m : Method,
      (PathItem.toJson p).get? m.key = (p.get? m).map Operation.toJson) ∧
    (∀ o : Operation, o.toJson.get? "deprecated" = o.deprecated.map .bool ∧
      o.toJson.get? "requestBody" = o.requestBody.map RequestBody.toJson) ∧
    (∀ p : Parameter, p.toJson.get? "example" = p.exampleValue ∧
      p.toJson.get? "required" = p.required.map .bool ∧
      p.toJson.get? "deprecated" = p.deprecated.map .bool) ∧
    (∀ o : ResponseObject, o.toJson.get? "headers" = o.headers.map (ofMap Header.toJson)) ∧
    (∀ t : Tag, t.toJson.get? "description" = t.description.map .str) ∧
    (∀ s : Schema, s.toJson.get? "description" = s.description.map .str ∧
      s.toJson.get? "example" = s.exampleValue ∧
      s.toJson.get? "default" = s.defaultValue ∧
      s.toJson.get? "deprecated" = s.deprecated.map .bool ∧
      s.toJson.get? "properties" = s.properties.map (ofMap Schema.toJson) ∧
      s.toJson.get? "items" = s.items.map Schema.toJson ∧
      s.toJson.get? "enum" = s.enum.map Json.ofStrings ∧
      s.toJson.get? "format" = s.format.map .str) :=
  ⟨Document.ofJson?_toJson, PathItem.ofJson?_toJson, Operation.ofJson?_toJson,
    Parameter.ofJson?_toJson, RequestBody.ofJson?_toJson, ResponseObject.ofJson?_toJson,
    Header.ofJson?_toJson, Schema.ofJson?_toJson, PathItem.get?_toJson, Operation.get?_toJson,
    Parameter.get?_toJson, ResponseObject.get?_toJson, Tag.get?_toJson,
    Schema.get?_toJson⟩

end ApiDocs
