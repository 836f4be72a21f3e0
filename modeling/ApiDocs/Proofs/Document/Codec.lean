import ApiDocs.Document.Codec
import ApiDocs.Proofs.Schema.Codec
/-!
# Path items survive their JSON form

Each part is read back from the object that it was written as, from the inner parts outwards.
-/
namespace ApiDocs

open Json (field field? get?_field get?_field? get?_noFields record?_ofFields ofMap mapOf?_ofMap
  listOf?_arr listOf?_ofStrings)
open Json.Record (required_named optional_named defaulted_named optionalOf optionalOf_map
  lookup_named)

private theorem optionalOf_bool (value : Option Bool) :
    optionalOf Json.asBool? (value.map .bool) = some value :=
  optionalOf_map (fun _ _ => rfl) (by simp)

theorem Parameter.ofJson?_toJson (p : Parameter) : ofJson? p.toJson = some p := by
  simp only [ofJson?, toJson, record?_ofFields, required_named, optional_named, defaulted_named,
    lookup_named, get?_field, get?_field?, get?_noFields, String.reduceEq, if_true, if_false,
    Option.or_none, Option.bind_eq_bind, Option.bind_some, Json.asString?, Option.map_some,
    Option.getD_some, Schema.ofJson?_toJson, optionalOf_bool, Option.map_id_apply]
  rfl

theorem MediaType.ofJson?_toJson (m : MediaType) : ofJson? m.toJson = some m := by
  simp only [ofJson?, toJson, record?_ofFields, required_named, get?_field, if_true,
    Option.bind_eq_bind, Option.bind_some, Schema.ofJson?_toJson]
  rfl

theorem RequestBody.ofJson?_toJson (b : RequestBody) : ofJson? b.toJson = some b := by
  simp only [ofJson?, toJson, record?_ofFields, required_named, get?_field, String.reduceEq,
    if_true, if_false, Option.bind_eq_bind, Option.bind_some, Json.asBool?,
    mapOf?_ofMap MediaType.ofJson?_toJson]
  rfl

theorem Header.ofJson?_toJson (h : Header) : ofJson? h.toJson = some h := by
  simp only [ofJson?, toJson, record?_ofFields, required_named, defaulted_named, get?_field,
    String.reduceEq, if_true, if_false, Option.bind_eq_bind, Option.bind_some, Json.asString?,
    Option.map_some, Option.getD_some, Schema.ofJson?_toJson]
  rfl

theorem ResponseObject.ofJson?_toJson (o : ResponseObject) : ofJson? o.toJson = some o := by
  have hheaders : optionalOf (Json.mapOf? Header.ofJson?)
      (o.headers.map (ofMap Header.toJson)) = some o.headers :=
    optionalOf_map (fun m _ => mapOf?_ofMap Header.ofJson?_toJson m) (by simp [ofMap])
  simp only [ofJson?, toJson, record?_ofFields, optional_named, defaulted_named, get?_field,
    get?_field?, get?_noFields, String.reduceEq, if_true, if_false, Option.or_none,
    Option.bind_eq_bind, Option.bind_some, Json.asString?, Option.map_some, Option.getD_some,
    mapOf?_ofMap MediaType.ofJson?_toJson, hheaders]
  rfl

theorem Operation.ofJson?_toJson (o : Operation) : ofJson? o.toJson = some o := by
  have hbody : optionalOf RequestBody.ofJson? (o.requestBody.map RequestBody.toJson) =
      some o.requestBody :=
    optionalOf_map (fun b _ => b.ofJson?_toJson) (by simp [RequestBody.toJson, Json.ofFields])
  simp only [ofJson?, toJson, record?_ofFields, optional_named, defaulted_named, get?_field,
    get?_field?, get?_noFields, String.reduceEq, if_true, if_false, Option.or_none,
    Option.bind_eq_bind, Option.bind_some, Json.asString?, Option.map_some, Option.getD_some,
    optionalOf_bool, hbody, listOf?_arr Parameter.ofJson?_toJson, listOf?_ofStrings,
    mapOf?_ofMap ResponseObject.ofJson?_toJson]
  rfl

theorem Operation.optionalOf_map_toJson (o : Option Operation) :
    optionalOf Operation.ofJson? (o.map Operation.toJson) = some o :=
  optionalOf_map (fun o _ => o.ofJson?_toJson) (by simp [Operation.toJson, Json.ofFields])

/-- Each method of a path item is read from the member under its key. -/
theorem PathItem.get?_of_ofJson? {fields : OrderedMap Json} {item : PathItem}
    (h : PathItem.ofJson? (.obj fields) = some item) (m : Method) :
    optionalOf Operation.ofJson? (fields.get? m.key) = some (item.get? m) := by
  simp only [PathItem.ofJson?, Json.record?, optional_named, Option.bind_eq_bind,
    Option.bind_some, Option.bind_eq_some_iff] at h
  obtain ⟨get, hget, post, hpost, put, hput, delete, hdelete, patch, hpatch, options, hoptions,
    head, hhead, h⟩ := h
  cases h
  cases m <;> assumption

theorem PathItem.ofJson?_toJson (p : PathItem) : PathItem.ofJson? (PathItem.toJson p) = some p := by
  simp only [PathItem.ofJson?, PathItem.toJson, Method.all, List.map_cons, List.map_nil,
    record?_ofFields, optional_named, get?_field?, get?_noFields, Method.key, String.reduceEq,
    if_true, if_false, Option.or_none, Option.bind_eq_bind, Option.bind_some,
    Operation.optionalOf_map_toJson, ByMethod.get?]
  rfl

end ApiDocs
