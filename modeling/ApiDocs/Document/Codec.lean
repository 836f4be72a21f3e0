import ApiDocs.Document.Basic
/-!
# The JSON form of API descriptions

Each part is written as an object with its fields in order, without the optional ones that are
absent. Reading takes what writing gives, ignores keys it does not know, fills in the fields that
have a default, and converts nothing.
-/
namespace ApiDocs

open Json (field field? ofStrings ofMap listOf? mapOf? asString? asBool?)

namespace Parameter

def toJson (p : Parameter) : Json :=
  .ofFields [
    field "in" (.str p.location),
    field "name" (.str p.name),
    field "description" (.str p.description),
    field "schema" p.schema.toJson,
    field? "example" id p.exampleValue,
    field? "required" .bool p.required,
    field? "deprecated" .bool p.deprecated]

def ofJson? (j : Json) : Option Parameter := do
  let r ← j.record? 7
  let location ← r.required 0 "in" asString?
  let name ← r.required 1 "name" asString?
  let description ← r.defaulted 2 "description" "" asString?
  let schema ← r.required 3 "schema" Schema.ofJson?
  let required ← r.optional 5 "required" asBool?
  let deprecated ← r.optional 6 "deprecated" asBool?
  let exampleValue := r.lookup 4 "example"
  pure { location, name, description, schema, exampleValue, required, deprecated }

end Parameter

namespace MediaType

def toJson (m : MediaType) : Json :=
  .ofFields [field "schema" m.schema.toJson]

def ofJson? (j : Json) : Option MediaType := do
  let r ← j.record? 1
  let schema ← r.required 0 "schema" Schema.ofJson?
  pure ⟨schema⟩

end MediaType

namespace RequestBody

def toJson (b : RequestBody) : Json :=
  .ofFields [
    field "required" (.bool b.required),
    field "content" (ofMap MediaType.toJson b.content)]

def ofJson? (j : Json) : Option RequestBody := do
  let r ← j.record? 2
  let required ← r.required 0 "required" asBool?
  let content ← r.required 1 "content" (mapOf? MediaType.ofJson?)
  pure ⟨required, content⟩

end RequestBody

namespace Header

def toJson (h : Header) : Json :=
  .ofFields [
    field "description" (.str h.description),
    field "schema" h.schema.toJson]

def ofJson? (j : Json) : Option Header := do
  let r ← j.record? 2
  let description ← r.defaulted 0 "description" "" asString?
  let schema ← r.required 1 "schema" Schema.ofJson?
  pure ⟨description, schema⟩

end Header

namespace ResponseObject

def toJson (o : ResponseObject) : Json :=
  .ofFields [
    field "description" (.str o.description),
    field "content" (ofMap MediaType.toJson o.content),
    field? "headers" (ofMap Header.toJson) o.headers]

def ofJson? (j : Json) : Option ResponseObject := do
  let r ← j.record? 3
  let description ← r.defaulted 0 "description" "" asString?
  let content ← r.defaulted 1 "content" {} (mapOf? MediaType.ofJson?)
  let headers ← r.optional 2 "headers" (mapOf? Header.ofJson?)
  pure ⟨description, content, headers⟩

end ResponseObject

namespace Operation

def toJson (o : Operation) : Json :=
  .ofFields [
    field? "deprecated" .bool o.deprecated,
    field "description" (.str o.description),
    field "parameters" (.arr (o.parameters.map Parameter.toJson)),
    field? "requestBody" RequestBody.toJson o.requestBody,
    field "responses" (ofMap ResponseObject.toJson o.responses),
    field "summary" (.str o.summary),
    field "tags" (ofStrings o.tags)]

def ofJson? (j : Json) : Option Operation := do
  let r ← j.record? 7
  let deprecated ← r.optional 0 "deprecated" asBool?
  let description ← r.defaulted 1 "description" "" asString?
  let parameters ← r.defaulted 2 "parameters" [] (listOf? Parameter.ofJson?)
  let requestBody ← r.optional 3 "requestBody" RequestBody.ofJson?
  let responses ← r.defaulted 4 "responses" {} (mapOf? ResponseObject.ofJson?)
  let summary ← r.defaulted 5 "summary" "" asString?
  let tags ← r.defaulted 6 "tags" [] (listOf? asString?)
  pure { deprecated, description, parameters, requestBody, responses, summary, tags }

end Operation

namespace Method

/-- A method is written as its key. -/
def toJson (m : Method) : Json :=
  .str m.key

/-- A method is a key, or an object with that key alone and null under it. -/
def ofJson? : Json → Option Method
  | .str key => ofKey? key
  | .obj ⟨[(key, .null)]⟩ => ofKey? key
  | _ => none

end Method

namespace PathItem

def toJson (p : PathItem) : Json :=
  .ofFields (Method.all.map fun m => field? m.key Operation.toJson (p.get? m))

def ofJson? (j : Json) : Option PathItem := do
  let r ← j.record? 7
  let operation (position : Nat) (m : Method) := r.optional position m.key Operation.ofJson?
  let get ← operation 0 .get
  let post ← operation 1 .post
  let put ← operation 2 .put
  let delete ← operation 3 .delete
  let patch ← operation 4 .patch
  let options ← operation 5 .options
  let head ← operation 6 .head
  pure { get, post, put, delete, patch, options, head }

end PathItem

namespace PathDocument

def toJson (d : PathDocument) : Json :=
  ofMap PathItem.toJson d

def ofJson? (j : Json) : Option PathDocument :=
  mapOf? PathItem.ofJson? j

end PathDocument

namespace Tag

def toJson (t : Tag) : Json :=
  .ofFields [
    field "name" (.str t.name),
    field? "description" .str t.description]

def ofJson? (j : Json) : Option Tag := do
  let r ← j.record? 2
  let name ← r.required 0 "name" asString?
  let description ← r.optional 1 "description" asString?
  pure ⟨name, description⟩

end Tag

namespace Info

def toJson (i : Info) : Json :=
  .ofFields [
    field "title" (.str i.title),
    field "version" (.str i.version)]

def ofJson? (j : Json) : Option Info := do
  let r ← j.record? 2
  let title ← r.required 0 "title" asString?
  let version ← r.required 1 "version" asString?
  pure ⟨title, version⟩

end Info

namespace Server

def toJson (s : Server) : Json :=
  .ofFields [field "url" (.str s.url)]

def ofJson? (j : Json) : Option Server := do
  let r ← j.record? 1
  let url ← r.required 0 "url" asString?
  pure ⟨url⟩

end Server

namespace Document

def toJson (d : Document) : Json :=
  .ofFields [
    field "openapi" (.str d.openapi),
    field "info" d.info.toJson,
    field "servers" (.arr (d.servers.map Server.toJson)),
    field "tags" (.arr (d.tags.map Tag.toJson)),
    field "paths" (PathDocument.toJson d.paths)]

def ofJson? (j : Json) : Option Document := do
  let r ← j.record? 5
  let openapi ← r.required 0 "openapi" asString?
  let info ← r.required 1 "info" Info.ofJson?
  let servers ← r.required 2 "servers" (listOf? Server.ofJson?)
  let tags ← r.required 3 "tags" (listOf? Tag.ofJson?)
  let paths ← r.required 4 "paths" PathDocument.ofJson?
  pure ⟨openapi, info, servers, tags, paths⟩

end Document
end ApiDocs
