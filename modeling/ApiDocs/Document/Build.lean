import ApiDocs.Document.Basic
import ApiDocs.Route.Basic
import ApiDocs.Schema.Compile
/-!
# Building documents from routes

A documented route becomes one operation at its path. The operation's parts are compiled in a
fixed order, which decides the error that is reported: request body, response, parameters. The
documents of a list of routes are built group by group.
-/
namespace ApiDocs

/-- The format in which all bodies are exchanged. -/
def jsonContent : String := "application/json"

/-- The content of a body that has one format only. -/
def contentOf (schema : Schema) : OrderedMap MediaType :=
  ⟨[(jsonContent, ⟨schema⟩)]⟩

/-- A mark that is written only when it is set. -/
def markIf (set : Bool) : Option Bool :=
  if set then some true else none

/-- Check that every placeholder of a path is a path parameter of the request; the leftmost one
that is not is reported. -/
def Request.checkPath (request : Request) (path : String) : Except Error Unit :=
  match (Path.placeholders path).find? fun name => !request.path.contains name with
  | some name => .error (.pathContract ("\x7b" ++ name ++ "\x7d") path request.name)
  | none => .ok ()

namespace Registry

/-- The parameter that a field declares at a place. -/
def parameter (r : Registry) (name : String) (field : Field) (location : String) :
    Except Error Parameter := do
  let schema ← r.parameterSchema field
  pure {
    location, name, schema
    description := field.description
    exampleValue := field.firstExample?
    required := markIf field.type.required
    deprecated := markIf field.deprecated }

/-- The fields that declare parameters, with their places, in the order in which the parameters
are listed. -/
def declarations (request : Request) : List (Location × String × Field) :=
  Location.all.flatMap fun place =>
    (request.parameters place).entries.map fun e => (place, e.1, e.2)

/-- The parameters of a request: path, query, header, cookie, each in declaration order. -/
def requestParameters (r : Registry) (request : Request) : Except Error (List Parameter) :=
  (declarations request).mapM fun d => r.parameter d.2.1 d.2.2 d.1.name

def requestBody (r : Registry) (request : Request) : Except Error RequestBody := do
  let properties ← r.propertySchemas request.body
  pure ⟨!request.optionalBody, contentOf (Schema.object properties)⟩

def header (r : Registry) (field : Field) : Except Error Header := do
  let schema ← r.parameterSchema field
  pure ⟨field.description, schema⟩

/-- The headers of a response, if it has any. -/
def responseHeaders (r : Registry) (response : Response) :
    Except Error (Option (OrderedMap Header)) :=
  if response.headers.isEmpty then pure none
  else do
    let entries ← response.headers.entries.mapM fun e => do
      let header ← r.header e.2
      pure (e.1, header)
    pure (some ⟨entries⟩)

/-- A response with its body; a collection answers an array of its body's objects. -/
def responseObject (r : Registry) (response : Response) : Except Error ResponseObject := do
  let properties ← r.propertySchemas response.body
  let object := Schema.object properties
  let headers ← r.responseHeaders response
  pure {
    headers
    description := response.description
    content := contentOf (if response.collection then Schema.array object else object) }

/-- The operation of a route with these contracts. The modifier's tag follows the declared
tags. Only GET has no request body. -/
def operation (r : Registry) (request : Request) (response : Response) (method : Method) :
    Except Error Operation := do
  let requestBody ← if method = .get then pure none else some <$> r.requestBody request
  let answer ← r.responseObject response
  let parameters ← r.requestParameters request
  pure {
    parameters, requestBody
    deprecated := markIf request.deprecated
    description := request.description
    responses := ⟨[(toString response.code, answer)]⟩
    summary := request.summary
    tags := request.tags ++ [request.modifier.tag] }

/-- The operation of a route, if the route is documented. -/
def routeOperation? (r : Registry) (route : Route) : Except Error (Option Operation) :=
  match route.contracts? with
  | none => pure none
  | some (request, response) => do
    request.checkPath route.path
    some <$> r.operation request response route.method

/-- Add a route's operation to a document. A route that is not documented changes nothing, which
the second result tells. -/
def addRoute (r : Registry) (document : PathDocument) (route : Route) :
    Except Error (PathDocument × Bool) := do
  match ← r.routeOperation? route with
  | none => pure (document, false)
  | some operation =>
    let document := document.upsert route.path fun item => (item.getD {}).set route.method operation
    pure (document, true)

/-- Add routes to a document, one after another. -/
def addRoutes (r : Registry) (document : PathDocument) : List Route → Except Error PathDocument
  | [] => pure document
  | route :: routes => do
    let (document, _) ← r.addRoute document route
    r.addRoutes document routes

/-- The documents of groups of routes, without those that stay empty. -/
def groupDocuments (r : Registry) :
    List (String × List Route) → Except Error (List (String × PathDocument))
  | [] => pure []
  | (group, routes) :: groups => do
    let document ← r.addRoutes {} routes
    let rest ← r.groupDocuments groups
    pure (if document.isEmpty then rest else (group, document) :: rest)

/-- The path documents of a list of routes, by group. -/
def pathDocuments (r : Registry) (routes : List Route) :
    Except Error (OrderedMap PathDocument) := do
  let entries ← r.groupDocuments (Route.byGroup routes).entries
  pure ⟨entries⟩

end Registry
end ApiDocs
