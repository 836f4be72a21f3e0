import ApiDocs.Contract
import ApiDocs.Route.Method
import ApiDocs.Route.Path
/-!
# Routes

A route as the application hands it over: its path, its method, and the contracts that are
attached to it.
-/
namespace ApiDocs

/-- A route. A route is documented only when both contracts are attached. -/
structure Route where
  uri : String
  method : Method
  request? : Option Request := none
  response? : Option Response := none
deriving Repr, Inhabited

namespace Route

/-- The path of the route in the documents. -/
def path (r : Route) : String :=
  Path.documented r.uri

def group (r : Route) : String :=
  Path.groupKey r.uri

/-- Both contracts of the route, if both are attached. -/
def contracts? (r : Route) : Option (Request × Response) :=
  match r.request?, r.response? with
  | some request, some response => some (request, response)
  | _, _ => none

/-- The routes by group; groups in the order of their first route, routes in the given order. -/
def byGroup (routes : List Route) : OrderedMap (List Route) :=
  routes.foldl (fun m r => m.upsert r.group fun present => present.getD [] ++ [r]) {}

/-- The routes whose path belongs to a version. -/
def ofVersion (routes : List Route) (version : Nat) : List Route :=
  routes.filter fun r => Path.hasVersion r.uri version

end Route
end ApiDocs
