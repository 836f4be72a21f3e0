import ApiDocs.Document.Build
import ApiDocs.Effect
/-!
# Documents under construction

A document is built by calls that change it, one for each route. A call may fail; what it has
written by then stays, and the calls after it are made all the same.
-/
namespace ApiDocs.Registry

/-- Write the operation of a route into the document that is built, and tell whether the route is
documented. -/
def writeRoute (r : Registry) (route : Route) : Effect PathDocument Bool :=
  match route.contracts? with
  | none => pure false
  | some (request, response) => do
    let path := route.path
    request.checkPath path
    let operation ← r.operation request response route.method
    modify fun document =>
      document.upsert path fun item => (item.getD {}).set route.method operation
    pure true

/-- Calls for routes, one after another, each with its answer, and the document after them. -/
def writeRoutes (r : Registry) (document : PathDocument) :
    List Route → List (Route × Except Error Bool) × PathDocument
  | [] => ([], document)
  | route :: routes =>
    let (answer, document) := (r.writeRoute route).attempt document
    let (calls, document) := r.writeRoutes document routes
    ((route, answer) :: calls, document)

end ApiDocs.Registry
