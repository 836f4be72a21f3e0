import ApiDocs.Route.Basic
import ApiDocs.Store
/-!
# Coverage

How far the routes of a version are documented. A route without both contracts is missing; one
with both is documented when the stored document of its group holds its path and method, and
annotated otherwise.
-/
namespace ApiDocs

/-- A route as reports name it. -/
structure RouteName where
  method : Method
  path : String
deriving Repr, BEq, DecidableEq, Inhabited

namespace RouteName

def ofRoute (r : Route) : RouteName :=
  ⟨r.method, r.path⟩

def display (n : RouteName) : String :=
  s!"[{n.method.display}] {n.path}"

end RouteName

structure Coverage where
  version : Nat
  documented : List RouteName := []
  annotated : List RouteName := []
  missing : List RouteName := []
deriving Repr, BEq, DecidableEq, Inhabited

namespace Coverage

def total (c : Coverage) : Nat :=
  c.documented.length + c.annotated.length + c.missing.length

/-- Whether every route has both contracts. -/
def isComplete (c : Coverage) : Bool :=
  c.missing.isEmpty

/-- Fail with the names of the missing routes, if there are any. -/
def ensureComplete (c : Coverage) : Except Error Unit :=
  if c.isComplete then .ok ()
  else
    let names := String.intercalate ", " (c.missing.map RouteName.display)
    .error (.invalidArgument
      s!"v{c.version} has {c.missing.length} routes without contracts: {names}")

/-- A count as a percentage of all routes, a half rounded up; zero when there are no routes. -/
def percent (c : Coverage) (count : Nat) : Nat :=
  (count * 100 + c.total / 2) / c.total

def share (c : Coverage) (count : Nat) : String :=
  s!"{count} ({c.percent count}%)"

def display (c : Coverage) : String :=
  s!"v{c.version}: documented {c.share c.documented.length}, " ++
    s!"annotated {c.share c.annotated.length}, missing {c.share c.missing.length}"

/-- Whether a document holds a path and a method of it. -/
def isGenerated (document : Option Json) (n : RouteName) : Bool :=
  (do (← (← document).get? n.path).get? n.method.key).isSome

/-- The document of a group; it is read once. -/
def groupDocument (store : Store) (known : OrderedMap (Option Json)) (group : String) :
    FileEffect (Option Json × OrderedMap (Option Json)) :=
  match known.get? group with
  | some document => pure (document, known)
  | none => do
    let document ← store.loadDocument? group
    pure (document, known.insert group document)

/-- Put routes into their classes, one after another. -/
def classify (store : Store) :
    (known : OrderedMap (Option Json)) → Coverage → List Route → FileEffect Coverage
  | _, c, [] => pure c
  | known, c, route :: routes => do
    let name := RouteName.ofRoute route
    if route.contracts?.isNone then
      classify store known { c with missing := c.missing ++ [name] } routes
    else
      let (document, known) ← groupDocument store known route.group
      if isGenerated document name then
        classify store known { c with documented := c.documented ++ [name] } routes
      else classify store known { c with annotated := c.annotated ++ [name] } routes

/-- The coverage of the routes of a version. -/
def ofRoutes (routes : List Route) (store : Store) (version : Nat) : FileEffect Coverage :=
  classify store {} { version } (Route.ofVersion routes version)

end Coverage
end ApiDocs
