/-!
# HTTP methods

The methods a route may have, in their fixed order, and tables with an optional entry for each.
-/
namespace ApiDocs

inductive Method where
  | get
  | post
  | put
  | delete
  | patch
  | options
  | head
deriving Repr, BEq, DecidableEq, Inhabited

namespace Method

/-- All methods, in their order. -/
def all : List Method := [.get, .post, .put, .delete, .patch, .options, .head]

def key : Method → String
  | .get => "get"
  | .post => "post"
  | .put => "put"
  | .delete => "delete"
  | .patch => "patch"
  | .options => "options"
  | .head => "head"

/-- The name of a method as it is shown. -/
def display : Method → String
  | .get => "GET"
  | .post => "POST"
  | .put => "PUT"
  | .delete => "DELETE"
  | .patch => "PATCH"
  | .options => "OPTIONS"
  | .head => "HEAD"

def ofKey? (key : String) : Option Method :=
  all.find? fun m => m.key == key

/-- The method of a name in upper or lower case or both. -/
def parse? (name : String) : Option Method :=
  all.find? fun m => m.key.toList == name.toList.map Char.toLower

end Method

/-- A value for some of the methods. -/
structure ByMethod (α : Type) where
  get : Option α := none
  post : Option α := none
  put : Option α := none
  delete : Option α := none
  patch : Option α := none
  options : Option α := none
  head : Option α := none
deriving Repr, BEq, DecidableEq, Inhabited

namespace ByMethod

variable {α : Type}

def get? (t : ByMethod α) : Method → Option α
  | .get => t.get
  | .post => t.post
  | .put => t.put
  | .delete => t.delete
  | .patch => t.patch
  | .options => t.options
  | .head => t.head

def set (t : ByMethod α) (method : Method) (value : α) : ByMethod α :=
  match method with
  | .get => { t with get := some value }
  | .post => { t with post := some value }
  | .put => { t with put := some value }
  | .delete => { t with delete := some value }
  | .patch => { t with patch := some value }
  | .options => { t with options := some value }
  | .head => { t with head := some value }

/-- The methods that have a value, with it, in the order of methods. -/
def toList (t : ByMethod α) : List (Method × α) :=
  Method.all.filterMap fun m => (t.get? m).map fun v => (m, v)

def isEmpty (t : ByMethod α) : Bool :=
  t.toList.isEmpty

/-- Write all values of one table over another. -/
def overlay (t : ByMethod α) (values : List (Method × α)) : ByMethod α :=
  values.foldl (fun t v => t.set v.1 v.2) t

end ByMethod
end ApiDocs
