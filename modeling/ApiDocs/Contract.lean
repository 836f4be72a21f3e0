import ApiDocs.Field.Validity
/-!
# Request and response contracts

A contract lists the fields of a request or a response by their place. A modifier says who may
see the operation in the published descriptions.
-/
namespace ApiDocs

/-- Who an operation is published for. -/
inductive Modifier where
  | «public»
  | «private»
  | skip
deriving Repr, BEq, DecidableEq, Inhabited

namespace Modifier

def all : List Modifier := [.public, .private, .skip]

/-- The tag that carries a modifier through an operation. -/
def tag : Modifier → String
  | .public => "modifier.public"
  | .private => "modifier.private"
  | .skip => "modifier.skip"

def ofTag? (tag : String) : Option Modifier :=
  all.find? fun m => m.tag == tag

end Modifier

/-- The places of parameters outside of a body. -/
inductive Location where
  | path
  | query
  | header
  | cookie
deriving Repr, BEq, DecidableEq, Inhabited

/-- The places in the order in which parameters are listed. -/
def Location.all : List Location := [.path, .query, .header, .cookie]

def Location.name : Location → String
  | .path => "path"
  | .query => "query"
  | .header => "header"
  | .cookie => "cookie"

/-- The name of the place of body fields. -/
def bodyLocation : String := "body"

/-- What a route accepts. -/
structure Request where
  name : String
  body : Properties := {}
  path : Properties := {}
  query : Properties := {}
  headers : Properties := {}
  cookies : Properties := {}
  summary : String := ""
  description : String := ""
  optionalBody : Bool := false
  deprecated : Bool := false
  modifier : Modifier := .public
  tags : List String := []
deriving Repr, Inhabited

namespace Request

def parameters (r : Request) : Location → Properties
  | .path => r.path
  | .query => r.query
  | .header => r.headers
  | .cookie => r.cookies

/-- Declare a parameter at a place. A name declared before keeps its position. -/
def declare (r : Request) (location : Location) (name : String) (field : Field) : Request :=
  match location with
  | .path => { r with path := r.path.insert name field }
  | .query => { r with query := r.query.insert name field }
  | .header => { r with headers := r.headers.insert name field }
  | .cookie => { r with cookies := r.cookies.insert name field }

def declareBody (r : Request) (name : String) (field : Field) : Request :=
  { r with body := r.body.insert name field }

/-- The request, if all its definitions are well formed; else the first flaw, in the order body,
path, query, header, cookie. -/
def validated (r : Request) : Except Error Request := do
  r.body.check bodyLocation r.name
  r.path.check Location.path.name r.name
  r.query.check Location.query.name r.name
  r.headers.check Location.header.name r.name
  r.cookies.check Location.cookie.name r.name
  pure r

end Request

/-- What a route answers. -/
structure Response where
  name : String
  body : Properties := {}
  headers : Properties := {}
  cookies : Properties := {}
  code : Nat := 200
  description : String := ""
  collection : Bool := false
deriving Repr, Inhabited

/-- The response, if all its definitions are well formed; else the first flaw, in the order body,
header, cookie. -/
def Response.validated (r : Response) : Except Error Response := do
  r.body.check bodyLocation r.name
  r.headers.check Location.header.name r.name
  r.cookies.check Location.cookie.name r.name
  pure r

end ApiDocs
