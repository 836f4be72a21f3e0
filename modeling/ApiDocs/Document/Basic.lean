import ApiDocs.Route.Method
import ApiDocs.Schema.Basic
/-!
# API descriptions

The parts of an API description in the order in which their fields are written, and the root that
documents of one API share.
-/
namespace ApiDocs

structure Parameter where
  location : String
  name : String
  description : String := ""
  schema : Schema
  exampleValue : Option Json := none
  required : Option Bool := none
  deprecated : Option Bool := none
deriving Repr, Inhabited

/-- The content of a body in one format. -/
structure MediaType where
  schema : Schema
deriving Repr, Inhabited

structure RequestBody where
  required : Bool
  content : OrderedMap MediaType
deriving Repr, Inhabited

structure Header where
  description : String := ""
  schema : Schema
deriving Repr, Inhabited

/-- A response with its body by format. -/
structure ResponseObject where
  description : String := ""
  content : OrderedMap MediaType := {}
  headers : Option (OrderedMap Header) := none
deriving Repr, Inhabited

/-- What a path offers for one method. -/
structure Operation where
  deprecated : Option Bool := none
  description : String := ""
  parameters : List Parameter := []
  requestBody : Option RequestBody := none
  responses : OrderedMap ResponseObject := {}
  summary : String := ""
  tags : List String := []
deriving Repr, Inhabited

abbrev PathItem := ByMethod Operation

/-- Operations by path. -/
abbrev PathDocument := OrderedMap PathItem

/-- A group of operations that a document explains. -/
structure Tag where
  name : String
  description : Option String := none
deriving Repr, BEq, DecidableEq, Inhabited

structure Info where
  title : String
  version : String
deriving Repr, BEq, DecidableEq, Inhabited

structure Server where
  url : String
deriving Repr, BEq, DecidableEq, Inhabited

structure Document where
  openapi : String
  info : Info
  servers : List Server
  tags : List Tag
  paths : PathDocument
deriving Repr, Inhabited

/-- The version of the description format. -/
def Document.formatVersion : String := "3.0.0"

/-- What all documents of an API share. -/
structure DocumentRoot where
  title : String
  serverUrl : String
  tags : List Tag := []
deriving Repr, BEq, DecidableEq, Inhabited

/-- The document of a version with these paths. -/
def DocumentRoot.document (root : DocumentRoot) (version : Nat) (paths : PathDocument) :
    Document where
  openapi := Document.formatVersion
  info := ⟨root.title, s!"{version}.0"⟩
  servers := [⟨root.serverUrl⟩]
  tags := root.tags
  paths := paths

end ApiDocs
