import ApiDocs.Json.Value
/-!
# Fields of requests and responses

A field has a type, a description, examples and a mark for deprecation. A type is the shape of
the values together with what every type carries: whether it may be null, whether the value must
be present, and a default.
-/
namespace ApiDocs

inductive Scalar where
  | integer
  | string
  | number
  | boolean
deriving Repr, BEq, DecidableEq, Inhabited

def Scalar.name : Scalar → String
  | .integer => "integer"
  | .string => "string"
  | .number => "number"
  | .boolean => "boolean"

/-- Points in time: a day, or a day with the time of day. -/
inductive Granularity where
  | date
  | datetime
deriving Repr, BEq, DecidableEq, Inhabited

/-- The name of the format in a schema. -/
def Granularity.format : Granularity → String
  | .date => "date"
  | .datetime => "date-time"

/-- The pattern by which values are written. -/
def Granularity.pattern : Granularity → String
  | .date => "%Y-%m-%d"
  | .datetime => "%Y-%m-%d %H:%M:%S"

/-- A shape with what every type carries. A default may be null, which is not the same as none. -/
structure Typed (σ : Type) where
  shape : σ
  nullable : Bool := false
  required : Bool := true
  default? : Option Json := none
deriving Repr, BEq, Inhabited

/-- A type with what documents it. Examples are named, in the order they were given. -/
structure Described (τ : Type) where
  type : τ
  description : String := ""
  examples : OrderedMap Json := {}
  deprecated : Bool := false
deriving Repr, BEq, Inhabited

inductive Shape where
  | scalar (kind : Scalar)
  | enum (values : List String)
  | time (granularity : Granularity)
  | object (properties : OrderedMap (Described (Typed Shape)))
  | reference (schema : String)
  | collection (item : Typed Shape)
deriving Repr, Inhabited

abbrev FieldType := Typed Shape
/-- A field of a request, a response or a schema. -/
abbrev Field := Described FieldType
abbrev Properties := OrderedMap Field

/-- The name of a shape in a schema's `type`. -/
def Shape.schemaType : Shape → String
  | .scalar kind => kind.name
  | .reference _ => "object"
  | .object _ => "object"
  | .time _ => "string"
  | .enum _ => "string"
  | .collection _ => "array"

/-- Whether values of the shape have properties of their own. -/
def Shape.hasProperties : Shape → Bool
  | .object _ => true
  | .reference _ => true
  | _ => false

/-- The text that shows a shape to a reader. -/
def Shape.display : Shape → String
  | .scalar kind => kind.name
  | .enum values => "enum<" ++ String.intercalate ", " values ++ ">"
  | .time _ => "datetime"
  | .object _ => "object"
  | .reference schema => s!"object<{schema}>"
  | .collection item => s!"array<{item.shape.display}>"

namespace Described

/-- The name of the example that is given without a name. -/
def mainExample : String := "default"

/-- Set the example that has no name of its own. -/
def withExample {τ : Type} (d : Described τ) (value : Json) : Described τ :=
  { d with examples := d.examples.insert mainExample value }

def firstExample? {τ : Type} (d : Described τ) : Option Json :=
  d.examples.values.head?

end Described
end ApiDocs
