import ApiDocs.OrderedMap
import ApiDocs.Double.Basic
/-!
# JSON values

Values keep the order of object members. A number is an exact integer or a double, and the two
are never confused: `1` and `1.0` are different values.
-/
namespace ApiDocs

/-- A JSON number: an integer, signed or unsigned, of 64 bits, or a finite double. -/
inductive Number where
  | int (value : Int)
  | double (value : Double)
deriving Repr, BEq, DecidableEq, Inhabited

/-- The integers that are kept exactly. -/
def Number.isExact (value : Int) : Bool :=
  -9223372036854775808 ≤ value && value ≤ 18446744073709551615

inductive Json where
  | null
  | bool (value : Bool)
  | number (value : Number)
  | str (value : String)
  | arr (items : List Json)
  | obj (members : OrderedMap Json)
deriving Repr, BEq, Inhabited

namespace Json

/-- The member of an object under a key; other values have no members. -/
def get? (key : String) : Json → Option Json
  | .obj members => members.get? key
  | _ => none

def isObject : Json → Bool
  | .obj _ => true
  | _ => false

def asBool? : Json → Option Bool
  | .bool value => some value
  | _ => none

def asString? : Json → Option String
  | .str value => some value
  | _ => none

def asArray? : Json → Option (List Json)
  | .arr items => some items
  | _ => none

def asObject? : Json → Option (OrderedMap Json)
  | .obj members => some members
  | _ => none

/-- An object of the members that are present. -/
def ofFields (fields : List (Option (String × Json))) : Json :=
  .obj ⟨fields.filterMap id⟩

/-- A member that is always written. -/
def field (key : String) (value : Json) : Option (String × Json) :=
  some (key, value)

/-- A member that is written only when it has a value. -/
def field? {α : Type} (key : String) (encode : α → Json) (value : Option α) :
    Option (String × Json) :=
  value.map fun v => (key, encode v)

def ofStrings (values : List String) : Json :=
  .arr (values.map .str)

def ofMap {α : Type} (encode : α → Json) (m : OrderedMap α) : Json :=
  .obj (m.mapValues encode)

end Json
end ApiDocs
