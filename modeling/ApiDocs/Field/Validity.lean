import ApiDocs.Error
import ApiDocs.Field.Basic
import ApiDocs.Text.Blank
/-!
# Well-formed definitions

Names and reference targets are not blank, enums have values, and a textual default of an enum is
one of them. `Properties.check` reports the first flaw in declaration order, an entry's name
before its type and the properties of an inline object where the object stands.
-/
namespace ApiDocs

/-- The flaw of an enum with its default, if it has one. -/
def enumFlaw? (values : List String) (default? : Option Json) : Option Flaw :=
  if values.isEmpty then some .emptyEnum
  else
    match default? with
    | some (.str value) => if value ∈ values then none else some (.foreignDefault value)
    | _ => none

/-- The location of properties of an inline object. -/
def propertyLocation : String := "property"

mutual
/-- Check a shape that stands under a name at a location. -/
def Shape.check (source location name : String) (default? : Option Json) :
    Shape → Except Error Unit
  | .enum values =>
    match enumFlaw? values default? with
    | some flaw => .error (.definition source location name flaw)
    | none => .ok ()
  | .reference schema =>
    if Text.allBlank schema then .error (.definition source location name .blankTarget) else .ok ()
  | .object properties => checkEntries source propertyLocation properties.entries
  | .collection item => item.shape.check source location name item.default?
  | .scalar _ => .ok ()
  | .time _ => .ok ()
/-- Check definitions one after another. -/
def checkEntries (source location : String) : List (String × Field) → Except Error Unit
  | [] => .ok ()
  | (name, field) :: rest =>
    if Text.allBlank name then .error (.definition source location name .blankName)
    else do
      field.type.shape.check source location name field.type.default?
      checkEntries source location rest
end

/-- Check all definitions at a location of a contract or schema. -/
def Properties.check (properties : Properties) (location source : String) : Except Error Unit :=
  checkEntries source location properties.entries

end ApiDocs
