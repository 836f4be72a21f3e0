import ApiDocs.Json.Value
/-!
# Records in JSON

A record is written as an object; it may also be given as the list of its fields in the order of
their declaration. An object may hold keys that the record does not know and may leave fields
out; a list must not be longer than the fields, and leaves out only what has a default.
-/
namespace ApiDocs.Json

/-- The two forms of a record. -/
inductive Record where
  | named (members : OrderedMap Json)
  | positional (items : List Json)
deriving Repr, BEq, Inhabited

/-- The record that a value holds, for a record of at most `count` fields. -/
def record? (count : Nat) : Json → Option Record
  | .obj members => some (.named members)
  | .arr items => if items.length ≤ count then some (.positional items) else none
  | _ => none

namespace Record

/-- The value of the field of a name and a position. -/
def lookup (r : Record) (position : Nat) (name : String) : Option Json :=
  match r with
  | .named members => members.get? name
  | .positional items => items[position]?

/-- A field that must be there. -/
def required {α : Type} (r : Record) (position : Nat) (name : String)
    (decode : Json → Option α) : Option α :=
  (r.lookup position name).bind decode

/-- A field that may be null, and may be left out of an object. -/
def optional {α : Type} (r : Record) (position : Nat) (name : String)
    (decode : Json → Option α) : Option (Option α) :=
  match r.lookup position name, r with
  | some .null, _ => some none
  | some v, _ => (decode v).map some
  | none, .named _ => some none
  | none, .positional _ => none

/-- A field that has a default when it is left out, but must not be null. -/
def defaulted {α : Type} (r : Record) (position : Nat) (name : String) (default : α)
    (decode : Json → Option α) : Option α :=
  match r.lookup position name with
  | some v => decode v
  | none => some default

end Record

def listOf? {α : Type} (decode : Json → Option α) : Json → Option (List α)
  | .arr items => items.mapM decode
  | _ => none

def mapOf? {α : Type} (decode : Json → Option α) : Json → Option (OrderedMap α)
  | .obj members => do
    let entries ← members.entries.mapM fun e => (decode e.2).map fun v => (e.1, v)
    pure ⟨entries⟩
  | _ => none

theorem sizeOf_find?_lt {key : String} {v : Json} :
    ∀ {entries : List (String × Json)},
      OrderedMap.find? key entries = some v → sizeOf v < sizeOf entries
  | [], h => by simp [OrderedMap.find?] at h
  | (k, w) :: rest, h => by
    simp only [OrderedMap.find?] at h
    split at h
    · cases h
      simp only [List.cons.sizeOf_spec, Prod.mk.sizeOf_spec]
      omega
    · have := sizeOf_find?_lt h
      simp only [List.cons.sizeOf_spec]
      omega

theorem sizeOf_lookup_lt {j v : Json} {count position : Nat} {name : String} {r : Record}
    (hr : j.record? count = some r) (hv : r.lookup position name = some v) :
    sizeOf v < sizeOf j := by
  cases j with
  | obj members =>
    simp only [Json.record?, Option.some.injEq] at hr
    subst hr
    have := sizeOf_find?_lt (show OrderedMap.find? name members.entries = some v from hv)
    rcases members with ⟨entries⟩
    simp only [Json.obj.sizeOf_spec, OrderedMap.mk.sizeOf_spec]
    simp only at this
    omega
  | arr items =>
    simp only [Json.record?] at hr
    split at hr
    · simp only [Option.some.injEq] at hr
      subst hr
      have := List.sizeOf_lt_of_mem (List.mem_of_getElem? (show items[position]? = some v from hv))
      simp only [Json.arr.sizeOf_spec]
      omega
    · simp at hr
  | _ => simp [Json.record?] at hr

end ApiDocs.Json
