import ApiDocs.Document.Codec
import ApiDocs.Effect
import ApiDocs.Route.Path
/-!
# Operations by version

The heap collects path items under a version and a path. An item written to a path that is there
already replaces the operations it defines and keeps the others. Versions are kept in ascending
order, the paths of a version in the order in which they came.
-/
namespace ApiDocs

/-- Path items by version, in ascending order, and path. -/
structure VersionHeap where
  versions : List (Nat × PathDocument) := []
deriving Repr, Inhabited

namespace VersionHeap

/-- Change the paths of a version in an ascending list; an absent version is put in its place. -/
def updateIn (version : Nat) (f : PathDocument → PathDocument) :
    List (Nat × PathDocument) → List (Nat × PathDocument)
  | [] => [(version, f {})]
  | (v, paths) :: rest =>
    if version < v then (version, f {}) :: (v, paths) :: rest
    else if version = v then (v, f paths) :: rest
    else (v, paths) :: updateIn version f rest

/-- Write the operations of an item under a version and a path. -/
def insert (h : VersionHeap) (version : Nat) (path : String) (item : PathItem) : VersionHeap :=
  ⟨updateIn version
    (fun paths => paths.upsert path fun present => (present.getD {}).overlay item.toList)
    h.versions⟩

/-- Write every path of a document that names a version, and count them. -/
def insertEntries (h : VersionHeap) : List (String × PathItem) → VersionHeap × Nat
  | [] => (h, 0)
  | (path, item) :: rest =>
    match Path.splitVersion path with
    | some (version, path) =>
      let (h, count) := (h.insert version path item).insertEntries rest
      (h, count + 1)
    | none => h.insertEntries rest

/-- Write every path of a document that names a version, and count them. -/
def insertDocument (h : VersionHeap) (document : PathDocument) : VersionHeap × Nat :=
  h.insertEntries document.entries

/-- The path items among the members of an object. Members that are not objects are no path
items; an object that is not a path item fails. -/
def itemsOfJson? : List (String × Json) → Option (List (String × PathItem))
  | [] => some []
  | (path, v) :: rest =>
    if v.isObject then do
      let item ← PathItem.ofJson? v
      let rest ← itemsOfJson? rest
      pure ((path, item) :: rest)
    else itemsOfJson? rest

/-- The path items of a document given as JSON. A value that is no object has none. -/
def documentItems? : Json → Option (List (String × PathItem))
  | .obj members => itemsOfJson? members.entries
  | _ => some []

/-- The failure of a document with an object in it that is no path item. What is wrong with the
object is not told. -/
def foreignItem : Error :=
  .ofJson "not a path item"

/-- Write a document given as JSON, and count the paths that name a version. All items are read
before the first one is written. -/
def insertJson (document : Json) : Effect VersionHeap Nat := do
  let some items := documentItems? document | throw foreignItem
  modifyGet fun h => (h.insertDocument ⟨items⟩).swap

/-- The versions, ascending. -/
def versionList (h : VersionHeap) : List Nat :=
  h.versions.map Prod.fst

/-- The greatest version. -/
def latest? (h : VersionHeap) : Option Nat :=
  h.versionList.getLast?

def paths? (h : VersionHeap) (version : Nat) : Option PathDocument :=
  (h.versions.find? fun e => e.1 == version).map Prod.snd

/-- The operation under a version, a path and a method. -/
def operation? (h : VersionHeap) (version : Nat) (path : String) (method : Method) :
    Option Operation := do
  let paths ← h.paths? version
  let item ← paths.get? path
  item.get? method

def isEmpty (h : VersionHeap) : Bool :=
  h.versions.isEmpty

end VersionHeap
end ApiDocs
