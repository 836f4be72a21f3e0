import ApiDocs.Effect
import ApiDocs.Versions.Heap
import ApiDocs.Versions.Strategy
/-!
# Merging versions

The document of a version shows every operation in its latest shape up to that version. The heap
is read in ascending order of versions; an operation assigned to a bucket replaces the one that
the bucket holds for its path and method. Documents are saved through an effect on some state.
-/
namespace ApiDocs

/-- An operation with its version, path and method. -/
structure Placed where
  version : Nat
  path : String
  method : Method
  operation : Operation
deriving Inhabited

namespace VersionHeap

def placedIn (version : Nat) (path : String) (item : PathItem) : List Placed :=
  item.toList.map fun o => ⟨version, path, o.1, o.2⟩

/-- All operations up to a version: versions ascending, paths in their order, methods in theirs. -/
def placedUpTo (h : VersionHeap) (target : Nat) : List Placed :=
  (h.versions.filter fun e => e.1 ≤ target).flatMap fun e =>
    e.2.entries.flatMap fun p => placedIn e.1 p.1 p.2

end VersionHeap

/-- The operations of one bucket by path and method, each with its version. -/
abbrev Layer := OrderedMap (ByMethod (Nat × Operation))

namespace Layer

/-- Put an operation in the place of the one for its path and method. -/
def put (l : Layer) (p : Placed) : Layer :=
  l.upsert p.path fun present => (present.getD {}).set p.method (p.version, p.operation)

/-- The path document of a layer: every operation under the path of its own version. -/
def paths (l : Layer) : PathDocument :=
  (l.entries.flatMap fun e => e.2.toList.map fun o => (e.1, o)).foldl
    (fun document (path, method, version, operation) =>
      document.upsert (Path.ofVersion version path) fun present =>
        (present.getD {}).set method operation)
    {}

end Layer

namespace MergeStrategy

/-- The bucket of an operation, and the operation without the tag that decided. -/
def assign? (s : MergeStrategy) (p : Placed) : Option (String × Placed) := do
  let (tag, others) ← takeMarked? p.operation.tags
  let bucket ← s.bucketFor tag
  pure (bucket, { p with operation := { p.operation with tags := others } })

/-- One empty layer for each bucket; a bucket listed twice is one bucket. -/
def emptyLayers (s : MergeStrategy) : OrderedMap Layer :=
  s.buckets.foldl (fun m bucket => m.insert bucket {}) {}

/-- Put an operation into the layer of its bucket, if there is one. -/
def place (s : MergeStrategy) (layers : OrderedMap Layer) (p : Placed) : OrderedMap Layer :=
  match s.assign? p with
  | none => layers
  | some (bucket, p) =>
    match layers.get? bucket with
    | none => layers
    | some layer => layers.insert bucket (layer.put p)

end MergeStrategy

abbrev MergedDocuments := OrderedMap Document

abbrev Saver (σ : Type) := (version : Nat) → (bucket : String) → Document → Effect σ Unit

/-- A heap with what is needed to merge it. Strategy and saver are configured separately. -/
structure Merger (σ : Type) where
  heap : VersionHeap
  root : DocumentRoot
  strategy? : Option MergeStrategy := none
  saver? : Option (Saver σ) := none

namespace Merger

variable {σ : Type}

def strategy (m : Merger σ) : Except Error MergeStrategy :=
  match m.strategy? with
  | some s => .ok s
  | none => .error (.mergeConfiguration "no merge strategy configured")

def saver (m : Merger σ) : Except Error (Saver σ) :=
  match m.saver? with
  | some s => .ok s
  | none => .error (.mergeConfiguration "no save strategy configured")

/-- The merged documents of a version, by bucket. -/
def merge (m : Merger σ) (target : Nat) : Except Error MergedDocuments := do
  let strategy ← m.strategy
  if target = 0 then .error (.invalidArgument "version must be a positive integer")
  else
    let layers := (m.heap.placedUpTo target).foldl strategy.place strategy.emptyLayers
    pure (layers.mapValues fun layer => m.root.document target layer.paths)

def saveAll (save : Saver σ) (version : Nat) : List (String × Document) → Effect σ Unit
  | [] => pure ()
  | (bucket, document) :: rest => do
    save version bucket document
    saveAll save version rest

/-- Merge a version and save its documents; the first failure to save stops. -/
def mergeAndSave (m : Merger σ) (target : Nat) : Effect σ MergedDocuments := do
  let save ← m.saver
  let documents ← m.merge target
  saveAll save target documents.entries
  pure documents

/-- Merge and save so many versions, one after another. -/
def mergeFrom (m : Merger σ) : (count version : Nat) → Effect σ Unit
  | 0, _ => pure ()
  | count + 1, version => do
    let _ ← m.mergeAndSave version
    m.mergeFrom count (version + 1)

/-- Merge and save all versions up to the latest. -/
def mergeAll (m : Merger σ) (latest : Nat) : Effect σ Unit := do
  let _ ← m.strategy
  let _ ← m.saver
  m.mergeFrom latest 1

end Merger

/-- The number of operations in each document. -/
def operationCounts (documents : MergedDocuments) : List (String × Nat) :=
  documents.entries.map fun e =>
    (e.1, e.2.paths.values.foldl (fun count item => count + item.toList.length) 0)

end ApiDocs
