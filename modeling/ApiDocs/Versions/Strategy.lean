import ApiDocs.Contract
import ApiDocs.Text.Search
/-!
# Merge strategies

A strategy names the buckets that merged documents are split into and assigns a bucket to a
modifier's tag, or none. The tag of an operation that decides is the last one that speaks of a
modifier.
-/
namespace ApiDocs

/-- Buckets, and the bucket of each tag. A bucket that is not listed receives nothing. -/
structure MergeStrategy where
  buckets : List String
  bucketFor : String → Option String

namespace MergeStrategy

/-- The bucket of a modifier. What is to be skipped has none. -/
def bucketOf : Modifier → Option String
  | .public => some "public"
  | .private => some "private"
  | .skip => none

/-- The strategy with one bucket for public and one for private operations. -/
def byModifier : MergeStrategy where
  buckets := ["public", "private"]
  bucketFor := fun tag => (Modifier.ofTag? tag).bind bucketOf

/-- The text that marks a tag as a modifier. -/
def marker : String := "modifier"

def isMarked (tag : String) : Bool :=
  Text.contains tag marker

/-- Take the last marked tag out of a list of tags. -/
def takeMarked? : List String → Option (String × List String)
  | [] => none
  | tag :: tags =>
    match takeMarked? tags with
    | some (found, others) => some (found, tag :: others)
    | none => if isMarked tag then some (tag, tags) else none

end MergeStrategy
end ApiDocs
