import ApiDocs.Contract
/-!
# Requests under construction

A request is put together by calls, in any order and as many as one likes. A call declares fields
at their place or replaces another part. Definitions are checked once, when all calls are made.
-/
namespace ApiDocs

/-- A call that gives a part of a request. -/
inductive RequestCall where
  | declare (place : Location) (name : String) (field : Field)
  | declareBody (name : String) (field : Field)
  | extendBody (fields : Properties)
  | summary (text : String)
  | description (text : String)
  | optionalBody
  | deprecated
  | modifier (modifier : Modifier)
  | tags (tags : List String)

namespace Request

/-- The request after a call. -/
def after (r : Request) : RequestCall → Request
  | .declare place name field => r.declare place name field
  | .declareBody name field => r.declareBody name field
  | .extendBody fields => { r with body := r.body.insertAll fields.entries }
  | .summary text => { r with summary := text }
  | .description text => { r with description := text }
  | .optionalBody => { r with optionalBody := true }
  | .deprecated => { r with deprecated := true }
  | .modifier modifier => { r with modifier }
  | .tags tags => { r with tags }

/-- The request that calls put together, if its definitions are well formed. -/
def build (name : String) (calls : List RequestCall) : Except Error Request :=
  (calls.foldl after { name }).validated

end Request
end ApiDocs
