import ApiDocs.Contract.Construction
import ApiDocs.Proofs.Document.PathParameters
import ApiDocs.Proofs.Document.RoundTrip
import Mathlib.Data.Prod.Basic
/-!
# Parameters from calls

The calls that put a request together decide on its parameters. A name stands where the first call
for it at its place put it and means what the last one said. The parameters are listed place by
place, each as its definition says, and the first definition that does not compile is reported.
-/
namespace ApiDocs

theorem Location.name_injective : Function.Injective Location.name := by
  intro place other h
  cases place <;> cases other <;> first | rfl | exact absurd h (by decide)

/-- The parameter that a call declares, if it declares one at this place. -/
def RequestCall.declared? (place : Location) : RequestCall → Option (String × Field)
  | .declare at' name field => if at' = place then some (name, field) else none
  | _ => none

theorem RequestCall.declared?_eq_some_iff {place : Location} {call : RequestCall} {name : String}
    {field : Field} :
    call.declared? place = some (name, field) ↔ call = .declare place name field := by
  cases call <;> simp [declared?]

namespace Request

/-- What calls declare at a place, in the order of the calls. -/
def declaredAt (place : Location) (calls : List RequestCall) : List (String × Field) :=
  calls.filterMap (RequestCall.declared? place)

/-- The last of the calls for a name at a place declares this field. -/
def DeclaredLast (calls : List RequestCall) (place : Location) (name : String) (field : Field) :
    Prop :=
  ∃ front back, calls = front ++ .declare place name field :: back ∧
    ∀ other, .declare place name other ∉ back

/-- The definitions of parameters that calls leave, in the order of the parameters. -/
structure Settled (calls : List RequestCall) (definitions : List (Location × String × Field)) :
    Prop where
  /-- Place by place, each name where it was declared first. -/
  order : definitions.map (fun d => (d.1, d.2.1)) = Location.all.flatMap fun place =>
    ((declaredAt place calls).map Prod.fst).eraseDups.map fun name => (place, name)
  /-- Each name with the field that was declared last. -/
  fields : ∀ d ∈ definitions, DeclaredLast calls d.1 d.2.1 d.2.2

/-- A call writes what it declares at a place and leaves the other parameters there alone. -/
theorem parameters_after (r : Request) (call : RequestCall) (place : Location) :
    (r.after call).parameters place = (r.parameters place).insertAll (declaredAt place [call]) := by
  cases call with
  | declare at' name field => cases at' <;> cases place <;> rfl
  | _ => cases place <;> rfl

theorem parameters_foldl_after (r : Request) (calls : List RequestCall) (place : Location) :
    (calls.foldl after r).parameters place =
      (r.parameters place).insertAll (declaredAt place calls) := by
  induction calls generalizing r with
  | nil => rfl
  | cons call calls ih =>
    rw [List.foldl_cons, ih, parameters_after, ← OrderedMap.insertAll_append, declaredAt,
      declaredAt, ← List.filterMap_append, List.singleton_append]
    rfl

theorem eq_of_validated {r request : Request} (h : r.validated = .ok request) : request = r := by
  simp only [validated, bind_eq_ok_iff, pure_eq_ok_iff] at h
  obtain ⟨_, _, _, _, _, _, _, _, _, _, rfl⟩ := h
  rfl

section Built

variable {name : String} {calls : List RequestCall} {request : Request}

theorem parameters_of_build (h : build name calls = .ok request) (place : Location) :
    request.parameters place = OrderedMap.ofList (declaredAt place calls) := by
  rw [eq_of_validated h, parameters_foldl_after]
  cases place <;> rfl

theorem declaredLast_of_get? {place : Location} {key : String} {field : Field}
    (h : (OrderedMap.ofList (declaredAt place calls)).get? key = some field) :
    DeclaredLast calls place key field := by
  obtain ⟨before, after, hsplit, hafter⟩ := OrderedMap.get?_ofList_eq_some_iff.mp h
  obtain ⟨front, rest, rfl, _, hrest⟩ := List.filterMap_eq_append_iff.mp hsplit
  obtain ⟨skipped, call, back, rfl, _, hcall, rfl⟩ := List.filterMap_eq_cons_iff.mp hrest
  obtain rfl := RequestCall.declared?_eq_some_iff.mp hcall
  refine ⟨front ++ skipped, back, by simp, fun other hother => hafter ?_⟩
  have hdeclared : (key, other) ∈ back.filterMap (RequestCall.declared? place) :=
    List.mem_filterMap.mpr ⟨_, hother, RequestCall.declared?_eq_some_iff.mpr rfl⟩
  exact List.mem_map_of_mem (f := Prod.fst) hdeclared

theorem settled_declarations (h : build name calls = .ok request) :
    Settled calls (Registry.declarations request) := by
  refine ⟨?_, ?_⟩
  · rw [Registry.declarations, List.map_flatMap]
    refine List.flatMap_congr fun place _ => ?_
    rw [← OrderedMap.keys_ofList, ← parameters_of_build h, OrderedMap.keys, List.map_map,
      List.map_map]
    rfl
  · intro d hd
    obtain ⟨place, _, hplace⟩ := List.mem_flatMap.mp hd
    obtain ⟨⟨key, field⟩, hentry, rfl⟩ := List.mem_map.mp hplace
    rw [parameters_of_build h, (OrderedMap.distinct_ofList _).mem_entries_iff] at hentry
    exact declaredLast_of_get? hentry

end Built

/-- No name is declared twice at one place. -/
theorem Settled.nodup {calls : List RequestCall} {definitions : List (Location × String × Field)}
    (h : Settled calls definitions) : (definitions.map fun d => (d.1, d.2.1)).Nodup := by
  rw [h.order, List.nodup_flatMap]
  refine ⟨fun place _ => ?_, ?_⟩
  · rw [← OrderedMap.keys_ofList]
    exact (OrderedMap.distinct_ofList _).map fun _ _ hnames => (Prod.mk.inj hnames).2
  · have hall : Location.all.Pairwise (· ≠ ·) := by decide
    refine hall.imp fun hne => ?_
    simp only [Function.onFun, List.disjoint_left, List.mem_map]
    rintro _ ⟨_, _, rfl⟩ ⟨_, _, heq⟩
    exact hne (Prod.mk.inj heq).1.symm

end Request

namespace Registry

variable {r : Registry}

/-- What a definition becomes, with the members of its JSON form that may be absent. -/
structure Compiles (r : Registry) (d : Location × String × Field) (p : Parameter) : Prop where
  location : p.location = d.1.name
  name : p.name = d.2.1
  description : p.description = d.2.2.description
  schema : r.parameterSchema d.2.2 = .ok p.schema
  /-- Only what is required is marked, and only with true. -/
  required : p.toJson.get? "required" = if d.2.2.type.required then some (.bool true) else none
  deprecated : p.toJson.get? "deprecated" = if d.2.2.deprecated then some (.bool true) else none
  /-- The first example, which may be null; no member if there is none. -/
  exampleValue : p.toJson.get? "example" = d.2.2.examples.values.head?

theorem map_markIf (set : Bool) :
    (markIf set).map Json.bool = if set then some (.bool true) else none := by
  cases set <;> rfl

theorem compiles_of_parameter {d : Location × String × Field} {p : Parameter}
    (h : r.parameter d.2.1 d.2.2 d.1.name = .ok p) : r.Compiles d p := by
  obtain ⟨schema, hschema, hp⟩ := bind_eq_ok_iff.mp h
  obtain rfl := pure_eq_ok_iff.mp hp
  obtain ⟨hexample, hrequired, hdeprecated⟩ := Parameter.get?_toJson _
  exact ⟨rfl, rfl, rfl, hschema, hrequired.trans (map_markIf _),
    hdeprecated.trans (map_markIf _), hexample⟩

theorem requestParameters_eq_error_iff {request : Request} {e : Error} :
    r.requestParameters request = .error e ↔
      FirstFailure (fun d => r.parameterSchema d.2.2) (declarations request) e :=
  mapM_eq_error_iff.trans firstFailure_map

/-- Whatever calls put a request together, its parameters are those that the calls leave declared,
place by place and each once: with the definition given last, where it was given first. They cannot
be listed exactly if a definition does not compile, and then the first such definition tells why. -/
theorem parameters_of_calls (r : Registry) {name : String} {calls : List RequestCall}
    {request : Request} (h : Request.build name calls = .ok request) :
    ∃ definitions, Request.Settled calls definitions ∧
      (∀ e, r.requestParameters request = .error e ↔
        FirstFailure (fun d => r.parameterSchema d.2.2) definitions e) ∧
      ((∃ e, r.requestParameters request = .error e) ↔
        ∃ d ∈ definitions, ∃ e, r.parameterSchema d.2.2 = .error e) ∧
      ∀ parameters, r.requestParameters request = .ok parameters →
        (parameters.map fun p => (p.location, p.name)) = (Location.all.flatMap fun place =>
          ((Request.declaredAt place calls).map Prod.fst).eraseDups.map fun name =>
            (place.name, name)) ∧
        (parameters.map fun p => (p.location, p.name)).Nodup ∧
        List.Forall₂ r.Compiles definitions parameters := by
  have hsettled := Request.settled_declarations h
  refine ⟨declarations request, hsettled, fun e => requestParameters_eq_error_iff, ?_, ?_⟩
  · simp only [requestParameters_eq_error_iff, exists_firstFailure_iff, exists_eq_error_iff]
    push Not
    rfl
  · intro parameters hparameters
    have hcompiles : List.Forall₂ r.Compiles (declarations request) parameters :=
      (mapM_eq_ok_iff.mp hparameters).imp fun _ _ => compiles_of_parameter
    have hpairs : (parameters.map fun p => (p.location, p.name)) =
        ((declarations request).map fun d => (d.1, d.2.1)).map (Prod.map Location.name id) := by
      rw [List.map_map, eq_comm, ← List.forall₂_eq_eq_eq, List.forall₂_map_left_iff,
        List.forall₂_map_right_iff]
      exact hcompiles.imp fun d p hp => Prod.ext hp.location.symm hp.name.symm
    refine ⟨?_, ?_, hcompiles⟩
    · rw [hpairs, hsettled.order, List.map_flatMap]
      simp only [List.map_map]
      rfl
    · rw [hpairs]
      exact hsettled.nodup.map (Location.name_injective.prodMap Function.injective_id)

-- Calls that declare the page of a listing twice; the second time with a null example.
private def listing : List RequestCall := [
  .declare .query "page" { type := { shape := .scalar .integer } },
  .declare .query "sort" { type := { shape := .enum ["name", "age"], required := false } },
  .declare .path "id" { type := { shape := .scalar .integer } },
  .declare .query "page" {
    type := { shape := .scalar .string, required := false }
    examples := .ofList [("unset", .null), ("second", .str "2")]
    deprecated := true }]

theorem parameters_of_listing : ∃ request definitions parameters,
    Request.build "listing" listing = .ok request ∧ Request.Settled listing definitions ∧
    ({} : Registry).requestParameters request = .ok parameters ∧
    (parameters.map fun p => (p.location, p.name)) =
      [("path", "id"), ("query", "page"), ("query", "sort")] ∧
    (parameters.map fun p => p.toJson.get? "example") = [none, some .null, none] ∧
    List.Forall₂ ({} : Registry).Compiles definitions parameters := by
  have hbuild : Request.build "listing" listing = .ok _ := rfl
  obtain ⟨definitions, hsettled, _, _, hok⟩ := parameters_of_calls {} hbuild
  obtain ⟨hpairs, _, hcompiles⟩ := hok _ rfl
  exact ⟨_, definitions, _, hbuild, hsettled, rfl, hpairs, rfl, hcompiles⟩

end Registry
end ApiDocs
