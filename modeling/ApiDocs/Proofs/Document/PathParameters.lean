import ApiDocs.Proofs.Document.Construction
import ApiDocs.Proofs.Route.Placeholders
/-!
# Placeholders and path parameters

A path passes the check of a request when the request declares a path parameter for each of its
placeholders. Only routes whose paths pass are written to a document, and what a request declares
is listed in its operation, so every placeholder of a stored path is a parameter of its operations.
-/
namespace ApiDocs

theorem Location.mem_all (place : Location) : place ∈ Location.all := by
  cases place <;> simp [Location.all]

namespace Request

variable {request : Request} {path : String}

theorem checkPath_eq_ok_iff :
    request.checkPath path = .ok () ↔ ∀ before name after,
      Path.HasPlaceholder path.toList before name after →
        request.path.contains (String.ofList name) = true := by
  have hfind : request.checkPath path = .ok () ↔
      ∀ name ∈ Path.placeholders path, request.path.contains name = true := by
    rw [checkPath]
    cases hsearch : (Path.placeholders path).find? fun name => !request.path.contains name with
    | none => simpa using hsearch
    | some name =>
      obtain ⟨hundeclared, front, back, hsplit, _⟩ := List.find?_eq_some_iff_append.mp hsearch
      refine iff_of_false nofun fun h => ?_
      rw [h name (by simp [hsplit])] at hundeclared
      cases hundeclared
  rw [hfind, Path.placeholders]
  simp only [Path.mem_placeholderNames_iff]
  constructor
  · intro h before name after hname
    exact h (String.ofList name) ⟨before, after, by simpa using hname⟩
  · rintro h name ⟨before, after, hname⟩
    simpa using h before name.toList after hname

/-- The placeholder that is reported is the leftmost one that is not declared. -/
theorem checkPath_eq_error_iff {e : Error} :
    request.checkPath path = .error e ↔ ∃ name,
      Path.IsLeftmost (fun name => !request.path.contains name) path.toList name ∧
      e = .pathContract ("\x7b" ++ String.ofList name ++ "\x7d") path request.name := by
  rw [checkPath]
  cases hsearch : (Path.placeholders path).find? fun name => !request.path.contains name with
  | none =>
    refine iff_of_false nofun ?_
    rintro ⟨name, ⟨before, after, hname, hundeclared, _⟩, _⟩
    have hmem : String.ofList name ∈ Path.placeholders path :=
      Path.mem_placeholderNames_iff.mpr ⟨before, after, by simpa using hname⟩
    exact List.find?_eq_none.mp hsearch _ hmem hundeclared
  | some found =>
    have hleft : ∀ name, Path.IsLeftmost (fun name => !request.path.contains name)
        path.toList name ↔ found.toList = name := by
      intro name
      have hname : (Path.placeholderNames 0 path.toList).find?
          (fun name => !request.path.contains name) = some (String.ofList name) ↔
            Path.IsLeftmost (fun name => !request.path.contains name) path.toList name := by
        rw [Path.find?_placeholderNames_eq_some_iff, String.toList_ofList]
      rw [← hname, ← Path.placeholders, hsearch, Option.some.injEq, ← String.toList_inj,
        String.toList_ofList]
    simp only [hleft, exists_eq_left', String.ofList_toList, Except.error.injEq]
    exact eq_comm

end Request

namespace Registry

variable {r : Registry} {request : Request}

theorem parameters_of_operation {response : Response} {method : Method} {o : Operation}
    (h : r.operation request response method = .ok o) :
    r.requestParameters request = .ok o.parameters := by
  obtain ⟨_, _, _, _, _, hparameters, rfl⟩ := operation_eq_ok_iff.mp h
  exact hparameters

/-- What a request declares is listed where it declares it. -/
theorem exists_parameter {place : Location} {name : String} {parameters : List Parameter}
    (h : r.requestParameters request = .ok parameters)
    (hdeclared : (request.parameters place).contains name = true) :
    ∃ p ∈ parameters, p.location = place.name ∧ p.name = name := by
  obtain ⟨field, hfield⟩ := Option.isSome_iff_exists.mp hdeclared
  have hmem : (place, name, field) ∈ declarations request := by
    refine List.mem_flatMap.mpr ⟨place, place.mem_all, ?_⟩
    exact List.mem_map.mpr ⟨(name, field), OrderedMap.mem_entries_of_find? hfield, rfl⟩
  obtain ⟨i, hi, hat⟩ := List.mem_iff_getElem.mp hmem
  have hpairs := List.forall₂_iff_get.mp (mapM_eq_ok_iff.mp h)
  have hparameter := hpairs.2 i hi (hpairs.1 ▸ hi)
  simp only [List.get_eq_getElem, hat] at hparameter
  obtain ⟨schema, _, hbuilt⟩ := bind_eq_ok_iff.mp hparameter
  refine ⟨_, List.getElem_mem (hpairs.1 ▸ hi), ?_⟩
  rw [← pure_eq_ok_iff.mp hbuilt]
  exact ⟨rfl, rfl⟩

/-- Every placeholder of a path at which calls have stored an operation is a path parameter of the
operation. -/
theorem exists_parameter_of_cell {routes : List Route} {path : String} {method : Method}
    {operation : Operation}
    (h : Table.cell? (r.writeRoutes {} routes).2 path method = some operation)
    {before name after : List Char} (hname : Path.HasPlaceholder path.toList before name after) :
    ∃ p ∈ operation.parameters, p.location = Location.path.name ∧ p.name = String.ofList name := by
  rw [writeRoutes_eq] at h
  obtain ⟨x, hx, rfl, _, rfl⟩ := Table.exists_of_cell?_writeAll _ _ _ h
  obtain ⟨request, response, _, hcheck, hoperation⟩ :=
    routeOperation?_eq_some_iff.mp (mem_placements.mp hx).2
  have hdeclared : (request.parameters .path).contains (String.ofList name) = true :=
    Request.checkPath_eq_ok_iff.mp hcheck before name after hname
  exact exists_parameter (parameters_of_operation hoperation) hdeclared

/-- The check of a path finds exactly the placeholders that are not declared and reports the
leftmost one, and what passed it keeps its placeholders as parameters in every document. -/
theorem placeholders_are_parameters (r : Registry) :
    (∀ (request : Request) path, request.checkPath path = .ok () ↔ ∀ before name after,
      Path.HasPlaceholder path.toList before name after →
        request.path.contains (String.ofList name) = true) ∧
    (∀ (request : Request) path e, request.checkPath path = .error e ↔ ∃ name,
      Path.IsLeftmost (fun name => !request.path.contains name) path.toList name ∧
      e = .pathContract ("\x7b" ++ String.ofList name ++ "\x7d") path request.name) ∧
    ∀ routes path method operation,
      Table.cell? (r.writeRoutes {} routes).2 path method = some operation →
      ∀ before name after, Path.HasPlaceholder path.toList before name after →
        ∃ p ∈ operation.parameters,
          p.location = Location.path.name ∧ p.name = String.ofList name := by
  refine ⟨?_, ?_, ?_⟩
  · intro request path
    exact Request.checkPath_eq_ok_iff
  · intro request path e
    exact Request.checkPath_eq_error_iff
  · intro routes path method operation h before name after hname
    exact exists_parameter_of_cell h hname

-- Two routes with one contract, which declares a parameter for each placeholder of the first.
private def userRoutes : List Route :=
  let request : Request := {
    name := "Show"
    path := ⟨[("id", { type := { shape := .scalar .integer } })]⟩ }
  ["api/v1/users/\x7bid\x7d", "api/v1/users/\x7bid\x7d/notes/\x7bnote\x7d"].map fun uri =>
    { uri, method := .get, request? := some request, response? := some { name := "Shown" } }

theorem userRoutes_stored :
    (writeRoutes {} {} userRoutes).1.map Prod.snd = [.ok true, .error (.pathContract
      "\x7bnote\x7d" "/api/v1/users/\x7bid\x7d/notes/\x7bnote\x7d" "Show")] ∧
    ∃ operation,
      Table.cell? (writeRoutes {} {} userRoutes).2 "/api/v1/users/\x7bid\x7d" .get =
        some operation ∧
      ∃ p ∈ operation.parameters, p.location = Location.path.name ∧ p.name = "id" := by
  refine ⟨by decide +kernel, ?_⟩
  obtain ⟨operation, hoperation⟩ : ∃ operation, Table.cell? (writeRoutes {} {} userRoutes).2
      "/api/v1/users/\x7bid\x7d" .get = some operation := ⟨_, rfl⟩
  have hname : Path.HasPlaceholder "/api/v1/users/\x7bid\x7d".toList
      "/api/v1/users/".toList "id".toList [] :=
    ⟨rfl, by decide, List.all_eq_true.mp (by decide)⟩
  have hparameters := (placeholders_are_parameters {}).2.2 userRoutes _ _ _ hoperation _ _ _ hname
  rw [String.ofList_toList] at hparameters
  exact ⟨operation, hoperation, hparameters⟩

end Registry
end ApiDocs
