import ApiDocs.Document.Construction
import ApiDocs.Proofs.Document.Groups
import ApiDocs.Proofs.Effect
/-!
# What calls leave in a document

A call for a route writes an operation or leaves the document as it was, and which of the two it
does is known from the route alone. So the document that any calls build holds the operations of
those that wrote one, the last one at each path and method, and nothing else.
-/
namespace ApiDocs.Registry

variable {r : Registry}

/-- What a call for a route answers: whether it wrote an operation, or why it failed. -/
def answer (r : Registry) (route : Route) : Except Error Bool :=
  (r.routeOperation? route).map Option.isSome

theorem answer_eq_true_iff {route : Route} :
    r.answer route = .ok true ↔ ∃ operation, r.routeOperation? route = .ok (some operation) := by
  rw [answer]
  cases r.routeOperation? route with
  | error e => simp [Except.map]
  | ok found => cases found <;> simp [Except.map]

/-- The document that a call for a route leaves. -/
def written (r : Registry) (document : PathDocument) (route : Route) : PathDocument :=
  match r.routeOperation? route with
  | .ok (some operation) => Table.write document route.path route.method operation
  | _ => document

theorem attempt_writeRoute (route : Route) (document : PathDocument) :
    (r.writeRoute route).attempt document = (r.answer route, r.written document route) := by
  rw [writeRoute, answer, written, routeOperation?]
  cases route.contracts? with
  | none => rfl
  | some contracts =>
    obtain ⟨request, response⟩ := contracts
    simp only [Effect.attempt_lift_bind]
    cases request.checkPath route.path with
    | error e => rfl
    | ok _ =>
      cases hoperation : r.operation request response route.method with
      | error e => rfl
      | ok operation => rfl

/-- A call fails or succeeds as adding its route to the document does, and leaves the same
document. -/
theorem addRoute_eq_attempt (document : PathDocument) (route : Route) :
    r.addRoute document route = (((r.writeRoute route).attempt document).1).map fun added =>
      (((r.writeRoute route).attempt document).2, added) := by
  rw [attempt_writeRoute, answer, written, addRoute]
  cases r.routeOperation? route with
  | error e => rfl
  | ok found => cases found <;> rfl

/-- The routes whose calls wrote an operation, in the order of the calls. -/
def accepted (calls : List (Route × Except Error Bool)) : List Route :=
  calls.filterMap fun call =>
    match call.2 with
    | .ok true => some call.1
    | _ => none

theorem writeRoutes_eq (document : PathDocument) (routes : List Route) :
    r.writeRoutes document routes =
      (routes.map fun route => (route, r.answer route), r.place document routes) := by
  induction routes generalizing document with
  | nil => rfl
  | cons route routes ih =>
    have hplace : r.place document (route :: routes) =
        r.place (r.written document route) routes := by
      rw [place, placements, List.filterMap_cons, written]
      cases hfound : r.routeOperation? route with
      | error e => rfl
      | ok found => cases found <;> rfl
    simp only [writeRoutes, attempt_writeRoute, ih, hplace, List.map_cons]

theorem accepted_answers (routes : List Route) :
    accepted (routes.map fun route => (route, r.answer route)) =
      (r.placements routes).map Prod.fst := by
  rw [accepted, placements, List.filterMap_map, List.map_filterMap]
  refine List.filterMap_congr fun route _ => ?_
  simp only [Function.comp_apply, answer]
  cases r.routeOperation? route with
  | error e => rfl
  | ok found => cases found <;> rfl

/-- What calls for routes make of the empty document. -/
structure Builds (r : Registry) (routes : List Route) (calls : List (Route × Except Error Bool))
    (document : PathDocument) : Prop where
  /-- Each call answers what it would answer to any other document. -/
  answers : ∀ other, calls = routes.map fun route =>
    (route, ((r.writeRoute route).attempt other).1)
  /-- The last route of a path and a method that was accepted decides on its operation. -/
  cell : ∀ path method operation, Table.cell? document path method = some operation ↔
    ∃ route request response,
      ((accepted calls).filter fun route =>
        route.path = path ∧ route.method = method).getLast? = some route ∧
      route.contracts? = some (request, response) ∧
      r.operation request response method = .ok operation
  /-- Paths are listed by the first route that was accepted for each. -/
  paths : document.keys = ((accepted calls).map Route.path).eraseDups
  /-- No path is listed without an operation. -/
  filled : Table.Filled document

theorem builds_writeRoutes (routes : List Route) :
    r.Builds routes (r.writeRoutes {} routes).1 (r.writeRoutes {} routes).2 := by
  rw [writeRoutes_eq]
  refine ⟨?_, ?_, ?_, ?_⟩
  · intro other
    simp only [attempt_writeRoute]
  · intro path method operation
    rw [accepted_answers, cell?_place_iff]
    constructor
    · intro ⟨route, hlast, hroute⟩
      obtain ⟨request, response, hcontracts, _, hoperation⟩ :=
        routeOperation?_eq_some_iff.mp hroute
      have hat := (List.mem_filter.mp (List.mem_of_getLast? hlast)).2
      obtain ⟨_, hmethod⟩ := of_decide_eq_true hat
      exact ⟨route, request, response, hlast, hcontracts, hmethod ▸ hoperation⟩
    · intro ⟨route, request, response, hlast, hcontracts, hoperation⟩
      obtain ⟨hplaced, hat⟩ := List.mem_filter.mp (List.mem_of_getLast? hlast)
      obtain ⟨_, hmethod⟩ := of_decide_eq_true hat
      obtain ⟨x, hx, rfl⟩ := List.mem_map.mp hplaced
      have hfound := (mem_placements.mp hx).2
      obtain ⟨request', response', hcontracts', _, hoperation'⟩ :=
        routeOperation?_eq_some_iff.mp hfound
      cases hcontracts.symm.trans hcontracts'
      rw [hmethod, hoperation] at hoperation'
      cases hoperation'
      exact ⟨x.1, hlast, hfound⟩
  · rw [accepted_answers, place, Table.keys_writeAll, List.map_map]
    rfl
  · exact Table.writeAll_filled _ _ _ Table.filled_empty _

/-- A call writes an operation exactly when its route has contracts that fit its path and compile,
and leaves every document as it was otherwise. So the document that calls build is known from those
that wrote one. -/
theorem writeRoutes_all_or_nothing (r : Registry) :
    (∀ route document, ((r.writeRoute route).attempt document).1 = .ok true ↔
      ∃ request response operation, route.contracts? = some (request, response) ∧
        request.checkPath route.path = .ok () ∧
        r.operation request response route.method = .ok operation) ∧
    (∀ route document, ((r.writeRoute route).attempt document).1 ≠ .ok true →
      ((r.writeRoute route).attempt document).2 = document) ∧
    ∀ routes, r.Builds routes (r.writeRoutes {} routes).1 (r.writeRoutes {} routes).2 := by
  refine ⟨?_, ?_, builds_writeRoutes⟩
  · intro route document
    rw [attempt_writeRoute, answer_eq_true_iff]
    constructor
    · intro ⟨operation, hfound⟩
      obtain ⟨request, response, h⟩ := routeOperation?_eq_some_iff.mp hfound
      exact ⟨request, response, operation, h⟩
    · intro ⟨request, response, operation, h⟩
      exact ⟨operation, routeOperation?_eq_some_iff.mpr ⟨request, response, h⟩⟩
  · intro route document hrefused
    rw [attempt_writeRoute, ne_eq, answer_eq_true_iff] at hrefused
    rw [attempt_writeRoute, written]
    split
    · next operation hfound => exact absurd ⟨operation, hfound⟩ hrefused
    · rfl

end ApiDocs.Registry
