import ApiDocs.Document.Build
import ApiDocs.Proofs.Except
import ApiDocs.Proofs.Table
/-!
# Documents of routes

Adding routes to a document writes one cell for every documented route and stops at the first
route that is not accepted. Whether a route is accepted does not depend on the document, so the
documents of groups are known from the routes of each group alone.
-/
namespace ApiDocs

namespace Route

theorem distinct_byGroup (routes : List Route) : (Route.byGroup routes).Distinct :=
  List.foldlRecOn routes _ OrderedMap.distinct_empty fun _ hm r _ => hm.upsert r.group _

private theorem byGroup_concat (front : List Route) (route : Route) :
    byGroup (front ++ [route]) =
      (byGroup front).upsert route.group fun present => present.getD [] ++ [route] := by
  rw [byGroup, List.foldl_append]
  rfl

theorem keys_byGroup (routes : List Route) :
    (byGroup routes).keys = (routes.map group).eraseDups :=
  OrderedMap.keys_foldl_upsert group (fun route present => present.getD [] ++ [route]) routes

private theorem getD_get?_byGroup (routes : List Route) (key : String) :
    ((byGroup routes).get? key).getD [] = routes.filter fun route => route.group = key := by
  induction routes using List.reverseRecOn with
  | nil => rfl
  | append_singleton front route ih =>
    rw [byGroup_concat, OrderedMap.get?_upsert, List.filter_append]
    by_cases h : key = route.group
    · rw [if_pos h, Option.getD_some, ← h, ih]
      simp [h]
    · rw [if_neg h, ih]
      simp [Ne.symm h]

/-- The groups in the order of their first routes, each with its routes in list order. -/
theorem entries_byGroup (routes : List Route) :
    (byGroup routes).entries =
      (routes.map group).eraseDups.map fun key =>
        (key, routes.filter fun route => route.group = key) := by
  have hentry : ∀ e ∈ (byGroup routes).entries,
      (e.1, routes.filter fun route => route.group = e.1) = e := by
    intro e he
    have hget := (distinct_byGroup routes).mem_entries_iff.mp he
    have hmembers := getD_get?_byGroup routes e.1
    rw [hget, Option.getD_some] at hmembers
    exact Prod.ext rfl hmembers.symm
  rw [← keys_byGroup, OrderedMap.keys, List.map_map]
  exact ((List.map_congr_left hentry).trans (List.map_id _)).symm

end Route

namespace Registry

variable {r : Registry}

/-- An operation is made of parts that all compile. -/
theorem operation_eq_ok_iff {request : Request} {response : Response} {method : Method}
    {o : Operation} :
    r.operation request response method = .ok o ↔ ∃ body answer parameters,
      (if method = .get then pure none else some <$> r.requestBody request) = .ok body ∧
      r.responseObject response = .ok answer ∧ r.requestParameters request = .ok parameters ∧
      o = {
        parameters, requestBody := body
        deprecated := markIf request.deprecated
        description := request.description
        responses := ⟨[(toString response.code, answer)]⟩
        summary := request.summary
        tags := request.tags ++ [request.modifier.tag] } := by
  rw [operation]
  -- with a request body and without one the parts are put together in the same way
  split <;>
    simp only [bind_eq_ok_iff, pure_eq_ok_iff, exists_and_left, eq_comm (b := o)]

theorem routeOperation?_eq_some_iff {route : Route} {operation : Operation} :
    r.routeOperation? route = .ok (some operation) ↔
      ∃ request response, route.contracts? = some (request, response) ∧
        request.checkPath route.path = .ok () ∧
        r.operation request response route.method = .ok operation := by
  rw [routeOperation?]
  cases route.contracts? with
  | none => simp [pure, Except.pure]
  | some contracts =>
    obtain ⟨request, response⟩ := contracts
    simp only [bind_eq_ok_iff, Option.some.injEq, Prod.mk.injEq]
    constructor
    · rintro ⟨_, hcheck, hoperation⟩
      obtain ⟨_, hoperation, hsome⟩ := map_eq_ok_iff.mp hoperation
      cases hsome
      exact ⟨request, response, ⟨rfl, rfl⟩, hcheck, hoperation⟩
    · rintro ⟨_, _, ⟨rfl, rfl⟩, hcheck, hoperation⟩
      exact ⟨(), hcheck, map_eq_ok_iff.mpr ⟨operation, hoperation, rfl⟩⟩

/-- A route that can be added to a document on its own. -/
def Accepts (r : Registry) (route : Route) : Prop :=
  ∃ result, r.addRoute {} route = .ok result

/-- The first route of a list that is not accepted fails with an error. -/
def FailsFirst (r : Registry) (routes : List Route) (e : Error) : Prop :=
  ∃ front route back, routes = front ++ route :: back ∧ (∀ x ∈ front, r.Accepts x) ∧
    r.addRoute {} route = .error e

/-- The routes of a list that add an operation, with the operation. -/
def placements (r : Registry) (routes : List Route) : List (Route × Operation) :=
  routes.filterMap fun route =>
    match r.routeOperation? route with
    | .ok (some operation) => some (route, operation)
    | _ => none

/-- A document after the operations of routes were written to it, one after another. -/
def place (r : Registry) (document : PathDocument) (routes : List Route) : PathDocument :=
  Table.writeAll (fun x => x.1.path) (fun x => x.1.method) (fun x => x.2) document
    (r.placements routes)

theorem mem_placements {routes : List Route} {route : Route} {operation : Operation} :
    (route, operation) ∈ r.placements routes ↔
      route ∈ routes ∧ r.routeOperation? route = .ok (some operation) := by
  rw [placements, List.mem_filterMap]
  constructor
  · rintro ⟨other, hother, hplaced⟩
    split at hplaced
    · next found hfound =>
      cases hplaced
      exact ⟨hother, hfound⟩
    · cases hplaced
  · rintro ⟨hroute, hfound⟩
    exact ⟨route, hroute, by rw [hfound]⟩

theorem placements_filter (p : Route → Bool) (routes : List Route) :
    r.placements (routes.filter p) = (r.placements routes).filter fun x => p x.1 := by
  rw [placements, placements, List.filterMap_filter, List.filter_filterMap]
  congr 1
  funext route
  cases hp : p route <;> rcases r.routeOperation? route with _ | _ | operation <;>
    simp [Option.filter, hp]

private theorem addRoute_eq (document : PathDocument) (route : Route) :
    r.addRoute document route = (r.routeOperation? route).map fun
      | none => (document, false)
      | some operation => (Table.write document route.path route.method operation, true) := by
  rw [addRoute]
  cases r.routeOperation? route with
  | error e => rfl
  | ok found => cases found <;> rfl

theorem accepts_iff {route : Route} :
    r.Accepts route ↔ ∃ found, r.routeOperation? route = .ok found := by
  rw [Accepts, addRoute_eq]
  cases r.routeOperation? route <;> simp [Except.map]

private theorem addRoute_eq_error_iff {route : Route} {e : Error} :
    r.addRoute {} route = .error e ↔ r.routeOperation? route = .error e := by
  rw [addRoute_eq]
  cases r.routeOperation? route <;> simp [Except.map]

theorem accepts_of_undocumented {route : Route} (h : route.contracts? = none) :
    r.Accepts route := by
  refine accepts_iff.mpr ⟨none, ?_⟩
  rw [routeOperation?, h]
  rfl

private theorem place_cons (document : PathDocument) (route : Route) (routes : List Route)
    {found : Option Operation} (h : r.routeOperation? route = .ok found) :
    r.place document (route :: routes) = r.place (match found with
      | none => document
      | some operation => Table.write document route.path route.method operation) routes := by
  simp only [place, placements, List.filterMap_cons, h]
  cases found <;> rfl

theorem addRoutes_eq_ok_iff {document result : PathDocument} {routes : List Route} :
    r.addRoutes document routes = .ok result ↔
      (∀ route ∈ routes, r.Accepts route) ∧ r.place document routes = result := by
  induction routes generalizing document with
  | nil =>
    rw [addRoutes, pure_eq_ok_iff]
    simp [place, placements, Table.writeAll]
  | cons route rest ih =>
    rw [addRoutes, addRoute_eq]
    cases hfound : r.routeOperation? route with
    | error e =>
      have hrejected : ¬ r.Accepts route := by
        simp [accepts_iff, hfound]
      simp [Except.map, bind, Except.bind, hrejected]
    | ok found =>
      have haccepted : r.Accepts route := accepts_iff.mpr ⟨found, hfound⟩
      rw [place_cons document route rest hfound, List.forall_mem_cons]
      cases found with
      | none => simpa [Except.map, bind, Except.bind, haccepted] using ih
      | some operation => simpa [Except.map, bind, Except.bind, haccepted] using ih

private theorem failsFirst_cons {route : Route} {routes : List Route} {e : Error} :
    r.FailsFirst (route :: routes) e ↔
      r.addRoute {} route = .error e ∨ (r.Accepts route ∧ r.FailsFirst routes e) :=
  firstFailure_cons

private theorem failsFirst_append {front back : List Route} {e : Error} :
    r.FailsFirst (front ++ back) e ↔
      r.FailsFirst front e ∨ ((∀ route ∈ front, r.Accepts route) ∧ r.FailsFirst back e) :=
  firstFailure_append

theorem addRoutes_eq_error_iff {document : PathDocument} {routes : List Route} {e : Error} :
    r.addRoutes document routes = .error e ↔ r.FailsFirst routes e := by
  induction routes generalizing document with
  | nil => exact iff_of_false pure_ne_error not_firstFailure_nil
  | cons route rest ih =>
    rw [addRoutes, bind_eq_error_iff, failsFirst_cons, addRoute_eq_error_iff, addRoute_eq]
    cases hfound : r.routeOperation? route with
    | error e' =>
      have hrejected : ¬ r.Accepts route := by
        simp [accepts_iff, hfound]
      simp [Except.map, hrejected]
    | ok found =>
      have haccepted : r.Accepts route := accepts_iff.mpr ⟨found, hfound⟩
      cases found with
      | none => simp [Except.map, haccepted, ih]
      | some operation => simp [Except.map, haccepted, ih]

theorem groupDocuments_eq_error_iff {groups : List (String × List Route)} {e : Error} :
    r.groupDocuments groups = .error e ↔ r.FailsFirst (groups.flatMap Prod.snd) e := by
  induction groups with
  | nil => exact iff_of_false pure_ne_error not_firstFailure_nil
  | cons g groups ih =>
    obtain ⟨group, routes⟩ := g
    rw [groupDocuments, bind_eq_error_iff, List.flatMap_cons, failsFirst_append,
      addRoutes_eq_error_iff]
    refine or_congr Iff.rfl ?_
    have hrest : ∀ document, (do
        let rest ← r.groupDocuments groups
        pure (if document.isEmpty then rest else (group, document) :: rest) :
        Except Error (List (String × PathDocument))) = .error e ↔
          r.FailsFirst (groups.flatMap Prod.snd) e := by
      intro document
      rw [bind_pure_eq_error_iff, ih]
    simp only [hrest, addRoutes_eq_ok_iff, and_assoc, exists_and_left, exists_eq_left']

theorem groupDocuments_eq_ok_iff {groups : List (String × List Route)}
    {entries : List (String × PathDocument)} :
    r.groupDocuments groups = .ok entries ↔
      (∀ g ∈ groups, ∀ route ∈ g.2, r.Accepts route) ∧
      entries = (groups.map fun g => (g.1, r.place {} g.2)).filter fun e => !e.2.isEmpty := by
  induction groups generalizing entries with
  | nil =>
    rw [groupDocuments, pure_eq_ok_iff]
    simp [eq_comm]
  | cons g groups ih =>
    obtain ⟨group, routes⟩ := g
    simp only [groupDocuments, bind_eq_ok_iff, pure_eq_ok_iff, addRoutes_eq_ok_iff, ih,
      List.forall_mem_cons, List.map_cons, List.filter_cons]
    constructor
    · rintro ⟨_, ⟨hroutes, rfl⟩, _, ⟨hgroups, rfl⟩, rfl⟩
      refine ⟨⟨hroutes, hgroups⟩, ?_⟩
      cases (r.place {} routes).isEmpty <;> rfl
    · rintro ⟨⟨hroutes, hgroups⟩, rfl⟩
      refine ⟨_, ⟨hroutes, rfl⟩, _, ⟨hgroups, rfl⟩, ?_⟩
      cases (r.place {} routes).isEmpty <;> rfl

/-- The documents of groups exist when all routes are accepted: those of the routes of each group,
in the order of the groups, without those that stay empty. -/
theorem pathDocuments_eq_ok_iff {routes : List Route} {documents : OrderedMap PathDocument} :
    r.pathDocuments routes = .ok documents ↔
      (∀ route ∈ routes, r.Accepts route) ∧
      documents.entries = ((routes.map Route.group).eraseDups.map fun group =>
        (group, r.place {} (routes.filter fun route => route.group = group))).filter
          fun e => !e.2.isEmpty := by
  have haccepted : (∀ g ∈ (Route.byGroup routes).entries, ∀ route ∈ g.2, r.Accepts route) ↔
      ∀ route ∈ routes, r.Accepts route := by
    rw [Route.entries_byGroup]
    constructor
    · intro h route hroute
      exact h (route.group, _) (List.mem_map_of_mem (List.mem_eraseDups.mpr
        (List.mem_map_of_mem hroute))) route (List.mem_filter.mpr ⟨hroute, by simp⟩)
    · intro h g hg route hroute
      obtain ⟨key, _, rfl⟩ := List.mem_map.mp hg
      exact h route (List.mem_filter.mp hroute).1
  obtain ⟨entries⟩ := documents
  simp only [pathDocuments, bind_eq_ok_iff, pure_eq_ok_iff, groupDocuments_eq_ok_iff, haccepted,
    OrderedMap.mk.injEq, exists_eq_right]
  rw [Route.entries_byGroup, List.map_map]
  rfl

theorem pathDocuments_eq_error_iff {routes : List Route} {e : Error} :
    r.pathDocuments routes = .error e ↔
      r.FailsFirst ((Route.byGroup routes).entries.flatMap Prod.snd) e := by
  rw [pathDocuments, bind_pure_eq_error_iff, groupDocuments_eq_error_iff]

theorem distinct_pathDocuments {routes : List Route} {documents : OrderedMap PathDocument}
    (h : r.pathDocuments routes = .ok documents) : documents.Distinct := by
  have hkeys := Route.distinct_byGroup routes
  rw [OrderedMap.Distinct, Route.keys_byGroup] at hkeys
  have hsub := List.Sublist.map Prod.fst (List.filter_sublist (p := fun e => !e.2.isEmpty)
    (l := (routes.map Route.group).eraseDups.map fun group =>
      (group, r.place {} (routes.filter fun route => route.group = group))))
  rw [← (pathDocuments_eq_ok_iff.mp h).2, List.map_map] at hsub
  exact hkeys.sublist (by simpa [OrderedMap.keys, Function.comp_def] using hsub)

/-- Every path of a group's document is that of a route of the group. -/
theorem route_of_mem_pathDocuments {routes : List Route} {documents : OrderedMap PathDocument}
    (h : r.pathDocuments routes = .ok documents) {group : String} {document : PathDocument}
    (hmem : (group, document) ∈ documents.entries) {path : String}
    (hpath : path ∈ document.keys) :
    ∃ route : Route, route.group = group ∧ route.path = path := by
  rw [(pathDocuments_eq_ok_iff.mp h).2] at hmem
  obtain ⟨key, _, hplaced⟩ := List.mem_map.mp (List.mem_filter.mp hmem).1
  cases hplaced
  obtain ⟨x, hx, hat⟩ := (Table.mem_keys_writeAll ..).mp hpath |>.resolve_left nofun
  have hroute := List.mem_filter.mp (mem_placements.mp hx).1
  exact ⟨x.1, of_decide_eq_true hroute.2, hat⟩

end Registry
end ApiDocs
