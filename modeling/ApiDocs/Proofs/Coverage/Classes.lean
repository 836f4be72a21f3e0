import ApiDocs.Proofs.Coverage.Versions
import ApiDocs.Proofs.Except
/-!
# The classes of routes

A coverage puts each route of its version into one class, as if no document had been kept from an
earlier route. It fails exactly where the document of a route with contracts cannot be loaded, and
what is stored for the other routes has no part in it.
-/
namespace ApiDocs

open Effect (outcome ReadOnly)

/-- Both contracts are attached to a route. -/
def Route.HasContracts (r : Route) : Prop :=
  r.request?.isSome ∧ r.response?.isSome

instance (r : Route) : Decidable r.HasContracts :=
  inferInstanceAs (Decidable (_ ∧ _))

theorem Route.isSome_contracts?_iff {r : Route} : r.contracts?.isSome ↔ r.HasContracts := by
  rw [contracts?, HasContracts]
  cases r.request? <;> cases r.response? <;> simp

theorem Route.contracts?_eq_none_iff {r : Route} : r.contracts? = none ↔ ¬ r.HasContracts := by
  rw [← isSome_contracts?_iff, Option.not_isSome_iff_eq_none]

/-- What loading the document of a group gives. -/
def Store.loaded (s : Store) (t : FileTree) (group : String) : Except Error (Option Json) :=
  outcome (s.loadDocument? group t)

theorem Store.loaded_eq_ok_iff {s : Store} {t : FileTree} {group : String}
    {document : Option Json} :
    s.loaded t group = .ok document ↔ s.loadDocument? group t = .ok document t :=
  (ReadOnly.eq_ok_iff (readOnly_loadFile? .json (s.documentPath group))).symm

theorem Store.loaded_eq_error_iff {s : Store} {t : FileTree} {group : String} {e : Error} :
    s.loaded t group = .error e ↔ s.loadDocument? group t = .error e t :=
  (and_iff_left rfl).symm.trans
    (ReadOnly.eq_error_iff (readOnly_loadFile? .json (s.documentPath group))).symm

/-- The document of a group, if there is one that loads. -/
def Store.document? (s : Store) (t : FileTree) (group : String) : Option Json :=
  (s.loaded t group).toOption.join

theorem Store.document?_of_loaded {s : Store} {t : FileTree} {group : String}
    {document : Option Json} (h : s.loaded t group = .ok document) :
    s.document? t group = document := by
  rw [document?, h]
  rfl

namespace Coverage

/-- A document that has the path of a route, with its method in lower case as a key. -/
def Shows (document : Option Json) (route : Route) : Prop :=
  ∃ d item operation, document = some d ∧ d.get? route.path = some item ∧
    item.get? route.method.key = some operation

theorem isGenerated_iff {document : Option Json} {route : Route} :
    isGenerated document (.ofRoute route) ↔ Shows document route := by
  cases document with
  | none => simp [isGenerated, Shows]
  | some d =>
    rw [isGenerated_some, Option.isSome_bind, Option.any_eq_true]
    simp [Shows, RouteName.ofRoute, Option.isSome_iff_exists]

/-- A coverage of a list of routes: each route has one class, told by its contracts and by what
loading the document of its group gives, and the routes of a class are named in their order. -/
structure Partitions (s : Store) (t : FileTree) (routes : List Route) (c : Coverage)
    (classOf : Route → Status) : Prop where
  missing_iff : ∀ route ∈ routes, classOf route = .missing ↔ ¬ route.HasContracts
  documented_iff : ∀ route ∈ routes, classOf route = .documented ↔
    route.HasContracts ∧ ∃ document, s.loaded t route.group = .ok document ∧ Shows document route
  annotated_iff : ∀ route ∈ routes, classOf route = .annotated ↔
    route.HasContracts ∧ ∃ document, s.loaded t route.group = .ok document ∧ ¬ Shows document route
  missing : c.missing = (routes.filter fun route => classOf route = .missing).map .ofRoute
  documented : c.documented = (routes.filter fun route => classOf route = .documented).map .ofRoute
  annotated : c.annotated = (routes.filter fun route => classOf route = .annotated).map .ofRoute
  once : c.names.Perm (routes.map RouteName.ofRoute)
  total : c.total = routes.length

section Outcomes

variable {s : Store} {t t' : FileTree} {routes : List Route} {known : OrderedMap (Option Json)}
  {c : Coverage}

/-- Classifying fails exactly as the first route with contracts whose document does not load. -/
theorem classify_eq_error_iff {e : Error} (hknown : Known s t known) :
    classify s known c routes t = .error e t' ↔
      FirstFailure (fun route => s.loaded t route.group) (routes.filter (·.HasContracts)) e ∧
        t' = t := by
  induction routes generalizing known c with
  | nil => exact iff_of_false Effect.pure_ne_error fun h => not_firstFailure_nil h.1
  | cons route routes ih =>
    rw [classify]
    by_cases hcontracts : route.HasContracts
    · have hsome : ¬ route.contracts?.isNone := by simpa [Route.contracts?_eq_none_iff]
      rw [if_neg hsome, Effect.bind_eq_error_iff, List.filter_cons_of_pos (by simpa),
        firstFailure_cons]
      cases hload : s.loaded t route.group with
      | ok document =>
        obtain ⟨known', hknown', hdocument⟩ :=
          groupDocument_eq hknown (Store.loaded_eq_ok_iff.mp hload)
        rw [hdocument]
        by_cases hgenerated : isGenerated document (.ofRoute route)
        · simpa [hgenerated] using ih hknown'
        · simpa [hgenerated] using ih hknown'
      | error thrown =>
        rw [groupDocument_eq_error hknown (Store.loaded_eq_error_iff.mp hload)]
        simp [@eq_comm _ t' t]
    · have hnone : route.contracts?.isNone := by simpa [Route.contracts?_eq_none_iff]
      rw [if_pos hnone, ih hknown, List.filter_cons_of_neg (by simpa)]

variable {version : Nat}

/-- Where the documents of all routes with contracts load, each route is put into its class. -/
theorem ofRoutes_of_loads {other : FileTree}
    (hload : ∀ route ∈ Route.ofVersion routes version, route.HasContracts →
      ∃ document, s.loaded t route.group = .ok document)
    (hsame : ∀ route ∈ Route.ofVersion routes version, route.HasContracts →
      s.loaded other route.group = s.loaded t route.group) :
    ofRoutes routes s version other =
      .ok (extend (s.document? t) { version } (Route.ofVersion routes version)) other := by
  apply classify_eq _ known_empty
  intro route hroute hsome
  have hcontracts := Route.isSome_contracts?_iff.mp hsome
  obtain ⟨document, hdocument⟩ := hload route hroute hcontracts
  rw [Store.document?_of_loaded hdocument, ← Store.loaded_eq_ok_iff,
    hsame route hroute hcontracts, hdocument]

/-- A coverage that could be told was told from documents that all load. -/
theorem loads_of_ofRoutes (h : ofRoutes routes s version t = .ok c t') :
    ∀ route ∈ Route.ofVersion routes version, route.HasContracts →
      ∃ document, s.loaded t route.group = .ok document := by
  by_contra hfails
  have hfailure : ∃ e, FirstFailure (fun route => s.loaded t route.group)
      ((Route.ofVersion routes version).filter (·.HasContracts)) e := by
    rw [exists_firstFailure_iff]
    simpa [List.mem_filter] using hfails
  obtain ⟨e, hfirst⟩ := hfailure
  have herror : ofRoutes routes s version t = .error e t :=
    (classify_eq_error_iff known_empty).mpr ⟨hfirst, rfl⟩
  rw [herror] at h
  cases h

theorem status_eq_missing_iff {load : String → Option Json} {route : Route} :
    status load route = .missing ↔ ¬ route.HasContracts := by
  rw [← Route.contracts?_eq_none_iff, status]
  cases route.contracts? with
  | none => simp
  | some contracts => by_cases h : isGenerated (load route.group) (.ofRoute route) <;> simp [h]

/-- The class of a route with contracts is told by what its document shows. -/
theorem status_eq_iff {route : Route} (hcontracts : route.HasContracts)
    {document : Option Json} (hload : s.loaded t route.group = .ok document) :
    (status (s.document? t) route = .documented ↔ Shows document route) ∧
      (status (s.document? t) route = .annotated ↔ ¬ Shows document route) := by
  have hsome : route.contracts? ≠ none := by simpa [Route.contracts?_eq_none_iff]
  rw [status, Store.document?_of_loaded hload, ← isGenerated_iff]
  by_cases h : isGenerated document (.ofRoute route) <;> simp [h, hsome]

theorem partitions_extend
    (hload : ∀ route ∈ routes, route.HasContracts →
      ∃ document, s.loaded t route.group = .ok document)
    (hnames : (extend (s.document? t) { version } routes).names.Perm
      (routes.map RouteName.ofRoute)) :
    Partitions s t routes (extend (s.document? t) { version } routes)
      (status (s.document? t)) where
  missing_iff _ _ := status_eq_missing_iff
  documented_iff route hroute := by
    by_cases hcontracts : route.HasContracts
    · obtain ⟨document, hdocument⟩ := hload route hroute hcontracts
      simp [hcontracts, hdocument, (status_eq_iff hcontracts hdocument).1]
    · simp [hcontracts, status_eq_missing_iff.mpr hcontracts]
  annotated_iff route hroute := by
    by_cases hcontracts : route.HasContracts
    · obtain ⟨document, hdocument⟩ := hload route hroute hcontracts
      simp [hcontracts, hdocument, (status_eq_iff hcontracts hdocument).2]
    · simp [hcontracts, status_eq_missing_iff.mpr hcontracts]
  missing := rfl
  documented := rfl
  annotated := rfl
  once := hnames
  total := by
    have hlength := hnames.length_eq
    simpa [names, total, Nat.add_assoc] using hlength

end Outcomes

/-- A coverage puts each route of its version into one class, told by the route's contracts and the
document of its group alone. It fails as the first route with contracts whose document does not
load, and stored files that are not documents of routes with contracts make no difference. -/
theorem ofRoutes_partition (routes : List Route) (s : Store) (version : Nat) (t : FileTree) :
    (∀ c t', ofRoutes routes s version t = .ok c t' → t' = t ∧ c.version = version ∧
      ∃ classOf, Partitions s t (Route.ofVersion routes version) c classOf) ∧
    (∀ e t', ofRoutes routes s version t = .error e t' ↔
      FirstFailure (fun route => s.loaded t route.group)
        ((Route.ofVersion routes version).filter (·.HasContracts)) e ∧ t' = t) ∧
    ∀ other, (∀ route ∈ Route.ofVersion routes version, route.HasContracts →
        s.loaded other route.group = s.loaded t route.group) →
      outcome (ofRoutes routes s version other) = outcome (ofRoutes routes s version t) := by
  refine ⟨?_, fun e t' => classify_eq_error_iff known_empty, ?_⟩
  · intro c t' h
    have hload := loads_of_ofRoutes h
    have hnames := names_classify h
    rw [ofRoutes_of_loads hload fun _ _ _ => rfl] at h
    cases h
    exact ⟨rfl, rfl, _, partitions_extend hload (by simpa [names] using hnames)⟩
  · intro other hsame
    cases hrun : ofRoutes routes s version t with
    | ok c t' =>
      have hload := loads_of_ofRoutes hrun
      rw [ofRoutes_of_loads hload fun _ _ _ => rfl] at hrun
      cases hrun
      rw [ofRoutes_of_loads hload hsame]
      rfl
    | error e t' =>
      have hfirst := ((classify_eq_error_iff known_empty).mp hrun).1
      have hother : ofRoutes routes s version other = .error e other := by
        refine (classify_eq_error_iff known_empty).mpr ⟨?_, rfl⟩
        refine (firstFailure_congr ?_).mpr hfirst
        intro route hroute
        obtain ⟨hlisted, hcontracts⟩ := List.mem_filter.mp hroute
        exact hsame route hlisted (of_decide_eq_true hcontracts)
      rw [hother]
      rfl

-- Two routes of one group with contracts, and between them one without.
private def interleaved : List Route :=
  [Store.bareRoute "api/v1/users", { uri := "api/v1/groups", method := .get },
    Store.bareRoute "api/v1/users/{id}"]

-- A tree with the document of the first route, and some text for the group of the second.
private def treeWith (text : String) : FileTree :=
  ⟨⟨[("docs", .directory ⟨[("v1", .directory
    ⟨[("users.json", .file (.text "\x7b\"/api/v1/users\":\x7b\"get\":1\x7d\x7d")),
      ("groups.json", .file (.text text))]⟩)]⟩)]⟩⟩

theorem interleaved_partition : ∃ c classOf,
    ofRoutes interleaved (Store.ofRoot "docs") 1 (treeWith "[") = .ok c (treeWith "[") ∧
      Partitions (Store.ofRoot "docs") (treeWith "[") (Route.ofVersion interleaved 1) c classOf ∧
      outcome (ofRoutes interleaved (Store.ofRoot "docs") 1 (treeWith "[]")) = .ok c := by
  obtain ⟨hok, -, hother⟩ := ofRoutes_partition interleaved (Store.ofRoot "docs") 1 (treeWith "[")
  obtain ⟨c, t', hrun⟩ := Effect.exists_of_succeeds
    (ofRoutes interleaved (Store.ofRoot "docs") 1) (treeWith "[") (by decide +kernel)
  obtain ⟨rfl, -, classOf, hpartitions⟩ := hok c t' hrun
  have hgroup : ∀ route ∈ Route.ofVersion interleaved 1, route.HasContracts →
      route.group = "v1/users" := by
    decide +kernel
  refine ⟨c, classOf, hrun, hpartitions, ?_⟩
  rw [hother, hrun]
  · rfl
  · intro route hroute hcontracts
    have hread : (treeWith "[]").readText "docs/v1/users.json" =
        (treeWith "[").readText "docs/v1/users.json" := by decide +kernel
    have hpath : (Store.ofRoot "docs").documentPath "v1/users" = "docs/v1/users.json" := by
      decide +kernel
    rw [hgroup route hroute hcontracts, Store.loaded, Store.loaded, Store.loadDocument?, hpath,
      Store.outcome_loadFile?, Store.outcome_loadFile?, hread]

end Coverage
end ApiDocs
