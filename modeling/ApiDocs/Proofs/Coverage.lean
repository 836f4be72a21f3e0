import ApiDocs.Coverage
import ApiDocs.Proofs.Document.Groups
import ApiDocs.Proofs.Store.ReadBack
import ApiDocs.Proofs.Store.Routes
/-!
# What coverage tells

Each route of a version is told by its contracts and by the document of its group, whether that was
read for it or for an earlier route. So where the documents of all routes were saved, every route
with both contracts is documented.
-/
namespace ApiDocs

/-- The document of the group of a route with contracts holds the operation of its path and its
method, whether this route wrote it or a later one. -/
theorem Registry.exists_document_of_route {r : Registry} {routes : List Route}
    {documents : OrderedMap PathDocument} (h : r.pathDocuments routes = .ok documents)
    {route : Route} (hroute : route ∈ routes) (hcontracts : route.contracts?.isSome) :
    ∃ document, documents.get? route.group = some document ∧ document.Distinct ∧
      (Table.cell? document route.path route.method).isSome := by
  have hmem : route ∈ (r.placements routes).map Prod.fst := by
    rw [map_fst_placements (pathDocuments_eq_ok_iff.mp h).1]
    exact List.mem_filter.mpr ⟨hroute, hcontracts⟩
  obtain ⟨x, hx, rfl⟩ := List.mem_map.mp hmem
  obtain ⟨hentry, _⟩ := (lists_path_iff h).mpr ⟨x, hx, rfl, rfl⟩
  refine ⟨_, (distinct_pathDocuments h).mem_entries_iff.mp hentry,
    Table.writeAll_distinct _ _ _ OrderedMap.distinct_empty _, ?_⟩
  have hwritten : x ∈ (r.placements routes).filter fun y =>
      y.1.path = x.1.path ∧ y.1.method = x.1.method :=
    List.mem_filter.mpr ⟨hx, by simp⟩
  rw [cell?_place_group, cell?_place, Option.isSome_map,
    List.getLast?_eq_some_getLast (List.ne_nil_of_mem hwritten)]
  rfl

namespace Coverage

/-- The classes of routes. -/
inductive Status where
  | documented
  | annotated
  | missing
deriving DecidableEq

section Classes

variable (load : String → Option Json)

/-- The class of a route, where the documents of groups are known. -/
def status (route : Route) : Status :=
  if route.contracts?.isNone then .missing
  else if isGenerated (load route.group) (.ofRoute route) then .documented
  else .annotated

/-- The names of the routes of a class, in the order of the routes. -/
def namesOf (routes : List Route) (wanted : Status) : List RouteName :=
  (routes.filter fun route => status load route = wanted).map RouteName.ofRoute

/-- A coverage with more routes, each in its class. -/
def extend (c : Coverage) (routes : List Route) : Coverage :=
  { c with
    documented := c.documented ++ namesOf load routes .documented
    annotated := c.annotated ++ namesOf load routes .annotated
    missing := c.missing ++ namesOf load routes .missing }

theorem namesOf_cons (route : Route) (routes : List Route) (wanted : Status) :
    namesOf load (route :: routes) wanted =
      (if status load route = wanted then [.ofRoute route] else []) ++
        namesOf load routes wanted := by
  rw [namesOf, List.filter_cons]
  split <;> simp_all [namesOf]

theorem namesOf_eq {routes : List Route} {wanted : Status} (keep : Route → Bool)
    (h : ∀ route ∈ routes, status load route = wanted ↔ keep route) :
    namesOf load routes wanted = (routes.filter keep).map RouteName.ofRoute := by
  rw [namesOf, List.filter_congr]
  intro route hroute
  rw [Bool.eq_iff_iff, decide_eq_true_iff, h route hroute]

end Classes

section Classify

variable {s : Store} {t : FileTree} {load : String → Option Json}

/-- What is kept of documents that were read is what would be read now. -/
def Known (s : Store) (t : FileTree) (known : OrderedMap (Option Json)) : Prop :=
  ∀ group document, known.get? group = some document → s.loadDocument? group t = .ok document t

theorem known_empty : Known s t {} := by
  intro group document h
  cases h

/-- A document that was read before is the one that would be read now. -/
theorem groupDocument_eq {known : OrderedMap (Option Json)} {group : String}
    {document : Option Json} (hknown : Known s t known)
    (hload : s.loadDocument? group t = .ok document t) :
    ∃ known', Known s t known' ∧ groupDocument s known group t = .ok (document, known') t := by
  rw [groupDocument]
  cases hget : known.get? group with
  | some present =>
    have hpresent := hknown group present hget
    obtain rfl : document = present := by simpa [hload] using hpresent
    exact ⟨known, hknown, rfl⟩
  | none =>
    refine ⟨known.insert group document, ?_, ?_⟩
    · intro group' document' h
      rw [OrderedMap.get?_insert] at h
      split at h
      · next hsame =>
        rw [hsame, hload, Option.some.inj h]
      · exact hknown group' document' h
    · exact Effect.bind_eq_ok_iff.mpr ⟨document, t, hload, rfl⟩

theorem groupDocument_eq_error {known : OrderedMap (Option Json)} {group : String} {e : Error}
    (hknown : Known s t known) (hload : s.loadDocument? group t = .error e t) :
    groupDocument s known group t = .error e t := by
  rw [groupDocument]
  cases hget : known.get? group with
  | some present =>
    have hpresent := hknown group present hget
    simp [hload] at hpresent
  | none => exact Effect.bind_eq_error_iff.mpr (.inl hload)

/-- Where the documents of all groups with contracts can be read, each route is put into its class,
whatever was read before. -/
theorem classify_eq {routes : List Route} {known : OrderedMap (Option Json)} {c : Coverage}
    (hload : ∀ route ∈ routes, route.contracts?.isSome →
      s.loadDocument? route.group t = .ok (load route.group) t)
    (hknown : Known s t known) : classify s known c routes t = .ok (c.extend load routes) t := by
  induction routes generalizing known c with
  | nil =>
    rw [classify]
    simp [extend, namesOf]
    rfl
  | cons route routes ih =>
    have hrest := fun route' hroute => hload route' (List.mem_cons_of_mem _ hroute)
    rw [classify]
    by_cases hcontracts : route.contracts?.isNone
    · have hstatus : status load route = .missing := if_pos hcontracts
      rw [if_pos hcontracts, ih hrest hknown]
      simp [extend, namesOf_cons, hstatus]
    · rw [if_neg hcontracts]
      have hsome : route.contracts?.isSome :=
        Option.isSome_iff_ne_none.mpr (by simpa using hcontracts)
      obtain ⟨known', hknown', hdocument⟩ :=
        groupDocument_eq hknown (hload route List.mem_cons_self hsome)
      apply Effect.bind_eq_ok_iff.mpr ⟨(load route.group, known'), t, hdocument, ?_⟩
      dsimp only
      split
      · next hgenerated =>
        have hstatus : status load route = .documented := by
          rw [status, if_neg hcontracts, if_pos hgenerated]
        rw [ih hrest hknown']
        simp [extend, namesOf_cons, hstatus]
      · next hgenerated =>
        have hstatus : status load route = .annotated := by
          rw [status, if_neg hcontracts, if_neg hgenerated]
        rw [ih hrest hknown']
        simp [extend, namesOf_cons, hstatus]

end Classify

theorem isGenerated_some (document : Json) (n : RouteName) : isGenerated (some document) n =
    ((document.get? n.path).bind fun item => item.get? n.method.key).isSome :=
  rfl

/-- What is loaded for a group after documents were saved. -/
def stored (documents : OrderedMap PathDocument) (group : String) : Option Json :=
  (documents.get? group).map fun document => (PathDocument.toJson document).reread

/-- A route with contracts is documented by what was saved of the documents of all routes. -/
theorem status_stored {r : Registry} {routes : List Route} {documents : OrderedMap PathDocument}
    (h : r.pathDocuments routes = .ok documents) {route : Route} (hroute : route ∈ routes) :
    status (stored documents) route =
      if route.contracts?.isSome then .documented else .missing := by
  cases hcontracts : route.contracts? with
  | none => simp [status, hcontracts]
  | some contracts =>
    obtain ⟨document, hget, hdistinct, hcell⟩ :=
      Registry.exists_document_of_route h hroute (by rw [hcontracts]; rfl)
    have hgenerated : isGenerated (stored documents route.group) (.ofRoute route) := by
      rw [stored, hget, Option.map_some, isGenerated_some, RouteName.ofRoute,
        PathDocument.get?_reread hdistinct, Option.isSome_map]
      exact hcell
    simp [status, hcontracts, hgenerated]

/-- After the documents of routes were saved in any order, each at a place of its own, the coverage
of every version counts each of its routes with both contracts as documented, and no other. -/
theorem ofRoutes_saved {r : Registry} {routes : List Route} {documents : OrderedMap PathDocument}
    {s : Store} {t t' : FileTree} {entries : List (String × PathDocument)}
    (hdocuments : r.pathDocuments routes = .ok documents)
    (horder : entries.Perm documents.entries)
    (hplaces : ∀ a ∈ documents.keys, ∀ b ∈ documents.keys,
      s.documentPlace a = s.documentPlace b → a = b)
    (hdepth : ∀ d ∈ documents.values, (PathDocument.toJson d).depth ≤ Json.maxLevels)
    (hfinite : ∀ d ∈ documents.values, (PathDocument.toJson d).IsFinite) (hsound : t.isSound)
    (hsaved : s.saveAll entries t = .ok () t') (version : Nat) :
    ofRoutes routes s version t' = .ok {
      version
      documented := ((Route.ofVersion routes version).filter fun route =>
        route.contracts?.isSome).map RouteName.ofRoute
      annotated := []
      missing := ((Route.ofVersion routes version).filter fun route =>
        route.contracts?.isNone).map RouteName.ofRoute } t' := by
  have hdistinct := Registry.distinct_pathDocuments hdocuments
  have hgroups : (entries.map Prod.fst).Nodup := (horder.map Prod.fst).nodup_iff.mpr hdistinct
  have hplaces' : ∀ a ∈ entries, ∀ b ∈ entries,
      s.documentPlace a.1 = s.documentPlace b.1 → a.1 = b.1 := fun a ha b hb =>
    hplaces a.1 (List.mem_map_of_mem (horder.mem_iff.mp ha)) b.1
      (List.mem_map_of_mem (horder.mem_iff.mp hb))
  have hload : ∀ route ∈ Route.ofVersion routes version, route.contracts?.isSome →
      s.loadDocument? route.group t' = .ok (stored documents route.group) t' := by
    intro route hroute hcontracts
    obtain ⟨document, hget, _⟩ := Registry.exists_document_of_route hdocuments
      (List.mem_filter.mp hroute).1 hcontracts
    have hentry := hdistinct.mem_entries_iff.mpr hget
    have hvalue : document ∈ documents.values := List.mem_map_of_mem hentry
    have hloaded := Store.loadDocument?_of_saveAll hsound hsaved hgroups hplaces'
      (horder.mem_iff.mpr hentry) (hdepth document hvalue) (hfinite document hvalue)
    rw [stored, hget, Option.map_some]
    exact hloaded
  have hstatus : ∀ route ∈ Route.ofVersion routes version, status (stored documents) route =
      if route.contracts?.isSome then .documented else .missing :=
    fun route hroute => status_stored hdocuments (List.mem_filter.mp hroute).1
  rw [ofRoutes, classify_eq hload known_empty, extend,
    namesOf_eq _ fun route => route.contracts?.isSome, namesOf_eq _ fun _ => false,
    namesOf_eq _ fun route => route.contracts?.isNone]
  · simp
  all_goals
    intro route hroute
    rw [hstatus route hroute]
    cases route.contracts? <;> simp

-- A route whose group is that of the path without the placeholder.
private def memberRoute : Route where
  uri := "api/v2/users/\x7bid\x7d"
  method := .get
  request? := some { name := "Show", path := ⟨[("id", { type := { shape := .scalar .string } })]⟩ }
  response? := some { name := "Shown" }

-- Two versions of a path, a path below it, and a path without contracts.
private def listing : List Route :=
  [Store.bareRoute "api/v1/users", Store.bareRoute "api/v2/users", memberRoute,
    { uri := "api/v2/groups", method := .get }]

-- The documents of these routes, in the opposite order. Two of the routes share one.
private def listed : List (String × PathDocument) :=
  let member : PathItem := ({} : PathItem).set .get {
    parameters := [
      { location := "path", name := "id", schema := { type := "string" }, required := some true }]
    responses := ⟨[("200", { content := contentOf (.object {}) })]⟩
    tags := [Modifier.public.tag] }
  [("v2/users",
      (Store.bareDocument "/api/v2/users").insert "/api/v2/users/\x7bid\x7d" member),
    ("v1/users", Store.bareDocument "/api/v1/users")]

theorem listing_saved : ∃ t', (Store.ofRoot "docs").saveAll listed Store.bareTree = .ok () t' ∧
    ofRoutes listing (Store.ofRoot "docs") 2 t' = .ok {
      version := 2
      documented := [⟨.get, "/api/v2/users"⟩, ⟨.get, "/api/v2/users/\x7bid\x7d"⟩]
      missing := [⟨.get, "/api/v2/groups"⟩] } t' := by
  have hdocuments : Registry.pathDocuments {} listing = .ok ⟨listed.reverse⟩ := rfl
  have htextual : ∀ d ∈ (OrderedMap.mk listed.reverse).values, d.isTextual := by decide +kernel
  have hread := fun d hd => Json.reread_of_isTextual (PathDocument.toJson d) _ (htextual d hd)
  obtain ⟨_, t', hsaved⟩ := Effect.exists_of_succeeds
    ((Store.ofRoot "docs").saveAll listed) Store.bareTree (by decide +kernel)
  have hcovered := ofRoutes_saved hdocuments (List.reverse_perm listed).symm (by decide +kernel)
    (fun d hd => (hread d hd).1) (fun d hd => (hread d hd).2.1) (by decide +kernel) hsaved 2
  have hclasses : ((Route.ofVersion listing 2).filter fun route =>
      route.contracts?.isSome).map RouteName.ofRoute =
        [⟨.get, "/api/v2/users"⟩, ⟨.get, "/api/v2/users/\x7bid\x7d"⟩] ∧
      ((Route.ofVersion listing 2).filter fun route =>
        route.contracts?.isNone).map RouteName.ofRoute = [⟨.get, "/api/v2/groups"⟩] := by
    decide +kernel
  rw [hclasses.1, hclasses.2] at hcovered
  exact ⟨t', hsaved, hcovered⟩

end Coverage
end ApiDocs
