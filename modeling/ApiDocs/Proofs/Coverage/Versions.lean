import ApiDocs.Proofs.Coverage
import ApiDocs.Proofs.Route.VersionPath
import ApiDocs.Proofs.Versions.Documents
/-!
# Versions in heaps and in coverage

A heap files the operation of a route under the version into which its path splits, and coverage
counts the routes whose paths start with the version. Both are the same version for a path that
starts with `/api/` and writes its version without leading zeros. Another path that splits is
counted for no version.
-/
namespace ApiDocs

/-- The documents of routes define the operations of the routes with contracts, each under the
version and the rest of its path. -/
theorem Registry.exists_defines_iff {r : Registry} {routes : List Route}
    {documents : OrderedMap PathDocument} (h : r.pathDocuments routes = .ok documents)
    {version : Nat} {rest : String} {method : Method} :
    (∃ d ∈ documents.values, d.Defines version rest method) ↔
      ∃ route ∈ routes, route.contracts?.isSome ∧ route.method = method ∧
        Path.splitVersion route.path = some (version, rest) := by
  have hpartition := partition_of_pathDocuments h
  constructor
  · rintro ⟨d, hd, ⟨path, item⟩, hitem, hsplit, hsome⟩
    obtain ⟨entry, hentry, rfl⟩ := List.mem_map.mp hd
    obtain ⟨operation, hoperation⟩ := Option.isSome_iff_exists.mp hsome
    have hdistinct : entry.2.Distinct := by
      rw [← ((mem_entries_pathDocuments h).mp hentry).1]
      exact Table.writeAll_distinct _ _ _ OrderedMap.distinct_empty _
    have hcell : Table.cell? entry.2 path method = some operation := by
      rw [Table.cell?, hdistinct.mem_entries_iff.mp hitem]
      exact hoperation
    obtain ⟨route, hlast, _⟩ := (hpartition.last path method operation).mp
      ((hpartition.cell path method operation).mpr ⟨entry, hentry, hcell⟩)
    obtain ⟨hroute, hat⟩ := List.mem_filter.mp (List.mem_of_getLast? hlast)
    obtain ⟨hcontracts, rfl, rfl⟩ := of_decide_eq_true hat
    exact ⟨route, hroute, hcontracts, rfl, hsplit⟩
  · rintro ⟨route, hroute, hcontracts, rfl, hsplit⟩
    obtain ⟨d, hd, hdistinct, hcell⟩ := exists_document_of_route h hroute hcontracts
    obtain ⟨operation, hoperation⟩ := Option.isSome_iff_exists.mp hcell
    obtain ⟨item, hitem, hat⟩ := Option.bind_eq_some_iff.mp hoperation
    have hentry := (distinct_pathDocuments h).mem_entries_iff.mpr hd
    exact ⟨d, List.mem_map_of_mem hentry, (route.path, item),
      hdistinct.mem_entries_iff.mpr hitem, hsplit, by rw [hat]; rfl⟩

namespace Route

variable {routes : List Route} {route : Route}

theorem mem_ofVersion {version : Nat} :
    route ∈ ofVersion routes version ↔ route ∈ routes ∧ Path.hasVersion route.uri version = true :=
  List.mem_filter

end Route

namespace Coverage

/-- The names of all routes that are counted, class by class. -/
def names (c : Coverage) : List RouteName :=
  c.documented ++ c.annotated ++ c.missing

private theorem perm_moved (front back : List RouteName) (name : RouteName) :
    (front ++ [name] ++ back).Perm (front ++ back ++ [name]) := by
  rw [List.append_assoc, List.append_assoc]
  exact List.perm_append_comm.append_left front

/-- Each route that is classified is counted once. -/
theorem names_classify {s : Store} {t t' : FileTree} {routes : List Route}
    {known : OrderedMap (Option Json)} {c c' : Coverage}
    (h : classify s known c routes t = .ok c' t') :
    c'.names.Perm (c.names ++ routes.map RouteName.ofRoute) := by
  induction routes generalizing known c t with
  | nil =>
    obtain ⟨rfl, _⟩ := Effect.pure_eq_ok_iff.mp h
    simp
  | cons route routes ih =>
    have hnext : ∀ {known c₁ t₁}, c₁.names.Perm (c.names ++ [.ofRoute route]) →
        classify s known c₁ routes t₁ = .ok c' t' →
        c'.names.Perm (c.names ++ (route :: routes).map RouteName.ofRoute) := by
      intro known c₁ t₁ hstep hrest
      refine (ih hrest).trans ((hstep.append_right _).trans ?_)
      rw [List.append_assoc]
      rfl
    rw [classify] at h
    split at h
    · refine hnext ?_ h
      simp [names]
    · obtain ⟨⟨document, known'⟩, middle, _, h⟩ := Effect.bind_eq_ok_iff.mp h
      dsimp only at h
      split at h
      · refine hnext ?_ h
        simpa [names] using perm_moved c.documented (c.annotated ++ c.missing) (.ofRoute route)
      · refine hnext ?_ h
        simpa [names] using perm_moved (c.documented ++ c.annotated) c.missing (.ofRoute route)

/-- Coverage counts a route for the version that its path splits into, and for no other one, when
the path starts with `/api/` and no zero leads the version; otherwise for none. A route whose path
continues the start of the paths of a version splits into that version. Coverage counts each of
its routes once, and the heap has the operations of exactly the routes with contracts that split
into its versions. -/
theorem agrees_with_heap (routes : List Route) :
    (∀ route ∈ routes, ∀ version rest, Path.splitVersion route.path = some (version, rest) →
      ∀ w, route ∈ Route.ofVersion routes w ↔ w = version ∧
        Text.startsWith route.path "/api/" = true ∧
          Text.startsWith route.path "/api/v0" = false) ∧
    (∀ route ∈ routes, ∀ version rest, 1 ≤ version → version ≤ Path.maxVersion →
      route.path = "/" ++ Path.versionMarker version ++ rest → rest ≠ "" → '\n' ∉ rest.toList →
      route ∈ Route.ofVersion routes version ∧
        Path.splitVersion route.path = some (version, rest)) ∧
    (∀ route v w, route ∈ Route.ofVersion routes v → route ∈ Route.ofVersion routes w → v = w) ∧
    (∀ s version t t' c, ofRoutes routes s version t = .ok c t' →
      c.names.Perm ((Route.ofVersion routes version).map RouteName.ofRoute)) ∧
    ∀ (r : Registry) documents, r.pathDocuments routes = .ok documents →
      ∀ version rest method,
        ((({} : VersionHeap).insertDocuments documents.values).operation? version rest
            method).isSome ↔
          ∃ route ∈ routes, route.contracts?.isSome ∧ route.method = method ∧
            Path.splitVersion route.path = some (version, rest) := by
  refine ⟨?_, ?_, ?_, ?_, ?_⟩
  · intro route hroute version rest hsplit w
    rw [Route.mem_ofVersion, Path.hasVersion_iff_of_splitVersion hsplit]
    exact and_iff_right hroute
  · intro route hroute version rest hpos hmax hpath hne hline
    refine ⟨Route.mem_ofVersion.mpr ⟨hroute, Path.hasVersion_of_documented hpath⟩, ?_⟩
    rw [hpath]
    exact Path.splitVersion_versionMarker hpos hmax hne hline
  · intro route v w hv hw
    exact Path.hasVersion_unique (Route.mem_ofVersion.mp hv).2 (Route.mem_ofVersion.mp hw).2
  · intro s version t t' c h
    exact names_classify h
  · intro r documents h version rest method
    rw [VersionHeap.wellFormed_empty.isSome_operation?_insertDocuments,
      ← Registry.exists_defines_iff h]
    exact or_iff_right (by simp [VersionHeap.operation?, VersionHeap.paths?])

/-- A path splits into a version without `api/` in front and with leading zeros, but coverage does
not count it then. -/
theorem split_not_counted :
    (¬ ∀ (routes : List Route) (route : Route) (version : Nat) (rest : String), route ∈ routes →
      Path.splitVersion route.path = some (version, rest) →
      route ∈ Route.ofVersion routes version) ∧
    ¬ ∀ (routes : List Route) (route : Route) (version : Nat) (rest : String), route ∈ routes →
      Text.startsWith route.path "/api/" = true →
      Path.splitVersion route.path = some (version, rest) →
      route ∈ Route.ofVersion routes version := by
  constructor
  · intro h
    have hcounted := h [{ uri := "v1/items", method := .get }] _ 1 "items" List.mem_cons_self
      (by decide)
    exact absurd (Route.mem_ofVersion.mp hcounted).2 (by decide)
  · intro h
    have hcounted := h [{ uri := "api/v01/items", method := .get }] _ 1 "items" List.mem_cons_self
      (by decide) (by decide)
    exact absurd (Route.mem_ofVersion.mp hcounted).2 (by decide)

end Coverage
end ApiDocs
