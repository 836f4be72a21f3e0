import ApiDocs.Proofs.Document.Build
import ApiDocs.Proofs.Route.VersionPath
/-!
# Grouping loses nothing

A route's path decides its group, so every path lies in the document of one group, and the
operations that are written there are those that the routes of all groups write to it.
-/
namespace ApiDocs

theorem Route.group_eq_of_path_eq {a b : Route} (h : a.path = b.path) : a.group = b.group := by
  have hlist := congrArg String.toList h
  rw [Route.path, Route.path, Path.toList_documented, Path.toList_documented] at hlist
  rw [Route.group, Route.group, Path.groupKey, Path.groupKey, (List.cons.inj hlist).2]

/-- The routes group by group: groups in the order of their first routes, the routes of a group in
list order. -/
def Route.inGroups (routes : List Route) : List Route :=
  (routes.map Route.group).eraseDups.flatMap fun group =>
    routes.filter fun route => route.group = group

theorem Route.flatMap_byGroup (routes : List Route) :
    (Route.byGroup routes).entries.flatMap Prod.snd = Route.inGroups routes := by
  rw [entries_byGroup, List.flatMap_map, inGroups]

namespace Registry

variable {r : Registry} {routes : List Route}

/-- How the documents of groups are a partition of the document of all routes. -/
structure Partition (r : Registry) (routes : List Route) (documents : OrderedMap PathDocument)
    (whole : PathDocument) : Prop where
  /-- The groups with a documented route, in the order in which groups are first seen. -/
  groups : documents.keys = (routes.map Route.group).eraseDups.filter fun group =>
    routes.any fun route => route.group = group && route.contracts?.isSome
  nonempty : ∀ document ∈ documents.values, document.isEmpty = false
  path : ∀ path, path ∈ whole.keys ↔ ∃ entry ∈ documents.entries, path ∈ entry.2.keys
  unique : ∀ path ∈ whole.keys, ∃! entry, entry ∈ documents.entries ∧ path ∈ entry.2.keys
  cell : ∀ path method operation, Table.cell? whole path method = some operation ↔
    ∃ entry ∈ documents.entries, Table.cell? entry.2 path method = some operation
  /-- The last documented route of a path and a method wins. -/
  last : ∀ path method operation, Table.cell? whole path method = some operation ↔
    ∃ route, (routes.filter fun route =>
        route.contracts?.isSome ∧ route.path = path ∧ route.method = method).getLast? =
          some route ∧
      r.routeOperation? route = .ok (some operation)

theorem accepts_iff_of_documented :
    (∀ route ∈ routes, r.Accepts route) ↔
      ∀ route ∈ routes, route.contracts?.isSome → r.Accepts route := by
  constructor
  · intro h route hroute _
    exact h route hroute
  · intro h route hroute
    cases hcontracts : route.contracts? with
    | none => exact accepts_of_undocumented hcontracts
    | some contracts => exact h route hroute (by rw [hcontracts]; rfl)

/-- An accepted route adds an operation exactly when it is documented. -/
theorem isSome_of_accepts {route : Route} {found : Option Operation}
    (h : r.routeOperation? route = .ok found) : found.isSome = route.contracts?.isSome := by
  rw [routeOperation?] at h
  cases hcontracts : route.contracts? with
  | none =>
    rw [hcontracts] at h
    obtain rfl := pure_eq_ok_iff.mp h
    rfl
  | some contracts =>
    rw [hcontracts] at h
    obtain ⟨_, _, h⟩ := bind_eq_ok_iff.mp h
    cases hoperation : r.operation contracts.1 contracts.2 route.method with
    | error e =>
      rw [hoperation] at h
      cases h
    | ok operation =>
      rw [hoperation] at h
      cases h
      rfl

theorem map_fst_placements (h : ∀ route ∈ routes, r.Accepts route) :
    (r.placements routes).map Prod.fst = routes.filter fun route => route.contracts?.isSome := by
  induction routes with
  | nil => rfl
  | cons route rest ih =>
    obtain ⟨hroute, hrest⟩ := List.forall_mem_cons.mp h
    obtain ⟨found, hfound⟩ := accepts_iff.mp hroute
    have hsome := isSome_of_accepts hfound
    have ih := ih hrest
    rw [placements] at ih
    rw [placements, List.filterMap_cons, hfound, List.filter_cons, ← hsome, ← ih]
    cases found <;> rfl

theorem mem_keys_place {path : String} :
    path ∈ (r.place {} routes).keys ↔ ∃ x ∈ r.placements routes, x.1.path = path := by
  rw [place, Table.mem_keys_writeAll]
  exact or_iff_right List.not_mem_nil

theorem cell?_place {path : String} {method : Method} :
    Table.cell? (r.place {} routes) path method =
      (((r.placements routes).filter fun x => x.1.path = path ∧ x.1.method = method).getLast?).map
        Prod.snd := by
  rw [place, Table.cell?_writeAll, Table.cell?_empty, Option.or_none]

theorem mem_keys_of_cell?_place {path : String} {method : Method} {operation : Operation}
    (h : Table.cell? (r.place {} routes) path method = some operation) :
    path ∈ (r.place {} routes).keys := by
  obtain ⟨x, hx, hpath, _⟩ := Table.exists_of_cell?_writeAll _ _ _ h
  exact mem_keys_place.mpr ⟨x, hx, hpath⟩

/-- The routes of the group of a path write to the path what all routes write to it. -/
theorem cell?_place_group {route : Route} {method : Method} :
    Table.cell? (r.place {} (routes.filter fun x => x.group = route.group)) route.path method =
      Table.cell? (r.place {} routes) route.path method := by
  rw [cell?_place, cell?_place, placements_filter, List.filter_filter]
  congr 2
  refine List.filter_congr fun x _ => ?_
  have hgroup : x.1.path = route.path → x.1.group = route.group := Route.group_eq_of_path_eq
  by_cases hpath : x.1.path = route.path
  · simp [hpath, hgroup hpath]
  · simp [hpath]

/-- The path of a route is listed in the document of its group and of no other. -/
theorem mem_keys_place_group {group path : String} :
    path ∈ (r.place {} (routes.filter fun x => x.group = group)).keys ↔
      ∃ x ∈ r.placements routes, x.1.path = path ∧ x.1.group = group := by
  rw [mem_keys_place, placements_filter]
  constructor
  · rintro ⟨x, hx, hpath⟩
    obtain ⟨hmem, hgroup⟩ := List.mem_filter.mp hx
    exact ⟨x, hmem, hpath, of_decide_eq_true hgroup⟩
  · rintro ⟨x, hx, hpath, hgroup⟩
    exact ⟨x, List.mem_filter.mpr ⟨hx, decide_eq_true hgroup⟩, hpath⟩

theorem isEmpty_place (r : Registry) (routes : List Route) :
    (r.place {} routes).isEmpty = (r.placements routes).isEmpty := by
  have hkeys : (r.place {} routes).isEmpty = (r.place {} routes).keys.isEmpty := by
    rw [OrderedMap.isEmpty, OrderedMap.keys, List.isEmpty_map]
  rw [hkeys, Bool.eq_iff_iff, List.isEmpty_iff, List.isEmpty_iff]
  simp only [List.eq_nil_iff_forall_not_mem, mem_keys_place]
  constructor
  · intro h x hx
    exact h x.1.path ⟨x, hx, rfl⟩
  · rintro h path ⟨x, hx, _⟩
    exact h x hx

/-- A group has a document when one of its routes is documented. -/
theorem isEmpty_place_group (h : ∀ route ∈ routes, r.Accepts route) (group : String) :
    (!(r.place {} (routes.filter fun x => x.group = group)).isEmpty) =
      routes.any fun route => route.group = group && route.contracts?.isSome := by
  have hgroup : ∀ route ∈ routes.filter fun x => x.group = group, r.Accepts route :=
    fun route hroute => h route (List.mem_filter.mp hroute).1
  have hempty : (r.placements (routes.filter fun x => x.group = group)).isEmpty =
      ((routes.filter fun x => x.group = group).filter
        fun route => route.contracts?.isSome).isEmpty := by
    rw [← map_fst_placements hgroup, List.isEmpty_map]
  rw [isEmpty_place, hempty, Bool.eq_iff_iff]
  simp [and_comm]

theorem mem_entries_pathDocuments {documents : OrderedMap PathDocument}
    (h : r.pathDocuments routes = .ok documents) {group : String} {document : PathDocument} :
    (group, document) ∈ documents.entries ↔
      r.place {} (routes.filter fun x => x.group = group) = document ∧
        document.isEmpty = false := by
  obtain ⟨haccepted, hentries⟩ := pathDocuments_eq_ok_iff.mp h
  rw [hentries, List.mem_filter, List.mem_map]
  constructor
  · rintro ⟨⟨key, _, heq⟩, hfull⟩
    cases heq
    exact ⟨rfl, by simpa using hfull⟩
  · rintro ⟨rfl, hfull⟩
    -- a group with a document has a route, so it is among the groups
    have hany := isEmpty_place_group haccepted group
    rw [hfull, Bool.not_false, eq_comm, List.any_eq_true] at hany
    obtain ⟨route, hroute, hat⟩ := hany
    have hgroup : route.group = group := of_decide_eq_true (Bool.and_eq_true_iff.mp hat).1
    have hmem : group ∈ (routes.map Route.group).eraseDups :=
      List.mem_eraseDups.mpr (hgroup ▸ List.mem_map_of_mem hroute)
    exact ⟨⟨group, hmem, rfl⟩, by simp [hfull]⟩

theorem lists_path_iff {documents : OrderedMap PathDocument}
    (h : r.pathDocuments routes = .ok documents) {entry : String × PathDocument} {path : String} :
    entry ∈ documents.entries ∧ path ∈ entry.2.keys ↔
      ∃ x ∈ r.placements routes, x.1.path = path ∧
        entry = (x.1.group, r.place {} (routes.filter fun y => y.group = x.1.group)) := by
  constructor
  · intro ⟨hentry, hpath⟩
    obtain ⟨hplace, _⟩ := (mem_entries_pathDocuments h).mp hentry
    rw [← hplace] at hpath
    obtain ⟨x, hx, hat, hgroup⟩ := mem_keys_place_group.mp hpath
    exact ⟨x, hx, hat, Prod.ext hgroup.symm (by rw [hgroup, hplace])⟩
  · rintro ⟨x, hx, hat, rfl⟩
    have hpath := mem_keys_place_group.mpr ⟨x, hx, hat, rfl⟩
    have hfull : (r.place {} (routes.filter fun y => y.group = x.1.group)).isEmpty = false := by
      rw [isEmpty_place]
      have hx' : x ∈ r.placements (routes.filter fun y => y.group = x.1.group) := by
        rw [placements_filter]
        exact List.mem_filter.mpr ⟨hx, by simp⟩
      exact List.isEmpty_eq_false_iff.mpr (List.ne_nil_of_mem hx')
    exact ⟨(mem_entries_pathDocuments h).mpr ⟨rfl, hfull⟩, hpath⟩

/-- A cell shows the operation of the last route that was placed there. -/
theorem cell?_place_iff {path : String} {method : Method} {operation : Operation} :
    Table.cell? (r.place {} routes) path method = some operation ↔
      ∃ route, (((r.placements routes).map Prod.fst).filter fun route =>
          route.path = path ∧ route.method = method).getLast? = some route ∧
        r.routeOperation? route = .ok (some operation) := by
  rw [cell?_place, List.filter_map, List.getLast?_map]
  constructor
  · intro hlast
    obtain ⟨x, hx, rfl⟩ := Option.map_eq_some_iff.mp hlast
    have hmem := (List.mem_filter.mp (List.mem_of_getLast? hx)).1
    exact ⟨x.1, Option.map_eq_some_iff.mpr ⟨x, hx, rfl⟩, (mem_placements.mp hmem).2⟩
  · intro ⟨route, hlast, hoperation⟩
    obtain ⟨x, hx, rfl⟩ := Option.map_eq_some_iff.mp hlast
    have hmem := (List.mem_filter.mp (List.mem_of_getLast? hx)).1
    cases (mem_placements.mp hmem).2.symm.trans hoperation
    exact Option.map_eq_some_iff.mpr ⟨x, hx, rfl⟩

theorem cell?_place_iff_last (h : ∀ route ∈ routes, r.Accepts route) {path : String}
    {method : Method} {operation : Operation} :
    Table.cell? (r.place {} routes) path method = some operation ↔
      ∃ route, (routes.filter fun route =>
          route.contracts?.isSome ∧ route.path = path ∧ route.method = method).getLast? =
            some route ∧
        r.routeOperation? route = .ok (some operation) := by
  have hroutes : (routes.filter fun route =>
      route.contracts?.isSome ∧ route.path = path ∧ route.method = method) =
        (routes.filter fun route => route.contracts?.isSome).filter fun route =>
          route.path = path ∧ route.method = method := by
    simp [List.filter_filter, Bool.and_comm, Bool.and_left_comm]
  rw [hroutes, ← map_fst_placements h, cell?_place_iff]

theorem partition_of_pathDocuments {documents : OrderedMap PathDocument}
    (h : r.pathDocuments routes = .ok documents) :
    r.Partition routes documents (r.place {} routes) where
  groups := by
    obtain ⟨haccepted, hentries⟩ := pathDocuments_eq_ok_iff.mp h
    rw [OrderedMap.keys, hentries, List.filter_map, List.map_map]
    refine (List.map_id _).trans (List.filter_congr fun group _ => ?_)
    exact isEmpty_place_group haccepted group
  nonempty := by
    intro document hdocument
    obtain ⟨entry, hentry, rfl⟩ := List.mem_map.mp hdocument
    exact ((mem_entries_pathDocuments h).mp hentry).2
  path := by
    intro path
    simp only [lists_path_iff h, mem_keys_place]
    constructor
    · rintro ⟨x, hx, hat⟩
      exact ⟨_, x, hx, hat, rfl⟩
    · rintro ⟨_, x, hx, hat, _⟩
      exact ⟨x, hx, hat⟩
  unique := by
    intro path hpath
    obtain ⟨x, hx, hat⟩ := mem_keys_place.mp hpath
    refine ⟨_, (lists_path_iff h).mpr ⟨x, hx, hat, rfl⟩, ?_⟩
    intro entry hentry
    obtain ⟨y, _, hother, rfl⟩ := (lists_path_iff h).mp hentry
    rw [Route.group_eq_of_path_eq (hother.trans hat.symm)]
  cell := by
    intro path method operation
    constructor
    · intro hcell
      obtain ⟨x, hx, hat⟩ := mem_keys_place.mp (mem_keys_of_cell?_place hcell)
      obtain ⟨hentry, _⟩ := (lists_path_iff h).mpr ⟨x, hx, hat, rfl⟩
      refine ⟨_, hentry, ?_⟩
      rw [← hat] at hcell ⊢
      rw [cell?_place_group, hcell]
    · rintro ⟨entry, hentry, hcell⟩
      obtain ⟨hplace, _⟩ := (mem_entries_pathDocuments h).mp hentry
      rw [← hplace] at hcell
      have hpath := mem_keys_of_cell?_place hcell
      obtain ⟨x, _, rfl, hgroup⟩ := mem_keys_place_group.mp hpath
      rw [← hgroup, cell?_place_group] at hcell
      exact hcell
  last := by
    intro path method operation
    exact cell?_place_iff_last (pathDocuments_eq_ok_iff.mp h).1

/-- Documents of groups exist when every documented route is accepted, and otherwise the first
route that is not, taken group by group, tells why. They are a partition of the document of all
routes. -/
theorem pathDocuments_partition (r : Registry) (routes : List Route) :
    ((∃ documents, r.pathDocuments routes = .ok documents) ↔
      ∀ route ∈ routes, route.contracts?.isSome → r.Accepts route) ∧
    (∀ e, r.pathDocuments routes = .error e ↔ r.FailsFirst (Route.inGroups routes) e) ∧
    (∀ documents, r.pathDocuments routes = .ok documents →
      ∃ whole, r.addRoutes {} routes = .ok whole ∧ r.Partition routes documents whole) := by
  refine ⟨?_, ?_, ?_⟩
  · rw [← accepts_iff_of_documented]
    constructor
    · intro ⟨documents, h⟩
      exact (pathDocuments_eq_ok_iff.mp h).1
    · intro h
      exact ⟨⟨_⟩, pathDocuments_eq_ok_iff.mpr ⟨h, rfl⟩⟩
  · intro e
    rw [pathDocuments_eq_error_iff, Route.flatMap_byGroup]
  · intro documents h
    have haccepted := (pathDocuments_eq_ok_iff.mp h).1
    exact ⟨_, addRoutes_eq_ok_iff.mpr ⟨haccepted, rfl⟩, partition_of_pathDocuments h⟩

end Registry
end ApiDocs
