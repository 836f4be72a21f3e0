import ApiDocs.Proofs.Registry.History
/-!
# Merged mappings

Merging lists the names of several schemas and of the overrides in the order in which they first
occur, and leaves out the excluded ones. The definition of a name is that of the overrides, or else
that of the last schema that has the name. A choice of names is such a merge.
-/
namespace ApiDocs.Registry

variable {r : Registry} {schemas exclude : List String} {overrides : Properties}

/-- The properties under an id; there are none under an id that is not registered. -/
def listed (r : Registry) (id : String) : Properties :=
  (r.schemas.get? id).getD {}

/-- No registered mapping lists a name twice. -/
def Distinct (r : Registry) : Prop :=
  ∀ id, (r.listed id).Distinct

theorem properties_of_contains {id : String} (h : r.contains id) :
    r.properties id = .ok (r.listed id) := by
  obtain ⟨properties, hget⟩ := Option.isSome_iff_exists.mp h
  rw [properties_eq_ok_iff, listed, hget]
  rfl

theorem distinct_of_entries (h : ∀ entry ∈ r.schemas.entries, entry.2.Distinct) : r.Distinct := by
  intro id
  rw [listed]
  cases hget : r.schemas.get? id with
  | none => exact OrderedMap.distinct_empty
  | some properties => exact h (id, properties) (OrderedMap.mem_entries_of_find? hget)

theorem exists_properties_eq_ok_iff {id : String} :
    (∃ properties, r.properties id = .ok properties) ↔ r.contains id := by
  simp only [properties_eq_ok_iff]
  exact Option.isSome_iff_exists.symm

theorem overlay_eq_mapM (r : Registry) (base : Properties) (ids : List String) :
    r.overlay base ids = (ids.mapM r.properties).map fun mappings =>
      base.insertAll (mappings.flatMap OrderedMap.entries) := by
  induction ids generalizing base with
  | nil => rfl
  | cons id ids ih =>
    rw [overlay, List.mapM_cons]
    cases r.properties id with
    | error e => rfl
    | ok properties =>
      change r.overlay (base.insertAll properties.entries) ids = _
      rw [ih]
      cases ids.mapM r.properties with
      | error e => rfl
      | ok mappings =>
        simp only [Except.map, bind, Except.bind, pure, Except.pure, List.flatMap_cons,
          OrderedMap.insertAll_append]

theorem merge_eq_error_iff {e : Error} :
    r.merge schemas overrides exclude = .error e ↔ FirstFailure r.properties schemas e := by
  rw [merge, bind_pure_eq_error_iff, overlay_eq_mapM, map_eq_error_iff, mapM_eq_error_iff]

theorem merge_of_contains (h : ∀ id ∈ schemas, r.contains id) :
    r.merge schemas overrides exclude =
      .ok ((OrderedMap.ofList ((schemas.map r.listed).flatMap OrderedMap.entries ++
        overrides.entries)).filterKeys fun name => name ∉ exclude) := by
  have hlisted : schemas.mapM r.properties = .ok (schemas.map r.listed) := by
    rw [mapM_eq_ok_iff, List.forall₂_map_right_iff, List.forall₂_same]
    exact fun id hid => properties_of_contains (h id hid)
  rw [merge, overlay_eq_mapM, hlisted, OrderedMap.ofList, OrderedMap.insertAll_append,
    ← OrderedMap.foldl_erase]
  rfl

/-- What a merge of schemas and overrides holds: the names in order of first occurrence, without
the excluded ones, each with the definition that was given last. -/
structure Merges (r : Registry) (schemas : List String) (overrides : Properties)
    (exclude : List String) (merged : Properties) : Prop where
  keys_eq : merged.keys = ((schemas.flatMap fun id => (r.listed id).keys) ++
    overrides.keys).eraseDups.filter fun name => name ∉ exclude
  get?_eq : ∀ name ∈ merged.keys, merged.get? name = (overrides.get? name).or
    (schemas.reverse.findSome? fun id => (r.listed id).get? name)

theorem exists_merges (hr : r.Distinct) (ho : overrides.Distinct)
    (h : ∀ id ∈ schemas, r.contains id) : ∃ merged,
      r.merge schemas overrides exclude = .ok merged ∧
        r.Merges schemas overrides exclude merged := by
  refine ⟨_, merge_of_contains h, ?_, ?_⟩
  · rw [OrderedMap.keys_filterKeys, OrderedMap.keys_ofList]
    simp only [List.map_append, List.map_flatMap, List.flatMap_map]
    rfl
  · -- the values come from the last insertion, so the schemas are searched from their end
    intro name hname
    rw [OrderedMap.keys_filterKeys, List.mem_filter] at hname
    rw [OrderedMap.get?_filterKeys hname.2, OrderedMap.ofList, OrderedMap.insertAll_append,
      ho.get?_insertAll, OrderedMap.get?_insertAll_flatMap, ← List.map_reverse, List.findSome?_map,
      OrderedMap.get?_empty, Option.or_none]
    · rfl
    · intro mapping hmapping
      obtain ⟨id, _, rfl⟩ := List.mem_map.mp hmapping
      exact hr id

/-- A choice of names is the merge of one schema without its other names. -/
theorem only_eq_merge (hr : r.Distinct) {schema : String} (h : r.contains schema)
    (names : List String) :
    r.only schema names =
      r.merge [schema] {} ((r.listed schema).keys.filter fun name => name ∉ names) := by
  have hlisted : OrderedMap.ofList (([schema].map r.listed).flatMap OrderedMap.entries ++
      ({} : Properties).entries) = r.listed schema := by
    simpa using (hr schema).ofList_entries
  rw [merge_of_contains (List.forall_mem_singleton.mpr h), hlisted, only, properties_of_contains h]
  refine congrArg Except.ok (OrderedMap.filterKeys_congr ?_)
  intro name hname
  simp [hname]

/-- Merging fails with the first id that is not registered, and otherwise makes an ordered union of
the schemas and the overrides; choosing names of a schema is a case of it. -/
theorem merge_override_union (hr : r.Distinct) (ho : overrides.Distinct)
    (schemas exclude : List String) :
    ((∃ front id back, schemas = front ++ id :: back ∧ (∀ earlier ∈ front, r.contains earlier) ∧
        ¬ r.contains id ∧
        r.merge schemas overrides exclude = .error (.unresolvedReference id)) ∨
      ((∀ id ∈ schemas, r.contains id) ∧ ∃ merged,
        r.merge schemas overrides exclude = .ok merged ∧
          r.Merges schemas overrides exclude merged)) ∧
    ∀ schema, r.contains schema → ∀ names, r.only schema names =
      r.merge [schema] {} ((r.listed schema).keys.filter fun name => name ∉ names) := by
  refine ⟨?_, fun schema h names => only_eq_merge hr h names⟩
  by_cases hall : ∀ id ∈ schemas, ∃ properties, r.properties id = .ok properties
  · simp only [exists_properties_eq_ok_iff] at hall
    exact .inr ⟨hall, exists_merges hr ho hall⟩
  · obtain ⟨e, hfailure⟩ := exists_firstFailure_iff.mpr hall
    have hmerge : r.merge schemas overrides exclude = .error e := merge_eq_error_iff.mpr hfailure
    obtain ⟨front, id, back, hsplit, hfront, hid⟩ := hfailure
    obtain ⟨hmissing, rfl⟩ := properties_eq_error_iff.mp hid
    simp only [exists_properties_eq_ok_iff] at hfront
    exact .inl ⟨front, id, back, hsplit, hfront, hmissing, hmerge⟩

private def number : Field := { type := { shape := .scalar .integer } }

private def text : Field := { type := { shape := .scalar .string } }

-- Two schemas that share a name.
private def accounts : Registry where
  schemas := ⟨[
    ("User", ⟨[("id", number), ("name", text), ("email", text)]⟩),
    ("Audit", ⟨[("created", number), ("id", text)]⟩)]⟩

-- An override of a name of the first schema, which is optional now.
private def optionalName : Properties :=
  ⟨[("name", { text with type.required := false })]⟩

private theorem accounts_distinct : accounts.Distinct := by
  apply distinct_of_entries
  have hfirst : ["id", "name", "email"].Nodup := by decide
  have hsecond : ["created", "id"].Nodup := by decide
  exact List.forall_mem_cons.mpr ⟨hfirst, List.forall_mem_singleton.mpr hsecond⟩

private theorem optionalName_distinct : optionalName.Distinct := by
  have hname : ["name"].Nodup := by decide
  exact hname

theorem accounts_merged :
    accounts.Distinct ∧ optionalName.Distinct ∧
    (∃ merged, accounts.merge ["User", "Audit"] optionalName ["email", "email"] = .ok merged ∧
      merged.keys = ["id", "name", "created"] ∧ merged.get? "id" = some text ∧
      merged.get? "name" = some { text with type.required := false }) ∧
    accounts.merge ["User", "Order", "Invoice"] optionalName [] =
      .error (.unresolvedReference "Order") ∧
    accounts.only "User" ["email", "id"] = accounts.merge ["User"] {} ["name"] := by
  refine ⟨accounts_distinct, optionalName_distinct, ?_, ?_, ?_⟩
  · rcases (merge_override_union accounts_distinct optionalName_distinct ["User", "Audit"]
      ["email", "email"]).1 with ⟨_, _, _, _, _, _, herror⟩ | ⟨_, merged, hmerged, hmerges⟩
    · cases herror
    · have hkeys : merged.keys = ["id", "name", "created"] := by
        rw [hmerges.keys_eq]
        decide
      refine ⟨merged, hmerged, hkeys, ?_, ?_⟩
      · rw [hmerges.get?_eq "id" (by simp [hkeys])]
        rfl
      · rw [hmerges.get?_eq "name" (by simp [hkeys])]
        rfl
  · rfl
  · exact (merge_override_union accounts_distinct optionalName_distinct [] []).2 "User" rfl
      ["email", "id"]

end ApiDocs.Registry
