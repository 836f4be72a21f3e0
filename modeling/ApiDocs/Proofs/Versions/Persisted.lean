import ApiDocs.Proofs.Versions.Documents
/-!
# Persisted documents in a heap

A document that was persisted as JSON is written to a heap as a whole or not at all, since all its
items are read before the first one is written. Members that are no objects are passed over, as
are those whose key names no version; one object that is no path item keeps all the others out.
-/
namespace ApiDocs

/-- The members of an object that are objects themselves: these are read as path items. -/
def Json.objectMembers : Json → List (String × Json)
  | .obj members => members.entries.filter fun e => e.2.isObject
  | _ => []

/-- The members that are objects under a key that names a version. -/
def Json.pathMembers (j : Json) : List (String × Json) :=
  j.objectMembers.filter fun e => (Path.splitVersion e.1).isSome

/-- A path item with the version and the path that it is written under. -/
structure PlacedItem where
  version : Nat
  path : String
  item : PathItem

/-- An item with an operation for a method, meant for a version and a path. -/
def PlacedItem.Defines (e : PlacedItem) (version : Nat) (path : String) (m : Method) : Prop :=
  e.version = version ∧ e.path = path ∧ (e.item.get? m).isSome

instance (e : PlacedItem) (version : Nat) (path : String) (m : Method) :
    Decidable (e.Defines version path m) :=
  inferInstanceAs (Decidable (_ ∧ _ ∧ _))

/-- The place of an entry of a document, if its key names a version. -/
def PlacedItem.ofEntry? (e : String × PathItem) : Option PlacedItem :=
  (Path.splitVersion e.1).map fun place => ⟨place.1, place.2, e.2⟩

/-- The path item that a member is read as, under the version and the path that its key names. -/
def PlacedItem.ofMember? (e : String × Json) : Option PlacedItem :=
  (PathItem.ofJson? e.2).bind fun item => PlacedItem.ofEntry? (e.1, item)

namespace VersionHeap

/-- Write path items, one after another. -/
def insertItems (h : VersionHeap) (items : List PlacedItem) : VersionHeap :=
  items.foldl (fun h e => h.insert e.version e.path e.item) h

theorem insertEntries_eq (h : VersionHeap) (entries : List (String × PathItem)) :
    h.insertEntries entries = (h.insertItems (entries.filterMap PlacedItem.ofEntry?),
      (entries.filterMap PlacedItem.ofEntry?).length) := by
  induction entries generalizing h with
  | nil => rfl
  | cons e rest ih =>
    obtain ⟨key, item⟩ := e
    rw [insertEntries, List.filterMap_cons, PlacedItem.ofEntry?]
    cases Path.splitVersion key with
    | none => exact ih h
    | some place =>
      simp only [ih]
      rfl

private theorem itemsOfJson?_eq_none_iff {members : List (String × Json)} :
    itemsOfJson? members = none ↔
      ∃ e ∈ members, e.2.isObject ∧ PathItem.ofJson? e.2 = none := by
  induction members with
  | nil => simp [itemsOfJson?]
  | cons e rest ih =>
    rw [itemsOfJson?]
    simp only [List.mem_cons, exists_eq_or_imp, ← ih]
    by_cases hobject : e.2.isObject
    · rw [if_pos hobject]
      cases PathItem.ofJson? e.2 <;> cases itemsOfJson? rest <;> simp [hobject]
    · simp [hobject]

private theorem map_ofMember? {members : List (String × Json)}
    {entries : List (String × PathItem)} (h : itemsOfJson? members = some entries) :
    ((members.filter fun e => e.2.isObject).filter fun e =>
      (Path.splitVersion e.1).isSome).map PlacedItem.ofMember? =
        (entries.filterMap PlacedItem.ofEntry?).map some := by
  induction members generalizing entries with
  | nil =>
    cases h
    rfl
  | cons e rest ih =>
    rw [itemsOfJson?] at h
    split at h
    · next hobject =>
      simp only [Option.bind_eq_bind, Option.bind_eq_some_iff] at h
      obtain ⟨item, hitem, others, hothers, h⟩ := h
      cases h
      rw [List.filter_cons, if_pos hobject]
      have hmember : PlacedItem.ofMember? e = PlacedItem.ofEntry? (e.1, item) := by
        rw [PlacedItem.ofMember?, hitem, Option.bind_some]
      cases hsplit : Path.splitVersion e.1 with
      | none => simpa [PlacedItem.ofEntry?, hsplit] using ih hothers
      | some place => simpa [PlacedItem.ofEntry?, hsplit, hmember] using ih hothers
    · next hobject =>
      rw [List.filter_cons, if_neg hobject]
      exact ih h

theorem documentItems?_eq_none_iff {j : Json} :
    documentItems? j = none ↔ ∃ members key fields, j = .obj members ∧
      (key, .obj fields) ∈ members.entries ∧ PathItem.ofJson? (.obj fields) = none := by
  cases j with
  | obj members =>
    rw [documentItems?, itemsOfJson?_eq_none_iff]
    constructor
    · rintro ⟨⟨key, value⟩, hmem, hobject, hread⟩
      cases value with
      | obj fields => exact ⟨members, key, fields, rfl, hmem, hread⟩
      | _ => cases hobject
    · rintro ⟨_, key, fields, hj, hmem, hread⟩
      cases hj
      exact ⟨(key, .obj fields), hmem, rfl, hread⟩
  | _ => simp [documentItems?]

/-- A document in JSON form fails exactly at an object that is no path item. -/
theorem exists_insertJson_eq_error_iff {h : VersionHeap} {j : Json} :
    (∃ e h', insertJson j h = .error e h') ↔ ∃ members key fields, j = .obj members ∧
      (key, .obj fields) ∈ members.entries ∧ PathItem.ofJson? (.obj fields) = none := by
  rw [← documentItems?_eq_none_iff]
  simp [insertJson_eq_error_iff]

/-- The items of a value are those of its members, in their order. -/
theorem map_ofMember?_pathMembers {j : Json} {entries : List (String × PathItem)}
    (h : documentItems? j = some entries) :
    j.pathMembers.map PlacedItem.ofMember? = (entries.filterMap PlacedItem.ofEntry?).map some := by
  cases j with
  | obj members => exact map_ofMember? h
  | _ =>
    cases h
    rfl

/-- What does not fail writes the members whose keys name a version, in their order. -/
theorem items_of_insertJson {h h' : VersionHeap} {j : Json} {count : Nat}
    (hinsert : insertJson j h = .ok count h') :
    ∃ items, j.pathMembers.map PlacedItem.ofMember? = items.map some ∧
      h' = h.insertItems items ∧ count = j.pathMembers.length := by
  obtain ⟨entries, hentries, hinserted⟩ := insertJson_eq_ok_iff.mp hinsert
  have hitems := map_ofMember?_pathMembers hentries
  have hlength := congrArg List.length hitems
  simp only [List.length_map] at hlength
  rw [insertEntries_eq, ← hlength] at hinserted
  obtain ⟨hheap, hcount⟩ := Prod.mk.inj hinserted
  exact ⟨_, hitems, hheap.symm, hcount.symm⟩

theorem insertItems_concat (h : VersionHeap) (front : List PlacedItem) (e : PlacedItem) :
    h.insertItems (front ++ [e]) = (h.insertItems front).insert e.version e.path e.item := by
  simp [insertItems]

theorem WellFormed.insertItems {h : VersionHeap} (hw : h.WellFormed) (items : List PlacedItem) :
    (h.insertItems items).WellFormed := by
  induction items generalizing h with
  | nil => exact hw
  | cons e rest ih => exact ih (hw.insert e.version e.path e.item)

/-- The last item that defines an operation decides; without one the heap keeps what it had. -/
theorem WellFormed.operation?_insertItems {h : VersionHeap} (hw : h.WellFormed)
    (items : List PlacedItem) (v : Nat) (p : String) (m : Method) :
    (h.insertItems items).operation? v p m =
      (((items.filter fun e => e.Defines v p m).getLast?).bind fun e => e.item.get? m).or
        (h.operation? v p m) := by
  induction items using List.reverseRecOn with
  | nil => rfl
  | append_singleton front e ih =>
    rw [insertItems_concat, (hw.insertItems front).operation?_insert, ih, List.filter_append]
    by_cases hplace : v = e.version ∧ p = e.path
    · obtain ⟨rfl, rfl⟩ := hplace
      cases hop : e.item.get? m <;> simp [PlacedItem.Defines, hop]
    · have hout : ¬ e.Defines v p m := fun hdef => hplace ⟨hdef.1.symm, hdef.2.1.symm⟩
      simp [hplace, hout]

/-- An attempt to write a document in JSON form does not touch the paths that it does not name. -/
theorem WellFormed.operation?_attempt_insertJson {h : VersionHeap} (hw : h.WellFormed) {j : Json}
    {v : Nat} {p : String} (hout : ∀ e ∈ j.pathMembers, Path.splitVersion e.1 ≠ some (v, p))
    (m : Method) :
    ((insertJson j).attempt h).2.operation? v p m = h.operation? v p m := by
  cases hinsert : insertJson j h with
  | error e h' =>
    obtain ⟨_, _, rfl⟩ := insertJson_eq_error_iff.mp hinsert
    rw [Effect.attempt_eq_error_iff.mpr hinsert]
  | ok count h' =>
    obtain ⟨items, hitems, rfl, _⟩ := items_of_insertJson hinsert
    have hnone : items.filter (fun e => e.Defines v p m) = [] := by
      rw [List.filter_eq_nil_iff]
      intro item hitem hdef
      obtain ⟨rfl, rfl, _⟩ := of_decide_eq_true hdef
      have hmember : some item ∈ j.pathMembers.map PlacedItem.ofMember? :=
        hitems ▸ List.mem_map_of_mem hitem
      obtain ⟨e, he, hplaced⟩ := List.mem_map.mp hmember
      obtain ⟨read, _, hplace⟩ := Option.bind_eq_some_iff.mp hplaced
      obtain ⟨place, hsplit, rfl⟩ := Option.map_eq_some_iff.mp hplace
      exact hout e he hsplit
    rw [Effect.attempt_eq_ok_iff.mpr hinsert, hw.operation?_insertItems, hnone]
    rfl

/-- A document is written alike in both forms. A JSON value fails exactly if it has an object that
is no path item, and then the heap is as before; any other value adds its objects under the
keys that name a version, counts them, and leaves all other paths alone. -/
theorem insertJson_all_or_nothing (h : VersionHeap) :
    (∀ d : PathDocument,
      insertJson (PathDocument.toJson d) h = .ok (h.insertDocument d).2 (h.insertDocument d).1) ∧
    ∀ j : Json,
      ((∃ e h', insertJson j h = .error e h') ↔ ∃ members key fields, j = .obj members ∧
        (key, .obj fields) ∈ members.entries ∧ PathItem.ofJson? (.obj fields) = none) ∧
      (∀ e h', insertJson j h = .error e h' → h' = h) ∧
      (∀ count h', insertJson j h = .ok count h' → ∃ items,
        j.pathMembers.map PlacedItem.ofMember? = items.map some ∧
        h' = h.insertItems items ∧ count = j.pathMembers.length) ∧
      (h.WellFormed → ∀ v p, (∀ e ∈ j.pathMembers, Path.splitVersion e.1 ≠ some (v, p)) →
        ∀ m, ((insertJson j).attempt h).2.operation? v p m = h.operation? v p m) := by
  refine ⟨h.insertJson_toJson, fun j => ⟨exists_insertJson_eq_error_iff, ?_, ?_, ?_⟩⟩
  · intro e h' hinsert
    exact (insertJson_eq_error_iff.mp hinsert).2.2
  · intro count h' hinsert
    exact items_of_insertJson hinsert
  · intro hw v p hout m
    exact hw.operation?_attempt_insertJson hout m

/-- Two keys of one version and path are written over what the heap has there, and a member that is
no object is passed over. One object behind them that is no path item leaves the heap as it is. -/
example :
    let older := ({} : VersionHeap).insert 1 "a" { get := some { summary := "old" } }
    let item (method summary : String) := Json.obj ⟨[(method, .obj ⟨[("summary", .str summary)]⟩)]⟩
    let good := [("/v1/a", item "get" "new"), ("note", .null), ("/v01/a", item "put" "added")]
    let spoilt := good ++ [("/v1/b", .obj ⟨[("put", .bool true)]⟩)]
    let newer : PathItem := { get := some { summary := "new" }, put := some { summary := "added" } }
    (insertJson (.obj ⟨good⟩)).attempt older = (.ok 2, ⟨[(1, ⟨[("a", newer)]⟩)]⟩) ∧
      (insertJson (.obj ⟨spoilt⟩)).attempt older = (.error foreignItem, older) :=
  ⟨rfl, rfl⟩

end VersionHeap
end ApiDocs
