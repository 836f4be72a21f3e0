import ApiDocs.Document.Codec
import ApiDocs.Proofs.Json.Finite
import ApiDocs.Proofs.Schema.Codec
/-!
# Descriptions of finite numbers

A description holds numbers only in examples and defaults, which are kept as they were read. So one
that was read from values of finite numbers is written as a value of finite numbers, part by part.
-/
namespace ApiDocs

open Json (KeepsFinite isFinite_ofFields isFinite_ofStrings fieldIsFinite_field
  fieldIsFinite_field?)
open Json.Record (lookup_of_optional)

private theorem isFinite_bool? {value : Option Bool} :
    ∀ b ∈ value, (Json.bool b).IsFinite :=
  fun b _ => .bool b

private theorem isFinite_str? {value : Option String} :
    ∀ s ∈ value, (Json.str s).IsFinite :=
  fun s _ => .str s

namespace Schema

private theorem isFinite_toJson {s : Schema} (hexample : ∀ v ∈ s.exampleValue, v.IsFinite)
    (hdefault : ∀ v ∈ s.defaultValue, v.IsFinite)
    (hproperties : ∀ m ∈ s.properties, ∀ e ∈ entriesToJson m.entries, e.2.IsFinite)
    (hitems : ∀ items ∈ s.items, items.toJson.IsFinite) : s.toJson.IsFinite := by
  obtain ⟨type, description, exampleValue, defaultValue, deprecated, properties, items, enum,
    format⟩ := s
  rw [toJson]
  apply isFinite_ofFields
  simp only [List.forall_mem_cons]
  refine ⟨fieldIsFinite_field (.str type), fieldIsFinite_field? isFinite_str?,
    fieldIsFinite_field? hexample, fieldIsFinite_field? hdefault,
    fieldIsFinite_field? isFinite_bool?, ?_, ?_,
    fieldIsFinite_field? fun values _ => isFinite_ofStrings values,
    fieldIsFinite_field? isFinite_str?, List.forall_mem_nil _⟩
  · cases properties with
    | none => simp [propertiesField, Json.FieldIsFinite]
    | some m =>
      rw [propertiesField]
      exact fieldIsFinite_field (.obj (hproperties m rfl))
  · cases items with
    | none => simp [itemsField, Json.FieldIsFinite]
    | some items =>
      rw [itemsField]
      exact fieldIsFinite_field (hitems items rfl)

private theorem parts_of_ofRecord? {r : Json.Record} {s : Schema} (h : ofRecord? r = some s) :
    s.exampleValue = r.lookup 2 "example" ∧ s.defaultValue = r.lookup 3 "default" ∧
      r.optional 5 "properties" propertiesOfJson? = some s.properties ∧
      r.optional 6 "items" ofJson? = some s.items := by
  simp only [ofRecord?, Option.bind_eq_bind, Option.bind_eq_some_iff] at h
  obtain ⟨type, _, description, _, deprecated, _, properties, hproperties, items, hitems, enum, _,
    format, _, h⟩ := h
  cases h
  exact ⟨rfl, rfl, hproperties, hitems⟩

private theorem entries_of_propertiesOfJson? {v : Json} {m : OrderedMap Schema}
    (h : propertiesOfJson? v = some m) :
    ∃ members, v = .obj members ∧ entriesOfJson? members.entries = some m.entries := by
  cases v with
  | obj members =>
    obtain ⟨entries, hentries, rfl⟩ := Option.map_eq_some_iff.mp h
    exact ⟨members, rfl, hentries⟩
  | _ => cases h

mutual
theorem isFinite_toJson_of_ofJson? (j : Json) (s : Schema) (hj : j.IsFinite)
    (h : ofJson? j = some s) : s.toJson.IsFinite := by
  rw [ofJson?_eq] at h
  obtain ⟨r, hr, h⟩ := Option.bind_eq_some_iff.mp h
  obtain ⟨hexample, hdefault, hproperties, hitems⟩ := parts_of_ofRecord? h
  have hrecord := hj.record? hr
  apply isFinite_toJson
  · rw [hexample]
    exact hrecord 2 "example"
  · rw [hdefault]
    exact hrecord 3 "default"
  · intro m hm
    rw [Option.mem_def.mp hm] at hproperties
    obtain ⟨v, hv, hread⟩ := lookup_of_optional hproperties
    obtain ⟨members, rfl, hentries⟩ := entries_of_propertiesOfJson? hread
    have hsmaller : sizeOf members.entries < sizeOf j := by
      have hsize := Json.sizeOf_lookup_lt hr hv
      rcases members with ⟨entries⟩
      simp only [Json.obj.sizeOf_spec, OrderedMap.mk.sizeOf_spec] at hsize
      dsimp only
      omega
    cases hrecord 5 "properties" _ hv with
    | obj hmembers => exact isFinite_of_entriesOfJson? members.entries m.entries hmembers hentries
  · intro items hmem
    rw [Option.mem_def.mp hmem] at hitems
    obtain ⟨v, hv, hread⟩ := lookup_of_optional hitems
    have hsmaller : sizeOf v < sizeOf j := Json.sizeOf_lookup_lt hr hv
    exact isFinite_toJson_of_ofJson? v items (hrecord 6 "items" v hv) hread
termination_by sizeOf j
theorem isFinite_of_entriesOfJson? (members : List (String × Json))
    (entries : List (String × Schema)) (hmembers : ∀ m ∈ members, m.2.IsFinite)
    (h : entriesOfJson? members = some entries) : ∀ e ∈ entriesToJson entries, e.2.IsFinite := by
  match members with
  | [] =>
    rw [entriesOfJson?] at h
    cases h
    rw [entriesToJson]
    exact List.forall_mem_nil _
  | (name, v) :: rest =>
    obtain ⟨hv, hrest⟩ := List.forall_mem_cons.mp hmembers
    rw [entriesOfJson?] at h
    obtain ⟨schema, hschema, h⟩ := Option.bind_eq_some_iff.mp h
    obtain ⟨others, hothers, h⟩ := Option.bind_eq_some_iff.mp h
    cases h
    rw [entriesToJson]
    exact List.forall_mem_cons.mpr ⟨isFinite_toJson_of_ofJson? v schema hv hschema,
      isFinite_of_entriesOfJson? rest others hrest hothers⟩
termination_by sizeOf members
end

theorem keepsFinite : KeepsFinite toJson ofJson? :=
  isFinite_toJson_of_ofJson?

end Schema

theorem Parameter.keepsFinite : KeepsFinite toJson ofJson? := by
  intro j p hj h
  obtain ⟨r, hr, h⟩ := Option.bind_eq_some_iff.mp h
  have hrecord := hj.record? hr
  simp only [Option.bind_eq_bind, Option.bind_eq_some_iff] at h
  obtain ⟨location, _, name, _, description, _, schema, hschema, required, _, deprecated, _, h⟩ := h
  cases h
  apply isFinite_ofFields
  simp only [List.forall_mem_cons]
  exact ⟨fieldIsFinite_field (.str location), fieldIsFinite_field (.str name),
    fieldIsFinite_field (.str description),
    fieldIsFinite_field (hrecord.required Schema.keepsFinite hschema),
    fieldIsFinite_field? (hrecord 4 "example"), fieldIsFinite_field? isFinite_bool?,
    fieldIsFinite_field? isFinite_bool?, List.forall_mem_nil _⟩

theorem MediaType.keepsFinite : KeepsFinite toJson ofJson? := by
  intro j m hj h
  obtain ⟨r, hr, h⟩ := Option.bind_eq_some_iff.mp h
  obtain ⟨schema, hschema, h⟩ := Option.bind_eq_some_iff.mp h
  cases h
  apply isFinite_ofFields
  exact List.forall_mem_singleton.mpr
    (fieldIsFinite_field ((hj.record? hr).required Schema.keepsFinite hschema))

theorem RequestBody.keepsFinite : KeepsFinite toJson ofJson? := by
  intro j b hj h
  obtain ⟨r, hr, h⟩ := Option.bind_eq_some_iff.mp h
  simp only [Option.bind_eq_bind, Option.bind_eq_some_iff] at h
  obtain ⟨required, _, content, hcontent, h⟩ := h
  cases h
  apply isFinite_ofFields
  simp only [List.forall_mem_cons]
  exact ⟨fieldIsFinite_field (.bool required),
    fieldIsFinite_field ((hj.record? hr).required MediaType.keepsFinite.mapOf? hcontent),
    List.forall_mem_nil _⟩

theorem Header.keepsFinite : KeepsFinite toJson ofJson? := by
  intro j header hj h
  obtain ⟨r, hr, h⟩ := Option.bind_eq_some_iff.mp h
  simp only [Option.bind_eq_bind, Option.bind_eq_some_iff] at h
  obtain ⟨description, _, schema, hschema, h⟩ := h
  cases h
  apply isFinite_ofFields
  simp only [List.forall_mem_cons]
  exact ⟨fieldIsFinite_field (.str description),
    fieldIsFinite_field ((hj.record? hr).required Schema.keepsFinite hschema),
    List.forall_mem_nil _⟩

theorem ResponseObject.keepsFinite : KeepsFinite toJson ofJson? := by
  intro j o hj h
  obtain ⟨r, hr, h⟩ := Option.bind_eq_some_iff.mp h
  have hrecord := hj.record? hr
  simp only [Option.bind_eq_bind, Option.bind_eq_some_iff] at h
  obtain ⟨description, _, content, hcontent, headers, hheaders, h⟩ := h
  cases h
  apply isFinite_ofFields
  simp only [List.forall_mem_cons]
  exact ⟨fieldIsFinite_field (.str description),
    fieldIsFinite_field (hrecord.defaulted MediaType.keepsFinite.mapOf?
      (.obj (List.forall_mem_nil _)) hcontent),
    fieldIsFinite_field? (hrecord.optional Header.keepsFinite.mapOf? hheaders),
    List.forall_mem_nil _⟩

theorem Operation.keepsFinite : KeepsFinite toJson ofJson? := by
  intro j o hj h
  obtain ⟨r, hr, h⟩ := Option.bind_eq_some_iff.mp h
  have hrecord := hj.record? hr
  simp only [Option.bind_eq_bind, Option.bind_eq_some_iff] at h
  obtain ⟨deprecated, _, description, _, parameters, hparameters, requestBody, hbody, responses,
    hresponses, summary, _, tags, _, h⟩ := h
  cases h
  apply isFinite_ofFields
  simp only [List.forall_mem_cons]
  exact ⟨fieldIsFinite_field? isFinite_bool?, fieldIsFinite_field (.str description),
    fieldIsFinite_field (hrecord.defaulted Parameter.keepsFinite.listOf?
      (.arr (List.forall_mem_nil _)) hparameters),
    fieldIsFinite_field? (hrecord.optional RequestBody.keepsFinite hbody),
    fieldIsFinite_field (hrecord.defaulted ResponseObject.keepsFinite.mapOf?
      (.obj (List.forall_mem_nil _)) hresponses),
    fieldIsFinite_field (.str summary), fieldIsFinite_field (isFinite_ofStrings tags),
    List.forall_mem_nil _⟩

end ApiDocs
