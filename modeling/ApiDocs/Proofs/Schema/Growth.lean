import ApiDocs.Proofs.Schema.Expansion
/-!
# Compiling while the registry grows

Compiling over a larger registry ends as it did over the smaller one, with the same schemas or
with the same error, unless the smaller registry missed a schema that the larger one has. The two
runs are kept side by side through every shape and along every trail.
-/
namespace ApiDocs

/-- A second run ends as the first one did, unless the error of the first is among those that do
not count. -/
def Repeats {α : Type} (excused : Error → Prop) (first second : Except Error α) : Prop :=
  (∃ e, first = .error e ∧ excused e) ∨ second = first

section Repeats

variable {α β : Type} {excused : Error → Prop}

theorem Repeats.refl (result : Except Error α) : Repeats excused result result :=
  .inr rfl

theorem Repeats.eq {first second : Except Error α} (h : Repeats excused first second)
    (hfirst : ∀ e, first = .error e → ¬ excused e) : second = first := by
  apply h.resolve_left
  intro ⟨e, he, hexcused⟩
  exact hfirst e he hexcused

theorem Repeats.bind {first second : Except Error α} {next next' : α → Except Error β}
    (h : Repeats excused first second)
    (hnext : ∀ a, first = .ok a → Repeats excused (next a) (next' a)) :
    Repeats excused (first >>= next) (second >>= next') := by
  cases first with
  | error e =>
    apply h.imp
    · intro ⟨e', he', hexcused⟩
      cases he'
      exact ⟨e, rfl, hexcused⟩
    · intro hsecond
      rw [hsecond]
      rfl
  | ok a =>
    have hsecond : second = .ok a := h.eq nofun
    rw [hsecond]
    exact hnext a rfl

mutual
/-- What two expansions make of a shape agrees as far as they do. -/
theorem Shape.schema_repeats {expand expand' : Expansion}
    (h : ∀ id, Repeats excused (expand id) (expand' id)) :
    ∀ shape : Shape, Repeats excused (shape.schema expand) (shape.schema expand')
  | .scalar _ => .refl _
  | .enum _ => .refl _
  | .time _ => .refl _
  | .object properties => by
    rw [Shape.schema, Shape.schema]
    exact (compileEntries_repeats h properties.entries).bind fun _ _ => .refl _
  | .reference id => by
    rw [Shape.schema, Shape.schema]
    exact (h id).bind fun _ _ => .refl _
  | .collection item => by
    rw [Shape.schema, Shape.schema]
    exact (Shape.schema_repeats h item.shape).bind fun _ _ => .refl _
theorem compileEntries_repeats {expand expand' : Expansion}
    (h : ∀ id, Repeats excused (expand id) (expand' id)) :
    ∀ entries : List (String × Field),
      Repeats excused (compileEntries expand entries) (compileEntries expand' entries)
  | [] => .refl _
  | (_, field) :: rest => by
    rw [compileEntries_cons, compileEntries_cons]
    apply (Shape.schema_repeats h field.type.shape).bind
    intro _ _
    exact (compileEntries_repeats h rest).bind fun _ _ => .refl _
end

theorem Properties.schemas_repeats {expand expand' : Expansion}
    (h : ∀ id, Repeats excused (expand id) (expand' id)) (properties : Properties) :
    Repeats excused (properties.schemas expand) (properties.schemas expand') :=
  (compileEntries_repeats h properties.entries).bind fun _ _ => .refl _

theorem FieldType.parameterSchema_repeats {expand expand' : Expansion}
    (h : ∀ id, Repeats excused (expand id) (expand' id)) (type : FieldType) :
    Repeats excused (type.parameterSchema expand) (type.parameterSchema expand') := by
  rw [FieldType.parameterSchema_eq, FieldType.parameterSchema_eq]
  exact (Shape.schema_repeats h type.shape).bind fun _ _ => .refl _

end Repeats

namespace Registry

variable {r r' : Registry}

/-- All schemas of one registry are in another one, with the same properties. -/
def Grows (r r' : Registry) : Prop :=
  ∀ id properties, r.schemas.get? id = some properties → r'.schemas.get? id = some properties

/-- The failure to resolve a schema that one registry misses and another one has. -/
def MissedBy (r r' : Registry) (e : Error) : Prop :=
  ∃ id, e = .unresolvedReference id ∧ ¬ r.contains id ∧ r'.contains id

theorem properties_repeats (h : r.Grows r') (id : String) :
    Repeats (r.MissedBy r') (r.properties id) (r'.properties id) := by
  cases hget : r.schemas.get? id with
  | some properties =>
    rw [properties_eq_ok_iff.mpr hget, properties_eq_ok_iff.mpr (h id properties hget)]
    exact .refl _
  | none =>
    have hmissing : ¬ r.contains id := by simp [contains, OrderedMap.contains, hget]
    rw [properties_eq_error_iff.mpr ⟨hmissing, rfl⟩]
    by_cases hfound : r'.contains id
    · exact .inl ⟨_, rfl, id, rfl, hmissing, hfound⟩
    · exact .inr (properties_eq_error_iff.mpr ⟨hfound, rfl⟩)

/-- Every expansion over the larger registry follows the one over the smaller registry. -/
theorem expand_repeats (h : r.Grows r') (trail : List String) (id : String) :
    Repeats (r.MissedBy r') (r.expand trail id) (r'.expand trail id) := by
  -- the trails grow by ids of the smaller registry, which bound them for both
  induction trail, id using Registry.expand.induct r with
  | case1 trail id hid =>
    rw [expand_of_mem hid, expand_of_mem hid]
    exact .refl _
  | case2 trail id hid e he =>
    rw [expand_of_notMem hid, expand_of_notMem hid]
    apply (properties_repeats h id).bind
    intro properties hok
    rw [he] at hok
    cases hok
  | case3 trail id hid properties hok ih =>
    rw [expand_of_notMem hid, expand_of_notMem hid]
    apply (properties_repeats h id).bind
    intro properties' hok'
    obtain rfl : properties = properties' := Except.ok.inj (hok.symm.trans hok')
    exact Properties.schemas_repeats ih properties

/-- Registering a schema loses none of those that are there. -/
theorem grows_of_register {id : String} {properties : Properties}
    (h : register id properties r = .ok () r') : r.Grows r' := by
  obtain ⟨hid, _, rfl⟩ := register_eq_ok_iff.mp h
  intro id' properties' hget
  have hne : id' ≠ id := by
    rintro rfl
    exact hid (by simp [contains, OrderedMap.contains, hget])
  rw [OrderedMap.get?_insert, if_neg hne, hget]

/-- The only schema that is missing before a registration and there after it is its own. -/
theorem missedBy_register {id : String} {properties : Properties} {e : Error}
    (h : register id properties r = .ok () r') (he : r.MissedBy r' e) :
    e = .unresolvedReference id := by
  obtain ⟨_, _, rfl⟩ := register_eq_ok_iff.mp h
  obtain ⟨id', rfl, hmissing, hfound⟩ := he
  by_cases hid : id' = id
  · rw [hid]
  · simp [contains, OrderedMap.contains, OrderedMap.get?_insert, hid] at hmissing hfound
    simp [hmissing] at hfound

/-- Registering a schema changes no compilation but those that it was missing from. -/
theorem compile_registered {id : String} {properties : Properties}
    (h : register id properties r = .ok () r') :
    (∀ mapping : Properties, r.propertySchemas mapping ≠ .error (.unresolvedReference id) →
      r'.propertySchemas mapping = r.propertySchemas mapping) ∧
    ∀ field : Field, r.parameterSchema field ≠ .error (.unresolvedReference id) →
      r'.parameterSchema field = r.parameterSchema field := by
  have hexpand := expand_repeats (grows_of_register h) []
  constructor
  · intro mapping hmapping
    apply (Properties.schemas_repeats hexpand mapping).eq
    intro e he hmissed
    rw [missedBy_register h hmissed] at he
    exact hmapping he
  · intro field hfield
    apply (FieldType.parameterSchema_repeats hexpand field.type).eq
    intro e he hmissed
    rw [missedBy_register h hmissed] at he
    exact hfield he

private def reference (id : String) : Field :=
  { type := { shape := .reference id } }

-- A schema that compiles, one on a cycle, and one that leads to a missing schema.
private def drafts : Registry where
  schemas := ⟨[
    ("Name", ⟨[("text", { type := { shape := .scalar .string } })]⟩),
    ("Node", ⟨[("next", { type := { shape := .collection { shape := .reference "Node" } } })]⟩),
    ("Draft", ⟨[("author", reference "Author")]⟩)]⟩

-- The properties of the missing schema, which is on a cycle with the one that leads to it.
private def author : Properties :=
  ⟨[("name", reference "Name"), ("drafts", reference "Draft")]⟩

private theorem drafts_register : ∃ completed, register "Author" author drafts = .ok () completed :=
  ⟨_, by rfl⟩

private theorem drafts_expand_name : ∃ found, drafts.expand [] "Name" = .ok found := by
  rw [expand_of_notMem List.not_mem_nil]
  exact ⟨_, rfl⟩

private theorem drafts_expand_node :
    drafts.expand [] "Node" = .error (.cyclicReference ["Node", "Node"]) := by
  simp [expand_of_notMem, expand_of_mem, Registry.properties, drafts, OrderedMap.get?,
    OrderedMap.find?, Properties.schemas, compileEntries, Shape.propertySchema_eq, Shape.schema,
    bind, Except.bind]

theorem drafts_compile_registered :
    ∃ completed, register "Author" author drafts = .ok () completed ∧
      (∃ schema, drafts.parameterSchema (reference "Name") = .ok schema ∧
        completed.parameterSchema (reference "Name") = .ok schema) ∧
      completed.propertySchemas ⟨[("node", reference "Node")]⟩ =
        .error (.cyclicReference ["Node", "Node"]) := by
  obtain ⟨completed, hcompleted⟩ := drafts_register
  obtain ⟨found, hfound⟩ := drafts_expand_name
  have hname : ∃ schema, drafts.parameterSchema (reference "Name") = .ok schema := by
    simp [parameterSchema, FieldType.parameterSchema_eq, reference, Shape.schema, hfound, bind,
      Except.bind, pure, Except.pure]
  have hnode : drafts.propertySchemas ⟨[("node", reference "Node")]⟩ =
      .error (.cyclicReference ["Node", "Node"]) := by
    simp [propertySchemas, Properties.schemas, compileEntries, Shape.propertySchema_eq, reference,
      Shape.schema, drafts_expand_node, bind, Except.bind]
  obtain ⟨schema, hschema⟩ := hname
  refine ⟨completed, hcompleted, ⟨schema, hschema, ?_⟩, ?_⟩
  · rw [(compile_registered hcompleted).2 _ (by simp [hschema]), hschema]
  · rw [(compile_registered hcompleted).1 _ (by simp [hnode]), hnode]

end Registry
end ApiDocs
