import ApiDocs.Proofs.Schema.Expansion
/-!
# References stand for the properties of their schemas

A reference can be replaced by an inline object with the properties registered under its name,
and so can the references in those properties. Where fields compile, this comes to an end, and
what is left compiles to the same schemas without any registry.
-/
namespace ApiDocs.Registry

mutual
/-- A shape with every reference replaced by the object that it stands for, at any depth. -/
inductive Inlines (r : Registry) : Shape → Shape → Prop
  | scalar (kind : Scalar) : r.Inlines (.scalar kind) (.scalar kind)
  | enum (values : List String) : r.Inlines (.enum values) (.enum values)
  | time (granularity : Granularity) : r.Inlines (.time granularity) (.time granularity)
  | object {properties : Properties} {inlined : List (String × Field)} :
    r.InlinesEntries properties.entries inlined → r.Inlines (.object properties) (.object ⟨inlined⟩)
  | reference {id : String} {properties : Properties} {inlined : List (String × Field)} :
    r.schemas.get? id = some properties → r.InlinesEntries properties.entries inlined →
      r.Inlines (.reference id) (.object ⟨inlined⟩)
  | collection {item : Typed Shape} {shape : Shape} :
    r.Inlines item.shape shape → r.Inlines (.collection item) (.collection { item with shape })
/-- Fields with the references of their shapes replaced, and nothing else. -/
inductive InlinesEntries (r : Registry) : List (String × Field) → List (String × Field) → Prop
  | nil : r.InlinesEntries [] []
  | cons {name : String} {field : Field} {shape : Shape} {rest inlined : List (String × Field)} :
    r.Inlines field.type.shape shape → r.InlinesEntries rest inlined →
      r.InlinesEntries ((name, field) :: rest)
        ((name, { field with type.shape := shape }) :: inlined)
end

variable {r : Registry}

mutual
/-- There is only one way to replace the references. -/
theorem Inlines.unique {shape : Shape} : ∀ {a b : Shape},
    r.Inlines shape a → r.Inlines shape b → a = b
  | _, _, .scalar _, .scalar _ => rfl
  | _, _, .enum _, .enum _ => rfl
  | _, _, .time _, .time _ => rfl
  | _, _, .object ha, .object hb => by rw [ha.unique hb]
  | _, _, .reference hget ha, .reference hget' hb => by
    obtain rfl := Option.some.inj (hget.symm.trans hget')
    rw [ha.unique hb]
  | _, _, .collection ha, .collection hb => by rw [ha.unique hb]
theorem InlinesEntries.unique {entries : List (String × Field)} :
    ∀ {a b : List (String × Field)}, r.InlinesEntries entries a → r.InlinesEntries entries b →
      a = b
  | _, _, .nil, .nil => rfl
  | _, _, .cons ha has, .cons hb hbs => by rw [ha.unique hb, has.unique hbs]
end

mutual
/-- No reference is left. -/
theorem Inlines.references_eq_nil : ∀ {shape inlined : Shape}, r.Inlines shape inlined →
    inlined.references = []
  | _, _, .scalar _ => by rfl
  | _, _, .enum _ => by rfl
  | _, _, .time _ => by rfl
  | _, _, .object h => h.references_eq_nil
  | _, _, .reference _ h => h.references_eq_nil
  | _, _, .collection h => h.references_eq_nil
theorem InlinesEntries.references_eq_nil : ∀ {entries inlined : List (String × Field)},
    r.InlinesEntries entries inlined → referencesIn inlined = []
  | _, _, .nil => by rfl
  | _, _, .cons h hs => by
    rw [referencesIn, List.append_eq_nil_iff]
    exact ⟨h.references_eq_nil, hs.references_eq_nil⟩
end

-- A name that expands stands for registered properties whose references can be replaced.
private def Expandable (r : Registry) (id : String) : Prop :=
  ∃ properties inlined, r.schemas.get? id = some properties ∧
    r.InlinesEntries properties.entries inlined

mutual
private theorem inlines_of_expandable : ∀ shape : Shape,
    (∀ id ∈ shape.references, r.Expandable id) → ∃ inlined, r.Inlines shape inlined
  | .scalar kind, _ => ⟨_, .scalar kind⟩
  | .enum values, _ => ⟨_, .enum values⟩
  | .time granularity, _ => ⟨_, .time granularity⟩
  | .object properties, h => by
    obtain ⟨inlined, hinlined⟩ := inlinesEntries_of_expandable properties.entries h
    exact ⟨_, .object hinlined⟩
  | .reference id, h => by
    obtain ⟨properties, inlined, hget, hinlined⟩ := h id (List.mem_singleton_self id)
    exact ⟨_, .reference hget hinlined⟩
  | .collection item, h => by
    obtain ⟨shape, hshape⟩ := inlines_of_expandable item.shape h
    exact ⟨_, .collection hshape⟩
private theorem inlinesEntries_of_expandable : ∀ entries : List (String × Field),
    (∀ id ∈ referencesIn entries, r.Expandable id) → ∃ inlined, r.InlinesEntries entries inlined
  | [], _ => ⟨_, .nil⟩
  | (_, field) :: rest, h => by
    obtain ⟨shape, hshape⟩ := inlines_of_expandable field.type.shape fun id hid =>
      h id (List.mem_append_left _ hid)
    obtain ⟨inlined, hinlined⟩ := inlinesEntries_of_expandable rest fun id hid =>
      h id (List.mem_append_right _ hid)
    exact ⟨_, .cons hshape hinlined⟩
end

private theorem expandable_of_expand {trail : List String} {id : String}
    {schemas : OrderedMap Schema} (h : r.expand trail id = .ok schemas) : r.Expandable id := by
  induction trail, id using Registry.expand.induct r generalizing schemas with
  | case1 trail id hid =>
    exact absurd hid (expand_eq_ok_iff.mp h).1
  | case2 trail id hid e he =>
    obtain ⟨_, properties, hget, _⟩ := expand_eq_ok_iff.mp h
    rw [properties_eq_ok_iff.mpr hget] at he
    cases he
  | case3 trail id hid properties hok ih =>
    obtain ⟨_, properties, hget, hschemas⟩ := expand_eq_ok_iff.mp h
    have hnext : ∀ next ∈ referencesIn properties.entries, r.Expandable next := by
      intro next hmem
      obtain ⟨found, hfound⟩ := Properties.schemas_ok hschemas next hmem
      exact ih next hfound
    obtain ⟨inlined, hinlined⟩ := inlinesEntries_of_expandable properties.entries hnext
    exact ⟨properties, inlined, hget, hinlined⟩

mutual
/-- A shape that compiles on some trail compiles to the same schema with its references replaced,
whatever references would stand for then. -/
theorem Inlines.schema_eq_ok {expand : Expansion} : ∀ {trail : List String}
    {shape inlined : Shape} {schema : Schema}, r.Inlines shape inlined →
    shape.schema (r.expand trail) = .ok schema → inlined.schema expand = .ok schema
  | _, _, _, _, .scalar _, h => h
  | _, _, _, _, .enum _, h => h
  | _, _, _, _, .time _, h => h
  | _, _, _, _, .object hentries, h => by
    obtain ⟨entries, hok, hschema⟩ := bind_eq_ok_iff.mp h
    exact bind_eq_ok_iff.mpr ⟨entries, hentries.compile_eq_ok hok, hschema⟩
  | _, _, _, _, .reference hget hentries, h => by
    obtain ⟨found, hfound, hschema⟩ := bind_eq_ok_iff.mp h
    obtain ⟨_, properties, hget', hschemas⟩ := expand_eq_ok_iff.mp hfound
    obtain rfl := Option.some.inj (hget.symm.trans hget')
    obtain ⟨entries, hok, hentries'⟩ := bind_eq_ok_iff.mp hschemas
    cases hentries'
    exact bind_eq_ok_iff.mpr ⟨entries, hentries.compile_eq_ok hok, hschema⟩
  | _, _, _, _, .collection hitem, h => by
    obtain ⟨items, hok, hschema⟩ := bind_eq_ok_iff.mp h
    exact bind_eq_ok_iff.mpr ⟨items, hitem.schema_eq_ok hok, hschema⟩
theorem InlinesEntries.compile_eq_ok {expand : Expansion} : ∀ {trail : List String}
    {entries inlined : List (String × Field)} {schemas : List (String × Schema)},
    r.InlinesEntries entries inlined → compileEntries (r.expand trail) entries = .ok schemas →
    compileEntries expand inlined = .ok schemas
  | _, _, _, _, .nil, h => h
  | _, _, _, _, .cons hshape hrest, h => by
    rw [compileEntries_cons] at h ⊢
    obtain ⟨schema, hschema, h⟩ := bind_eq_ok_iff.mp h
    obtain ⟨schemas, hschemas, h⟩ := bind_eq_ok_iff.mp h
    refine bind_eq_ok_iff.mpr ⟨schema, hshape.schema_eq_ok hschema, ?_⟩
    exact bind_eq_ok_iff.mpr ⟨schemas, hrest.compile_eq_ok hschemas, h⟩
end

/-- The expansion of a reference does not depend on the trail that led to it. -/
theorem expand_eq_of_ok {trail trail' : List String} {id : String}
    {schemas schemas' : OrderedMap Schema} (h : r.expand trail id = .ok schemas)
    (h' : r.expand trail' id = .ok schemas') : schemas = schemas' := by
  obtain ⟨properties, inlined, hget, hinlined⟩ := expandable_of_expand h
  have hcompile : ∀ {trail schemas}, r.expand trail id = .ok schemas →
      compileEntries (r.expand []) inlined = .ok schemas.entries := by
    intro trail schemas h
    obtain ⟨_, properties', hget', hschemas⟩ := expand_eq_ok_iff.mp h
    obtain rfl := Option.some.inj (hget.symm.trans hget')
    obtain ⟨entries, hok, hentries⟩ := bind_eq_ok_iff.mp hschemas
    cases hentries
    exact hinlined.compile_eq_ok hok
  have heq := (hcompile h).symm.trans (hcompile h')
  cases schemas
  cases schemas'
  simpa using heq

private theorem Inlines.format?_eq {shape inlined : Shape} (h : r.Inlines shape inlined) :
    inlined.format? = shape.format? := by
  cases h <;> rfl

private theorem exists_inlined_properties {properties : Properties}
    {schemas : OrderedMap Schema} (h : r.propertySchemas properties = .ok schemas) :
    ∃ inlined, r.InlinesEntries properties.entries inlined := by
  refine inlinesEntries_of_expandable properties.entries fun id hid => ?_
  obtain ⟨found, hfound⟩ := Properties.schemas_ok h id hid
  exact expandable_of_expand hfound

private theorem exists_inlined_parameter {field : Field} {schema : Schema}
    (h : r.parameterSchema field = .ok schema) :
    ∃ inlined, r.Inlines field.type.shape inlined := by
  refine inlines_of_expandable field.type.shape fun id hid => ?_
  obtain ⟨found, hfound⟩ := FieldType.parameterSchema_ok h id hid
  exact expandable_of_expand hfound

/-- Where a mapping or a parameter compiles, there is one way to replace its references, and the
result compiles to the same schemas with nothing registered. -/
theorem compile_inlined (r : Registry) :
    (∀ (properties : Properties) (schemas : OrderedMap Schema),
      r.propertySchemas properties = .ok schemas →
        ∃ inlined, (∀ other, r.InlinesEntries properties.entries other ↔ other = inlined) ∧
          ({} : Registry).propertySchemas ⟨inlined⟩ = .ok schemas) ∧
    ∀ (field : Field) (schema : Schema), r.parameterSchema field = .ok schema →
      ∃ shape, (∀ other, r.Inlines field.type.shape other ↔ other = shape) ∧
        ({} : Registry).parameterSchema { field with type.shape := shape } = .ok schema := by
  constructor
  · intro properties schemas h
    obtain ⟨inlined, hinlined⟩ := exists_inlined_properties h
    obtain ⟨entries, hok, hschemas⟩ := bind_eq_ok_iff.mp h
    refine ⟨inlined, fun other => ⟨fun hother => hother.unique hinlined, ?_⟩, ?_⟩
    · rintro rfl
      exact hinlined
    · exact bind_eq_ok_iff.mpr ⟨entries, hinlined.compile_eq_ok hok, hschemas⟩
  · intro field schema h
    obtain ⟨shape, hshape⟩ := exists_inlined_parameter h
    rw [parameterSchema, FieldType.parameterSchema_eq] at h
    obtain ⟨base, hok, hschema⟩ := bind_eq_ok_iff.mp h
    refine ⟨shape, fun other => ⟨fun hother => hother.unique hshape, ?_⟩, ?_⟩
    · rintro rfl
      exact hshape
    · rw [parameterSchema, FieldType.parameterSchema_eq]
      refine bind_eq_ok_iff.mpr ⟨base, hshape.schema_eq_ok hok, ?_⟩
      rw [hshape.format?_eq]
      exact hschema

-- A pair, and pairs that refer to it from a list and from a property.
private def pairs : Registry where
  schemas := ⟨[
    ("Pair", ⟨[("first", { type := { shape := .scalar .string } })]⟩),
    ("Pairs", ⟨[
      ("all", { type := { shape := .collection { shape := .reference "Pair" } } }),
      ("last", { type := { shape := .reference "Pair", nullable := true } })]⟩)]⟩

private def pairsField : Field :=
  { type := { shape := .reference "Pairs", default? := some .null } }

private theorem pairs_expand : ∃ found, pairs.expand [] "Pairs" = .ok found := by
  simp [expand_of_notMem, Registry.properties, pairs, OrderedMap.get?, OrderedMap.find?,
    Properties.schemas, compileEntries, Shape.propertySchema_eq, Shape.schema, bind, Except.bind,
    pure, Except.pure]

theorem pairs_compile_inlined :
    (∃ schemas, pairs.propertySchemas ⟨[("pairs", pairsField)]⟩ = .ok schemas ∧
      ∃ inlined, (∀ other, pairs.InlinesEntries [("pairs", pairsField)] other ↔ other = inlined) ∧
        ({} : Registry).propertySchemas ⟨inlined⟩ = .ok schemas) ∧
    ∃ schema, pairs.parameterSchema pairsField = .ok schema ∧
      ∃ shape, (∀ other, pairs.Inlines pairsField.type.shape other ↔ other = shape) ∧
        ({} : Registry).parameterSchema { pairsField with type.shape := shape } = .ok schema := by
  obtain ⟨found, hfound⟩ := pairs_expand
  have hproperties : ∃ schemas, pairs.propertySchemas ⟨[("pairs", pairsField)]⟩ = .ok schemas := by
    simp [propertySchemas, Properties.schemas, compileEntries, Shape.propertySchema_eq, pairsField,
      Shape.schema, hfound, bind, Except.bind, pure, Except.pure]
  have hparameter : ∃ schema, pairs.parameterSchema pairsField = .ok schema := by
    simp [parameterSchema, FieldType.parameterSchema_eq, pairsField, Shape.schema, hfound, bind,
      Except.bind, pure, Except.pure]
  obtain ⟨schemas, hschemas⟩ := hproperties
  obtain ⟨schema, hschema⟩ := hparameter
  refine ⟨⟨schemas, hschemas, ?_⟩, schema, hschema, ?_⟩
  · exact (compile_inlined pairs).1 _ schemas hschemas
  · exact (compile_inlined pairs).2 _ schema hschema

end ApiDocs.Registry
