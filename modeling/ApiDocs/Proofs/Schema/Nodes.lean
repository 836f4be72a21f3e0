import ApiDocs.Proofs.Schema.Expansion
/-!
# What every schema in a compiled one says

Below the root of a compiled schema every schema stands where its shape stands in the fields, with
references followed into the registered schemas. Its keywords can be read off the shape and the
last step that leads to it.
-/
namespace ApiDocs

/-- A step from a schema, or from a shape, to one inside of it. -/
inductive Step where
  | property (index : Nat)
  | items

namespace Schema

def child? (schema : Schema) : Step → Option Schema
  | .property index => schema.properties.bind fun properties => properties.values[index]?
  | .items => schema.items

/-- The schema at the end of some steps. -/
def at? (schema : Schema) (path : List Step) : Option Schema :=
  path.foldlM child? schema

theorem at?_concat (schema : Schema) (path : List Step) (step : Step) :
    schema.at? (path ++ [step]) = (schema.at? path).bind fun parent => parent.child? step := by
  simp [at?, List.foldlM_append]

end Schema

namespace Shape

/-- The properties of the values of a shape. -/
def properties? (r : Registry) : Shape → Option Properties
  | .object properties => some properties
  | .reference id => r.schemas.get? id
  | _ => none

def item? : Shape → Option Shape
  | .collection item => some item.shape
  | _ => none

def child? (r : Registry) (shape : Shape) : Step → Option Shape
  | .property index => (shape.properties? r).bind fun properties =>
    properties.values[index]?.map fun field => field.type.shape
  | .items => shape.item?

/-- The shape at the end of some steps, which also lead through references. -/
def at? (r : Registry) (shape : Shape) (path : List Step) : Option Shape :=
  path.foldlM (child? r) shape

theorem at?_concat (r : Registry) (shape : Shape) (path : List Step) (step : Step) :
    shape.at? r (path ++ [step]) = (shape.at? r path).bind fun parent => parent.child? r step := by
  simp [at?, List.foldlM_append]

end Shape

/-- A schema says what its shape does, as far as that does not depend on a position. -/
structure Schema.Describes (r : Registry) (shape : Shape) (schema : Schema) : Prop where
  properties_iff : schema.properties.isSome ↔ schema.type = "object"
  items_iff : schema.items.isSome ↔ schema.type = "array"
  type_of_enum : schema.enum.isSome → schema.type = "string"
  keys_eq : schema.properties.map OrderedMap.keys = (shape.properties? r).map OrderedMap.keys

/-- A schema says what its shape does at the end of some steps from a parameter. -/
structure Schema.Fits (r : Registry) (path : List Step) (shape : Shape) (schema : Schema) : Prop
    extends schema.Describes r shape where
  format_iff : schema.format.isSome ↔ path = [] ∧ ∃ granularity, shape = .time granularity
  description_iff : schema.description.isSome ↔ ∃ index, path.getLast? = some (.property index)

/-- The schemas of properties are listed under the same names, and each of them is compiled from
the shape of its property. -/
theorem compileEntries_eq_ok {expand : Expansion} : ∀ {entries : List (String × Field)}
    {schemas : List (String × Schema)}, compileEntries expand entries = .ok schemas →
    schemas.map Prod.fst = entries.map Prod.fst ∧
      ∀ (index : Nat) (schema : Schema), (schemas.map Prod.snd)[index]? = some schema →
        ∃ field base, (entries.map Prod.snd)[index]? = some field ∧
          field.type.shape.schema expand = .ok base ∧ schema = base.asProperty field
  | [], _, h => by
    cases h
    simp
  | (name, field) :: rest, _, h => by
    rw [compileEntries_cons] at h
    obtain ⟨base, hbase, h⟩ := bind_eq_ok_iff.mp h
    obtain ⟨schemas, hschemas, h⟩ := bind_eq_ok_iff.mp h
    cases h
    obtain ⟨hkeys, hvalues⟩ := compileEntries_eq_ok hschemas
    refine ⟨by simp [hkeys], ?_⟩
    intro index schema hindex
    cases index with
    | zero =>
      obtain rfl : base.asProperty field = schema := by simpa using hindex
      exact ⟨field, base, rfl, hbase, rfl⟩
    | succ index => exact hvalues index schema (by simpa using hindex)

theorem Properties.keys_schemas {expand : Expansion} {properties : Properties}
    {schemas : OrderedMap Schema} (h : properties.schemas expand = .ok schemas) :
    schemas.keys = properties.keys := by
  obtain ⟨entries, hentries, h⟩ := bind_eq_ok_iff.mp h
  cases h
  exact (compileEntries_eq_ok hentries).1

namespace Registry

variable {r : Registry} {shape : Shape} {schema node : Schema} {path : List Step}

/-- A schema was compiled from a shape on some trail, and a position may have added to it. -/
def Compiled (r : Registry) (shape : Shape) (schema : Schema) : Prop :=
  ∃ trail, shape.schema (r.expand trail) = .ok schema.core

theorem compiled_of_schema {trail : List String} {base : Schema}
    (h : shape.schema (r.expand trail) = .ok base) (hcore : schema.core = base.core) :
    r.Compiled shape schema :=
  ⟨trail, by rw [hcore, Shape.schema_core h, h]⟩

/-- What a compiled schema is: that of a value without parts, of an object with properties that
were compiled, or of an array with an item that was. -/
theorem Compiled.cases (h : r.Compiled shape schema) :
    (∃ type enum, schema.core = { type, enum } ∧ type ≠ "object" ∧ type ≠ "array" ∧
      (enum.isSome → type = "string") ∧ shape.properties? r = none) ∨
    (∃ properties schemas trail, schema.core = .object schemas ∧
      shape.properties? r = some properties ∧
      properties.schemas (r.expand trail) = .ok schemas) ∨
    ∃ item items trail, schema.core = .array items ∧ shape = .collection item ∧
      item.shape.schema (r.expand trail) = .ok items := by
  obtain ⟨trail, h⟩ := h
  cases shape with
  | scalar kind =>
    refine .inl ⟨kind.name, none, (Except.ok.inj h).symm, ?_, ?_, by simp, rfl⟩
    · cases kind <;> decide
    · cases kind <;> decide
  | enum values =>
    exact .inl ⟨"string", some values, (Except.ok.inj h).symm, by decide, by decide, by simp, rfl⟩
  | time granularity =>
    exact .inl ⟨"string", none, (Except.ok.inj h).symm, by decide, by decide, by simp, rfl⟩
  | object properties =>
    obtain ⟨entries, hentries, h⟩ := bind_eq_ok_iff.mp h
    have hschemas : Properties.schemas (r.expand trail) properties = .ok ⟨entries⟩ :=
      bind_eq_ok_iff.mpr ⟨entries, hentries, rfl⟩
    exact .inr (.inl ⟨properties, ⟨entries⟩, trail, (pure_eq_ok_iff.mp h).symm, rfl, hschemas⟩)
  | reference id =>
    obtain ⟨schemas, hfound, h⟩ := bind_eq_ok_iff.mp h
    obtain ⟨_, properties, hget, hschemas⟩ := expand_eq_ok_iff.mp hfound
    exact .inr (.inl ⟨properties, schemas, trail ++ [id], (pure_eq_ok_iff.mp h).symm, hget,
      hschemas⟩)
  | collection item =>
    obtain ⟨items, hitems, h⟩ := bind_eq_ok_iff.mp h
    exact .inr (.inr ⟨item, items, trail, (pure_eq_ok_iff.mp h).symm, rfl, hitems⟩)

theorem Compiled.describes (h : r.Compiled shape schema) : schema.Describes r shape := by
  -- all that counts is said by the core
  suffices hcore : schema.core.Describes r shape from
    ⟨hcore.properties_iff, hcore.items_iff, hcore.type_of_enum, hcore.keys_eq⟩
  rcases h.cases with ⟨type, enum, hcore, hobject, harray, henum, hproperties⟩ |
    ⟨properties, schemas, trail, hcore, hproperties, hschemas⟩ | ⟨item, items, trail, hcore, rfl, _⟩
  · rw [hcore]
    exact ⟨by simp [hobject], by simp [harray], henum, by simp [hproperties]⟩
  · rw [hcore]
    refine ⟨by simp [Schema.object], by simp [Schema.object], by simp [Schema.object], ?_⟩
    rw [hproperties]
    exact congrArg some (Properties.keys_schemas hschemas)
  · rw [hcore]
    exact ⟨by simp [Schema.array], by simp [Schema.array], by simp [Schema.array], rfl⟩

/-- A step into a compiled schema leads to one that is compiled from the shape at its place, with
what a property adds to it or with nothing. -/
theorem Compiled.child {step : Step} (h : r.Compiled shape schema)
    (hnode : schema.child? step = some node) :
    ∃ inner, shape.child? r step = some inner ∧ r.Compiled inner node ∧ node.format = none ∧
      (node.description.isSome ↔ ∃ index, step = .property index) := by
  change schema.core.child? step = some node at hnode
  rcases h.cases with ⟨type, enum, hcore, _⟩ |
    ⟨properties, schemas, trail, hcore, hproperties, hschemas⟩ |
    ⟨item, items, trail, hcore, rfl, hitems⟩
  · rw [hcore] at hnode
    cases step <;> cases hnode
  · rw [hcore] at hnode
    cases step with
    | property index =>
      obtain ⟨entries, hentries, hschemas⟩ := bind_eq_ok_iff.mp hschemas
      cases hschemas
      obtain ⟨field, base, hfield, hbase, rfl⟩ := (compileEntries_eq_ok hentries).2 index node hnode
      refine ⟨field.type.shape, ?_, compiled_of_schema hbase rfl, ?_, by simp [Schema.asProperty]⟩
      · rw [Shape.child?, hproperties, Option.bind_some, OrderedMap.values, hfield]
        rfl
      · rw [← Shape.schema_core hbase]
        rfl
    | items => cases hnode
  · rw [hcore] at hnode
    cases step with
    | property index => cases hnode
    | items =>
      obtain rfl : items = node := Option.some.inj hnode
      have hcore := Shape.schema_core hitems
      refine ⟨item.shape, rfl, compiled_of_schema hitems rfl, ?_, ?_⟩
      · rw [← hcore]
        rfl
      · rw [← hcore]
        simp [Schema.core]

theorem Compiled.at? (h : r.Compiled shape schema) (hnode : schema.at? path = some node) :
    ∃ inner, shape.at? r path = some inner ∧ r.Compiled inner node := by
  induction path using List.reverseRecOn generalizing node with
  | nil =>
    obtain rfl : schema = node := Option.some.inj hnode
    exact ⟨shape, rfl, h⟩
  | append_singleton path step ih =>
    rw [Schema.at?_concat] at hnode
    obtain ⟨parent, hparent, hnode⟩ := Option.bind_eq_some_iff.mp hnode
    obtain ⟨outer, houter, hcompiled⟩ := ih hparent
    obtain ⟨inner, hinner, hnode, _⟩ := hcompiled.child hnode
    refine ⟨inner, ?_, hnode⟩
    rw [Shape.at?_concat, houter, Option.bind_some, hinner]

/-- Below the root every schema stands where its shape does, and only a property's is described. -/
theorem Compiled.fits (h : r.Compiled shape schema) (hpath : path ≠ [])
    (hnode : schema.at? path = some node) :
    ∃ inner, shape.at? r path = some inner ∧ node.Fits r path inner := by
  obtain ⟨path, step, rfl⟩ := (List.eq_nil_or_concat' path).resolve_left hpath
  rw [Schema.at?_concat] at hnode
  obtain ⟨parent, hparent, hnode⟩ := Option.bind_eq_some_iff.mp hnode
  obtain ⟨outer, houter, hcompiled⟩ := h.at? hparent
  obtain ⟨inner, hinner, hnode, hformat, hdescription⟩ := hcompiled.child hnode
  refine ⟨inner, ?_, hnode.describes, ?_, ?_⟩
  · rw [Shape.at?_concat, houter, Option.bind_some, hinner]
  · simp [hformat]
  · simpa using hdescription

/-- The schema of a parameter has a format exactly for moments, and no description. -/
theorem parameterSchema_eq_ok {field : Field} (h : r.parameterSchema field = .ok schema) :
    r.Compiled field.type.shape schema ∧ schema.format = field.type.shape.format? ∧
      schema.description = none := by
  rw [parameterSchema, FieldType.parameterSchema_eq] at h
  obtain ⟨base, hbase, h⟩ := bind_eq_ok_iff.mp h
  cases h
  refine ⟨compiled_of_schema hbase rfl, rfl, ?_⟩
  rw [← Shape.schema_core hbase]
  rfl

/-- Every schema in a compiled parameter or mapping says what the shape does that stands at the
same place, where references lead into the schemas registered for them. -/
theorem compiled_fits (r : Registry) :
    (∀ field parameter, r.parameterSchema field = .ok parameter →
      ∀ path node, parameter.at? path = some node →
        ∃ shape, field.type.shape.at? r path = some shape ∧ node.Fits r path shape) ∧
    ∀ properties schemas, r.propertySchemas properties = .ok schemas →
      schemas.keys = properties.keys ∧
        ∀ path node, path ≠ [] → (Schema.object schemas).at? path = some node →
          ∃ shape, (Shape.object properties).at? r path = some shape ∧ node.Fits r path shape := by
  constructor
  · intro field parameter h path node hnode
    obtain ⟨hcompiled, hformat, hdescription⟩ := parameterSchema_eq_ok h
    by_cases hpath : path = []
    · subst hpath
      obtain rfl : parameter = node := Option.some.inj hnode
      refine ⟨field.type.shape, rfl, hcompiled.describes, ?_, by simp [hdescription]⟩
      rw [hformat]
      cases field.type.shape <;> simp [Shape.format?]
    · exact hcompiled.fits hpath hnode
  · intro properties schemas h
    refine ⟨Properties.keys_schemas h, fun path node hpath hnode => ?_⟩
    have hobject : (Shape.object properties).schema (r.expand []) = .ok (.object schemas) := by
      obtain ⟨entries, hentries, h⟩ := bind_eq_ok_iff.mp h
      cases h
      exact bind_eq_ok_iff.mpr ⟨entries, hentries, rfl⟩
    exact (compiled_of_schema hobject rfl).fits hpath hnode

-- Rows of cells, where a cell is a registered schema.
private def cells : Registry where
  schemas := ⟨[("Cell", ⟨[("at", { type := { shape := .time .date } })]⟩)]⟩

private def rows : Field :=
  { type := { shape := .collection { shape := .collection { shape := .reference "Cell" } } } }

private theorem cells_expand : ∃ schema, cells.expand [] "Cell" = .ok ⟨[("at", schema)]⟩ := by
  rw [expand_of_notMem List.not_mem_nil]
  exact ⟨_, rfl⟩

theorem cells_compiled_fits :
    (∃ parameter, cells.parameterSchema rows = .ok parameter ∧
      ∃ node, parameter.at? [.items, .items, .property 0] = some node ∧
        ∃ shape, rows.type.shape.at? cells [.items, .items, .property 0] = some shape ∧
          node.Fits cells [.items, .items, .property 0] shape) ∧
    ∃ schemas, cells.propertySchemas ⟨[("rows", rows)]⟩ = .ok schemas ∧ schemas.keys = ["rows"] ∧
      ∃ node, (Schema.object schemas).at? [.property 0, .items] = some node ∧
        ∃ shape, (Shape.object ⟨[("rows", rows)]⟩).at? cells [.property 0, .items] = some shape ∧
          node.Fits cells [.property 0, .items] shape := by
  obtain ⟨schema, hcell⟩ := cells_expand
  have hparameter : cells.parameterSchema rows =
      .ok (.array (.array (.object ⟨[("at", schema)]⟩))) := by
    simp [parameterSchema, FieldType.parameterSchema_eq, rows, Shape.schema, hcell, Shape.format?,
      Schema.array, bind, Except.bind, pure, Except.pure]
  have hschemas : cells.propertySchemas ⟨[("rows", rows)]⟩ =
      .ok ⟨[("rows", (Schema.array (.array (.object ⟨[("at", schema)]⟩))).asProperty rows)]⟩ := by
    simp [propertySchemas, Properties.schemas, compileEntries, Shape.propertySchema_eq, rows,
      Shape.schema, hcell, bind, Except.bind, pure, Except.pure]
  refine ⟨⟨_, hparameter, schema, rfl, ?_⟩, _, hschemas, rfl, .array (.object ⟨[("at", schema)]⟩),
    rfl, ?_⟩
  · exact (compiled_fits cells).1 rows _ hparameter _ schema rfl
  · exact ((compiled_fits cells).2 _ _ hschemas).2 _ _ (by simp) rfl

end Registry
end ApiDocs
