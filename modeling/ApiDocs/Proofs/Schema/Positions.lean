import ApiDocs.Proofs.Except
import ApiDocs.Schema.Compile
/-!
# The schema of a shape in every position

A property and a parameter show everything that an item of the same shape shows, and each of them
adds keywords of its own. They fail where the item fails, with the same error.
-/
namespace ApiDocs

/-- A property shows what an item shows, and the texts of its field. -/
theorem Shape.propertySchema_eq (expand : Expansion) (field : Field) (shape : Shape) :
    shape.propertySchema expand field =
      (shape.schema expand >>= fun schema => pure (schema.asProperty field)) := by
  cases shape with
  | scalar kind => rfl
  | enum values => rfl
  | time granularity => rfl
  | object properties =>
    rw [Shape.propertySchema, Shape.schema, bind_assoc]
    rfl
  | reference id =>
    rw [Shape.propertySchema, Shape.schema, bind_assoc]
    rfl
  | collection item =>
    rw [Shape.propertySchema, Shape.schema, bind_assoc]
    rfl

theorem compileEntries_cons (expand : Expansion) (name : String) (field : Field)
    (rest : List (String × Field)) :
    compileEntries expand ((name, field) :: rest) =
      (field.type.shape.schema expand >>= fun schema =>
        compileEntries expand rest >>= fun rest =>
          pure ((name, schema.asProperty field) :: rest)) := by
  rw [compileEntries, Shape.propertySchema_eq, bind_assoc]
  rfl

/-- The format that a parameter of the shape names. -/
def Shape.format? : Shape → Option String
  | .time granularity => some granularity.format
  | _ => none

/-- A parameter shows what an item shows, with its default and the format of moments. -/
theorem FieldType.parameterSchema_eq (expand : Expansion) (type : FieldType) :
    type.parameterSchema expand = (type.shape.schema expand >>= fun schema =>
      pure { schema with defaultValue := type.default?, format := type.shape.format? }) := by
  obtain ⟨shape⟩ := type
  cases shape with
  | scalar kind => rfl
  | enum values => rfl
  | time granularity => rfl
  | object properties =>
    simp only [FieldType.parameterSchema, Properties.schemas, Shape.schema, bind_assoc]
    rfl
  | reference id =>
    rw [FieldType.parameterSchema, Shape.schema, bind_assoc]
    rfl
  | collection item =>
    rw [FieldType.parameterSchema, Shape.schema, bind_assoc]
    rfl

/-- What a schema says in every position. -/
def Schema.core (schema : Schema) : Schema :=
  { schema with
    description := none
    exampleValue := none
    defaultValue := none
    deprecated := none
    format := none }

/-- The schema of a shape has nothing that depends on a position. -/
theorem Shape.schema_core {expand : Expansion} {shape : Shape} {schema : Schema}
    (h : shape.schema expand = .ok schema) : schema.core = schema := by
  cases shape with
  | scalar kind => cases h; rfl
  | enum values => cases h; rfl
  | time granularity => cases h; rfl
  | object properties =>
    obtain ⟨entries, _, h⟩ := bind_eq_ok_iff.mp h
    cases h
    rfl
  | reference id =>
    obtain ⟨properties, _, h⟩ := bind_eq_ok_iff.mp h
    cases h
    rfl
  | collection item =>
    obtain ⟨items, _, h⟩ := bind_eq_ok_iff.mp h
    cases h
    rfl

/-- A parameter, a mapping with the same field and a parameter that is a list of its values all
fail alike, or compile to the same schema but for what their positions add. -/
theorem Registry.positions_agree (r : Registry) (name : String) (field outer : Field) :
    (∃ e, r.parameterSchema field = .error e ∧ r.propertySchemas ⟨[(name, field)]⟩ = .error e ∧
      r.parameterSchema { outer with type.shape := .collection field.type } = .error e) ∨
    ∃ parameter property array items, r.parameterSchema field = .ok parameter ∧
      r.propertySchemas ⟨[(name, field)]⟩ = .ok ⟨[(name, property)]⟩ ∧
      r.parameterSchema { outer with type.shape := .collection field.type } = .ok array ∧
      array.items = some items ∧ parameter.core = property.core ∧ property.core = items.core := by
  simp only [parameterSchema, FieldType.parameterSchema_eq, propertySchemas, Properties.schemas,
    compileEntries_cons, Shape.schema]
  cases field.type.shape.schema (r.expand []) with
  | error e => exact .inl ⟨e, rfl, rfl, rfl⟩
  | ok schema => exact .inr ⟨_, schema.asProperty field, _, schema, rfl, rfl, rfl, rfl, rfl, rfl⟩

end ApiDocs
