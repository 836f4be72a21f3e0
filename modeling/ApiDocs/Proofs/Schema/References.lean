import ApiDocs.Proofs.Schema.Positions
import Mathlib.Logic.Relation
/-!
# References and their expansion

The references of a shape are the schemas that it names at any depth. They make the registered
schemas a graph. Compiling a shape fails only where the expansion of one of its references fails,
so expansion follows the graph and ends in a schema, in a cycle, or in a name that nobody has
registered.
-/
namespace ApiDocs

mutual
/-- The schemas that a shape refers to, at any depth of objects and collections. -/
def Shape.references : Shape → List String
  | .scalar _ => []
  | .enum _ => []
  | .time _ => []
  | .object properties => referencesIn properties.entries
  | .reference id => [id]
  | .collection item => item.shape.references
def referencesIn : List (String × Field) → List String
  | [] => []
  | (_, field) :: rest => field.type.shape.references ++ referencesIn rest
end

def Properties.references (properties : Properties) : List String :=
  referencesIn properties.entries

mutual
/-- A shape fails to compile with the failure of one of its references. -/
theorem Shape.schema_error {expand : Expansion} {e : Error} :
    ∀ shape : Shape, shape.schema expand = .error e →
      ∃ id ∈ shape.references, expand id = .error e
  | .scalar _, h => by simp [Shape.schema] at h
  | .enum _, h => by simp [Shape.schema] at h
  | .time _, h => by simp [Shape.schema] at h
  | .object properties, h => by
    rw [Shape.schema, bind_pure_eq_error_iff] at h
    exact compileEntries_error properties.entries h
  | .reference id, h => by
    rw [Shape.schema, bind_pure_eq_error_iff] at h
    exact ⟨id, by simp [Shape.references], h⟩
  | .collection item, h => by
    rw [Shape.schema, bind_pure_eq_error_iff] at h
    exact Shape.schema_error item.shape h
theorem compileEntries_error {expand : Expansion} {e : Error} :
    ∀ entries : List (String × Field), compileEntries expand entries = .error e →
      ∃ id ∈ referencesIn entries, expand id = .error e
  | [], h => by simp [compileEntries] at h
  | (_, field) :: rest, h => by
    rw [compileEntries_cons, bind_eq_error_iff] at h
    simp only [bind_pure_eq_error_iff] at h
    rcases h with hfield | ⟨_, _, hrest⟩
    · obtain ⟨id, hid, he⟩ := Shape.schema_error field.type.shape hfield
      exact ⟨id, List.mem_append_left _ hid, he⟩
    · obtain ⟨id, hid, he⟩ := compileEntries_error rest hrest
      exact ⟨id, List.mem_append_right _ hid, he⟩
end

mutual
/-- Where a shape compiles, all its references were expanded. -/
theorem Shape.schema_ok {expand : Expansion} {schema : Schema} :
    ∀ shape : Shape, shape.schema expand = .ok schema →
      ∀ id ∈ shape.references, ∃ properties, expand id = .ok properties
  | .scalar _, _ => by simp [Shape.references]
  | .enum _, _ => by simp [Shape.references]
  | .time _, _ => by simp [Shape.references]
  | .object properties, h => by
    obtain ⟨entries, hentries, _⟩ := bind_eq_ok_iff.mp h
    exact compileEntries_ok properties.entries hentries
  | .reference id, h => by
    obtain ⟨properties, hid, _⟩ := bind_eq_ok_iff.mp h
    intro next hnext
    exact ⟨properties, by rw [List.mem_singleton.mp hnext, hid]⟩
  | .collection item, h => by
    obtain ⟨items, hitems, _⟩ := bind_eq_ok_iff.mp h
    exact Shape.schema_ok item.shape hitems
theorem compileEntries_ok {expand : Expansion} {schemas : List (String × Schema)} :
    ∀ entries : List (String × Field), compileEntries expand entries = .ok schemas →
      ∀ id ∈ referencesIn entries, ∃ properties, expand id = .ok properties
  | [], _ => by simp [referencesIn]
  | (_, field) :: rest, h => by
    rw [compileEntries_cons] at h
    obtain ⟨schema, hfield, h⟩ := bind_eq_ok_iff.mp h
    obtain ⟨schemas, hrest, _⟩ := bind_eq_ok_iff.mp h
    intro id hid
    rcases List.mem_append.mp hid with hid | hid
    · exact Shape.schema_ok field.type.shape hfield id hid
    · exact compileEntries_ok rest hrest id hid
end

theorem Properties.schemas_error {expand : Expansion} {properties : Properties} {e : Error}
    (h : properties.schemas expand = .error e) :
    ∃ id ∈ properties.references, expand id = .error e := by
  rw [Properties.schemas, bind_pure_eq_error_iff] at h
  exact compileEntries_error properties.entries h

theorem Properties.schemas_ok {expand : Expansion} {properties : Properties}
    {schemas : OrderedMap Schema} (h : properties.schemas expand = .ok schemas) :
    ∀ id ∈ properties.references, ∃ found, expand id = .ok found := by
  obtain ⟨entries, hentries, _⟩ := bind_eq_ok_iff.mp h
  exact compileEntries_ok properties.entries hentries

theorem FieldType.parameterSchema_error {expand : Expansion} {type : FieldType} {e : Error}
    (h : type.parameterSchema expand = .error e) :
    ∃ id ∈ type.shape.references, expand id = .error e := by
  rw [FieldType.parameterSchema_eq, bind_pure_eq_error_iff] at h
  exact type.shape.schema_error h

theorem FieldType.parameterSchema_ok {expand : Expansion} {type : FieldType} {schema : Schema}
    (h : type.parameterSchema expand = .ok schema) :
    ∀ id ∈ type.shape.references, ∃ found, expand id = .ok found := by
  rw [FieldType.parameterSchema_eq] at h
  obtain ⟨base, hbase, _⟩ := bind_eq_ok_iff.mp h
  exact type.shape.schema_ok hbase

end ApiDocs
