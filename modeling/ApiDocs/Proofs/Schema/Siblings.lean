import ApiDocs.Proofs.Schema.Trail
/-!
# Siblings compile on their own

A mapping compiles as the mappings with one entry do that it is made of. Each schema of the result
is the one that its entry has alone, and a mapping fails as its first entry that fails. The trail
of schemas makes no difference, although a single one can serve all siblings.
-/
namespace ApiDocs

/-- The schema of an entry, under the entry's name. -/
def entrySchema (expand : Expansion) (entry : String × Field) : Except Error (String × Schema) := do
  let schema ← entry.2.type.shape.schema expand
  pure (entry.1, schema.asProperty entry.2)

theorem compileEntries_eq_mapM (expand : Expansion) (entries : List (String × Field)) :
    compileEntries expand entries = entries.mapM (entrySchema expand) := by
  induction entries with
  | nil => rfl
  | cons entry rest ih =>
    rw [compileEntries_cons, ih, List.mapM_cons, entrySchema, bind_assoc]
    rfl

/-- A mapping compiles as each of its entries does in a mapping of its own. -/
structure Properties.EntryByEntry (compile : Properties → Except Error (OrderedMap Schema))
    (properties : Properties) : Prop where
  ok_iff : (∃ schemas, compile properties = .ok schemas) ↔
    ∀ entry ∈ properties.entries, ∃ schemas, compile ⟨[entry]⟩ = .ok schemas
  schemas : ∀ schemas, compile properties = .ok schemas →
    List.Forall₂ (fun entry schema => compile ⟨[entry]⟩ = .ok ⟨[schema]⟩) properties.entries
      schemas.entries
  failure : ∀ e, compile properties = .error e ↔
    FirstFailure (fun entry => compile ⟨[entry]⟩) properties.entries e

section Entries

variable {expand : Expansion} {properties : Properties}

theorem Properties.schemas_eq_ok_iff {schemas : OrderedMap Schema} :
    properties.schemas expand = .ok schemas ↔
      List.Forall₂ (fun entry schema => entrySchema expand entry = .ok schema) properties.entries
        schemas.entries := by
  rw [Properties.schemas, compileEntries_eq_mapM, bind_eq_ok_iff]
  simp only [mapM_eq_ok_iff, pure_eq_ok_iff]
  constructor
  · intro h
    obtain ⟨entries, hentries, h⟩ := h
    exact h ▸ hentries
  · intro h
    exact ⟨schemas.entries, h, rfl⟩

theorem Properties.schemas_eq_error_iff {e : Error} :
    properties.schemas expand = .error e ↔
      FirstFailure (entrySchema expand) properties.entries e := by
  rw [Properties.schemas, bind_pure_eq_error_iff, compileEntries_eq_mapM, mapM_eq_error_iff]

private theorem schemas_singleton (expand : Expansion) (entry : String × Field) :
    Properties.schemas expand ⟨[entry]⟩ = (entrySchema expand entry).map fun s => ⟨[s]⟩ := by
  rw [Properties.schemas, compileEntries_eq_mapM, List.mapM_cons, List.mapM_nil]
  cases entrySchema expand entry <;> rfl

theorem Properties.entryByEntry (expand : Expansion) (properties : Properties) :
    properties.EntryByEntry fun mapping => mapping.schemas expand := by
  refine ⟨?_, ?_, ?_⟩
  · simp only [schemas_singleton, exists_map_eq_ok_iff, ← exists_forall₂_iff]
    constructor
    · intro ⟨schemas, h⟩
      exact ⟨schemas.entries, Properties.schemas_eq_ok_iff.mp h⟩
    · intro ⟨schemas, h⟩
      exact ⟨⟨schemas⟩, Properties.schemas_eq_ok_iff.mpr h⟩
  · intro schemas h
    refine (Properties.schemas_eq_ok_iff.mp h).imp ?_
    intro entry schema hentry
    rw [schemas_singleton, hentry]
    rfl
  · intro e
    simp only [schemas_singleton, firstFailure_map]
    exact Properties.schemas_eq_error_iff

end Entries

/-- Siblings compile independently of each other, wherever they stand, and the walk that uses one
trail for all of them ends in the same way, with the trail as it was. -/
theorem Registry.siblings_independent (r : Registry) (properties : Properties) :
    properties.EntryByEntry r.propertySchemas ∧
    ∀ trail, (properties.EntryByEntry fun mapping => mapping.schemas (r.expand trail)) ∧
      ∀ result trail', r.WalksEntries trail properties.entries result trail' ↔
        trail' = trail ∧ result = compileEntries (r.expand trail) properties.entries :=
  ⟨properties.entryByEntry (r.expand []), fun trail =>
    ⟨properties.entryByEntry (r.expand trail), fun _ _ => walksEntries_iff⟩⟩

end ApiDocs
