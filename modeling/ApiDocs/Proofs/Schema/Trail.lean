import ApiDocs.Proofs.Schema.Expansion
/-!
# One trail for a whole walk

The schemas that are being expanded can be kept on a single trail that all parts of a mapping
share: a reference puts its schema at the end, and takes the end off again when its properties are
done. Whatever lies below, such a walk leaves the trail as it found it, so it ends as the
compilation that hands every reference a trail of its own.
-/
namespace ApiDocs.Registry

mutual
/-- A walk over a shape takes a trail, ends with a schema or an error, and leaves a trail. -/
inductive Walks (r : Registry) : List String → Shape → Except Error Schema → List String → Prop
  | scalar {trail : List String} (kind : Scalar) :
    r.Walks trail (.scalar kind) (.ok { type := kind.name }) trail
  | enum {trail : List String} (values : List String) :
    r.Walks trail (.enum values) (.ok { type := "string", enum := some values }) trail
  | time {trail : List String} (granularity : Granularity) :
    r.Walks trail (.time granularity) (.ok { type := "string" }) trail
  | object {trail trail' : List String} {properties : Properties}
    {result : Except Error (List (String × Schema))} :
    r.WalksEntries trail properties.entries result trail' →
      r.Walks trail (.object properties) (result.map fun schemas => Schema.object ⟨schemas⟩) trail'
  | cycle {trail : List String} {id : String} : id ∈ trail →
    r.Walks trail (.reference id) (.error (.cyclicReference (trail ++ [id]))) trail
  | missing {trail : List String} {id : String} {e : Error} :
    id ∉ trail → r.properties id = .error e → r.Walks trail (.reference id) (.error e) trail
  | reference {trail trail' : List String} {id : String} {properties : Properties}
    {result : Except Error (List (String × Schema))} :
    id ∉ trail → r.properties id = .ok properties →
      r.WalksEntries (trail ++ [id]) properties.entries result trail' →
      r.Walks trail (.reference id) (result.map fun schemas => Schema.object ⟨schemas⟩)
        trail'.dropLast
  | collection {trail trail' : List String} {item : Typed Shape} {result : Except Error Schema} :
    r.Walks trail item.shape result trail' →
      r.Walks trail (.collection item) (result.map Schema.array) trail'
/-- A walk over entries hands the trail from one to the next and stops at the first error. -/
inductive WalksEntries (r : Registry) : List String → List (String × Field) →
    Except Error (List (String × Schema)) → List String → Prop
  | nil {trail : List String} : r.WalksEntries trail [] (.ok []) trail
  | stop {trail trail' : List String} {name : String} {field : Field}
    {rest : List (String × Field)} {e : Error} :
    r.Walks trail field.type.shape (.error e) trail' →
      r.WalksEntries trail ((name, field) :: rest) (.error e) trail'
  | next {trail trail' trail'' : List String} {name : String} {field : Field} {schema : Schema}
    {rest : List (String × Field)} {result : Except Error (List (String × Schema))} :
    r.Walks trail field.type.shape (.ok schema) trail' →
      r.WalksEntries trail' rest result trail'' →
      r.WalksEntries trail ((name, field) :: rest)
        (result.map fun schemas => (name, schema.asProperty field) :: schemas) trail''
end

variable {r : Registry}

mutual
/-- A walk restores the trail, and its result is that of compiling on this trail. -/
theorem Walks.ends {trail trail' : List String} {result : Except Error Schema} :
    ∀ {shape : Shape}, r.Walks trail shape result trail' →
      trail' = trail ∧ result = shape.schema (r.expand trail)
  | _, .scalar _ => ⟨rfl, rfl⟩
  | _, .enum _ => ⟨rfl, rfl⟩
  | _, .time _ => ⟨rfl, rfl⟩
  | _, .object h => by
    obtain ⟨rfl, rfl⟩ := h.ends
    exact ⟨rfl, rfl⟩
  | _, .cycle hid => by
    rw [Shape.schema, expand_of_mem hid]
    exact ⟨rfl, rfl⟩
  | _, .missing hid he => by
    rw [Shape.schema, expand_of_notMem hid, he]
    exact ⟨rfl, rfl⟩
  | .reference id, @Walks.reference _ _ _ _ properties found hid hok h => by
    obtain ⟨rfl, hfound⟩ := h.ends
    have hexpand : r.expand trail id = found.map OrderedMap.mk := by
      rw [expand_of_notMem hid, hok, hfound]
      rfl
    rw [Shape.schema, hexpand]
    refine ⟨List.dropLast_concat, ?_⟩
    cases found <;> rfl
  | _, .collection h => by
    obtain ⟨rfl, rfl⟩ := h.ends
    exact ⟨rfl, rfl⟩
theorem WalksEntries.ends {trail trail' : List String}
    {result : Except Error (List (String × Schema))} :
    ∀ {entries : List (String × Field)}, r.WalksEntries trail entries result trail' →
      trail' = trail ∧ result = compileEntries (r.expand trail) entries
  | _, .nil => ⟨rfl, rfl⟩
  | _, .stop h => by
    obtain ⟨rfl, he⟩ := h.ends
    rw [compileEntries_cons, ← he]
    exact ⟨rfl, rfl⟩
  | _, .next h hrest => by
    obtain ⟨rfl, hok⟩ := h.ends
    obtain ⟨rfl, rfl⟩ := hrest.ends
    rw [compileEntries_cons, ← hok]
    exact ⟨rfl, rfl⟩
end

mutual
private theorem exists_walks {trail : List String}
    (h : ∀ id ∉ trail, ∀ properties, r.properties id = .ok properties →
      ∃ result trail', r.WalksEntries (trail ++ [id]) properties.entries result trail') :
    ∀ shape : Shape, ∃ result trail', r.Walks trail shape result trail'
  | .scalar kind => ⟨_, _, .scalar kind⟩
  | .enum values => ⟨_, _, .enum values⟩
  | .time granularity => ⟨_, _, .time granularity⟩
  | .object properties => by
    obtain ⟨result, trail', hwalk⟩ := exists_walksEntries h properties.entries
    exact ⟨_, _, .object hwalk⟩
  | .reference id => by
    by_cases hid : id ∈ trail
    · exact ⟨_, _, .cycle hid⟩
    cases hfound : r.properties id with
    | error e => exact ⟨_, _, .missing hid hfound⟩
    | ok properties =>
      obtain ⟨result, trail', hwalk⟩ := h id hid properties hfound
      exact ⟨_, _, .reference hid hfound hwalk⟩
  | .collection item => by
    obtain ⟨result, trail', hwalk⟩ := exists_walks h item.shape
    exact ⟨_, _, .collection hwalk⟩
private theorem exists_walksEntries {trail : List String}
    (h : ∀ id ∉ trail, ∀ properties, r.properties id = .ok properties →
      ∃ result trail', r.WalksEntries (trail ++ [id]) properties.entries result trail') :
    ∀ entries : List (String × Field), ∃ result trail', r.WalksEntries trail entries result trail'
  | [] => ⟨_, _, .nil⟩
  | (name, field) :: rest => by
    obtain ⟨result, trail', hwalk⟩ := exists_walks h field.type.shape
    -- the rest starts where the first entry did
    obtain rfl := hwalk.ends.1
    obtain ⟨results, trail'', hrest⟩ := exists_walksEntries h rest
    cases result with
    | error e => exact ⟨_, _, .stop hwalk⟩
    | ok schema => exact ⟨_, _, .next hwalk hrest⟩
end

/-- Every walk comes to an end, since references on the way use up the registered schemas. -/
theorem exists_walk (trail : List String) (entries : List (String × Field)) :
    ∃ result trail', r.WalksEntries trail entries result trail' := by
  induction hn : (r.unused trail).length using Nat.strong_induction_on generalizing trail entries
  next n ih =>
    apply exists_walksEntries
    intro id hid properties hok
    have hlt := unused_append_lt hid hok
    exact ih _ (hn ▸ hlt) (trail ++ [id]) properties.entries rfl

/-- On whatever trail a walk begins, it ends as the compilation on that trail, with the trail as it
was. -/
theorem walksEntries_iff {trail trail' : List String} {entries : List (String × Field)}
    {result : Except Error (List (String × Schema))} :
    r.WalksEntries trail entries result trail' ↔
      trail' = trail ∧ result = compileEntries (r.expand trail) entries := by
  constructor
  · exact WalksEntries.ends
  · intro ⟨htrail, hresult⟩
    obtain ⟨result', trail'', hwalk⟩ := r.exists_walk trail entries
    obtain ⟨rfl, rfl⟩ := hwalk.ends
    rwa [htrail, hresult]

end ApiDocs.Registry
