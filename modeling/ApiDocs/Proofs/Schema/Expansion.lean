import ApiDocs.Proofs.Registry.History
import ApiDocs.Proofs.Schema.References
import Mathlib.Data.List.Chain
/-!
# What expansion finds

Compiling fields expands their references along the graph of registered schemas. It succeeds
exactly when every schema that can be reached is registered and none can be reached from itself;
otherwise it names a chain that closes a cycle or a schema that nobody registered.
-/
namespace ApiDocs.Registry

/-- A registered schema refers to another one. -/
def RefersTo (r : Registry) (id next : String) : Prop :=
  ∃ properties, r.schemas.get? id = some properties ∧ next ∈ properties.references

/-- A schema is among some names or is met on the way from one of them. -/
def Reaches (r : Registry) (roots : List String) (id : String) : Prop :=
  ∃ root ∈ roots, Relation.ReflTransGen r.RefersTo root id

/-- All schemas that names reach are registered, and none of them is on a cycle. -/
def Resolvable (r : Registry) (roots : List String) : Prop :=
  ∀ id, r.Reaches roots id → r.contains id ∧ ¬ Relation.TransGen r.RefersTo id id

/-- A chain of references between different registered schemas that comes back to one of them. -/
structure ClosesCycle (r : Registry) (chain : List String) : Prop where
  edges : chain.IsChain r.RefersTo
  nodup : chain.dropLast.Nodup
  registered : ∀ id ∈ chain.dropLast, r.contains id
  closed : ∃ id ∈ chain.dropLast, chain.getLast? = some id

/-- How a computation that expands some references ends. -/
structure Outcome {α : Type} (r : Registry) (roots : List String) (result : Except Error α) :
    Prop where
  ok_iff : (∃ a, result = .ok a) ↔ r.Resolvable roots
  failure : ∀ e, result = .error e →
    (∃ chain, e = .cyclicReference chain ∧ (∃ root ∈ roots, chain.head? = some root) ∧
      r.ClosesCycle chain) ∨
    ∃ id, e = .unresolvedReference id ∧ r.Reaches roots id ∧ ¬ r.contains id

variable {r : Registry}

private theorem contains_of_get? {id : String} {properties : Properties}
    (h : r.schemas.get? id = some properties) : r.contains id := by
  simp [contains, OrderedMap.contains, h]

theorem expand_of_mem {trail : List String} {id : String} (h : id ∈ trail) :
    r.expand trail id = .error (.cyclicReference (trail ++ [id])) := by
  rw [expand, dif_pos h]

/-- Off the trail the properties of a schema are looked up and compiled one step further on. -/
theorem expand_of_notMem {trail : List String} {id : String} (h : id ∉ trail) :
    r.expand trail id =
      (r.properties id >>= fun properties => properties.schemas (r.expand (trail ++ [id]))) := by
  rw [expand, dif_neg h]
  split
  · next e he =>
    rw [he]
    rfl
  · next properties hok =>
    rw [hok]
    rfl

/-- An expansion succeeds where the properties of a schema that is not on the trail compile. -/
theorem expand_eq_ok_iff {trail : List String} {id : String} {schemas : OrderedMap Schema} :
    r.expand trail id = .ok schemas ↔ id ∉ trail ∧ ∃ properties,
      r.schemas.get? id = some properties ∧
      properties.schemas (r.expand (trail ++ [id])) = .ok schemas := by
  by_cases hid : id ∈ trail
  · simp [expand_of_mem hid, hid]
  · rw [expand_of_notMem hid, bind_eq_ok_iff]
    simp [hid, properties_eq_ok_iff]

theorem expand_error {trail : List String} {id : String} {e : Error}
    (h : r.expand trail id = .error e) :
    (id ∈ trail ∧ e = .cyclicReference (trail ++ [id])) ∨
    (¬ r.contains id ∧ e = .unresolvedReference id) ∨
    (id ∉ trail ∧ ∃ next, r.RefersTo id next ∧ r.expand (trail ++ [id]) next = .error e) := by
  by_cases hid : id ∈ trail
  · rw [expand_of_mem hid] at h
    exact .inl ⟨hid, (Except.error.inj h).symm⟩
  · rw [expand_of_notMem hid, bind_eq_error_iff] at h
    rcases h with hproperties | ⟨properties, hok, h⟩
    · exact .inr (.inl (properties_eq_error_iff.mp hproperties))
    · obtain ⟨next, hnext, he⟩ := Properties.schemas_error h
      exact .inr (.inr ⟨hid, next, ⟨properties, properties_eq_ok_iff.mp hok, hnext⟩, he⟩)

private theorem resolvable_of_successors {id : String} (hid : r.contains id)
    (hnext : ∀ next, r.RefersTo id next → r.Resolvable [next]) : r.Resolvable [id] := by
  have hreach : ∀ next last, r.RefersTo id next → Relation.ReflTransGen r.RefersTo next last →
      r.contains last ∧ ¬ Relation.TransGen r.RefersTo last last := by
    intro next last hedge hpath
    exact hnext next hedge last ⟨next, List.mem_singleton_self next, hpath⟩
  rintro last ⟨root, hroot, hpath⟩
  obtain rfl := List.mem_singleton.mp hroot
  rcases Relation.ReflTransGen.cases_head hpath with rfl | ⟨next, hedge, hrest⟩
  · refine ⟨hid, fun hcycle => ?_⟩
    -- a cycle through the schema itself is also one through its successor
    obtain ⟨next, hedge, hback⟩ := Relation.TransGen.head'_iff.mp hcycle
    have hcycle' : Relation.TransGen r.RefersTo next next :=
      Relation.TransGen.tail' hback hedge
    exact (hreach next next hedge .refl).2 hcycle'
  · exact hreach next last hedge hrest

theorem resolvable_of_expand {trail : List String} {id : String} {schemas : OrderedMap Schema}
    (h : r.expand trail id = .ok schemas) : r.Resolvable [id] := by
  induction trail, id using Registry.expand.induct r generalizing schemas with
  | case1 trail id hid =>
    exact absurd hid (expand_eq_ok_iff.mp h).1
  | case2 trail id hid e he =>
    obtain ⟨_, properties, hget, _⟩ := expand_eq_ok_iff.mp h
    exact absurd (contains_of_get? hget) (properties_eq_error_iff.mp he).1
  | case3 trail id hid properties hok ih =>
    obtain ⟨_, properties, hget, hschemas⟩ := expand_eq_ok_iff.mp h
    refine resolvable_of_successors (contains_of_get? hget) ?_
    rintro next ⟨properties', hget', hnext⟩
    obtain rfl : properties = properties' := Option.some.inj (hget.symm.trans hget')
    obtain ⟨found, hfound⟩ := Properties.schemas_ok hschemas next hnext
    exact ih next hfound

/-- A failing expansion names a chain that continues its trail and closes a cycle, or a schema
that is missing further on. -/
theorem expand_failure {trail : List String} {id : String} {e : Error}
    (hedges : (trail ++ [id]).IsChain r.RefersTo) (hnodup : trail.Nodup)
    (hregistered : ∀ id ∈ trail, r.contains id) (h : r.expand trail id = .error e) :
    (∃ chain, e = .cyclicReference chain ∧ chain.head? = (trail ++ [id]).head? ∧
      r.ClosesCycle chain) ∨
    ∃ last, e = .unresolvedReference last ∧ Relation.ReflTransGen r.RefersTo id last ∧
      ¬ r.contains last := by
  induction trail, id using Registry.expand.induct r with
  | case1 trail id hid =>
    rcases expand_error h with ⟨_, rfl⟩ | ⟨hmissing, _⟩ | ⟨hnot, _⟩
    · refine .inl ⟨trail ++ [id], rfl, rfl, hedges, ?_, ?_, id, ?_, ?_⟩
      · rw [List.dropLast_concat]
        exact hnodup
      · rw [List.dropLast_concat]
        exact hregistered
      · rw [List.dropLast_concat]
        exact hid
      · exact List.getLast?_concat
    · exact absurd (hregistered id hid) hmissing
    · exact absurd hid hnot
  | case2 trail id hid e' he =>
    have hmissing := properties_eq_error_iff.mp he
    rcases expand_error h with ⟨hmem, _⟩ | ⟨_, rfl⟩ | ⟨_, next, ⟨properties, hget, _⟩, _⟩
    · exact absurd hmem hid
    · exact .inr ⟨id, rfl, .refl, hmissing.1⟩
    · exact absurd (contains_of_get? hget) hmissing.1
  | case3 trail id hid properties hok ih =>
    have hget := properties_eq_ok_iff.mp hok
    have hcontains := contains_of_get? hget
    rcases expand_error h with ⟨hmem, _⟩ | ⟨hmissing, _⟩ | ⟨_, next, hedge, hnext⟩
    · exact absurd hmem hid
    · exact absurd hcontains hmissing
    have hedges' : (trail ++ [id] ++ [next]).IsChain r.RefersTo := by
      rw [List.append_assoc]
      refine List.isChain_split.mpr ⟨hedges, ?_⟩
      exact List.isChain_pair.mpr hedge
    have hnodup' : (trail ++ [id]).Nodup := by
      refine List.nodup_append.mpr ⟨hnodup, by simp, ?_⟩
      intro a ha b hb hab
      rw [List.mem_singleton.mp hb] at hab
      exact hid (hab ▸ ha)
    have hregistered' : ∀ id' ∈ trail ++ [id], r.contains id' := by
      intro id' hmem
      rcases List.mem_append.mp hmem with hmem | hmem
      · exact hregistered id' hmem
      · rw [List.mem_singleton.mp hmem]
        exact hcontains
    rcases ih next hedges' hnodup' hregistered' hnext with
      ⟨chain, rfl, hhead, hcloses⟩ | ⟨last, rfl, hpath, hmissing⟩
    · refine .inl ⟨chain, rfl, ?_, hcloses⟩
      rw [hhead]
      simp
    · exact .inr ⟨last, rfl, .head hedge hpath, hmissing⟩

private theorem reaches_of_chain {first last : String} {between : List String}
    (h : (first :: (between ++ [last])).IsChain r.RefersTo) :
    Relation.TransGen r.RefersTo first last := by
  induction between generalizing first with
  | nil => exact .single (List.isChain_pair.mp h)
  | cons next between ih =>
    have h := List.isChain_cons_cons.mp h
    exact .head h.1 (ih h.2)

/-- A chain that closes a cycle starts where no expansion can succeed. -/
theorem ClosesCycle.not_resolvable {chain roots : List String} (h : r.ClosesCycle chain)
    {root : String} (hroot : root ∈ roots) (hhead : chain.head? = some root) :
    ¬ r.Resolvable roots := by
  intro hresolvable
  obtain ⟨id, hid, hlast⟩ := h.closed
  obtain ⟨before, between, hdrop⟩ := List.append_of_mem hid
  have hchain : chain = before ++ id :: (between ++ [id]) := by
    have hne : chain ≠ [] := by
      rintro rfl
      simp at hlast
    rw [← List.dropLast_append_getLast hne, hdrop]
    simp [List.getLast?_eq_some_getLast hne] at hlast
    simp [hlast]
  have hedges := h.edges
  rw [hchain] at hedges hhead
  have hsplit := List.isChain_split.mp hedges
  have hreaches : Relation.ReflTransGen r.RefersTo root id := by
    cases before with
    | nil =>
      obtain rfl : id = root := by simpa using hhead
      exact .refl
    | cons first before =>
      obtain rfl : first = root := by simpa using hhead
      exact (reaches_of_chain hsplit.1).to_reflTransGen
  exact (hresolvable id ⟨root, hroot, hreaches⟩).2 (reaches_of_chain hsplit.2)

private theorem outcome_of_references {α : Type} {roots : List String} {result : Except Error α}
    (hok : ∀ a, result = .ok a → ∀ id ∈ roots, ∃ found, r.expand [] id = .ok found)
    (herror : ∀ e, result = .error e → ∃ id ∈ roots, r.expand [] id = .error e) :
    r.Outcome roots result := by
  have hfailure : ∀ e, result = .error e →
      (∃ chain, e = .cyclicReference chain ∧ (∃ root ∈ roots, chain.head? = some root) ∧
        r.ClosesCycle chain) ∨
      ∃ id, e = .unresolvedReference id ∧ r.Reaches roots id ∧ ¬ r.contains id := by
    intro e he
    obtain ⟨root, hroot, hexpand⟩ := herror e he
    rcases expand_failure (List.isChain_singleton root) List.nodup_nil (by simp) hexpand with
      ⟨chain, rfl, hhead, hcloses⟩ | ⟨last, rfl, hpath, hmissing⟩
    · exact .inl ⟨chain, rfl, ⟨root, hroot, hhead⟩, hcloses⟩
    · exact .inr ⟨last, rfl, ⟨root, hroot, hpath⟩, hmissing⟩
  refine ⟨⟨?_, ?_⟩, hfailure⟩
  · rintro ⟨a, ha⟩ id ⟨root, hroot, hpath⟩
    obtain ⟨found, hfound⟩ := hok a ha root hroot
    exact resolvable_of_expand hfound id ⟨root, List.mem_singleton_self root, hpath⟩
  · intro hresolvable
    cases hresult : result with
    | ok a => exact ⟨a, rfl⟩
    | error e =>
      exfalso
      rcases hfailure e hresult with ⟨chain, _, ⟨root, hroot, hhead⟩, hcloses⟩ |
        ⟨id, _, hreaches, hmissing⟩
      · exact hcloses.not_resolvable hroot hhead hresolvable
      · exact hmissing (hresolvable id hreaches).1

/-- Compiling a mapping or a parameter succeeds exactly where its references can be resolved, and
fails with nothing but a cycle that they lead to or a missing schema that they reach. -/
theorem compilation_outcome (r : Registry) :
    (∀ properties : Properties,
      r.Outcome properties.references (r.propertySchemas properties)) ∧
    ∀ field : Field, r.Outcome field.type.shape.references (r.parameterSchema field) := by
  constructor
  · intro properties
    exact outcome_of_references (fun _ h => Properties.schemas_ok h)
      (fun _ h => Properties.schemas_error h)
  · intro field
    exact outcome_of_references (fun _ h => FieldType.parameterSchema_ok h)
      (fun _ h => FieldType.parameterSchema_error h)

end ApiDocs.Registry
