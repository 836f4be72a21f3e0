import ApiDocs.Proofs.Effect
import ApiDocs.Proofs.Field.Validity
import ApiDocs.Proofs.OrderedMap
import ApiDocs.Registry
/-!
# The registry as the record of its calls

A registry is filled by calls, some of which are refused. A call checks before it writes, so a
refused one changes nothing, and an admitted one is final: under every id the registry holds the
properties of the first call for this id that was admitted.
-/
namespace ApiDocs.Registry

variable {r r' : Registry} {id : String} {properties : Properties} {e : Error}

theorem get?_of_not_contains (h : ¬ r.contains id) : r.schemas.get? id = none :=
  Option.not_isSome_iff_eq_none.mp h

theorem properties_eq_ok_iff :
    r.properties id = .ok properties ↔ r.schemas.get? id = some properties := by
  unfold Registry.properties
  cases r.schemas.get? id <;> simp

theorem properties_eq_error_iff :
    r.properties id = .error e ↔ ¬ r.contains id ∧ e = .unresolvedReference id := by
  unfold Registry.properties contains OrderedMap.contains
  cases r.schemas.get? id <;> simp [eq_comm]

/-- A call that is to register properties under an id. -/
structure Call where
  id : String
  properties : Properties

def Call.run (call : Call) : Effect Registry Unit :=
  register call.id call.properties

/-- An id that is taken is reported, whatever the properties are. Under a free id the properties
are written if they pass their check. -/
theorem attempt_register (id : String) (properties : Properties) (r : Registry) :
    (register id properties).attempt r =
      if r.contains id then (.error (.definition id schemaLocation id .repeatedId), r)
      else match properties.check propertyLocation id with
        | .ok _ => (.ok (), ⟨r.schemas.insert id properties⟩)
        | .error e => (.error e, r) := by
  change Effect.attempt (if r.contains id then _ else _) r = _
  by_cases hid : r.contains id
  · rw [if_pos hid, if_pos hid]
    rfl
  · rw [if_neg hid, if_neg hid, Effect.attempt_lift_bind]
    cases properties.check propertyLocation id <;> rfl

theorem register_eq_ok_iff {u : Unit} :
    register id properties r = .ok u r' ↔
      ¬ r.contains id ∧ properties.WellFormed ∧ r' = ⟨r.schemas.insert id properties⟩ := by
  have hcheck : properties.check propertyLocation id = .ok () ↔ properties.WellFormed :=
    Properties.check_eq_ok_iff
  rw [← Effect.attempt_eq_ok_iff, attempt_register, ← hcheck]
  by_cases hid : r.contains id
  · simp [hid]
  · cases properties.check propertyLocation id <;> simp [hid, eq_comm]

theorem register_eq_error_iff :
    register id properties r = .error e r' ↔
      (if r.contains id then e = .definition id schemaLocation id .repeatedId
        else properties.check propertyLocation id = .error e) ∧ r' = r := by
  rw [← Effect.attempt_eq_error_iff, attempt_register]
  by_cases hid : r.contains id
  · simp [hid, eq_comm]
  · cases properties.check propertyLocation id <;> simp [hid, eq_comm]

theorem exists_register_eq_error_iff :
    (∃ e r', register id properties r = .error e r') ↔
      r.contains id ∨ ¬ properties.WellFormed := by
  rw [Effect.exists_eq_error_iff]
  simp only [register_eq_ok_iff, exists_and_left, exists_eq, and_true, exists_const]
  tauto

/-- The registry that calls make of the empty one, when they are made one after another. -/
def afterCalls (calls : List Call) : Registry :=
  calls.foldl (fun r call => (call.run.attempt r).2) {}

/-- The calls that succeed, in order, when they are made one after another. -/
def admitted (r : Registry) : List Call → List Call
  | [] => []
  | call :: rest =>
    match call.run.attempt r with
    | (.ok _, r') => call :: r'.admitted rest
    | (.error _, r') => r'.admitted rest

theorem Call.attempt_of_ok {call : Call} (h : call.run r = .ok () r') :
    call.run.attempt r = (.ok (), ⟨r.schemas.insert call.id call.properties⟩) := by
  obtain ⟨_, _, rfl⟩ := register_eq_ok_iff.mp h
  exact Effect.attempt_eq_ok_iff.mpr h

theorem Call.attempt_of_error {call : Call} (h : call.run r = .error e r') :
    call.run.attempt r = (.error e, r) := by
  obtain ⟨_, rfl⟩ := register_eq_error_iff.mp h
  exact Effect.attempt_eq_error_iff.mpr h

/-- What stands under an id stays there, and what comes under it is the first call that succeeds. -/
theorem get?_foldl_attempt (r : Registry) (calls : List Call) (id : String) :
    (calls.foldl (fun r call => (call.run.attempt r).2) r).schemas.get? id =
      (r.schemas.get? id).or
        (((r.admitted calls).find? fun call => call.id = id).map Call.properties) := by
  induction calls generalizing r with
  | nil => simp [admitted]
  | cons call rest ih =>
    rw [List.foldl_cons, ih, admitted]
    cases h : call.run r with
    | error e r' => rw [Call.attempt_of_error h]
    | ok _ r' =>
      rw [Call.attempt_of_ok h]
      have hfree := (register_eq_ok_iff.mp h).1
      -- an admitted id was free, so its own call is the first one for it
      rw [OrderedMap.get?_insert]
      by_cases hid : id = call.id
      · subst hid
        simp [get?_of_not_contains hfree]
      · simp [hid, Ne.symm hid]

/-- A call keeps all registered properties well formed. -/
theorem Call.forall_wellFormed (h : ∀ entry ∈ r.schemas.entries, entry.2.WellFormed)
    (call : Call) : ∀ entry ∈ (call.run.attempt r).2.schemas.entries, entry.2.WellFormed := by
  cases hcall : call.run r with
  | error e r' =>
    rw [Call.attempt_of_error hcall]
    exact h
  | ok _ r' =>
    rw [Call.attempt_of_ok hcall]
    have hproperties := (register_eq_ok_iff.mp hcall).2.1
    exact OrderedMap.forall_mem_insert hproperties h call.id

theorem forall_wellFormed_afterCalls (calls : List Call) :
    ∀ entry ∈ (afterCalls calls).schemas.entries, entry.2.WellFormed := by
  induction calls using List.reverseRecOn with
  | nil => exact List.forall_mem_nil _
  | append_singleton front call ih =>
    rw [afterCalls, List.foldl_append]
    exact call.forall_wellFormed ih

/-- The properties under an id, in terms of the first call for it that succeeded. -/
theorem properties_afterCalls (calls : List Call) (id : String) :
    (afterCalls calls).properties id =
      match (admitted {} calls).find? fun call => call.id = id with
      | some call => .ok call.properties
      | none => .error (.unresolvedReference id) := by
  have hget := get?_foldl_attempt {} calls id
  rw [Registry.properties, afterCalls, hget]
  cases (admitted {} calls).find? fun call => call.id = id <;> rfl

/-- What a registry tells of the calls that made it, and how it answers the next one. -/
structure Records (r : Registry) (calls : List Call) : Prop where
  refused_iff : ∀ call : Call, (∃ e r', call.run r = .error e r') ↔
    r.contains call.id ∨ ¬ call.properties.WellFormed
  repeated : ∀ call : Call, r.contains call.id → (call.run.attempt r).1 =
    .error (.definition call.id schemaLocation call.id .repeatedId)
  flawed : ∀ call : Call, ¬ r.contains call.id → ∀ e, (call.run.attempt r).1 = .error e ↔
    call.properties.check propertyLocation call.id = .error e
  unchanged : ∀ (call : Call) e r', call.run r = .error e r' → r' = r
  wellFormed : ∀ entry ∈ r.schemas.entries, entry.2.WellFormed
  properties_eq : ∀ id, r.properties id =
    match (admitted {} calls).find? fun call => call.id = id with
    | some call => .ok call.properties
    | none => .error (.unresolvedReference id)

/-- Whatever calls were made, the registry holds the properties of the first successful call for
each id, all well formed, and refuses exactly what it has and what is not well formed, without a
trace. -/
theorem records_afterCalls (calls : List Call) : (afterCalls calls).Records calls where
  refused_iff _ := exists_register_eq_error_iff
  repeated call h := by
    rw [Call.run, attempt_register, if_pos h]
  flawed call h e := by
    rw [Call.run, attempt_register, if_neg h]
    cases call.properties.check propertyLocation call.id <;> simp
  unchanged _ _ _ h := (register_eq_error_iff.mp h).2
  wellFormed := forall_wellFormed_afterCalls calls
  properties_eq := properties_afterCalls calls

/-- An id that is taken and a blank name below a good one are refused. -/
example :
    let text : Field := { type := { shape := .scalar .string } }
    afterCalls [⟨"Pet", {}⟩, ⟨"Pet", ⟨[("name", text)]⟩⟩, ⟨"Tag", ⟨[("a", text), (" ", text)]⟩⟩] =
      ⟨⟨[("Pet", {})]⟩⟩ :=
  rfl

end ApiDocs.Registry
