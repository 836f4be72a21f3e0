import ApiDocs.Json.Record
import ApiDocs.Proofs.OrderedMap
/-!
# Reading back what a record writes

A record's object has one member for each field that is present. Looking up a field's name in it
gives the field's value, and each way of reading a field undoes the way in which it was written.
-/
namespace ApiDocs.Json

variable {α : Type}

theorem record?_ofFields (count : Nat) (fields : List (Option (String × Json))) :
    (ofFields fields).record? count = some (.named ⟨fields.filterMap id⟩) :=
  rfl

theorem get?_field (key name : String) (v : Json) (fields : List (Option (String × Json))) :
    OrderedMap.get? ⟨(field key v :: fields).filterMap id⟩ name =
      if key = name then some v else OrderedMap.get? ⟨fields.filterMap id⟩ name := by
  rfl

theorem get?_field? (key name : String) (encode : α → Json) (value : Option α)
    (fields : List (Option (String × Json))) :
    OrderedMap.get? ⟨(field? key encode value :: fields).filterMap id⟩ name =
      if key = name then (value.map encode).or (OrderedMap.get? ⟨fields.filterMap id⟩ name)
      else OrderedMap.get? ⟨fields.filterMap id⟩ name := by
  cases value with
  | none => simp [field?]
  | some v =>
    rw [Option.map_some, Option.some_or]
    exact get?_field key name (encode v) fields

theorem get?_noFields (name : String) :
    OrderedMap.get? ⟨([] : List (Option (String × Json))).filterMap id⟩ name = none :=
  rfl

namespace Record

theorem lookup_named (m : OrderedMap Json) (position : Nat) (name : String) :
    (named m).lookup position name = m.get? name :=
  rfl

theorem required_named (m : OrderedMap Json) (position : Nat) (name : String)
    (decode : Json → Option α) :
    (named m).required position name decode = (m.get? name).bind decode :=
  rfl

section Optional

variable {r : Record} {position : Nat} {name : String} {decode : Json → Option α}

theorem optional_null (h : r.lookup position name = some .null) :
    r.optional position name decode = some none := by
  unfold optional
  rw [h]

theorem optional_some {v : Json} (h : r.lookup position name = some v) (hv : v ≠ .null) :
    r.optional position name decode = (decode v).map some := by
  unfold optional
  rw [h]
  cases v with
  | null => exact absurd rfl hv
  | _ => rfl

/-- A field that is left out is not decoded. -/
theorem optional_absent (h : r.lookup position name = none) (decode' : Json → Option α) :
    r.optional position name decode = r.optional position name decode' := by
  unfold optional
  rw [h]
  cases r <;> rfl

/-- What an optional field gives was decoded from its value. -/
theorem lookup_of_optional {a : α} (h : r.optional position name decode = some (some a)) :
    ∃ v, r.lookup position name = some v ∧ decode v = some a := by
  cases hv : r.lookup position name with
  | none =>
    unfold optional at h
    rw [hv] at h
    cases r <;> cases h
  | some v =>
    by_cases hnull : v = .null
    · rw [hnull] at hv
      rw [optional_null hv] at h
      cases h
    · rw [optional_some hv hnull] at h
      obtain ⟨_, ha, hsome⟩ := Option.map_eq_some_iff.mp h
      cases hsome
      exact ⟨v, rfl, ha⟩

end Optional

/-- What a field reads that may be null or left out. -/
def optionalOf (decode : Json → Option α) : Option Json → Option (Option α)
  | none => some none
  | some .null => some none
  | some v => (decode v).map some

theorem optional_named (m : OrderedMap Json) (position : Nat) (name : String)
    (decode : Json → Option α) :
    (named m).optional position name decode = optionalOf decode (m.get? name) := by
  unfold optional optionalOf
  rw [lookup_named]
  cases m.get? name with
  | none => rfl
  | some v => cases v <;> rfl

/-- An optional field reads what it wrote, if no value is written as null. -/
theorem optionalOf_map {decode : Json → Option α} {encode : α → Json} {value : Option α}
    (hdecode : ∀ a ∈ value, decode (encode a) = some a) (hnull : ∀ a, encode a ≠ .null) :
    optionalOf decode (value.map encode) = some value := by
  cases value with
  | none => rfl
  | some a =>
    have hread : optionalOf decode (some (encode a)) = (decode (encode a)).map some := by
      cases h : encode a with
      | null => exact absurd h (hnull a)
      | _ => rfl
    rw [Option.map_some, hread, hdecode a rfl]
    rfl

theorem defaulted_named (m : OrderedMap Json) (position : Nat) (name : String) (default : α)
    (decode : Json → Option α) :
    (named m).defaulted position name default decode =
      ((m.get? name).map decode).getD (some default) := by
  unfold defaulted
  rw [lookup_named]
  cases m.get? name <;> rfl

end Record

theorem mapM_map_eq_some {β : Type} {decode : β → Option α} {encode : α → β}
    (h : ∀ a, decode (encode a) = some a) (items : List α) :
    (items.map encode).mapM decode = some items := by
  induction items with
  | nil => rfl
  | cons a items ih => simp [h, ih]

theorem listOf?_arr {decode : Json → Option α} {encode : α → Json}
    (h : ∀ a, decode (encode a) = some a) (items : List α) :
    listOf? decode (.arr (items.map encode)) = some items :=
  mapM_map_eq_some h items

theorem listOf?_ofStrings (values : List String) :
    listOf? asString? (ofStrings values) = some values := by
  have hread : ∀ value, asString? (.str value) = some value := fun _ => rfl
  exact listOf?_arr hread values

theorem mapOf?_ofMap {decode : Json → Option α} {encode : α → Json}
    (h : ∀ a, decode (encode a) = some a) (m : OrderedMap α) :
    mapOf? decode (ofMap encode m) = some m := by
  have hentries : (m.entries.map fun e => (e.1, encode e.2)).mapM
      (fun e : String × Json => (decode e.2).map fun v => (e.1, v)) = some m.entries :=
    mapM_map_eq_some (by simp [h]) m.entries
  simp [mapOf?, ofMap, OrderedMap.mapValues, hentries]

end ApiDocs.Json
