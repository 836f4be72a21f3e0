import ApiDocs.Proofs.Json.Record
import ApiDocs.Proofs.Json.RoundTrip
/-!
# Values of finite numbers

Every number that a text gives is an integer that is kept exactly or a finite double. Records that
are read from such values are written as such values again.
-/
namespace ApiDocs

namespace Double

variable {x y : Double}

theorem isFinite_of_ofNat? {n : Nat} (h : ofNat? n = some x) : x.IsFinite :=
  isFinite_of_nearest Nat.one_pos h

theorem isFinite_of_mul {z : Double} (h : x.mul y = some z) : z.IsFinite :=
  isFinite_of_nearest (downScale_pos _) h

theorem isFinite_of_div {z : Double} (hy : 0 < y.significand) (h : x.div y = some z) : z.IsFinite :=
  isFinite_of_nearest (Nat.mul_pos hy (downScale_pos _)) h

end Double

namespace Json

private theorem significand_powerOfTen? {n : Nat} {p : Double} (h : powerOfTen? n = some p) :
    0 < p.significand := by
  rw [powerOfTen?] at h
  split at h
  · obtain ⟨_, hlower⟩ := Double.magnitude_ofNat? (Nat.pow_pos (by decide)) h
    rw [Nat.pos_iff_ne_zero]
    intro hzero
    rw [Double.magnitude, hzero, Nat.cast_zero, zero_mul] at hlower
    norm_num at hlower
  · cases h

private theorem isFinite_of_scaleByTen {x y : Double} {exponent : Int} (hx : x.IsFinite)
    (h : scaleByTen x exponent = some y) : y.IsFinite := by
  rw [scaleByTen] at h
  split at h
  · exact Option.some.inj h ▸ hx
  split at h
  · obtain ⟨p, _, hmul⟩ := Option.bind_eq_some_iff.mp h
    exact Double.isFinite_of_mul hmul
  split at h
  · obtain ⟨p, hp, hdiv⟩ := Option.bind_eq_some_iff.mp h
    exact Double.isFinite_of_div (significand_powerOfTen? hp) hdiv
  · obtain ⟨p, _, h⟩ := Option.bind_eq_some_iff.mp h
    obtain ⟨z, _, h⟩ := Option.bind_eq_some_iff.mp h
    dsimp only at h
    split at h
    · obtain ⟨q, hq, hdiv⟩ := Option.bind_eq_some_iff.mp h
      exact Double.isFinite_of_div (significand_powerOfTen? hq) hdiv
    · exact Option.some.inj h ▸ Double.isFinite_zero _

private theorem isFinite_of_double? {t : NumberToken} {x : Double} (h : t.double? = some x) :
    x.IsFinite := by
  obtain ⟨y, hy, h⟩ := Option.bind_eq_some_iff.mp h
  obtain ⟨z, hz, h⟩ := Option.bind_eq_some_iff.mp h
  have hfinite := isFinite_of_scaleByTen (Double.isFinite_of_ofNat? hy) hz
  rw [← Option.some.inj h]
  split
  · exact hfinite.neg
  · exact hfinite

private theorem isFinite_of_number? {cs rest : List Char} {v : Json}
    (h : number? cs = some (v, rest)) : v.IsFinite := by
  obtain ⟨⟨t, _⟩, _, h⟩ := Option.bind_eq_some_iff.mp h
  obtain ⟨n, hn, h⟩ := Option.bind_eq_some_iff.mp h
  cases h
  rw [NumberToken.number?] at hn
  split at hn
  · next value hinteger =>
    cases hn
    simp only [NumberToken.integer?, Option.ite_none_right_eq_some, Bool.and_eq_true,
      Option.some.injEq] at hinteger
    obtain ⟨⟨⟨_, hexact⟩, _⟩, rfl⟩ := hinteger
    exact .number hexact
  · obtain ⟨x, hx, rfl⟩ := Option.map_eq_some_iff.mp hn
    exact .number (isFinite_of_double? hx)

section Parts

variable {α : Type} {P : α → Prop}

private theorem items?_forall {item : List Char → Option (α × List Char)}
    (hitem : ∀ {cs v rest}, item cs = some (v, rest) → P v) {bound : Nat} {cs rest : List Char}
    {vs : List α} (h : items? item bound cs = some (vs, rest)) : ∀ v ∈ vs, P v := by
  induction bound generalizing cs vs with
  | zero => cases h
  | succ bound ih =>
    obtain ⟨⟨v, front⟩, hv, h⟩ := Option.bind_eq_some_iff.mp h
    dsimp only at h
    split at h
    · obtain ⟨⟨others, _⟩, hothers, h⟩ := Option.bind_eq_some_iff.mp h
      cases h
      exact List.forall_mem_cons.mpr ⟨hitem hv, ih hothers⟩
    · cases h
      exact List.forall_mem_singleton.mpr (hitem hv)
    · cases h

private theorem members?_forall {value : String → List Char → Option (α × List Char)}
    (hvalue : ∀ {key cs v rest}, value key cs = some (v, rest) → P v) {bound : Nat}
    {cs rest : List Char} {ms : List (String × α)}
    (h : members? value bound cs = some (ms, rest)) : ∀ m ∈ ms, P m.2 := by
  induction bound generalizing cs ms with
  | zero => cases h
  | succ bound ih =>
    obtain ⟨⟨key, _⟩, _, h⟩ := Option.bind_eq_some_iff.mp h
    dsimp only at h
    split at h
    · obtain ⟨⟨v, _⟩, hv, h⟩ := Option.bind_eq_some_iff.mp h
      dsimp only at h
      split at h
      · obtain ⟨⟨others, _⟩, hothers, h⟩ := Option.bind_eq_some_iff.mp h
        cases h
        exact List.forall_mem_cons.mpr ⟨hvalue hv, ih hothers⟩
      · cases h
        exact List.forall_mem_singleton.mpr (hvalue hv)
      · cases h
    · cases h

end Parts

private theorem isFinite_of_inner {levels : Nat} (hinner : ∀ inner, levels = inner + 1 →
    ∀ {cs rest v}, value? inner cs = some (v, rest) → v.IsFinite) {cs rest : List Char} {v : Json}
    (h : value? levels cs = some (v, rest)) : v.IsFinite := by
  rw [value?.eq_def] at h
  dsimp only at h
  split at h
  · cases h
    exact .null
  · cases h
    exact .bool true
  · cases h
    exact .bool false
  · obtain ⟨⟨s, _⟩, _, h⟩ := Option.map_eq_some_iff.mp h
    cases h
    exact .str s
  · split at h
    · cases h
    split at h
    · cases h
      exact .arr (List.forall_mem_nil _)
    · obtain ⟨⟨items, _⟩, hitems, h⟩ := Option.map_eq_some_iff.mp h
      cases h
      exact .arr (items?_forall (hinner _ rfl) hitems)
  · split at h
    · cases h
    split at h
    · cases h
      exact .obj (List.forall_mem_nil _)
    · obtain ⟨⟨members, _⟩, hmembers, h⟩ := Option.map_eq_some_iff.mp h
      cases h
      exact .obj (OrderedMap.forall_mem_ofList (members?_forall (hinner _ rfl) hmembers))
  · exact isFinite_of_number? h

private theorem isFinite_of_value? {levels : Nat} {cs rest : List Char} {v : Json}
    (h : value? levels cs = some (v, rest)) : v.IsFinite := by
  induction levels generalizing cs rest v with
  | zero => exact isFinite_of_inner (fun _ hlevels => absurd hlevels (Nat.succ_ne_zero _).symm) h
  | succ levels ih =>
    apply isFinite_of_inner ?_ h
    rintro _ ⟨⟩ cs rest v hv
    exact ih hv

/-- Whatever is read holds finite numbers only. -/
theorem isFinite_of_parse? {text : String} {v : Json} (h : parse? text = some v) : v.IsFinite := by
  obtain ⟨⟨v, rest⟩, hv, h⟩ := Option.bind_eq_some_iff.mp h
  dsimp only at h
  split at h
  · cases h
    exact isFinite_of_value? hv
  · cases h

/-- What is read from a value of finite numbers is written as such a value. -/
def KeepsFinite {α : Type} (encode : α → Json) (decode : Json → Option α) : Prop :=
  ∀ j a, j.IsFinite → decode j = some a → (encode a).IsFinite

/-- A member that is written holds finite numbers only. -/
def FieldIsFinite (f : Option (String × Json)) : Prop :=
  ∀ m ∈ f, m.2.IsFinite

theorem isFinite_ofFields {fields : List (Option (String × Json))}
    (h : ∀ f ∈ fields, FieldIsFinite f) : (ofFields fields).IsFinite := by
  refine .obj fun m hm => ?_
  obtain ⟨f, hf, hid⟩ := List.mem_filterMap.mp hm
  exact h f hf m hid

theorem fieldIsFinite_of_ofFields {fields : List (Option (String × Json))}
    (h : (ofFields fields).IsFinite) : ∀ f ∈ fields, FieldIsFinite f := by
  intro f hf m hm
  cases h with
  | obj hmembers => exact hmembers m (List.mem_filterMap.mpr ⟨f, hf, hm⟩)

theorem isFinite_ofStrings (values : List String) : (ofStrings values).IsFinite :=
  .arr (List.forall_mem_map.mpr fun value _ => .str value)

theorem fieldIsFinite_field {key : String} {v : Json} (h : v.IsFinite) :
    FieldIsFinite (field key v) := by
  intro m hm
  cases hm
  exact h

theorem fieldIsFinite_field? {α : Type} {key : String} {encode : α → Json} {value : Option α}
    (h : ∀ a ∈ value, (encode a).IsFinite) : FieldIsFinite (field? key encode value) := by
  intro m hm
  obtain ⟨a, ha, rfl⟩ := Option.map_eq_some_iff.mp hm
  exact h a ha

section Codec

variable {α : Type} {encode : α → Json} {decode : Json → Option α}

private theorem forall_of_mapM {β : Type} {f : β → Option α} {P : α → Prop} {items : List β}
    (hf : ∀ b ∈ items, ∀ a, f b = some a → P a) {values : List α}
    (h : items.mapM f = some values) : ∀ a ∈ values, P a := by
  induction items generalizing values with
  | nil =>
    cases h
    exact List.forall_mem_nil _
  | cons b items ih =>
    obtain ⟨hb, hitems⟩ := List.forall_mem_cons.mp hf
    rw [List.mapM_cons] at h
    obtain ⟨a, ha, h⟩ := Option.bind_eq_some_iff.mp h
    obtain ⟨others, hothers, h⟩ := Option.bind_eq_some_iff.mp h
    cases h
    exact List.forall_mem_cons.mpr ⟨hb a ha, ih hitems hothers⟩

theorem KeepsFinite.listOf? (h : KeepsFinite encode decode) :
    KeepsFinite (fun items => .arr (items.map encode)) (listOf? decode) := by
  intro j items hj hread
  cases hj with
  | arr hitems =>
    refine .arr (List.forall_mem_map.mpr ?_)
    exact forall_of_mapM (fun v hv a ha => h v a (hitems v hv) ha) hread
  | _ => cases hread

theorem KeepsFinite.mapOf? (h : KeepsFinite encode decode) :
    KeepsFinite (ofMap encode) (mapOf? decode) := by
  intro j m hj hread
  cases hj with
  | obj hmembers =>
    obtain ⟨entries, hentries, hread⟩ := Option.bind_eq_some_iff.mp hread
    cases hread
    refine .obj (List.forall_mem_map.mpr ?_)
    refine forall_of_mapM (fun v hv e he => ?_) hentries
    obtain ⟨a, ha, rfl⟩ := Option.map_eq_some_iff.mp he
    exact h v.2 a (hmembers v hv) ha
  | _ => cases hread

/-- All values that a record can be asked for hold finite numbers only. -/
def Record.IsFinite (r : Record) : Prop :=
  ∀ position name v, r.lookup position name = some v → v.IsFinite

theorem IsFinite.record? {j : Json} (hj : j.IsFinite) {count : Nat} {r : Record}
    (h : j.record? count = some r) : r.IsFinite := by
  intro position name v hv
  cases hj with
  | obj hmembers =>
    cases h
    exact hmembers _ (OrderedMap.mem_entries_of_find? hv)
  | arr hitems =>
    rw [Json.record?] at h
    split at h
    · cases h
      exact hitems v (List.mem_of_getElem? hv)
    · cases h
  | _ => cases h

namespace Record

variable {r : Record} {position : Nat} {name : String}

theorem IsFinite.required (hr : r.IsFinite) (hkeeps : KeepsFinite encode decode) {a : α}
    (h : r.required position name decode = some a) : (encode a).IsFinite := by
  obtain ⟨v, hv, ha⟩ := Option.bind_eq_some_iff.mp h
  exact hkeeps v a (hr _ _ v hv) ha

theorem IsFinite.optional (hr : r.IsFinite) (hkeeps : KeepsFinite encode decode) {value : Option α}
    (h : r.optional position name decode = some value) : ∀ a ∈ value, (encode a).IsFinite := by
  rintro a rfl
  obtain ⟨v, hv, ha⟩ := lookup_of_optional h
  exact hkeeps v a (hr _ _ v hv) ha

theorem IsFinite.defaulted (hr : r.IsFinite) (hkeeps : KeepsFinite encode decode) {default a : α}
    (hdefault : (encode default).IsFinite)
    (h : r.defaulted position name default decode = some a) : (encode a).IsFinite := by
  rw [Record.defaulted] at h
  split at h
  · next v hv => exact hkeeps v a (hr _ _ v hv) h
  · exact Option.some.inj h ▸ hdefault

end Record
end Codec

end Json
end ApiDocs
