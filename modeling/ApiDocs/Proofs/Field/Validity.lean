import ApiDocs.Field.Validity
import ApiDocs.Proofs.Except
import ApiDocs.Proofs.Text.Trim
/-!
# The first flaw of a mapping

A mapping has places at which something can be wrong: the name of every property and every shape
under it, also inside of inline objects and of collections. They have an order, in which a name
comes before its shape and a shape before what is in it. A check accepts a mapping when no place
has a flaw, and reports the first place that has one.
-/
namespace ApiDocs

/-- A shape with its default that has no flaw at any depth. -/
inductive Shape.WellFormed : Option Json → Shape → Prop
  | scalar (default? : Option Json) (kind : Scalar) : WellFormed default? (.scalar kind)
  | time (default? : Option Json) (granularity : Granularity) :
    WellFormed default? (.time granularity)
  | enum {default? : Option Json} {values : List String} : values ≠ [] →
    (∀ value, default? = some (.str value) → value ∈ values) → WellFormed default? (.enum values)
  | reference (default? : Option Json) {schema : String} : Text.trim schema ≠ "" →
    WellFormed default? (.reference schema)
  | object (default? : Option Json) {properties : Properties} :
    (∀ entry ∈ properties.entries, Text.trim entry.1 ≠ "") →
    (∀ entry ∈ properties.entries, WellFormed entry.2.type.default? entry.2.type.shape) →
    WellFormed default? (.object properties)
  | collection (default? : Option Json) {item : Typed Shape} :
    WellFormed item.default? item.shape → WellFormed default? (.collection item)

/-- No name is blank and no shape has a flaw. -/
def Properties.WellFormed (properties : Properties) : Prop :=
  ∀ entry ∈ properties.entries, Text.trim entry.1 ≠ "" ∧
    entry.2.type.shape.WellFormed entry.2.type.default?

/-- What can have a flaw: the name of a property, or a shape with its default. -/
inductive Part where
  | name
  | shape (shape : Shape) (default? : Option Json)

/-- A part of a mapping, with the number of inline objects around it and the name of the property
that it belongs to. -/
structure Place where
  depth : Nat
  name : String
  part : Part

/-- What is wrong at a place itself. -/
inductive Place.HasFlaw : Place → Flaw → Prop
  | blankName {depth : Nat} {name : String} : Text.trim name = "" →
    HasFlaw ⟨depth, name, .name⟩ .blankName
  | emptyEnum {depth : Nat} {name : String} {default? : Option Json} :
    HasFlaw ⟨depth, name, .shape (.enum []) default?⟩ .emptyEnum
  | foreignDefault {depth : Nat} {name value : String} {values : List String} :
    values ≠ [] → value ∉ values →
    HasFlaw ⟨depth, name, .shape (.enum values) (some (.str value))⟩ (.foreignDefault value)
  | blankTarget {depth : Nat} {name schema : String} {default? : Option Json} :
    Text.trim schema = "" →
    HasFlaw ⟨depth, name, .shape (.reference schema) default?⟩ .blankTarget

def Place.IsSound (place : Place) : Prop :=
  ∀ flaw, ¬ place.HasFlaw flaw

mutual
/-- The places of a shape under a name: its own, and then those inside of it. -/
def Shape.places (depth : Nat) (name : String) (default? : Option Json) (shape : Shape) :
    List Place :=
  ⟨depth, name, .shape shape default?⟩ ::
    match shape with
    | .object properties => placesIn (depth + 1) properties.entries
    | .collection item => item.shape.places depth name item.default?
    | .scalar _ => []
    | .enum _ => []
    | .time _ => []
    | .reference _ => []
/-- The places of entries, one entry after another and each name before its shape. -/
def placesIn (depth : Nat) : List (String × Field) → List Place
  | [] => []
  | (name, field) :: rest =>
    ⟨depth, name, .name⟩ :: (field.type.shape.places depth name field.type.default? ++
      placesIn depth rest)
end

def Properties.places (properties : Properties) : List Place :=
  placesIn 0 properties.entries

/-- The location that is reported at a depth: inside of inline objects it is not the outer one. -/
def locationAt (outer : String) : Nat → String
  | 0 => outer
  | _ + 1 => propertyLocation

/-- What a check makes of places in their order: it accepts them if all are sound, and otherwise it
reports the first flaw. -/
inductive Reports (source outer : String) : List Place → Except Error Unit → Prop
  | sound {places : List Place} : (∀ place ∈ places, place.IsSound) →
    Reports source outer places (.ok ())
  | flaw {front back : List Place} {place : Place} {flaw : Flaw} :
    (∀ earlier ∈ front, earlier.IsSound) → place.HasFlaw flaw →
    Reports source outer (front ++ place :: back)
      (.error (.definition source (locationAt outer place.depth) place.name flaw))

namespace Reports

variable {source outer : String} {place : Place} {front back : List Place}
  {first second : Except Error Unit}

theorem cons (hplace : place.IsSound) (h : Reports source outer back second) :
    Reports source outer (place :: back) second := by
  cases h with
  | sound hback => exact .sound (List.forall_mem_cons.mpr ⟨hplace, hback⟩)
  | flaw hfront hflaw =>
    rw [← List.cons_append]
    exact .flaw (List.forall_mem_cons.mpr ⟨hplace, hfront⟩) hflaw

theorem append (h : Reports source outer front first) (hback : Reports source outer back second) :
    Reports source outer (front ++ back) (first >>= fun _ => second) := by
  cases h with
  | flaw hfront hflaw =>
    rw [List.append_assoc, List.cons_append]
    exact .flaw hfront hflaw
  | sound hfront =>
    cases hback with
    | sound hback => exact .sound (List.forall_mem_append.mpr ⟨hfront, hback⟩)
    | flaw hsound hflaw =>
      rw [← List.append_assoc]
      exact .flaw (List.forall_mem_append.mpr ⟨hfront, hsound⟩) hflaw

theorem eq_ok_iff (h : Reports source outer front first) :
    first = .ok () ↔ ∀ place ∈ front, place.IsSound := by
  cases h with
  | sound hfront => exact iff_of_true rfl hfront
  | flaw _ hflaw =>
    refine iff_of_false nofun fun hsound => ?_
    exact hsound _ (List.mem_append_right _ List.mem_cons_self) _ hflaw

theorem of_flaw {flaw : Flaw} (h : place.HasFlaw flaw) :
    Reports source outer (place :: back)
      (.error (.definition source (locationAt outer place.depth) place.name flaw)) :=
  .flaw (List.forall_mem_nil _) h

theorem of_sound (h : place.IsSound) : Reports source outer [place] (.ok ()) :=
  .sound (List.forall_mem_singleton.mpr h)

end Reports

variable {depth : Nat} {name : String} {default? : Option Json}

theorem hasFlaw_name_iff {flaw : Flaw} :
    Place.HasFlaw ⟨depth, name, .name⟩ flaw ↔ Text.allBlank name ∧ flaw = .blankName := by
  rw [← Text.trim_eq_empty_iff]
  constructor
  · intro h
    cases h with
    | blankName hname => exact ⟨hname, rfl⟩
  · intro ⟨hname, hflaw⟩
    exact hflaw ▸ .blankName hname

theorem hasFlaw_reference_iff {schema : String} {flaw : Flaw} :
    Place.HasFlaw ⟨depth, name, .shape (.reference schema) default?⟩ flaw ↔
      Text.allBlank schema ∧ flaw = .blankTarget := by
  rw [← Text.trim_eq_empty_iff]
  constructor
  · intro h
    cases h with
    | blankTarget hschema => exact ⟨hschema, rfl⟩
  · intro ⟨hschema, hflaw⟩
    exact hflaw ▸ .blankTarget hschema

theorem hasFlaw_enum_iff {values : List String} {flaw : Flaw} :
    Place.HasFlaw ⟨depth, name, .shape (.enum values) default?⟩ flaw ↔
      enumFlaw? values default? = some flaw := by
  constructor
  · intro h
    cases h with
    | emptyEnum => rfl
    | foreignDefault hvalues hvalue => simp [enumFlaw?, hvalues, hvalue]
  · intro h
    unfold enumFlaw? at h
    split at h
    · next hvalues =>
      cases h
      rw [List.isEmpty_iff.mp hvalues]
      exact .emptyEnum
    · next hvalues =>
      split at h
      · next value =>
        split at h
        · cases h
        · next hvalue =>
          cases h
          exact .foreignDefault (by simpa using hvalues) hvalue
      · cases h

mutual
theorem Shape.check_reports (source outer name : String) (default? : Option Json) (depth : Nat) :
    ∀ shape : Shape, Reports source outer (shape.places depth name default?)
      (shape.check source (locationAt outer depth) name default?)
  | .scalar kind => .of_sound nofun
  | .time granularity => .of_sound nofun
  | .enum values => by
    rw [Shape.check]
    split
    · next flaw hflaw => exact .of_flaw (hasFlaw_enum_iff.mpr hflaw)
    · next hnone =>
      refine .of_sound fun flaw hflaw => ?_
      rw [hasFlaw_enum_iff.mp hflaw] at hnone
      cases hnone
  | .reference schema => by
    rw [Shape.check]
    split
    · next hschema => exact .of_flaw (hasFlaw_reference_iff.mpr ⟨hschema, rfl⟩)
    · next hschema => exact .of_sound fun flaw hflaw => hschema (hasFlaw_reference_iff.mp hflaw).1
  | .object properties => by
    -- an object has no flaw of its own, and its entries lie one level deeper
    rw [Shape.check, Shape.places]
    exact (checkEntries_reports source outer (depth + 1) properties.entries).cons nofun
  | .collection item => by
    rw [Shape.check, Shape.places]
    exact (Shape.check_reports source outer name item.default? depth item.shape).cons nofun
theorem checkEntries_reports (source outer : String) (depth : Nat) :
    ∀ entries : List (String × Field), Reports source outer (placesIn depth entries)
      (checkEntries source (locationAt outer depth) entries)
  | [] => .sound (List.forall_mem_nil _)
  | (name, field) :: rest => by
    rw [checkEntries, placesIn]
    split
    · next hname => exact .of_flaw (hasFlaw_name_iff.mpr ⟨hname, rfl⟩)
    · next hname =>
      have hshape := Shape.check_reports source outer name field.type.default? depth
        field.type.shape
      refine (hshape.append (checkEntries_reports source outer depth rest)).cons ?_
      exact fun flaw hflaw => hname (hasFlaw_name_iff.mp hflaw).1
end

private theorem isSound_name_iff :
    Place.IsSound ⟨depth, name, .name⟩ ↔ Text.trim name ≠ "" := by
  constructor
  · exact fun h hname => h _ (.blankName hname)
  · intro h flaw hflaw
    cases hflaw with
    | blankName hname => exact h hname

private theorem isSound_reference_iff {schema : String} :
    Place.IsSound ⟨depth, name, .shape (.reference schema) default?⟩ ↔ Text.trim schema ≠ "" := by
  constructor
  · exact fun h hschema => h _ (.blankTarget hschema)
  · intro h flaw hflaw
    cases hflaw with
    | blankTarget hschema => exact h hschema

private theorem isSound_enum_iff {values : List String} :
    Place.IsSound ⟨depth, name, .shape (.enum values) default?⟩ ↔
      values ≠ [] ∧ ∀ value, default? = some (.str value) → value ∈ values := by
  constructor
  · intro h
    have hvalues : values ≠ [] := by
      rintro rfl
      exact h _ .emptyEnum
    refine ⟨hvalues, fun value hdefault => ?_⟩
    by_contra hvalue
    subst hdefault
    exact h _ (.foreignDefault hvalues hvalue)
  · intro ⟨hvalues, hdefault⟩ flaw hflaw
    cases hflaw with
    | emptyEnum => exact hvalues rfl
    | foreignDefault _ hvalue => exact hvalue (hdefault _ rfl)

theorem Shape.wellFormed_object_iff {properties : Properties} :
    Shape.WellFormed default? (.object properties) ↔ properties.WellFormed := by
  constructor
  · intro h entry hentry
    cases h with
    | object _ hnames hshapes => exact ⟨hnames entry hentry, hshapes entry hentry⟩
  · intro h
    exact .object _ (fun entry hentry => (h entry hentry).1) fun entry hentry => (h entry hentry).2

mutual
/-- A shape is well formed when all its places are sound. -/
theorem Shape.wellFormed_iff (default? : Option Json) (depth : Nat) (name : String) :
    ∀ shape : Shape, shape.WellFormed default? ↔
      ∀ place ∈ shape.places depth name default?, place.IsSound
  | .scalar kind => by
    refine iff_of_true (.scalar _ kind) ?_
    rw [Shape.places, List.forall_mem_singleton]
    nofun
  | .time granularity => by
    refine iff_of_true (.time _ granularity) ?_
    rw [Shape.places, List.forall_mem_singleton]
    nofun
  | .enum values => by
    rw [Shape.places, List.forall_mem_singleton, isSound_enum_iff]
    constructor
    · intro h
      cases h with
      | enum hvalues hdefault => exact ⟨hvalues, hdefault⟩
    · exact fun h => .enum h.1 h.2
  | .reference schema => by
    rw [Shape.places, List.forall_mem_singleton, isSound_reference_iff]
    constructor
    · intro h
      cases h with
      | reference _ hschema => exact hschema
    · exact fun h => .reference _ h
  | .object properties => by
    rw [Shape.places, List.forall_mem_cons, Shape.wellFormed_object_iff, Properties.WellFormed,
      wellFormed_entries_iff (depth + 1) properties.entries]
    exact (and_iff_right nofun).symm
  | .collection item => by
    rw [Shape.places, List.forall_mem_cons, and_iff_right nofun,
      ← Shape.wellFormed_iff item.default? depth name item.shape]
    constructor
    · intro h
      cases h with
      | collection _ hitem => exact hitem
    · exact fun h => .collection _ h
theorem wellFormed_entries_iff (depth : Nat) :
    ∀ entries : List (String × Field), (∀ entry ∈ entries, Text.trim entry.1 ≠ "" ∧
      entry.2.type.shape.WellFormed entry.2.type.default?) ↔
      ∀ place ∈ placesIn depth entries, place.IsSound
  | [] => iff_of_true (List.forall_mem_nil _) (List.forall_mem_nil _)
  | (name, field) :: rest => by
    rw [placesIn, List.forall_mem_cons, List.forall_mem_cons, List.forall_mem_append,
      isSound_name_iff, wellFormed_entries_iff depth rest,
      Shape.wellFormed_iff field.type.default? depth name field.type.shape, and_assoc]
end

theorem Properties.wellFormed_iff (properties : Properties) :
    properties.WellFormed ↔ ∀ place ∈ properties.places, place.IsSound :=
  wellFormed_entries_iff 0 properties.entries

theorem Properties.check_reports (properties : Properties) (location source : String) :
    Reports source location properties.places (properties.check location source) :=
  checkEntries_reports source location 0 properties.entries

theorem Properties.check_eq_ok_iff {properties : Properties} {location source : String} :
    properties.check location source = .ok () ↔ properties.WellFormed :=
  (properties.check_reports location source).eq_ok_iff.trans properties.wellFormed_iff.symm

/-- A check either accepts a mapping, which is well formed then, or reports the first of its flaws
with the name of the property at hand and with the location that belongs to its depth. -/
theorem Properties.check_reports_first (properties : Properties) (location source : String) :
    (properties.WellFormed ∧ properties.check location source = .ok ()) ∨
    (¬ properties.WellFormed ∧ ∃ front place back flaw,
      properties.places = front ++ place :: back ∧ (∀ earlier ∈ front, earlier.IsSound) ∧
      place.HasFlaw flaw ∧
      properties.check location source =
        .error (.definition source (locationAt location place.depth) place.name flaw)) := by
  have hreports := properties.check_reports location source
  have hok : properties.check location source = .ok () ↔ properties.WellFormed :=
    Properties.check_eq_ok_iff
  rw [← hok]
  generalize properties.check location source = result at hreports ⊢
  generalize properties.places = places at hreports ⊢
  cases hreports with
  | sound _ => exact .inl ⟨rfl, rfl⟩
  | flaw hfront hflaw => exact .inr ⟨nofun, _, _, _, _, rfl, hfront, hflaw, rfl⟩

end ApiDocs
