import ApiDocs.Proofs.Text.Search
import ApiDocs.Proofs.Table
import ApiDocs.Versions.Merge
/-!
# Operations and their buckets

The last tag that speaks of a modifier decides the bucket of an operation, and only that tag is
left out of what the bucket shows. While operations are put into layers one after another, each
bucket sees only those that are assigned to it.
-/
namespace ApiDocs

/-- Whether a tag speaks of a modifier. -/
def SpeaksOfModifier (tag : String) : Prop :=
  MergeStrategy.marker.toList <:+: tag.toList

namespace MergeStrategy

/-- A bucket takes an operation and shows it without the tag that decided. -/
def Takes (s : MergeStrategy) (bucket : String) (o shown : Operation) : Prop :=
  ∃ front tag back, o.tags = front ++ tag :: back ∧ SpeaksOfModifier tag ∧
    (∀ t ∈ back, ¬ SpeaksOfModifier t) ∧ s.bucketFor tag = some bucket ∧
    shown = { o with tags := front ++ back }

theorem isMarked_iff {tag : String} : isMarked tag ↔ SpeaksOfModifier tag :=
  Text.contains_iff_infix

theorem takeMarked?_eq_none_iff {tags : List String} :
    takeMarked? tags = none ↔ ∀ t ∈ tags, ¬ SpeaksOfModifier t := by
  induction tags with
  | nil => simp [takeMarked?]
  | cons tag tags ih =>
    cases hrest : takeMarked? tags with
    | some found =>
      have hsome : ¬ ∀ t ∈ tags, ¬ SpeaksOfModifier t := by simp [← ih, hrest]
      simp only [takeMarked?, hrest, reduceCtorEq, false_iff]
      exact fun hall => hsome fun t ht => hall t (List.mem_cons_of_mem _ ht)
    | none =>
      have hnone := ih.mp hrest
      simp only [takeMarked?, hrest, ite_eq_right_iff, reduceCtorEq, imp_false, List.forall_mem_cons,
        isMarked_iff]
      exact ⟨fun h => ⟨h, hnone⟩, fun h => h.1⟩

theorem takeMarked?_eq_some_iff {tags others : List String} {tag : String} :
    takeMarked? tags = some (tag, others) ↔ ∃ front back, tags = front ++ tag :: back ∧
      SpeaksOfModifier tag ∧ (∀ t ∈ back, ¬ SpeaksOfModifier t) ∧ others = front ++ back := by
  induction tags generalizing others with
  | nil => simp [takeMarked?]
  | cons head tags ih =>
    constructor
    · intro h
      cases hrest : takeMarked? tags with
      | some found =>
        obtain ⟨t, rest⟩ := found
        simp only [takeMarked?, hrest, Option.some.injEq, Prod.mk.injEq] at h
        obtain ⟨rfl, rfl⟩ := h
        obtain ⟨front, back, rfl, hmark, hback, rfl⟩ := ih.mp hrest
        exact ⟨head :: front, back, rfl, hmark, hback, rfl⟩
      | none =>
        simp only [takeMarked?, hrest, Option.ite_none_right_eq_some, Option.some.injEq,
          Prod.mk.injEq] at h
        obtain ⟨hmark, rfl, rfl⟩ := h
        exact ⟨[], tags, rfl, isMarked_iff.mp hmark, takeMarked?_eq_none_iff.mp hrest, rfl⟩
    · rintro ⟨front, back, htags, hmark, hback, rfl⟩
      cases front with
      | nil =>
        obtain ⟨rfl, rfl⟩ := List.cons.inj htags
        simp [takeMarked?, takeMarked?_eq_none_iff.mpr hback, isMarked_iff.mpr hmark]
      | cons first front =>
        rw [List.cons_append] at htags
        obtain ⟨rfl, rfl⟩ := List.cons.inj htags
        have hrest := ih.mpr ⟨front, back, rfl, hmark, hback, rfl⟩
        simp [takeMarked?, hrest]

theorem assign?_eq_some_iff {s : MergeStrategy} {p q : Placed} {bucket : String} :
    s.assign? p = some (bucket, q) ↔
      ∃ shown, s.Takes bucket p.operation shown ∧ q = { p with operation := shown } := by
  constructor
  · intro h
    simp only [assign?, Option.bind_eq_bind, Option.bind_eq_some_iff, Option.pure_def,
      Option.some.injEq, Prod.mk.injEq, Prod.exists] at h
    obtain ⟨tag, others, htake, b, hbucket, rfl, rfl⟩ := h
    obtain ⟨front, back, htags, hmark, hback, rfl⟩ := takeMarked?_eq_some_iff.mp htake
    exact ⟨_, ⟨front, tag, back, htags, hmark, hback, hbucket, rfl⟩, rfl⟩
  · rintro ⟨shown, ⟨front, tag, back, htags, hmark, hback, hbucket, rfl⟩, rfl⟩
    have htake := takeMarked?_eq_some_iff.mpr ⟨front, back, htags, hmark, hback, rfl⟩
    simp [assign?, htake, hbucket]

/-- The bucket that the deciding tag of an operation names. -/
def bucket? (s : MergeStrategy) (o : Operation) : Option String :=
  (takeMarked? o.tags).bind fun found => s.bucketFor found.1

def takes (s : MergeStrategy) (bucket : String) (o : Operation) : Bool :=
  s.bucket? o == some bucket

/-- An operation without the tag that decides. -/
def bare (o : Operation) : Operation :=
  ((takeMarked? o.tags).map fun found => { o with tags := found.2 }).getD o

theorem takes_iff {s : MergeStrategy} {bucket : String} {o shown : Operation} :
    s.Takes bucket o shown ↔ s.takes bucket o ∧ shown = bare o := by
  rw [takes, beq_iff_eq]
  constructor
  · rintro ⟨front, tag, back, htags, hmark, hback, hbucket, rfl⟩
    have htake := takeMarked?_eq_some_iff.mpr ⟨front, back, htags, hmark, hback, rfl⟩
    simp [bucket?, bare, htake, hbucket]
  · rintro ⟨hbucket, rfl⟩
    obtain ⟨⟨tag, others⟩, htake, htag⟩ := Option.bind_eq_some_iff.mp hbucket
    obtain ⟨front, back, htags, hmark, hback, rfl⟩ := takeMarked?_eq_some_iff.mp htake
    exact ⟨front, tag, back, htags, hmark, hback, htag, by simp [bare, htake]⟩

/-- What a bucket shows of an operation, if it takes it. -/
def taken? (s : MergeStrategy) (bucket : String) (p : Placed) : Option Placed :=
  (s.assign? p).bind fun found => if found.1 = bucket then some found.2 else none

theorem taken?_eq_some_iff {s : MergeStrategy} {bucket : String} {p q : Placed} :
    s.taken? bucket p = some q ↔
      ∃ shown, s.Takes bucket p.operation shown ∧ q = { p with operation := shown } := by
  rw [← assign?_eq_some_iff]
  cases h : s.assign? p with
  | none => simp [taken?, h]
  | some found =>
    obtain ⟨b, r⟩ := found
    by_cases hb : b = bucket <;> simp [taken?, h, hb]

theorem taken?_eq (s : MergeStrategy) (bucket : String) (p : Placed) : s.taken? bucket p =
    if s.takes bucket p.operation then some { p with operation := bare p.operation }
    else none := by
  by_cases htakes : s.takes bucket p.operation
  · rw [if_pos htakes, taken?_eq_some_iff]
    exact ⟨_, takes_iff.mpr ⟨htakes, rfl⟩, rfl⟩
  · rw [if_neg htakes, Option.eq_none_iff_forall_ne_some]
    intro q hq
    obtain ⟨shown, hshown, _⟩ := taken?_eq_some_iff.mp hq
    exact htakes (takes_iff.mp hshown).1

/-- Placing one operation changes the layer of the bucket that takes it and no other. -/
theorem get?_place (s : MergeStrategy) (layers : OrderedMap Layer) (p : Placed)
    (bucket : String) : (s.place layers p).get? bucket =
      (layers.get? bucket).map fun layer => (s.taken? bucket p).toList.foldl Layer.put layer := by
  cases h : s.assign? p with
  | none => simp [place, taken?, h]
  | some found =>
    obtain ⟨b, q⟩ := found
    cases hb : layers.get? b with
    | none =>
      by_cases heq : b = bucket
      · subst heq
        simp [place, taken?, h, hb]
      · simp [place, taken?, h, hb, heq]
    | some layer =>
      by_cases heq : b = bucket
      · subst heq
        simp [place, taken?, h, hb, OrderedMap.get?_insert]
      · simp [place, taken?, h, hb, OrderedMap.get?_insert, heq, Ne.symm heq]

theorem keys_place (s : MergeStrategy) (layers : OrderedMap Layer) (p : Placed) :
    (s.place layers p).keys = layers.keys := by
  unfold place
  split
  · rfl
  · split
    · rfl
    · next hlayer => rw [OrderedMap.keys_insert, if_pos (OrderedMap.mem_keys_of_get? hlayer)]

theorem keys_foldl_place (s : MergeStrategy) (placed : List Placed) (layers : OrderedMap Layer) :
    (placed.foldl s.place layers).keys = layers.keys := by
  induction placed generalizing layers with
  | nil => rfl
  | cons p placed ih => rw [List.foldl_cons, ih, keys_place]

/-- After all operations were placed, a bucket holds those that it takes, put in their order. -/
theorem get?_foldl_place (s : MergeStrategy) (placed : List Placed) (layers : OrderedMap Layer)
    (bucket : String) : (placed.foldl s.place layers).get? bucket =
      (layers.get? bucket).map fun layer =>
        (placed.filterMap (s.taken? bucket)).foldl Layer.put layer := by
  induction placed generalizing layers with
  | nil => simp
  | cons p placed ih =>
    rw [List.foldl_cons, ih, get?_place, Option.map_map]
    cases h : s.taken? bucket p <;> simp [h, Function.comp_def]

end MergeStrategy
end ApiDocs
