import ApiDocs.Proofs.Document.Codec
import ApiDocs.Proofs.Effect
import ApiDocs.Proofs.Versions.Heap
/-!
# Documents in a heap

A heap holds the operations that its documents define, whether a document is written to it as it
is or in its JSON form.
-/
namespace ApiDocs

/-- A document has an operation for a method at a path that names a version. -/
def PathDocument.Defines (d : PathDocument) (version : Nat) (path : String) (m : Method) : Prop :=
  ∃ e ∈ d.entries, Path.splitVersion e.1 = some (version, path) ∧ (e.2.get? m).isSome

namespace VersionHeap

/-- Write documents, one after another. -/
def insertDocuments (h : VersionHeap) (documents : List PathDocument) : VersionHeap :=
  documents.foldl (fun h d => (h.insertDocument d).1) h

private theorem insertEntries_cons (h : VersionHeap) (path : String) (item : PathItem)
    (rest : List (String × PathItem)) :
    (h.insertEntries ((path, item) :: rest)).1 =
      match Path.splitVersion path with
      | some (version, path) => ((h.insert version path item).insertEntries rest).1
      | none => (h.insertEntries rest).1 := by
  rw [insertEntries]
  cases Path.splitVersion path <;> rfl

theorem WellFormed.insertEntries {h : VersionHeap} (hw : h.WellFormed)
    (entries : List (String × PathItem)) : (h.insertEntries entries).1.WellFormed := by
  induction entries generalizing h with
  | nil => exact hw
  | cons e rest ih =>
    obtain ⟨path, item⟩ := e
    rw [insertEntries_cons]
    split
    · next version path' _ => exact ih (hw.insert version path' item)
    · exact ih hw

/-- The operation that an entry of a document defines under a version, a path and a method. -/
def definition? (version : Nat) (path : String) (m : Method) (e : String × PathItem) :
    Option Operation :=
  if Path.splitVersion e.1 = some (version, path) then e.2.get? m else none

/-- After entries were written, the last one that defines an operation shows. -/
theorem WellFormed.operation?_insertEntries {h : VersionHeap} (hw : h.WellFormed)
    (entries : List (String × PathItem)) (v : Nat) (p : String) (m : Method) :
    (h.insertEntries entries).1.operation? v p m =
      (entries.reverse.findSome? (definition? v p m)).or (h.operation? v p m) := by
  induction entries generalizing h with
  | nil => rfl
  | cons e rest ih =>
    obtain ⟨path, item⟩ := e
    rw [insertEntries_cons, List.reverse_cons, List.findSome?_append, Option.or_assoc]
    cases hsplit : Path.splitVersion path with
    | none =>
      have hnone : definition? v p m (path, item) = none := by simp [definition?, hsplit]
      simp only [ih hw, List.findSome?_singleton, hnone, Option.none_or]
    | some place =>
      obtain ⟨version, path'⟩ := place
      simp only [ih (hw.insert version path' item), hw.operation?_insert,
        List.findSome?_singleton]
      congr 1
      by_cases hplace : v = version ∧ p = path'
      · obtain ⟨rfl, rfl⟩ := hplace
        simp [definition?, hsplit]
      · have hplace' : ¬ (version = v ∧ path' = p) := fun he => hplace ⟨he.1.symm, he.2.symm⟩
        simp [definition?, hsplit, hplace, hplace']

private theorem isSome_operation?_insertEntries {h : VersionHeap} (hw : h.WellFormed)
    (entries : List (String × PathItem)) (v : Nat) (p : String) (m : Method) :
    ((h.insertEntries entries).1.operation? v p m).isSome ↔
      (h.operation? v p m).isSome ∨
        ∃ e ∈ entries, Path.splitVersion e.1 = some (v, p) ∧ (e.2.get? m).isSome := by
  have hdefines : ∀ e, (definition? v p m e).isSome ↔
      Path.splitVersion e.1 = some (v, p) ∧ (e.2.get? m).isSome := by
    intro e
    by_cases hsplit : Path.splitVersion e.1 = some (v, p) <;> simp [definition?, hsplit]
  rw [hw.operation?_insertEntries, Option.isSome_or, Bool.or_eq_true, or_comm,
    List.findSome?_isSome_iff]
  simp only [List.mem_reverse, hdefines]

theorem WellFormed.insertDocuments {h : VersionHeap} (hw : h.WellFormed)
    (documents : List PathDocument) : (h.insertDocuments documents).WellFormed := by
  induction documents generalizing h with
  | nil => exact hw
  | cons d rest ih => exact ih (hw.insertEntries d.entries)

/-- A heap holds an operation exactly where it held one before or a document defines one. -/
theorem WellFormed.isSome_operation?_insertDocuments {h : VersionHeap} (hw : h.WellFormed)
    (documents : List PathDocument) (v : Nat) (p : String) (m : Method) :
    ((h.insertDocuments documents).operation? v p m).isSome ↔
      (h.operation? v p m).isSome ∨ ∃ d ∈ documents, d.Defines v p m := by
  induction documents generalizing h with
  | nil => simp [VersionHeap.insertDocuments]
  | cons d rest ih =>
    change (((h.insertEntries d.entries).1.insertDocuments rest).operation? v p m).isSome ↔ _
    rw [ih (hw.insertEntries d.entries), isSome_operation?_insertEntries hw]
    simp only [List.mem_cons, exists_eq_or_imp, PathDocument.Defines, or_assoc]

private theorem itemsOfJson?_toJson (entries : List (String × PathItem)) :
    itemsOfJson? (entries.map fun e => (e.1, PathItem.toJson e.2)) = some entries := by
  induction entries with
  | nil => rfl
  | cons e rest ih =>
    have hobject : (PathItem.toJson e.2).isObject := rfl
    rw [List.map_cons, itemsOfJson?, if_pos hobject, PathItem.ofJson?_toJson, ih]
    rfl

private theorem itemsOfJson?_append (front back : List (String × Json)) :
    itemsOfJson? (front ++ back) = (itemsOfJson? front).bind fun items =>
      (itemsOfJson? back).map fun rest => items ++ rest := by
  induction front with
  | nil => simp [itemsOfJson?]
  | cons e front ih =>
    rw [List.cons_append, itemsOfJson?, itemsOfJson?, ih]
    by_cases hobject : e.2.isObject
    · rw [if_pos hobject, if_pos hobject]
      cases PathItem.ofJson? e.2 with
      | none => rfl
      | some item => cases itemsOfJson? front <;> cases itemsOfJson? back <;> rfl
    · rw [if_neg hobject, if_neg hobject]

theorem mem_itemsOfJson? {members : List (String × Json)}
    {items : List (String × PathItem)} (h : itemsOfJson? members = some items)
    {e : String × PathItem} (he : e ∈ items) :
    ∃ j, (e.1, j) ∈ members ∧ PathItem.ofJson? j = some e.2 := by
  induction members generalizing items with
  | nil =>
    cases h
    cases he
  | cons member rest ih =>
    rw [itemsOfJson?] at h
    split at h
    · simp only [Option.bind_eq_bind, Option.bind_eq_some_iff] at h
      obtain ⟨item, hitem, others, hothers, h⟩ := h
      cases h
      rcases List.mem_cons.mp he with rfl | he
      · exact ⟨member.2, List.mem_cons_self, hitem⟩
      · obtain ⟨j, hj, hread⟩ := ih hothers he
        exact ⟨j, List.mem_cons_of_mem _ hj, hread⟩
    · obtain ⟨j, hj, hread⟩ := ih h he
      exact ⟨j, List.mem_cons_of_mem _ hj, hread⟩

theorem attempt_insertJson (j : Json) (h : VersionHeap) :
    (insertJson j).attempt h = match documentItems? j with
      | some items => (.ok (h.insertEntries items).2, (h.insertEntries items).1)
      | none => (.error foreignItem, h) := by
  rw [insertJson]
  cases documentItems? j <;> rfl

theorem insertJson_eq_ok_iff {h h' : VersionHeap} {j : Json} {count : Nat} :
    insertJson j h = .ok count h' ↔
      ∃ items, documentItems? j = some items ∧ h.insertEntries items = (h', count) := by
  rw [← Effect.attempt_eq_ok_iff, attempt_insertJson]
  cases documentItems? j <;> simp [Prod.ext_iff, and_comm]

/-- A failed attempt leaves the heap, since no item was written before all were read. -/
theorem insertJson_eq_error_iff {h h' : VersionHeap} {j : Json} {e : Error} :
    insertJson j h = .error e h' ↔ documentItems? j = none ∧ e = foreignItem ∧ h' = h := by
  rw [← Effect.attempt_eq_error_iff, attempt_insertJson]
  cases documentItems? j <;> simp [eq_comm]

/-- An object was written to a heap that has a value for a method, under a path of a version,
after which no entry of the object defines that operation. -/
def ReceivesJson (h h' : VersionHeap) (version : Nat) (path : String) (m : Method) (j : Json) :
    Prop :=
  ∃ members count front key fields back, insertJson (.obj members) h = .ok count h' ∧
    members.entries = front ++ (key, .obj fields) :: back ∧
    Path.splitVersion key = some (version, path) ∧ fields.get? m.key = some j ∧
    ∀ e ∈ back, Path.splitVersion e.1 = some (version, path) →
      ∀ item, PathItem.ofJson? e.2 = some item → item.get? m = none

/-- An operation that is received in its JSON form is held as it is. -/
theorem WellFormed.receivesJson {h h' : VersionHeap} (hw : h.WellFormed) {version : Nat}
    {path : String} {m : Method} {o : Operation}
    (hreceives : h.ReceivesJson h' version path m o.toJson) :
    h'.WellFormed ∧ h'.operation? version path m = some o := by
  obtain ⟨members, count, front, key, fields, back, hinsert, hentries, hsplit, hfield, hback⟩ :=
    hreceives
  obtain ⟨items, hitems, hinsert⟩ := insertJson_eq_ok_iff.mp hinsert
  rw [documentItems?, hentries, itemsOfJson?_append] at hitems
  obtain ⟨before, _, hrest⟩ := Option.bind_eq_some_iff.mp hitems
  obtain ⟨after, hafter, rfl⟩ := Option.map_eq_some_iff.mp hrest
  have hobject : (Json.obj fields).isObject := rfl
  rw [itemsOfJson?, if_pos hobject] at hafter
  simp only [Option.bind_eq_bind, Option.bind_eq_some_iff] at hafter
  obtain ⟨item, hitem, later, hlater, hafter⟩ := hafter
  cases hafter
  have hread := PathItem.get?_of_ofJson? hitem m
  rw [hfield, ← Option.map_some, Operation.optionalOf_map_toJson] at hread
  have hnone : later.reverse.findSome? (definition? version path m) = none := by
    rw [List.findSome?_eq_none_iff]
    intro e he
    obtain ⟨j, hj, hitem⟩ := mem_itemsOfJson? hlater (List.mem_reverse.mp he)
    rw [definition?]
    split
    · next hkey => exact hback _ hj hkey _ hitem
    · rfl
  obtain rfl : (h.insertEntries (before ++ (key, item) :: later)).1 = h' := by rw [hinsert]
  refine ⟨hw.insertEntries _, ?_⟩
  rw [hw.operation?_insertEntries, List.reverse_append, List.reverse_cons, List.findSome?_append,
    List.findSome?_append, hnone, Option.none_or, List.findSome?_singleton, definition?,
    if_pos hsplit, ← Option.some.inj hread]
  rfl

/-- A document in its JSON form is written as the document is. -/
theorem insertJson_toJson (h : VersionHeap) (d : PathDocument) :
    insertJson (PathDocument.toJson d) h = .ok (h.insertDocument d).2 (h.insertDocument d).1 :=
  insertJson_eq_ok_iff.mpr ⟨d.entries, itemsOfJson?_toJson d.entries, rfl⟩

end VersionHeap

theorem PathDocument.toJson_injective : Function.Injective PathDocument.toJson := by
  intro d d' h
  have hitems : ∀ d : PathDocument, ∃ members, PathDocument.toJson d = .obj members ∧
      VersionHeap.itemsOfJson? members.entries = some d.entries :=
    fun d => ⟨_, rfl, VersionHeap.itemsOfJson?_toJson d.entries⟩
  obtain ⟨members, hd, hread⟩ := hitems d
  obtain ⟨members', hd', hread'⟩ := hitems d'
  obtain rfl : members = members' := Json.obj.inj (hd.symm.trans (h.trans hd'))
  exact congrArg OrderedMap.mk (Option.some.inj (hread.symm.trans hread'))

end ApiDocs
