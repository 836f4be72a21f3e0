import ApiDocs.Proofs.Document.Finite
import ApiDocs.Proofs.Store.Effect
import ApiDocs.Proofs.Versions.Documents
import ApiDocs.Proofs.Versions.Overlay
/-!
# Heaps of finite numbers

A heap that was loaded from files has its numbers from their texts, and these are finite. So is
every number of a merged document.
-/
namespace ApiDocs

open Json (isFinite_ofFields isFinite_ofStrings fieldIsFinite_field fieldIsFinite_field?)

theorem Operation.isFinite_withTags {o : Operation} (h : o.toJson.IsFinite) (tags : List String) :
    ({ o with tags := tags } : Operation).toJson.IsFinite := by
  have hfields := Json.fieldIsFinite_of_ofFields h
  simp only [List.forall_mem_cons] at hfields
  obtain ⟨hdeprecated, hdescription, hparameters, hbody, hresponses, hsummary, _⟩ := hfields
  apply isFinite_ofFields
  simp only [List.forall_mem_cons]
  exact ⟨hdeprecated, hdescription, hparameters, hbody, hresponses, hsummary,
    fieldIsFinite_field (isFinite_ofStrings tags), List.forall_mem_nil _⟩

namespace PathItem

/-- All operations of an item are written with finite numbers. -/
def IsFinite (item : PathItem) : Prop :=
  ∀ m, ∀ o ∈ item.get? m, o.toJson.IsFinite

theorem isFinite_of_ofJson? {j : Json} (hj : j.IsFinite) {item : PathItem}
    (h : PathItem.ofJson? j = some item) : IsFinite item := by
  obtain ⟨r, hr, h⟩ := Option.bind_eq_some_iff.mp h
  have hrecord := hj.record? hr
  simp only [Option.bind_eq_bind, Option.bind_eq_some_iff] at h
  obtain ⟨get, hget, post, hpost, put, hput, delete, hdelete, patch, hpatch, options, hoptions,
    head, hhead, h⟩ := h
  cases h
  intro m
  cases m with
  | get => exact hrecord.optional Operation.keepsFinite hget
  | post => exact hrecord.optional Operation.keepsFinite hpost
  | put => exact hrecord.optional Operation.keepsFinite hput
  | delete => exact hrecord.optional Operation.keepsFinite hdelete
  | patch => exact hrecord.optional Operation.keepsFinite hpatch
  | options => exact hrecord.optional Operation.keepsFinite hoptions
  | head => exact hrecord.optional Operation.keepsFinite hhead

theorem IsFinite.toJson {item : PathItem} (h : IsFinite item) :
    (PathItem.toJson item).IsFinite := by
  apply isFinite_ofFields
  rw [List.forall_mem_map]
  intro m _
  exact fieldIsFinite_field? (h m)

end PathItem

theorem DocumentRoot.isFinite_document (root : DocumentRoot) (version : Nat) {paths : PathDocument}
    (h : ∀ e ∈ paths.entries, PathItem.IsFinite e.2) :
    (root.document version paths).toJson.IsFinite := by
  have hpaths : (PathDocument.toJson paths).IsFinite :=
    .obj (List.forall_mem_map.mpr fun e he => (h e he).toJson)
  have hservers : (Json.arr ([⟨root.serverUrl⟩].map Server.toJson)).IsFinite := by
    refine .arr (List.forall_mem_singleton.mpr (isFinite_ofFields ?_))
    exact List.forall_mem_singleton.mpr (fieldIsFinite_field (.str root.serverUrl))
  have htags : (Json.arr (root.tags.map Tag.toJson)).IsFinite := by
    refine .arr (List.forall_mem_map.mpr fun tag _ => isFinite_ofFields ?_)
    simp only [List.forall_mem_cons]
    exact ⟨fieldIsFinite_field (.str tag.name), fieldIsFinite_field? fun d _ => .str d,
      List.forall_mem_nil _⟩
  have hinfo : (Info.toJson ⟨root.title, s!"{version}.0"⟩).IsFinite := by
    apply isFinite_ofFields
    simp only [List.forall_mem_cons]
    exact ⟨fieldIsFinite_field (.str _), fieldIsFinite_field (.str _), List.forall_mem_nil _⟩
  apply isFinite_ofFields
  simp only [List.forall_mem_cons]
  exact ⟨fieldIsFinite_field (.str _), fieldIsFinite_field hinfo, fieldIsFinite_field hservers,
    fieldIsFinite_field htags, fieldIsFinite_field hpaths, List.forall_mem_nil _⟩

namespace VersionHeap

/-- A heap as it is loaded from files: well formed, and with finite numbers only. -/
structure IsFinite (h : VersionHeap) : Prop where
  wellFormed : h.WellFormed
  operation : ∀ {v path m o}, h.operation? v path m = some o → o.toJson.IsFinite

theorem isFinite_empty : ({} : VersionHeap).IsFinite :=
  ⟨wellFormed_empty, nofun⟩

theorem IsFinite.insertEntries {h : VersionHeap} (hfinite : h.IsFinite)
    {entries : List (String × PathItem)} (hentries : ∀ e ∈ entries, PathItem.IsFinite e.2) :
    (h.insertEntries entries).1.IsFinite where
  wellFormed := hfinite.wellFormed.insertEntries entries
  operation {v path m o} ho := by
    rw [hfinite.wellFormed.operation?_insertEntries, Option.or_eq_some_iff] at ho
    rcases ho with hfound | ⟨_, hbefore⟩
    · obtain ⟨e, he, hdefined⟩ := List.exists_of_findSome?_eq_some hfound
      rw [definition?, Option.ite_none_right_eq_some] at hdefined
      exact hentries e (List.mem_reverse.mp he) m o hdefined.2
    · exact hfinite.operation hbefore

theorem IsFinite.insertJson {h h' : VersionHeap} (hfinite : h.IsFinite) {j : Json} {count : Nat}
    (hj : j.IsFinite) (hinsert : insertJson j h = .ok count h') : h'.IsFinite := by
  obtain ⟨items, hitems, hinserted⟩ := insertJson_eq_ok_iff.mp hinsert
  obtain rfl : (h.insertEntries items).1 = h' := by rw [hinserted]
  apply hfinite.insertEntries
  cases hj with
  | @obj members hmembers =>
    intro e he
    obtain ⟨v, hv, hread⟩ := mem_itemsOfJson? hitems he
    exact PathItem.isFinite_of_ofJson? (hmembers _ hv) hread
  | _ =>
    cases hitems
    exact List.forall_mem_nil _

end VersionHeap

namespace Store

variable {t t' : FileTree}

private theorem isFinite_of_addFiles {h heap : VersionHeap} (hfinite : h.IsFinite)
    {files : List String} (hadd : addFiles h files t = .ok heap t') : heap.IsFinite := by
  induction files generalizing h with
  | nil =>
    obtain ⟨rfl, _⟩ := Effect.pure_eq_ok_iff.mp hadd
    exact hfinite
  | cons file files ih =>
    rw [addFiles_eq] at hadd
    split at hadd
    · cases hadd
    split at hadd
    · cases hadd
    next document hparse =>
    split at hadd
    · exact ih hfinite hadd
    split at hadd
    · cases hadd
    next hinsert =>
    exact ih (hfinite.insertJson (Json.isFinite_of_parse? hparse) hinsert) hadd

/-- Whatever is loaded holds finite numbers only. -/
theorem isFinite_of_loadHeap {s : Store} {reserved : List String} {heap : VersionHeap}
    (h : s.loadHeap reserved t = .ok heap t') : heap.IsFinite :=
  isFinite_of_addFiles VersionHeap.isFinite_empty h

end Store

namespace VersionHeap

variable {h : VersionHeap} {s : MergeStrategy} {bucket : String} {target : Nat}

private theorem IsFinite.shows (hfinite : h.IsFinite) {v : Nat} {path : String} {m : Method}
    {shown : Operation} (hshows : h.Shows s bucket v path m shown) : shown.toJson.IsFinite := by
  obtain ⟨o, ho, _, _, _, _, _, _, _, rfl⟩ := hshows
  exact Operation.isFinite_withTags (hfinite.operation ho) _

/-- A merged document holds finite numbers only. -/
theorem IsFinite.document (hfinite : h.IsFinite) (root : DocumentRoot) :
    (root.document target (h.layer s bucket target).paths).toJson.IsFinite := by
  apply root.isFinite_document
  intro e he m o ho
  have hcell : Table.cell? (h.layer s bucket target).paths e.1 m = some o := by
    rw [Table.cell?, distinct_paths.mem_entries_iff.mp he]
    exact ho
  obtain ⟨path, w, _, hshows⟩ := shows_of_listed hfinite.wellFormed hcell
  exact hfinite.shows hshows

end VersionHeap
end ApiDocs
