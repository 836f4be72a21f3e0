import ApiDocs.Proofs.Store.Effect
import ApiDocs.Proofs.Versions.Order
/-!
# Orders of reading

A heap keeps the last item for each operation, so only items of the same operation need an order.
Files whose documents define no common operation may be read in any order.
-/
namespace ApiDocs

/-- The path items of a value that is read as a document, in the order of its members. -/
def Json.placedItems (j : Json) : List PlacedItem :=
  j.pathMembers.filterMap PlacedItem.ofMember?

namespace FileTree

/-- The path items of the document in a file. -/
def placedItems (t : FileTree) (file : String) : List PlacedItem :=
  match t.readText file with
  | .ok text => ((Json.parse? text).map Json.placedItems).getD []
  | .error _ => []

/-- A file whose text can be added to a heap. -/
def IsLoadable (t : FileTree) (file : String) : Prop :=
  ∃ text j, t.readText file = .ok text ∧ Json.parse? text = some j ∧
    VersionHeap.documentItems? j ≠ none

end FileTree

namespace VersionHeap

/-- What a document adds does not depend on the heap. -/
theorem insertJson_of_ne_none {j : Json} (hread : documentItems? j ≠ none) (h : VersionHeap) :
    insertJson j h = .ok j.pathMembers.length (h.insertItems j.placedItems) := by
  obtain ⟨entries, hentries⟩ := Option.ne_none_iff_exists'.mp hread
  have hinsert := insertJson_eq_ok_iff (h := h).mpr ⟨entries, hentries, rfl⟩
  obtain ⟨items, hitems, hheap, hcount⟩ := items_of_insertJson hinsert
  have hplaced : j.placedItems = items := by
    have hmap := congrArg (List.filterMap id) hitems
    rw [List.filterMap_map, List.filterMap_map] at hmap
    simpa [Json.placedItems] using hmap
  rw [hinsert, hcount, hheap, hplaced]

end VersionHeap

namespace Store

variable {t t' : FileTree}

/-- A file that can be loaded adds its items. -/
theorem addFiles_of_isLoadable {heap : VersionHeap} {file : String} {files : List String}
    (hfile : t.IsLoadable file) : addFiles heap (file :: files) t =
      addFiles (heap.insertItems (t.placedItems file)) files t := by
  obtain ⟨text, j, hread, hparse, hreadable⟩ := hfile
  have hitems : t.placedItems file = j.placedItems := by
    simp [FileTree.placedItems, hread, hparse]
  rw [addFiles_eq, hitems]
  simp only [hread, hparse, VersionHeap.insertJson_of_ne_none hreadable heap]
  cases j <;> rfl

/-- Another file ends the reading. -/
theorem exists_addFiles_error (heap : VersionHeap) {file : String} (files : List String)
    (hfile : ¬ t.IsLoadable file) : ∃ e, addFiles heap (file :: files) t = .error e t := by
  rw [addFiles_eq]
  cases hread : t.readText file with
  | error fault => exact ⟨_, rfl⟩
  | ok text =>
    cases hparse : Json.parse? text with
    | none => exact ⟨corrupt file, by simp only [hparse]⟩
    | some j =>
      have hnone : VersionHeap.documentItems? j = none := by
        by_contra hreadable
        exact hfile ⟨text, j, hread, hparse, hreadable⟩
      obtain ⟨members, _, _, rfl, _⟩ := VersionHeap.documentItems?_eq_none_iff.mp hnone
      have hinsert := VersionHeap.insertJson_eq_error_iff (h := heap).mpr ⟨hnone, rfl, rfl⟩
      exact ⟨corrupt file, by simp [hparse, hinsert, Json.isObject]⟩

/-- Reading succeeds where every file can be loaded, and then the heap takes the items of all
files, in order. -/
theorem addFiles_eq_ok_iff {heap heap' : VersionHeap} {files : List String} :
    addFiles heap files t = .ok heap' t' ↔ (∀ file ∈ files, t.IsLoadable file) ∧
      heap' = heap.insertItems (files.flatMap t.placedItems) ∧ t' = t := by
  induction files generalizing heap with
  | nil =>
    rw [addFiles, Effect.pure_eq_ok_iff]
    simp [VersionHeap.insertItems, eq_comm]
  | cons file files ih =>
    rw [List.forall_mem_cons, List.flatMap_cons, VersionHeap.insertItems_append]
    by_cases hfile : t.IsLoadable file
    · rw [addFiles_of_isLoadable hfile, ih]
      simp [hfile]
    · obtain ⟨e, hstop⟩ := exists_addFiles_error heap files hfile
      simp [hstop, hfile]

/-- Files whose documents define no common operation may be read in any order. -/
theorem addFiles_of_perm {files files' : List String} {heap : VersionHeap}
    (hperm : files.Perm files')
    (hseparate : files.Pairwise fun a b =>
      ∀ e ∈ t.placedItems a, ∀ f ∈ t.placedItems b, e.Separate f)
    (hadded : addFiles {} files t = .ok heap t) :
    ∃ heap', addFiles {} files' t = .ok heap' t ∧ heap.SameUpToOrder heap' := by
  obtain ⟨hloadable, rfl, _⟩ := addFiles_eq_ok_iff.mp hadded
  have hloadable' : ∀ file ∈ files', t.IsLoadable file := fun file hfile =>
    hloadable file (hperm.mem_iff.mpr hfile)
  refine ⟨_, addFiles_eq_ok_iff.mpr ⟨hloadable', rfl, rfl⟩, ?_⟩
  rw [List.flatMap_def, List.flatMap_def]
  have halike := VersionHeap.answersAlike_of_perm (hperm.map t.placedItems)
    (List.pairwise_map.mpr hseparate)
  exact halike.sameUpToOrder (VersionHeap.wellFormed_empty.insertItems _)
    (VersionHeap.wellFormed_empty.insertItems _)

end Store

namespace VersionHeap

/-- A heap that items were inserted into holds the last one for each operation, and its versions
are those of the items, the latest being the greatest. Items of different operations may be
inserted in any order, and files that define different operations be read in any order. -/
theorem heap_of_insertions :
    (∀ items v p m, (insertItems {} items).operation? v p m =
      ((items.filter fun e => e.Defines v p m).getLast?).bind fun e => e.item.get? m) ∧
    (∀ items, (insertItems {} items).versionList.Pairwise (· < ·) ∧
      (∀ v, v ∈ (insertItems {} items).versionList ↔ ∃ e ∈ items, e.version = v) ∧
      ∀ v, (insertItems {} items).latest? = some v ↔
        IsGreatest {w | ∃ e ∈ items, e.version = w} v) ∧
    (∀ items items', items.Perm items' → items.Pairwise PlacedItem.Separate →
      (insertItems {} items).SameUpToOrder (insertItems {} items') ∧
      ((∀ a ∈ items, ∀ b ∈ items,
        Text.trimLeftSlashes a.path = Text.trimLeftSlashes b.path → a.path = b.path) →
        ∀ (σ : Type) (m : Merger σ) target, SameMergeUpToOrder
          (({ m with heap := insertItems {} items } : Merger σ).merge target)
          (({ m with heap := insertItems {} items' } : Merger σ).merge target))) ∧
    ∀ (t : FileTree) files files' heap, files.Perm files' →
      (files.Pairwise fun a b => ∀ e ∈ t.placedItems a, ∀ f ∈ t.placedItems b, e.Separate f) →
      Store.addFiles {} files t = .ok heap t →
      ∃ heap', Store.addFiles {} files' t = .ok heap' t ∧ heap.SameUpToOrder heap' := by
  have hwell : ∀ items, (insertItems {} items).WellFormed := wellFormed_empty.insertItems
  refine ⟨fun _ _ _ _ => operation?_of_items, ?_, ?_,
    fun t files files' heap => Store.addFiles_of_perm⟩
  · intro items
    refine ⟨(hwell items).ascending, fun v => mem_versionList_of_items, fun v => ?_⟩
    rw [(hwell items).latest?_eq_some_iff]
    simp only [mem_versionList_of_items]
  · intro items items' hperm hseparate
    have halike := answersAlike_of_perm (hperm.map fun e => [e])
      (List.pairwise_map.mpr (by simpa using hseparate))
    rw [← List.flatMap_def, ← List.flatMap_def] at halike
    simp only [List.flatMap_singleton'] at halike
    refine ⟨halike.sameUpToOrder (hwell items) (hwell items'), ?_⟩
    intro hslashes σ m target
    apply halike.sameMerge (hwell items) (hwell items')
    intro p q hp hq htrim
    have hstores : ∀ path, (insertItems {} items).Stores path → ∃ e ∈ items, e.path = path := by
      intro path hpath
      obtain ⟨v, hlists⟩ := (hwell items).stores_iff.mp hpath
      obtain ⟨e, he, _, hpath⟩ := lists_of_items.mp hlists
      exact ⟨e, he, hpath⟩
    obtain ⟨a, ha, rfl⟩ := hstores p hp
    obtain ⟨b, hb, rfl⟩ := hstores q hq
    exact hslashes a ha b hb htrim

/-- A path with two methods, each inserted with an item of its own. -/
def twoMethods : List PlacedItem :=
  [⟨1, "x", { get := some { summary := "read" } }⟩, ⟨1, "x", { post := some { summary := "write" } }⟩]

theorem twoMethods_in_any_order : twoMethods.Pairwise PlacedItem.Separate ∧
    (insertItems {} twoMethods).SameUpToOrder (insertItems {} twoMethods.reverse) := by
  have hseparate : twoMethods.Pairwise PlacedItem.Separate := by
    rw [twoMethods, List.pairwise_pair]
    intro version path m ⟨⟨_, _, hget⟩, _, _, hpost⟩
    cases m <;> simp [ByMethod.get?] at hget hpost
  exact ⟨hseparate, (heap_of_insertions.2.2.1 twoMethods twoMethods.reverse
    (List.reverse_perm twoMethods).symm hseparate).1⟩

end VersionHeap
end ApiDocs
