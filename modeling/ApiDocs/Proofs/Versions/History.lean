import ApiDocs.Proofs.Versions.Persisted
import Mathlib.Order.Bounds.Defs
/-!
# Heaps as records of insertions

A heap that items were inserted into lists exactly the versions and the paths of these items, also
those of items without operations. Under a version, a path and a method it holds the operation of
the last item that has one there.
-/
namespace ApiDocs

namespace PlacedItem

/-- No operation is defined by both of two items. -/
def Separate (a b : PlacedItem) : Prop :=
  ∀ version path m, ¬ (a.Defines version path m ∧ b.Defines version path m)

end PlacedItem

namespace VersionHeap

/-- A version of the heap lists a path, with operations or without. -/
def Lists (h : VersionHeap) (version : Nat) (path : String) : Prop :=
  path ∈ ((h.paths? version).getD {}).keys

variable {h : VersionHeap} {v : Nat} {p : String} {m : Method}

theorem WellFormed.stores_iff (hw : h.WellFormed) : h.Stores p ↔ ∃ v, h.Lists v p := by
  constructor
  · intro ⟨e, he, hp⟩
    have hpaths : h.paths? e.1 = some e.2 := hw.paths?_eq_some_iff.mpr he
    exact ⟨e.1, by simpa [Lists, hpaths] using hp⟩
  · intro ⟨v, hp⟩
    unfold Lists at hp
    cases hpaths : h.paths? v with
    | none => simp [hpaths, OrderedMap.keys] at hp
    | some paths =>
      rw [hpaths] at hp
      exact ⟨(v, paths), hw.paths?_eq_some_iff.mp hpaths, hp⟩

theorem lists_of_operation? {o : Operation} (ho : h.operation? v p m = some o) : h.Lists v p := by
  obtain ⟨paths, item, hpaths, hitem, _⟩ := operation?_eq_some_iff.mp ho
  simpa [Lists, hpaths] using OrderedMap.mem_keys_of_get? hitem

theorem mem_versionList_iff : v ∈ h.versionList ↔ (h.paths? v).isSome := by
  rw [versionList, paths?, Option.isSome_map, List.find?_isSome]
  simp

theorem WellFormed.mem_versionList_insert (hw : h.WellFormed) (version : Nat) (path : String)
    (item : PathItem) :
    v ∈ (h.insert version path item).versionList ↔ v = version ∨ v ∈ h.versionList := by
  rw [mem_versionList_iff, mem_versionList_iff, hw.paths?_insert]
  by_cases hv : v = version <;> simp [hv]

theorem WellFormed.lists_insert (hw : h.WellFormed) (version : Nat) (path : String)
    (item : PathItem) :
    (h.insert version path item).Lists v p ↔ (v = version ∧ p = path) ∨ h.Lists v p := by
  unfold Lists
  rw [hw.paths?_insert]
  by_cases hv : v = version
  · subst hv
    rw [if_pos rfl, Option.getD_some, OrderedMap.keys_upsert]
    by_cases hpath : path ∈ ((h.paths? v).getD {}).keys
    · rw [if_pos hpath]
      refine ⟨.inr, fun hp => hp.elim ?_ id⟩
      intro ⟨_, hp⟩
      rwa [hp]
    · rw [if_neg hpath, List.mem_append, List.mem_singleton, or_comm]
      simp
  · simp [hv]

theorem insertItems_append (h : VersionHeap) (front back : List PlacedItem) :
    h.insertItems (front ++ back) = (h.insertItems front).insertItems back :=
  List.foldl_append

theorem WellFormed.mem_versionList_insertItems (hw : h.WellFormed) (items : List PlacedItem) :
    v ∈ (h.insertItems items).versionList ↔
      v ∈ h.versionList ∨ ∃ e ∈ items, e.version = v := by
  induction items generalizing h with
  | nil => simp [VersionHeap.insertItems]
  | cons e rest ih =>
    have hstep := ih (hw.insert e.version e.path e.item)
    rw [hw.mem_versionList_insert] at hstep
    simpa [VersionHeap.insertItems, eq_comm, or_left_comm, or_assoc] using hstep

theorem WellFormed.lists_insertItems (hw : h.WellFormed) (items : List PlacedItem) :
    (h.insertItems items).Lists v p ↔
      h.Lists v p ∨ ∃ e ∈ items, e.version = v ∧ e.path = p := by
  induction items generalizing h with
  | nil => simp [VersionHeap.insertItems]
  | cons e rest ih =>
    have hstep := ih (hw.insert e.version e.path e.item)
    rw [hw.lists_insert] at hstep
    simpa [VersionHeap.insertItems, eq_comm, or_left_comm, or_assoc] using hstep

section Items

variable {items : List PlacedItem}

theorem operation?_of_items : (insertItems {} items).operation? v p m =
    ((items.filter fun e => e.Defines v p m).getLast?).bind fun e => e.item.get? m := by
  rw [wellFormed_empty.operation?_insertItems]
  simp [operation?, paths?]

/-- An operation that the heap holds was inserted there. -/
theorem exists_item_of_operation? (h : ((insertItems {} items).operation? v p m).isSome) :
    ∃ e ∈ items, e.Defines v p m := by
  rw [operation?_of_items] at h
  obtain ⟨o, ho⟩ := Option.isSome_iff_exists.mp h
  obtain ⟨e, hlast, _⟩ := Option.bind_eq_some_iff.mp ho
  obtain ⟨hmem, hdefines⟩ := List.mem_filter.mp (List.mem_of_getLast? hlast)
  exact ⟨e, hmem, of_decide_eq_true hdefines⟩

theorem mem_versionList_of_items :
    v ∈ (insertItems {} items).versionList ↔ ∃ e ∈ items, e.version = v := by
  rw [wellFormed_empty.mem_versionList_insertItems]
  simp [versionList]

theorem lists_of_items :
    (insertItems {} items).Lists v p ↔ ∃ e ∈ items, e.version = v ∧ e.path = p := by
  rw [wellFormed_empty.lists_insertItems]
  simp [Lists, paths?, OrderedMap.keys]

end Items

/-- The latest version is the greatest one. -/
theorem WellFormed.latest?_eq_some_iff (hw : h.WellFormed) :
    h.latest? = some v ↔ IsGreatest {w | w ∈ h.versionList} v := by
  have hgreatest : ∀ u, h.latest? = some u → IsGreatest {w | w ∈ h.versionList} u := by
    intro u hu
    obtain ⟨front, hlist⟩ := List.getLast?_eq_some_iff.mp hu
    have ha := hw.ascending
    rw [hlist] at ha
    have hmem : u ∈ h.versionList := by simp [hlist]
    refine ⟨hmem, ?_⟩
    intro w (hmem : w ∈ h.versionList)
    rw [hlist, List.mem_append] at hmem
    rcases hmem with hfront | hlast
    · exact Nat.le_of_lt ((List.pairwise_append.mp ha).2.2 w hfront u (by simp))
    · exact Nat.le_of_eq (List.mem_singleton.mp hlast)
  refine ⟨hgreatest v, fun hv => ?_⟩
  cases hlatest : h.latest? with
  | none =>
    have hnil : h.versionList = [] := List.getLast?_eq_none_iff.mp hlatest
    have hmem : v ∈ h.versionList := hv.1
    simp [hnil] at hmem
  | some u =>
    have hu := hgreatest u hlatest
    rw [Nat.le_antisymm (hv.2 hu.1) (hu.2 hv.1)]

/-- The items of the entries of a document whose keys name a version. -/
def itemsOf (d : PathDocument) : List PlacedItem :=
  d.entries.filterMap PlacedItem.ofEntry?

theorem insertDocuments_eq (h : VersionHeap) (documents : List PathDocument) :
    h.insertDocuments documents = h.insertItems (documents.flatMap itemsOf) := by
  induction documents generalizing h with
  | nil => rfl
  | cons d rest ih =>
    rw [List.flatMap_cons, insertItems_append, ← ih]
    change ((h.insertEntries d.entries).1).insertDocuments rest = _
    rw [insertEntries_eq]
    rfl

end VersionHeap
end ApiDocs
