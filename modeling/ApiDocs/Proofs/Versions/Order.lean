import ApiDocs.Proofs.Versions.History
import ApiDocs.Proofs.Versions.Overlay
import Mathlib.Data.List.Sort
/-!
# Orders of insertion

Where no two of the things that are inserted define the same operation, their order does not
matter: the heaps differ at most in the order in which they list the paths of a version. If no two
paths differ in leading slashes alone, merged documents differ at most in the order of their paths.
-/
namespace ApiDocs

/-- Documents that differ at most in the order of their paths. -/
structure Document.SameUpToOrder (d d' : Document) : Prop where
  apart : d' = { d with paths := d'.paths }
  paths : d.paths.entries.Perm d'.paths.entries

/-- Two results of merging: the same error, or documents for the same buckets that differ at most
in the order of their paths. -/
def SameMergeUpToOrder : Except Error MergedDocuments → Except Error MergedDocuments → Prop
  | .ok documents, .ok documents' => documents.keys = documents'.keys ∧
      ∀ bucket, Option.Rel Document.SameUpToOrder (documents.get? bucket) (documents'.get? bucket)
  | .error e, .error e' => e = e'
  | _, _ => False

namespace VersionHeap

/-- Heaps with the same versions and under each the same paths with the same items, in any order. -/
structure SameUpToOrder (h h' : VersionHeap) : Prop where
  versionList_eq : h.versionList = h'.versionList
  paths : ∀ v, Option.Rel (fun paths paths' : PathDocument => paths.entries.Perm paths'.entries)
    (h.paths? v) (h'.paths? v)

/-- Heaps that answer alike whether they have a version, a path of a version, and an operation. -/
structure AnswersAlike (h h' : VersionHeap) : Prop where
  version : ∀ v, v ∈ h.versionList ↔ v ∈ h'.versionList
  lists : ∀ v p, h.Lists v p ↔ h'.Lists v p
  operation : ∀ v p m, h.operation? v p m = h'.operation? v p m

section Alike

variable {h h' : VersionHeap} (hw : h.WellFormed) (hw' : h'.WellFormed) (halike : h.AnswersAlike h')

include hw hw' halike

theorem AnswersAlike.sameUpToOrder : h.SameUpToOrder h' where
  versionList_eq := List.Pairwise.eq_of_mem_iff hw.ascending hw'.ascending halike.version
  paths v := by
    have hversion := halike.version v
    rw [mem_versionList_iff, mem_versionList_iff] at hversion
    cases hpaths : h.paths? v with
    | none =>
      cases hpaths' : h'.paths? v with
      | none => exact .none
      | some paths' => simp [hpaths, hpaths'] at hversion
    | some paths =>
      cases hpaths' : h'.paths? v with
      | none => simp [hpaths, hpaths'] at hversion
      | some paths' =>
        apply Option.Rel.some
        apply Table.perm_entries (hw.distinct _ (hw.paths?_eq_some_iff.mp hpaths))
          (hw'.distinct _ (hw'.paths?_eq_some_iff.mp hpaths'))
        · intro path
          simpa [Lists, hpaths, hpaths'] using halike.lists v path
        · intro path m
          have hop := halike.operation v path m
          rw [operation?_eq_cell?, operation?_eq_cell?] at hop
          simpa [hpaths, hpaths'] using hop

theorem AnswersAlike.stores_iff (path : String) : h.Stores path ↔ h'.Stores path := by
  rw [hw.stores_iff, hw'.stores_iff]
  simp only [halike.lists]

variable {s : MergeStrategy} {bucket : String} {target : Nat}

theorem AnswersAlike.cell?_layer (path : String) (m : Method) :
    Table.cell? (h.layer s bucket target) path m = Table.cell? (h'.layer s bucket target) path m := by
  apply Option.ext
  intro ⟨w, o⟩
  rw [cell?_layer_eq_some_iff hw, cell?_layer_eq_some_iff hw']
  simp only [shownVersions, Shows, halike.operation]

theorem AnswersAlike.perm_paths (hs : h.DistinctUpToSlashes) :
    (h.layer s bucket target).paths.entries.Perm (h'.layer s bucket target).paths.entries := by
  have hstores := halike.stores_iff hw hw'
  have hs' : h'.DistinctUpToSlashes := fun p q hp hq => hs p q ((hstores p).mpr hp) ((hstores q).mpr hq)
  have hcells : ∀ key m, Table.cell? (h.layer s bucket target).paths key m =
      Table.cell? (h'.layer s bucket target).paths key m := by
    intro key m
    apply Option.ext
    intro o
    rw [cell?_paths hw hs, cell?_paths hw' hs']
    simp only [halike.cell?_layer hw hw']
  apply Table.perm_entries distinct_paths distinct_paths
  · intro key
    rw [filled_paths.mem_keys_iff, filled_paths.mem_keys_iff]
    simp only [hcells]
  · exact hcells

/-- Heaps that answer alike are merged alike. -/
theorem AnswersAlike.sameMerge {σ : Type} (hs : h.DistinctUpToSlashes) (m : Merger σ)
    (target : Nat) : SameMergeUpToOrder (({ m with heap := h } : Merger σ).merge target)
      (({ m with heap := h' } : Merger σ).merge target) := by
  obtain ⟨_, root, strategy?, saver?⟩ := m
  cases strategy? with
  | none => exact (rfl : Error.mergeConfiguration _ = _)
  | some s =>
    rw [Merger.merge_eq rfl, Merger.merge_eq rfl]
    by_cases hzero : target = 0
    · simp [hzero, SameMergeUpToOrder]
    · rw [if_neg hzero, if_neg hzero]
      refine ⟨by rw [keys_merged, keys_merged], fun bucket => ?_⟩
      by_cases hbucket : bucket ∈ s.buckets
      · rw [get?_merged _ _ _ hbucket, get?_merged _ _ _ hbucket]
        exact .some ⟨rfl, halike.perm_paths hw hw' hs⟩
      · have hout : ∀ h : VersionHeap, (h.merged s root target).get? bucket = none := by
          intro h
          rw [Option.eq_none_iff_forall_ne_some]
          intro d hd
          exact hbucket (of_get?_merged hd).1
        rw [hout, hout]
        exact .none

end Alike

private theorem flatMap_eq_of_perm {α β : Type} {f : α → List β} {l l' : List α}
    (hperm : l.Perm l') (halone : l.Pairwise fun a b => f a = [] ∨ f b = []) :
    l.flatMap f = l'.flatMap f := by
  induction hperm with
  | nil => rfl
  | cons a _ ih => rw [List.flatMap_cons, List.flatMap_cons, ih (List.pairwise_cons.mp halone).2]
  | swap a b l =>
    have hab := (List.pairwise_cons.mp halone).1 a List.mem_cons_self
    rcases hab with hb | ha
    · simp [hb]
    · simp [ha]
  | trans hfirst _ ih ih' =>
    rw [ih halone, ih' ((hfirst.pairwise_iff fun hor => hor.symm).mp halone)]

/-- Groups of items, no two of which define the same operation, may be inserted in any order. -/
theorem answersAlike_of_perm {groups groups' : List (List PlacedItem)}
    (hperm : groups.Perm groups')
    (hseparate : groups.Pairwise fun a b => ∀ e ∈ a, ∀ f ∈ b, e.Separate f) :
    (insertItems {} groups.flatten).AnswersAlike (insertItems {} groups'.flatten) where
  version v := by
    rw [mem_versionList_of_items, mem_versionList_of_items]
    simp only [hperm.flatten.mem_iff]
  lists v p := by
    rw [lists_of_items, lists_of_items]
    simp only [hperm.flatten.mem_iff]
  operation v p m := by
    have hfilter : ∀ groups : List (List PlacedItem), (groups.flatten.filter fun e =>
        e.Defines v p m) = groups.flatMap fun group => group.filter fun e => e.Defines v p m := by
      intro groups
      rw [List.filter_flatten, List.flatMap_def]
    rw [operation?_of_items, operation?_of_items, hfilter, hfilter, flatMap_eq_of_perm hperm]
    apply hseparate.imp
    intro a b hab
    by_cases ha : ∃ e ∈ a, e.Defines v p m
    · obtain ⟨e, he, hdef⟩ := ha
      right
      rw [List.filter_eq_nil_iff]
      intro f hf hdef'
      exact hab e he f hf v p m ⟨hdef, of_decide_eq_true hdef'⟩
    · left
      rw [List.filter_eq_nil_iff]
      intro e he hdef
      exact ha ⟨e, he, of_decide_eq_true hdef⟩

end VersionHeap
end ApiDocs
