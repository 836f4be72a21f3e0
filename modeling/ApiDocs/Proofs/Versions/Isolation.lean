import ApiDocs.Proofs.Versions.Overlay
import Mathlib.Data.List.Basic
/-!
# Buckets apart from each other

The document of a bucket depends on nothing but the operations that the bucket takes, in the order
in which the versions up to the target list them. So no edit of other operations or of later
versions changes it.
-/
namespace ApiDocs

namespace ByMethod

variable {α : Type}

/-- The table without the value for a method. -/
def clear (t : ByMethod α) : Method → ByMethod α
  | .get => { t with get := none }
  | .post => { t with post := none }
  | .put => { t with put := none }
  | .delete => { t with delete := none }
  | .patch => { t with patch := none }
  | .options => { t with options := none }
  | .head => { t with head := none }

theorem get?_clear (t : ByMethod α) (method m : Method) :
    (t.clear method).get? m = if m = method then none else t.get? m := by
  cases method <;> cases m <;> rfl

theorem filter_toList (t : ByMethod α) (p : α → Bool) : (t.toList.filter fun o => p o.2) =
    Method.all.filterMap fun m => ((t.get? m).filter p).map fun v => (m, v) := by
  rw [toList, List.filter_filterMap]
  apply List.filterMap_congr
  intro m _
  cases h : t.get? m with
  | none => rfl
  | some v => by_cases hv : p v <;> simp [Option.filter, hv]

theorem filter_toList_congr {t t' : ByMethod α} {p : α → Bool}
    (h : ∀ m, (t'.get? m).filter p = (t.get? m).filter p) :
    (t'.toList.filter fun o => p o.2) = t.toList.filter fun o => p o.2 := by
  rw [filter_toList, filter_toList]
  simp only [h]

end ByMethod

theorem Table.filter_cells {α : Type} (t : Table α) (p : α → Bool) :
    (t.cells.filter fun c => p c.2.2) = t.entries.flatMap fun e =>
      (e.2.toList.filter fun o => p o.2).map fun o => (e.1, o) := by
  rw [cells, List.filter_flatMap]
  simp only [List.filter_map, Function.comp_def]

section Ascending

variable {α β : Type} {versions : List (Nat × α)}

private theorem filter_le_succ (ha : (versions.map Prod.fst).Pairwise (· < ·)) (n : Nat) :
    versions.filter (fun e => e.1 ≤ n + 1) =
      versions.filter (fun e => e.1 ≤ n) ++ versions.filter fun e => e.1 = n + 1 := by
  induction versions with
  | nil => rfl
  | cons e rest ih =>
    rw [List.map_cons, List.pairwise_cons] at ha
    have hrest := ih ha.2
    by_cases hle : e.1 ≤ n
    · have hne : ¬ e.1 = n + 1 := by omega
      have hle' : e.1 ≤ n + 1 := by omega
      simp [hle, hle', hne, hrest]
    · -- all that follow are greater, so none of them is in the first part
      have hnone : rest.filter (fun e => e.1 ≤ n) = [] := by
        rw [List.filter_eq_nil_iff]
        intro f hf
        have hlt := ha.1 f.1 (List.mem_map_of_mem hf)
        simp only [decide_eq_true_eq]
        omega
      have hiff : e.1 ≤ n + 1 ↔ e.1 = n + 1 := by omega
      rw [hnone, List.nil_append] at hrest
      simp only [List.filter_cons, hiff, hle, hnone, hrest, decide_false]
      split <;> simp

private theorem flatMap_filter_eq (ha : (versions.map Prod.fst).Pairwise (· < ·)) (n : Nat)
    (f : Nat × α → List β) : (versions.filter fun e => e.1 = n).flatMap f =
      ((versions.find? fun e => e.1 == n).map f).getD [] := by
  induction versions with
  | nil => rfl
  | cons e rest ih =>
    rw [List.map_cons, List.pairwise_cons] at ha
    by_cases he : e.1 = n
    · have hnone : rest.filter (fun e => e.1 = n) = [] := by
        rw [List.filter_eq_nil_iff]
        intro f hf
        have hlt := ha.1 f.1 (List.mem_map_of_mem hf)
        simp only [decide_eq_true_eq]
        omega
      simp [he, hnone]
    · simp [he, ih ha.2]

private theorem flatMap_filter_le (ha : (versions.map Prod.fst).Pairwise (· < ·)) (target : Nat)
    (f : Nat × α → List β) : (versions.filter fun e => e.1 ≤ target).flatMap f =
      (List.range (target + 1)).flatMap fun v =>
        ((versions.find? fun e => e.1 == v).map f).getD [] := by
  induction target with
  | zero =>
    have hzero : versions.filter (fun e => e.1 ≤ 0) = versions.filter fun e => e.1 = 0 := by
      simp only [Nat.le_zero_eq]
    rw [hzero, flatMap_filter_eq ha]
    simp
  | succ n ih =>
    rw [filter_le_succ ha, List.flatMap_append, ih, flatMap_filter_eq ha,
      List.range_succ (n := n + 1), List.flatMap_append, List.flatMap_singleton]

end Ascending

namespace VersionHeap

variable {s : MergeStrategy} {bucket : String} {target : Nat}

/-- The operations of a version that a bucket takes: paths in their order, methods in theirs. -/
def takenAt (h : VersionHeap) (s : MergeStrategy) (bucket : String) (version : Nat) :
    List (String × Method × Operation) :=
  (Table.cells ((h.paths? version).getD {})).filter fun c => s.takes bucket c.2.2

private theorem taken_of_version (s : MergeStrategy) (bucket : String) (v : Nat)
    (paths : PathDocument) :
    ((paths.entries.flatMap fun e => placedIn v e.1 e.2).filterMap (s.taken? bucket)) =
      ((Table.cells paths).filter fun c => s.takes bucket c.2.2).map fun c =>
        ⟨v, c.1, c.2.1, MergeStrategy.bare c.2.2⟩ := by
  have hplaced : (paths.entries.flatMap fun e => placedIn v e.1 e.2) =
      (Table.cells paths).map fun c => (⟨v, c.1, c.2.1, c.2.2⟩ : Placed) := by
    rw [Table.cells, List.map_flatMap]
    simp only [placedIn, List.map_map, Function.comp_def]
  rw [hplaced, List.filterMap_map, ← List.filterMap_eq_filter, List.map_filterMap]
  apply List.filterMap_congr
  intro c _
  simp only [Function.comp_apply, MergeStrategy.taken?_eq]
  by_cases hc : s.takes bucket c.2.2 <;> simp [hc, Option.guard]

/-- A bucket meets the operations that it takes version by version. -/
theorem WellFormed.shownUpTo_eq {h : VersionHeap} (hw : h.WellFormed) :
    h.shownUpTo s bucket target = (List.range (target + 1)).flatMap fun v =>
      (h.takenAt s bucket v).map fun c => ⟨v, c.1, c.2.1, MergeStrategy.bare c.2.2⟩ := by
  rw [shownUpTo, placedUpTo, List.filterMap_flatMap, flatMap_filter_le hw.ascending]
  apply List.flatMap_congr
  intro v _
  rw [takenAt, ← taken_of_version, paths?]
  cases hfind : h.versions.find? fun e => e.1 == v with
  | none => rfl
  | some e =>
    have hv : e.1 = v := by simpa using List.find?_some hfind
    simp [hv]

theorem WellFormed.layer_congr {h h' : VersionHeap} (hw : h.WellFormed) (hw' : h'.WellFormed)
    (hsame : ∀ v ≤ target, h'.takenAt s bucket v = h.takenAt s bucket v) :
    h'.layer s bucket target = h.layer s bucket target := by
  rw [layer, layer, hw.shownUpTo_eq, hw'.shownUpTo_eq]
  congr 1
  apply List.flatMap_congr
  intro v hv
  rw [hsame v (Nat.le_of_lt_succ (List.mem_range.mp hv))]

/-- The heap without the operation at a version, a path and a method. -/
def remove (h : VersionHeap) (version : Nat) (path : String) (m : Method) : VersionHeap :=
  ⟨h.versions.map fun e => if e.1 = version then
    (e.1, ⟨e.2.entries.map fun p => if p.1 = path then (p.1, p.2.clear m) else p⟩) else e⟩

/-- A change of one path of one version. -/
inductive Edit where
  | insert (version : Nat) (path : String) (item : PathItem)
  | remove (version : Nat) (path : String) (m : Method)

def edit (h : VersionHeap) : Edit → VersionHeap
  | .insert version path item => h.insert version path item
  | .remove version path m => h.remove version path m

/-- An edit touches only later versions, or only operations that the bucket does not take, those
that were there before included. -/
def Overlooks (h : VersionHeap) (s : MergeStrategy) (bucket : String) (target : Nat) :
    Edit → Prop
  | .insert version path item => target < version ∨ ∀ m o, item.get? m = some o →
      ¬ s.takes bucket o ∧
        ∀ o', h.operation? version path m = some o' → ¬ s.takes bucket o'
  | .remove version path m => target < version ∨
      ∀ o, h.operation? version path m = some o → ¬ s.takes bucket o

/-- Each of the edits is overlooked in the heap that those before it left. -/
def OverlooksAll (h : VersionHeap) (s : MergeStrategy) (bucket : String) (target : Nat) :
    List Edit → Prop
  | [] => True
  | e :: edits => h.Overlooks s bucket target e ∧ (h.edit e).OverlooksAll s bucket target edits

private theorem takenAt_insert {h : VersionHeap} (hw : h.WellFormed) {version : Nat}
    {path : String} {item : PathItem}
    (hover : h.Overlooks s bucket target (.insert version path item)) {v : Nat}
    (hv : v ≤ target) : (h.insert version path item).takenAt s bucket v = h.takenAt s bucket v := by
  rw [takenAt, takenAt, hw.paths?_insert]
  by_cases hversion : v = version
  · subst hversion
    have hforeign := hover.resolve_left (by omega)
    rw [if_pos rfl, Option.getD_some, Table.filter_cells _ (s.takes bucket),
      Table.filter_cells _ (s.takes bucket)]
    apply OrderedMap.flatMap_upsertIn
    -- no method of the item has a taken operation, neither before nor after
    have hsame : ∀ present : PathItem,
        (∀ m o', present.get? m = some o' → h.operation? v path m = some o') →
        ((present.overlay item.toList).toList.filter fun o => s.takes bucket o.2) =
          present.toList.filter fun o => s.takes bucket o.2 := by
      intro present hpresent
      apply ByMethod.filter_toList_congr
      intro m
      rw [ByMethod.get?_overlay]
      cases hitem : item.get? m with
      | none => rfl
      | some o =>
        obtain ⟨ho, hbefore⟩ := hforeign m o hitem
        cases hold : present.get? m with
        | none => simp [Option.filter, ho]
        | some o' => simp [Option.filter, ho, hbefore o' (hpresent m o' hold)]
    cases hfind : OrderedMap.find? path ((h.paths? v).getD {}).entries with
    | none =>
      have hnew := hsame {} fun m o' ho' => by simp at ho'
      simp only [Option.getD_none, Option.map_none, List.map_eq_nil_iff]
      rw [hnew]
      rfl
    | some present =>
      have hkept := hsame present fun m o' ho' => by
        rw [operation?_eq_cell?, Table.cell?, OrderedMap.get?, hfind]
        exact ho'
      simp only [Option.getD_some, Option.map_some, hkept]
  · rw [if_neg hversion]

theorem paths?_remove (h : VersionHeap) (version : Nat) (path : String) (m : Method) (v : Nat) :
    (h.remove version path m).paths? v = if v = version then (h.paths? v).map fun paths =>
      ⟨paths.entries.map fun p => if p.1 = path then (p.1, p.2.clear m) else p⟩
      else h.paths? v := by
  have hkey : ∀ e : Nat × PathDocument, (if e.1 = version then
      (e.1, (⟨e.2.entries.map fun p => if p.1 = path then (p.1, p.2.clear m) else p⟩ :
        PathDocument)) else e).1 = e.1 := by
    intro e
    split <;> rfl
  rw [paths?, remove, List.find?_map, paths?]
  simp only [Function.comp_def, hkey]
  cases hfind : h.versions.find? fun e => e.1 == v with
  | none => simp
  | some e =>
    have hv : e.1 = v := by simpa using List.find?_some hfind
    by_cases hversion : v = version <;> simp [hv, hversion]

private theorem takenAt_remove {h : VersionHeap} (hw : h.WellFormed) {version : Nat}
    {path : String} {m : Method} (hover : h.Overlooks s bucket target (.remove version path m))
    {v : Nat} (hv : v ≤ target) :
    (h.remove version path m).takenAt s bucket v = h.takenAt s bucket v := by
  rw [takenAt, takenAt, paths?_remove]
  by_cases hversion : v = version
  · subst hversion
    have hforeign := hover.resolve_left (by omega)
    rw [if_pos rfl]
    cases hpaths : h.paths? v with
    | none => rfl
    | some paths =>
      rw [Option.map_some, Option.getD_some, Option.getD_some,
        Table.filter_cells _ (s.takes bucket),
        Table.filter_cells _ (s.takes bucket), List.flatMap_map]
      apply List.flatMap_congr
      intro e he
      by_cases hpath : e.1 = path
      · have hget := (hw.distinct _ (hw.paths?_eq_some_iff.mp hpaths)).mem_entries_iff.mp he
        rw [if_pos hpath]
        congr 1
        apply ByMethod.filter_toList_congr
        intro n
        rw [ByMethod.get?_clear]
        split
        · next hn =>
          subst hn
          cases ho : e.2.get? n with
          | none => rfl
          | some o =>
            have hop : h.operation? v path n = some o :=
              operation?_eq_some_iff.mpr ⟨paths, e.2, hpaths, hpath ▸ hget, ho⟩
            simp [Option.filter, hforeign o hop]
        · rfl
      · rw [if_neg hpath]
  · rw [if_neg hversion]

theorem WellFormed.remove {h : VersionHeap} (hw : h.WellFormed) (version : Nat) (path : String)
    (m : Method) : (h.remove version path m).WellFormed where
  ascending := by
    have hlist : (h.remove version path m).versionList = h.versionList := by
      rw [versionList, VersionHeap.remove, List.map_map, versionList]
      apply List.map_congr_left
      intro e _
      simp only [Function.comp_apply]
      split <;> rfl
    rw [hlist]
    exact hw.ascending
  distinct := by
    intro e he
    obtain ⟨d, hd, rfl⟩ := List.mem_map.mp he
    have hdistinct := hw.distinct d hd
    split
    · have hkeys : ∀ entries : List (String × PathItem), (entries.map fun p =>
          if p.1 = path then (p.1, p.2.clear m) else p).map Prod.fst = entries.map Prod.fst := by
        intro entries
        rw [List.map_map]
        apply List.map_congr_left
        intro p _
        simp only [Function.comp_apply]
        split <;> rfl
      rw [OrderedMap.Distinct, OrderedMap.keys, hkeys]
      exact hdistinct
    · exact hdistinct

theorem WellFormed.edit {h : VersionHeap} (hw : h.WellFormed) (e : Edit) :
    (h.edit e).WellFormed := by
  cases e with
  | insert version path item => exact hw.insert version path item
  | remove version path m => exact hw.remove version path m

theorem WellFormed.takenAt_edit {h : VersionHeap} (hw : h.WellFormed) {e : Edit}
    (hover : h.Overlooks s bucket target e) {v : Nat} (hv : v ≤ target) :
    (h.edit e).takenAt s bucket v = h.takenAt s bucket v := by
  cases e with
  | insert version path item => exact takenAt_insert hw hover hv
  | remove version path m => exact takenAt_remove hw hover hv

/-- Edits that a bucket overlooks leave it the operations that it takes. -/
theorem WellFormed.takenAt_edits {h : VersionHeap} (hw : h.WellFormed) {edits : List Edit}
    (hover : h.OverlooksAll s bucket target edits) : (edits.foldl VersionHeap.edit h).WellFormed ∧
      ∀ v ≤ target, (edits.foldl VersionHeap.edit h).takenAt s bucket v = h.takenAt s bucket v := by
  induction edits generalizing h with
  | nil => exact ⟨hw, fun _ _ => rfl⟩
  | cons e edits ih =>
    obtain ⟨hrest, hsame⟩ := ih (hw.edit e) hover.2
    refine ⟨hrest, ?_⟩
    intro v hv
    exact (hsame v hv).trans (hw.takenAt_edit hover.1 hv)

end VersionHeap

namespace Merger

variable {σ : Type}

/-- Merging a target gives a document for a bucket. -/
def Gives (m : Merger σ) (target : Nat) (bucket : String) (d : Document) : Prop :=
  ∃ documents, m.merge target = .ok documents ∧ documents.get? bucket = some d

/-- The document of a bucket is the same for every heap with the same taken operations, and it
stays the same under edits that the bucket overlooks. -/
theorem gives_of_same_taken (m : Merger σ) (s : MergeStrategy) (hstrategy : m.strategy? = some s)
    (hw : m.heap.WellFormed) (target : Nat) (ht : 1 ≤ target) (bucket : String)
    (hbucket : bucket ∈ s.buckets) : ∃ d, m.Gives target bucket d ∧
      (∀ h : VersionHeap, h.WellFormed →
        (∀ v ≤ target, h.takenAt s bucket v = m.heap.takenAt s bucket v) →
        ({ m with heap := h } : Merger σ).Gives target bucket d) ∧
      ∀ edits, m.heap.OverlooksAll s bucket target edits →
        ({ m with heap := edits.foldl .edit m.heap } : Merger σ).Gives target bucket d := by
  let d := m.root.document target (m.heap.layer s bucket target).paths
  have hsame : ∀ h : VersionHeap, h.WellFormed →
      (∀ v ≤ target, h.takenAt s bucket v = m.heap.takenAt s bucket v) →
      ({ m with heap := h } : Merger σ).Gives target bucket d := by
    intro h hwh htaken
    refine ⟨_, merge_eq_ok (m := { m with heap := h }) hstrategy ht, ?_⟩
    rw [h.get?_merged m.root target hbucket, hw.layer_congr hwh htaken]
  refine ⟨d, hsame m.heap hw fun _ _ => rfl, hsame, ?_⟩
  intro edits hover
  obtain ⟨hwell, htaken⟩ := hw.takenAt_edits hover
  exact hsame _ hwell htaken

/-- A private operation is written to the second version of a path, and the one of the third
version is removed. -/
def foreignEdits : List VersionHeap.Edit :=
  [.insert 2 "x" { get := some { tags := ["modifier.private"] } }, .remove 3 "x" .post]

theorem twoVersions_gives : twoVersions.heap.OverlooksAll .byModifier "public" 3 foreignEdits ∧
    ∃ d, twoVersions.Gives 3 "public" d ∧ ({ twoVersions with
      heap := foreignEdits.foldl .edit twoVersions.heap } : Merger Unit).Gives 3 "public" d := by
  have hw : twoVersions.heap.WellFormed :=
    (VersionHeap.wellFormed_empty.insert _ _ _).insert _ _ _
  have hover : twoVersions.heap.OverlooksAll .byModifier "public" 3 foreignEdits := by
    refine ⟨.inr ?_, .inr ?_, trivial⟩
    · intro m o ho
      cases m <;> cases ho
      refine ⟨by decide +kernel, ?_⟩
      intro o' ho'
      have hnone : twoVersions.heap.operation? 2 "x" .get = none := rfl
      rw [hnone] at ho'
      cases ho'
    · intro o ho
      have hpost : (twoVersions.heap.insert 2 "x" { get := some { tags := ["modifier.private"] }
          }).operation? 3 "x" .post = some { tags := ["modifier.private", "b"] } := rfl
      cases hpost.symm.trans ho
      decide +kernel
  obtain ⟨d, hgives, _, hedits⟩ := gives_of_same_taken twoVersions .byModifier rfl hw 3
    (by decide) "public" (by decide)
  exact ⟨hover, d, hgives, hedits _ hover⟩

end Merger
end ApiDocs
