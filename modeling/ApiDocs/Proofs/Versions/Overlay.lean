import ApiDocs.Proofs.Route.VersionPath
import ApiDocs.Proofs.Versions.Assignment
import ApiDocs.Proofs.Versions.Heap
import Mathlib.Data.Set.Basic
import Mathlib.Order.Bounds.Defs
/-!
# The overlay of versions

The document of a bucket shows each operation in the shape of the greatest version, up to the one
that is merged, in which the bucket takes it, under a path of that version. A layer keeps the last
operation that was put to a path and a method, and operations are put in ascending order of their
versions, so the last one is the greatest.
-/
namespace ApiDocs

namespace Table

variable {α : Type}

/-- The cells that have a value, paths in their order. -/
def cells (t : Table α) : List (String × Method × α) :=
  t.entries.flatMap fun e => e.2.toList.map fun o => (e.1, o)

theorem mem_cells {t : Table α} (h : t.Distinct) {path : String} {m : Method} {v : α} :
    (path, m, v) ∈ t.cells ↔ t.cell? path m = some v := by
  simp only [cells, cell?, List.mem_flatMap, List.mem_map, Prod.mk.injEq,
    Option.bind_eq_some_iff]
  constructor
  · rintro ⟨⟨p, item⟩, hmem, ⟨n, w⟩, ho, rfl, heq⟩
    obtain ⟨rfl, rfl⟩ := Prod.mk.inj heq
    exact ⟨item, h.mem_entries_iff.mp hmem, ByMethod.mem_toList.mp ho⟩
  · rintro ⟨item, hitem, hv⟩
    exact ⟨(path, item), h.mem_entries_iff.mpr hitem, (m, v), ByMethod.mem_toList.mpr hv,
      rfl, rfl⟩

end Table

namespace VersionHeap

/-- What a bucket shows at a version of the operation under a path and a method. -/
def Shows (h : VersionHeap) (s : MergeStrategy) (bucket : String) (version : Nat) (path : String)
    (m : Method) (shown : Operation) : Prop :=
  ∃ o, h.operation? version path m = some o ∧ s.Takes bucket o shown

/-- The versions up to a target at which a bucket takes the operation of a path and a method. -/
def shownVersions (h : VersionHeap) (s : MergeStrategy) (bucket : String) (target : Nat)
    (path : String) (m : Method) : Set Nat :=
  {v | v ≤ target ∧ ∃ shown, h.Shows s bucket v path m shown}

/-- Paths are told apart by more than the slashes at their start. -/
def DistinctUpToSlashes (h : VersionHeap) : Prop :=
  ∀ p q, h.Stores p → h.Stores q → Text.trimLeftSlashes p = Text.trimLeftSlashes q → p = q

/-- The paths that a bucket lists for a target. -/
structure IsOverlay (h : VersionHeap) (s : MergeStrategy) (bucket : String) (target : Nat)
    (paths : PathDocument) : Prop where
  distinct : paths.Distinct
  filled : Table.Filled paths
  cell : ∀ path, h.Stores path → ∀ m,
    (h.shownVersions s bucket target path m = ∅ ∧
      ∀ v, Table.cell? paths (Path.ofVersion v path) m = none) ∨
    ∃ w shown, IsGreatest (h.shownVersions s bucket target path m) w ∧
      h.Shows s bucket w path m shown ∧
      ∀ v, Table.cell? paths (Path.ofVersion v path) m = if v = w then some shown else none
  only : ∀ key m o, Table.cell? paths key m = some o →
    ∃ path w, h.Stores path ∧ w ≤ target ∧ key = Path.ofVersion w path ∧
      h.Shows s bucket w path m o

theorem Shows.stores {h : VersionHeap} (hw : h.WellFormed) {s : MergeStrategy} {bucket : String}
    {v : Nat} {path : String} {m : Method} {o : Operation} (ho : h.Shows s bucket v path m o) :
    h.Stores path := by
  obtain ⟨_, hop, _⟩ := ho
  obtain ⟨paths, item, hpaths, hitem, _⟩ := operation?_eq_some_iff.mp hop
  exact ⟨(v, paths), hw.paths?_eq_some_iff.mp hpaths, OrderedMap.mem_keys_of_get? hitem⟩

section Layers

variable (h : VersionHeap) (s : MergeStrategy) (bucket : String) (target : Nat)

/-- The operations that a bucket takes, in the order in which they are put. -/
def shownUpTo : List Placed :=
  (h.placedUpTo target).filterMap (s.taken? bucket)

/-- The layer of a bucket after all operations were placed. -/
def layer : Layer :=
  (h.shownUpTo s bucket target).foldl Layer.put {}

private theorem layer_eq_writeAll : h.layer s bucket target =
    Table.writeAll Placed.path Placed.method (fun q => (q.version, q.operation)) {}
      (h.shownUpTo s bucket target) :=
  rfl

variable {h s bucket target}

private theorem mem_shownUpTo (hw : h.WellFormed) {q : Placed} :
    q ∈ h.shownUpTo s bucket target ↔
      q.version ≤ target ∧ h.Shows s bucket q.version q.path q.method q.operation := by
  simp only [shownUpTo, List.mem_filterMap, hw.mem_placedUpTo, MergeStrategy.taken?_eq_some_iff]
  constructor
  · rintro ⟨p, ⟨hle, hop⟩, shown, htakes, rfl⟩
    exact ⟨hle, p.operation, hop, htakes⟩
  · rintro ⟨hle, o, hop, htakes⟩
    exact ⟨{ q with operation := o }, ⟨hle, hop⟩, q.operation, htakes, rfl⟩

private theorem shownUpTo_ascending (hw : h.WellFormed) :
    (h.shownUpTo s bucket target).Pairwise fun p q => p.version ≤ q.version := by
  apply (hw.placedUpTo_ascending target).filterMap
  intro p p' hle q hq q' hq'
  obtain ⟨_, _, rfl⟩ := MergeStrategy.taken?_eq_some_iff.mp hq
  obtain ⟨_, _, rfl⟩ := MergeStrategy.taken?_eq_some_iff.mp hq'
  exact hle

private theorem le_getLast {qs : List Placed}
    (ha : qs.Pairwise fun p q => p.version ≤ q.version) {last : Placed}
    (hlast : qs.getLast? = some last) : ∀ q ∈ qs, q.version ≤ last.version := by
  obtain ⟨front, rfl⟩ := List.getLast?_eq_some_iff.mp hlast
  intro q hq
  rcases List.mem_append.mp hq with hq | hq
  · exact (List.pairwise_append.mp ha).2.2 q hq last (by simp)
  · exact Nat.le_of_eq (congrArg Placed.version (List.mem_singleton.mp hq))

/-- A cell of a layer holds the greatest version at which the bucket takes its operation. -/
theorem cell?_layer (hw : h.WellFormed) {path : String} {m : Method} {w : Nat}
    {shown : Operation} (hcell : Table.cell? (h.layer s bucket target) path m = some (w, shown)) :
    IsGreatest (h.shownVersions s bucket target path m) w ∧
      h.Shows s bucket w path m shown := by
  rw [layer_eq_writeAll, Table.cell?_writeAll] at hcell
  simp only [Table.cell?_empty, Option.or_none, Option.map_eq_some_iff, Prod.mk.injEq] at hcell
  obtain ⟨last, hlast, rfl, rfl⟩ := hcell
  obtain ⟨hmem, hat⟩ := List.mem_filter.mp (List.mem_of_getLast? hlast)
  obtain ⟨rfl, rfl⟩ : last.path = path ∧ last.method = m := by simpa using hat
  have hshown := (mem_shownUpTo hw).mp hmem
  refine ⟨⟨⟨hshown.1, _, hshown.2⟩, ?_⟩, hshown.2⟩
  rintro v ⟨hv, o, ho⟩
  have hq : (⟨v, last.path, last.method, o⟩ : Placed) ∈ h.shownUpTo s bucket target :=
    (mem_shownUpTo hw).mpr ⟨hv, ho⟩
  exact le_getLast ((shownUpTo_ascending hw).filter _) hlast _ (List.mem_filter.mpr ⟨hq, by simp⟩)

theorem cell?_layer_none (hw : h.WellFormed) {path : String} {m : Method} :
    Table.cell? (h.layer s bucket target) path m = none ↔
      h.shownVersions s bucket target path m = ∅ := by
  rw [layer_eq_writeAll, Table.cell?_writeAll]
  simp only [Table.cell?_empty, Option.or_none, Option.map_eq_none_iff,
    List.getLast?_eq_none_iff, List.filter_eq_nil_iff, Set.eq_empty_iff_forall_notMem]
  constructor
  · rintro hnone v ⟨hv, o, ho⟩
    exact hnone ⟨v, path, m, o⟩ ((mem_shownUpTo hw).mpr ⟨hv, ho⟩) (by simp)
  · intro hempty q hq hat
    obtain ⟨rfl, rfl⟩ : q.path = path ∧ q.method = m := by simpa using hat
    have hshown := (mem_shownUpTo hw).mp hq
    exact hempty q.version ⟨hshown.1, _, hshown.2⟩

/-- A bucket shows one operation at most. -/
theorem Shows.unique {v : Nat} {path : String} {m : Method} {o o' : Operation}
    (ho : h.Shows s bucket v path m o) (ho' : h.Shows s bucket v path m o') : o = o' := by
  obtain ⟨op, hop, htakes⟩ := ho
  obtain ⟨op', hop', htakes'⟩ := ho'
  obtain rfl := Option.some.inj (hop.symm.trans hop')
  rw [(MergeStrategy.takes_iff.mp htakes).2, (MergeStrategy.takes_iff.mp htakes').2]

theorem cell?_layer_eq_some_iff (hw : h.WellFormed) {path : String} {m : Method} {w : Nat}
    {o : Operation} : Table.cell? (h.layer s bucket target) path m = some (w, o) ↔
      IsGreatest (h.shownVersions s bucket target path m) w ∧ h.Shows s bucket w path m o := by
  refine ⟨cell?_layer hw, fun ⟨hgreatest, hshows⟩ => ?_⟩
  cases hcell : Table.cell? (h.layer s bucket target) path m with
  | none =>
    have hmem := hgreatest.1
    rw [(cell?_layer_none hw).mp hcell] at hmem
    cases hmem
  | some found =>
    obtain ⟨u, shown⟩ := found
    obtain ⟨hgreatest', hshows'⟩ := cell?_layer hw hcell
    obtain rfl : u = w := Nat.le_antisymm (hgreatest.2 hgreatest'.1) (hgreatest'.2 hgreatest.1)
    rw [hshows'.unique hshows]

theorem layer_distinct : (h.layer s bucket target).Distinct :=
  Table.writeAll_distinct _ _ _ OrderedMap.distinct_empty _

private theorem paths_eq_writeAll (l : Layer) : l.paths =
    Table.writeAll (fun c => Path.ofVersion c.2.2.1 c.1) (fun c => c.2.1) (fun c => c.2.2.2) {}
      (Table.cells l) :=
  rfl

/-- What the path document of a layer lists is a cell under the path of its own version. -/
theorem exists_of_cell?_paths {key : String} {m : Method} {o : Operation}
    (ho : Table.cell? (h.layer s bucket target).paths key m = some o) :
    ∃ path w, Path.ofVersion w path = key ∧
      Table.cell? (h.layer s bucket target) path m = some (w, o) := by
  rw [paths_eq_writeAll] at ho
  obtain ⟨⟨path, n, w, o'⟩, hmem, hkey, rfl, rfl⟩ := Table.exists_of_cell?_writeAll _ _ _ ho
  exact ⟨path, w, hkey, (Table.mem_cells layer_distinct).mp hmem⟩

/-- What is listed is shown by the bucket, under the path of its own version. -/
theorem shows_of_listed (hw : h.WellFormed) {key : String} {m : Method} {o : Operation}
    (ho : Table.cell? (h.layer s bucket target).paths key m = some o) :
    ∃ path w, Path.ofVersion w path = key ∧ h.Shows s bucket w path m o := by
  obtain ⟨path, w, hkey, hcell⟩ := exists_of_cell?_paths ho
  exact ⟨path, w, hkey, (cell?_layer hw hcell).2⟩

theorem distinct_paths : (h.layer s bucket target).paths.Distinct :=
  Table.writeAll_distinct _ _ _ OrderedMap.distinct_empty _

theorem filled_paths : Table.Filled (h.layer s bucket target).paths :=
  Table.writeAll_filled _ _ _ Table.filled_empty _

/-- A cell is listed unless another one shares its listed path. -/
theorem cell?_paths_of_unique {path : String} {m : Method} {w : Nat} {o : Operation}
    (hcell : Table.cell? (h.layer s bucket target) path m = some (w, o))
    (hunique : ∀ q o', Table.cell? (h.layer s bucket target) q m = some (w, o') →
      Text.trimLeftSlashes q = Text.trimLeftSlashes path → q = path) :
    Table.cell? (h.layer s bucket target).paths (Path.ofVersion w path) m = some o := by
  rw [paths_eq_writeAll]
  refine (Table.cell?_writeAll_eq_some_iff _ _ _ ?_).mpr
    ⟨(path, m, w, o), (Table.mem_cells layer_distinct).mpr hcell, rfl, rfl, rfl⟩
  have hcase : ∀ c ∈ Table.cells (h.layer s bucket target),
      Path.ofVersion c.2.2.1 c.1 = Path.ofVersion w path ∧ c.2.1 = m → c.2.2.2 = o := by
    rintro ⟨q, n, u, o'⟩ hmem ⟨hkey, rfl⟩
    obtain ⟨rfl, htrim⟩ := Path.ofVersion_inj.mp hkey
    have hq := (Table.mem_cells layer_distinct).mp hmem
    obtain rfl := hunique q o' hq htrim
    exact congrArg Prod.snd (Option.some.inj (hq.symm.trans hcell))
  intro c hc c' hc' hat hat'
  rw [hcase c hc hat, hcase c' hc' hat']

/-- Where paths are told apart, the path document lists each cell and nothing else. -/
theorem cell?_paths (hw : h.WellFormed) (hs : h.DistinctUpToSlashes) {key : String}
    {m : Method} {o : Operation} :
    Table.cell? (h.layer s bucket target).paths key m = some o ↔
      ∃ path w, Path.ofVersion w path = key ∧
        Table.cell? (h.layer s bucket target) path m = some (w, o) := by
  constructor
  · exact exists_of_cell?_paths
  · rintro ⟨path, w, rfl, hcell⟩
    refine cell?_paths_of_unique hcell ?_
    intro q o' hq htrim
    exact hs q path ((cell?_layer hw hq).2.stores hw) ((cell?_layer hw hcell).2.stores hw) htrim

theorem isOverlay_layer (hw : h.WellFormed) (hs : h.DistinctUpToSlashes) :
    h.IsOverlay s bucket target (h.layer s bucket target).paths where
  distinct := distinct_paths
  filled := filled_paths
  cell path hpath m := by
    cases hcell : Table.cell? (h.layer s bucket target) path m with
    | none =>
      refine .inl ⟨(cell?_layer_none hw).mp hcell, fun v => ?_⟩
      rw [Option.eq_none_iff_forall_ne_some]
      intro o ho
      obtain ⟨q, w, hkey, hq⟩ := (cell?_paths hw hs).mp ho
      have heq : path = q := hs path q hpath ((cell?_layer hw hq).2.stores hw)
        (Path.ofVersion_inj.mp hkey).2.symm
      simp [← heq, hcell] at hq
    | some found =>
      obtain ⟨w, shown⟩ := found
      obtain ⟨hgreatest, hshown⟩ := cell?_layer hw hcell
      refine .inr ⟨w, shown, hgreatest, hshown, fun v => ?_⟩
      by_cases hv : v = w
      · rw [if_pos hv]
        exact (cell?_paths hw hs).mpr ⟨path, w, by rw [hv], hcell⟩
      · rw [if_neg hv, Option.eq_none_iff_forall_ne_some]
        intro o ho
        obtain ⟨q, u, hkey, hq⟩ := (cell?_paths hw hs).mp ho
        obtain ⟨rfl, htrim⟩ := Path.ofVersion_inj.mp hkey
        have heq : path = q := hs path q hpath ((cell?_layer hw hq).2.stores hw) htrim.symm
        rw [← heq, hcell] at hq
        exact hv (Prod.mk.inj (Option.some.inj hq)).1.symm
  only key m o ho := by
    obtain ⟨path, w, rfl, hcell⟩ := (cell?_paths hw hs).mp ho
    obtain ⟨hgreatest, hshown⟩ := cell?_layer hw hcell
    exact ⟨path, w, hshown.stores hw, hgreatest.1.1, rfl, hshown⟩

end Layers
end VersionHeap

namespace VersionHeap

/-- The documents of all buckets for a target. -/
def merged (h : VersionHeap) (s : MergeStrategy) (root : DocumentRoot) (target : Nat) :
    MergedDocuments :=
  ((h.placedUpTo target).foldl s.place s.emptyLayers).mapValues fun layer =>
    root.document target layer.paths

theorem keys_merged (h : VersionHeap) (s : MergeStrategy) (root : DocumentRoot) (target : Nat) :
    (h.merged s root target).keys = s.buckets.eraseDups := by
  rw [merged, OrderedMap.keys_mapValues, MergeStrategy.keys_foldl_place]
  exact OrderedMap.keys_foldl_insert _ _

theorem distinct_merged (h : VersionHeap) (s : MergeStrategy) (root : DocumentRoot)
    (target : Nat) : (h.merged s root target).Distinct := by
  have hempty : s.emptyLayers.Distinct :=
    List.foldlRecOn s.buckets _ OrderedMap.distinct_empty fun _ hm bucket _ => hm.insert bucket {}
  rw [OrderedMap.Distinct, merged, OrderedMap.keys_mapValues, MergeStrategy.keys_foldl_place]
  exact hempty

theorem mem_keys_merged {h : VersionHeap} {s : MergeStrategy} {root : DocumentRoot} {target : Nat}
    {bucket : String} : bucket ∈ (h.merged s root target).keys ↔ bucket ∈ s.buckets := by
  rw [keys_merged, List.mem_eraseDups]

theorem get?_merged (h : VersionHeap) {s : MergeStrategy} (root : DocumentRoot) (target : Nat)
    {bucket : String} (hbucket : bucket ∈ s.buckets) : (h.merged s root target).get? bucket =
      some (root.document target (h.layer s bucket target).paths) := by
  have hempty : s.emptyLayers.get? bucket = some {} := by
    rw [MergeStrategy.emptyLayers, OrderedMap.get?_foldl_insert, if_pos hbucket]
  rw [merged, OrderedMap.get?_mapValues, MergeStrategy.get?_foldl_place, hempty]
  rfl

theorem of_get?_merged {h : VersionHeap} {s : MergeStrategy} {root : DocumentRoot} {target : Nat}
    {bucket : String} {d : Document} (hd : (h.merged s root target).get? bucket = some d) :
    bucket ∈ s.buckets ∧ root.document target (h.layer s bucket target).paths = d := by
  have hbucket := mem_keys_merged.mp (OrderedMap.mem_keys_of_get? hd)
  rw [h.get?_merged root target hbucket, Option.some.injEq] at hd
  exact ⟨hbucket, hd⟩

end VersionHeap

namespace Merger

variable {σ : Type}

theorem merge_eq {m : Merger σ} {s : MergeStrategy} (hstrategy : m.strategy? = some s)
    (target : Nat) : m.merge target = if target = 0
      then .error (.invalidArgument "version must be a positive integer")
      else .ok (m.heap.merged s m.root target) := by
  simp only [merge, strategy, hstrategy]
  rfl

theorem merge_eq_ok_iff {m : Merger σ} {s : MergeStrategy} (hstrategy : m.strategy? = some s)
    {target : Nat} {documents : MergedDocuments} :
    m.merge target = .ok documents ↔ 1 ≤ target ∧ m.heap.merged s m.root target = documents := by
  rw [merge_eq hstrategy]
  split
  · next hzero => simp [hzero]
  · next hpos =>
    have ht : 1 ≤ target := by omega
    simp [ht]

theorem merge_eq_ok {m : Merger σ} {s : MergeStrategy} (hstrategy : m.strategy? = some s)
    {target : Nat} (ht : 1 ≤ target) :
    m.merge target = .ok (m.heap.merged s m.root target) :=
  (merge_eq_ok_iff hstrategy).mpr ⟨ht, rfl⟩

/-- Merging gives one document for each bucket, buckets in the order of their first mention, and
each document lists the overlay of the versions up to the target. -/
theorem merge_isOverlay (m : Merger σ) (s : MergeStrategy) (hstrategy : m.strategy? = some s)
    (hw : m.heap.WellFormed) (hs : m.heap.DistinctUpToSlashes) (target : Nat) (ht : 1 ≤ target) :
    ∃ documents, m.merge target = .ok documents ∧ documents.keys = s.buckets.eraseDups ∧
      ∀ bucket ∈ s.buckets, ∃ paths,
        documents.get? bucket = some (m.root.document target paths) ∧
        m.heap.IsOverlay s bucket target paths := by
  refine ⟨_, merge_eq_ok hstrategy ht, m.heap.keys_merged s m.root target, ?_⟩
  intro bucket hbucket
  exact ⟨_, m.heap.get?_merged m.root target hbucket, VersionHeap.isOverlay_layer hw hs⟩

/-- Two versions of one path, the later one with a method more. -/
def twoVersions : Merger Unit where
  heap := (({} : VersionHeap).insert 1 "x" { get := some { tags := ["a", "modifier.public"] } }).insert
    3 "x" { get := some { summary := "new", tags := ["modifier.public"] },
            post := some { tags := ["modifier.private", "b"] } }
  root := ⟨"API", "https://localhost/api", []⟩
  strategy? := some .byModifier

theorem twoVersions_isOverlay : twoVersions.heap.WellFormed ∧
    twoVersions.heap.DistinctUpToSlashes ∧
    ∃ documents, twoVersions.merge 3 = .ok documents ∧
      documents.keys = MergeStrategy.byModifier.buckets.eraseDups ∧
      ∀ bucket ∈ MergeStrategy.byModifier.buckets, ∃ paths,
        documents.get? bucket = some (twoVersions.root.document 3 paths) ∧
        twoVersions.heap.IsOverlay .byModifier bucket 3 paths := by
  have hw : twoVersions.heap.WellFormed :=
    (VersionHeap.wellFormed_empty.insert _ _ _).insert _ _ _
  have hx : ∀ p, twoVersions.heap.Stores p → p = "x" := by
    rintro p ⟨e, he, hp⟩
    simp only [twoVersions, VersionHeap.insert, VersionHeap.updateIn] at he
    rcases List.mem_cons.mp he with rfl | he
    · simpa [OrderedMap.keys, OrderedMap.upsert, OrderedMap.upsertIn] using hp
    · rw [List.mem_singleton.mp he] at hp
      simpa [OrderedMap.keys, OrderedMap.upsert, OrderedMap.upsertIn] using hp
  have hs : twoVersions.heap.DistinctUpToSlashes := fun p q hp hq _ => (hx p hp).trans (hx q hq).symm
  exact ⟨hw, hs, merge_isOverlay twoVersions .byModifier rfl hw hs 3 (by decide)⟩

end Merger
end ApiDocs
