import ApiDocs.Proofs.Versions.History
import ApiDocs.Proofs.Versions.Overlay
/-!
# Spellings of a path

Merging drops the slashes in front of a path when it lists the path, and not before. So it takes
each spelling of a path for a path of its own, and an operation is replaced only by a later one
that was inserted under the same spelling. Where two spellings are listed under one key, the one
that came first gives way. A path that is spelled in one way is listed as it is without slashes.
-/
namespace ApiDocs

namespace Table

variable {α β : Type}

section Relocation

variable (key : String → β → String) (value : β → α)

/-- Write the cells of a table under other paths. -/
def relocate (t : Table β) : Table α :=
  writeAll (fun c => key c.1 c.2.2) (fun c => c.2.1) (fun c => value c.2.2) {} t.cells

private theorem cell?_relocate_entry (e : String × ByMethod β) (k : String) (n : Method) :
    cell? (relocate key value ⟨[e]⟩) k n =
      ((e.2.get? n).filter fun v => key e.1 v = k).map value := by
  have hcells : ∀ c ∈ cells ⟨[e]⟩, c.1 = e.1 ∧ e.2.get? c.2.1 = some c.2.2 := by
    intro c hc
    obtain ⟨o, ho, rfl⟩ : ∃ o ∈ e.2.toList, (e.1, o) = c := by simpa [cells] using hc
    exact ⟨rfl, ByMethod.mem_toList.mp ho⟩
  have hmem : ∀ v, e.2.get? n = some v → (e.1, n, v) ∈ cells ⟨[e]⟩ := by
    intro v hv
    simpa [cells] using ByMethod.mem_toList.mpr hv
  have hagree : ∀ c ∈ cells ⟨[e]⟩, ∀ d ∈ cells ⟨[e]⟩, key c.1 c.2.2 = k ∧ c.2.1 = n →
      key d.1 d.2.2 = k ∧ d.2.1 = n → value c.2.2 = value d.2.2 := by
    intro c hc d hd hat hat'
    have hvalues := (hcells c hc).2.symm.trans (hat.2.trans hat'.2.symm ▸ (hcells d hd).2)
    rw [Option.some.inj hvalues]
  ext a
  rw [relocate, cell?_writeAll_eq_some_iff _ _ _ hagree]
  simp only [Option.map_eq_some_iff, Option.filter_eq_some_iff, decide_eq_true_eq]
  constructor
  · rintro ⟨⟨p, m, v⟩, hc, hkey, rfl, rfl⟩
    obtain ⟨rfl, hv⟩ := hcells _ hc
    exact ⟨v, ⟨hv, hkey⟩, rfl⟩
  · rintro ⟨v, ⟨hv, hkey⟩, rfl⟩
    exact ⟨(e.1, n, v), hmem v hv, hkey, rfl, rfl⟩

private theorem cell?_relocate_entries (entries : List (String × ByMethod β)) (k : String)
    (n : Method) : cell? (relocate key value ⟨entries⟩) k n = entries.reverse.findSome? fun e =>
      ((e.2.get? n).filter fun v => key e.1 v = k).map value := by
  induction entries using List.reverseRecOn with
  | nil => rfl
  | append_singleton front e ih =>
    have hcells : cells ⟨front ++ [e]⟩ = cells ⟨front⟩ ++ cells ⟨[e]⟩ := List.flatMap_append
    have hentry := cell?_relocate_entry key value e k n
    unfold relocate at ih hentry ⊢
    rw [hcells, cell?_writeAll_append, ih, hentry, List.reverse_append, List.findSome?_append]
    simp

private theorem findSome?_congr {γ δ : Type} {f g : γ → Option δ} {items : List γ}
    (h : ∀ x ∈ items, f x = g x) : items.findSome? f = items.findSome? g := by
  induction items with
  | nil => rfl
  | cons x items ih =>
    obtain ⟨hx, hitems⟩ := List.forall_mem_cons.mp h
    rw [List.findSome?_cons, List.findSome?_cons, hx, ih hitems]

/-- The last path with a cell that goes to the new path decides. -/
theorem cell?_relocate {t : Table β} (ht : t.Distinct) (k : String) (n : Method) :
    cell? (t.relocate key value) k n = t.keys.reverse.findSome? fun p =>
      ((t.cell? p n).filter fun v => key p v = k).map value := by
  rw [OrderedMap.keys, ← List.map_reverse, List.findSome?_map]
  refine (cell?_relocate_entries key value t.entries k n).trans (findSome?_congr ?_)
  intro e he
  have hitem := ht.mem_entries_iff.mp (List.mem_reverse.mp he)
  simp [cell?, hitem]

theorem cell?_relocate_eq_some_iff {t : Table β} (ht : t.Distinct) {k : String} {n : Method}
    {a : α} : cell? (t.relocate key value) k n = some a ↔
      ∃ front p back v, t.keys = front ++ p :: back ∧ t.cell? p n = some v ∧ key p v = k ∧
        value v = a ∧ ∀ q ∈ back, ∀ w, t.cell? q n = some w → key q w ≠ k := by
  rw [cell?_relocate key value ht, List.findSome?_eq_some_iff]
  simp only [Option.map_eq_some_iff, Option.map_eq_none_iff, Option.filter_eq_some_iff,
    Option.filter_eq_none_iff, decide_eq_true_eq]
  constructor
  · rintro ⟨later, p, earlier, hkeys, ⟨v, ⟨hv, hkey⟩, rfl⟩, hlater⟩
    refine ⟨earlier.reverse, p, later.reverse, v, ?_, hv, hkey, rfl, ?_⟩
    · simpa using congrArg List.reverse hkeys
    · exact fun q hq => hlater q (List.mem_reverse.mp hq)
  · rintro ⟨front, p, back, v, hkeys, hv, hkey, rfl, hback⟩
    refine ⟨back.reverse, p, front.reverse, ?_, ⟨v, ⟨hv, hkey⟩, rfl⟩, ?_⟩
    · simp [hkeys]
    · exact fun q hq => hback q (List.mem_reverse.mp hq)

end Relocation
end Table

namespace VersionHeap

/-- The paths that a bucket takes operations of, each spelling once, in the order of the first
operation that is taken. -/
def spellings (h : VersionHeap) (s : MergeStrategy) (bucket : String) (target : Nat) :
    List String :=
  ((h.shownUpTo s bucket target).map Placed.path).eraseDups

/-- The operation that a bucket lists under a key: it shows in the greatest version of a spelling,
and no later spelling of the path has the same greatest version. -/
def IsListed (h : VersionHeap) (s : MergeStrategy) (bucket : String) (target : Nat) (key : String)
    (n : Method) (o : Operation) : Prop :=
  ∃ front path back version, h.spellings s bucket target = front ++ path :: back ∧
    Path.ofVersion version path = key ∧
    IsGreatest (h.shownVersions s bucket target path n) version ∧
    h.Shows s bucket version path n o ∧
    ∀ q ∈ back, Text.trimLeftSlashes q = Text.trimLeftSlashes path →
      ¬ IsGreatest (h.shownVersions s bucket target q n) version

/-- No other spelling of a path has operations for a method, up to a version. -/
def Alone (h : VersionHeap) (target : Nat) (path : String) (n : Method) : Prop :=
  ∀ v ≤ target, ∀ q, (h.operation? v q n).isSome →
    Text.trimLeftSlashes q = Text.trimLeftSlashes path → q = path

section Layers

variable {h : VersionHeap} {s : MergeStrategy} {bucket : String} {target : Nat}

theorem keys_layer : (h.layer s bucket target).keys = h.spellings s bucket target :=
  Table.keys_writeAll Placed.path Placed.method (fun q => (q.version, q.operation)) _

theorem cell?_paths_eq_some_iff (hw : h.WellFormed) {key : String} {n : Method} {o : Operation} :
    Table.cell? (h.layer s bucket target).paths key n = some o ↔
      h.IsListed s bucket target key n o := by
  have hpaths : (h.layer s bucket target).paths =
      Table.relocate (fun path v => Path.ofVersion v.1 path) Prod.snd (h.layer s bucket target) :=
    rfl
  rw [hpaths, Table.cell?_relocate_eq_some_iff _ _ layer_distinct, keys_layer]
  constructor
  · rintro ⟨front, path, back, ⟨version, o'⟩, hsplit, hcell, hkey, rfl, hback⟩
    obtain ⟨hgreatest, hshows⟩ := (cell?_layer_eq_some_iff hw).mp hcell
    refine ⟨front, path, back, version, hsplit, hkey, hgreatest, hshows, ?_⟩
    intro q hq htrim hgreatest'
    obtain ⟨shown, hshown⟩ := hgreatest'.1.2
    have hcell' := (cell?_layer_eq_some_iff hw).mpr ⟨hgreatest', hshown⟩
    exact hback q hq _ hcell' ((Path.ofVersion_inj.mpr ⟨rfl, htrim⟩).trans hkey)
  · rintro ⟨front, path, back, version, hsplit, rfl, hgreatest, hshows, hback⟩
    refine ⟨front, path, back, (version, o), hsplit,
      (cell?_layer_eq_some_iff hw).mpr ⟨hgreatest, hshows⟩, rfl, rfl, ?_⟩
    rintro q hq ⟨u, o'⟩ hcell hkey
    obtain ⟨rfl, htrim⟩ := Path.ofVersion_inj.mp hkey
    exact hback q hq htrim ((cell?_layer_eq_some_iff hw).mp hcell).1

/-- Where a path is the only spelling with operations for a method, its greatest version is
listed. -/
theorem Alone.cell?_paths_eq_some_iff (hw : h.WellFormed) {path : String} {n : Method}
    (halone : h.Alone target path n) {version : Nat} {o : Operation} :
    Table.cell? (h.layer s bucket target).paths (Path.ofVersion version path) n = some o ↔
      IsGreatest (h.shownVersions s bucket target path n) version ∧
        h.Shows s bucket version path n o := by
  have hspelled : ∀ q w o', Table.cell? (h.layer s bucket target) q n = some (w, o') →
      Text.trimLeftSlashes q = Text.trimLeftSlashes path → q = path := by
    intro q w o' hcell htrim
    obtain ⟨hgreatest, op, hop, -⟩ := (cell?_layer_eq_some_iff hw).mp hcell
    exact halone w hgreatest.1.1 q (by rw [hop]; rfl) htrim
  constructor
  · intro ho
    obtain ⟨q, w, hkey, hcell⟩ := exists_of_cell?_paths ho
    obtain ⟨rfl, htrim⟩ := Path.ofVersion_inj.mp hkey
    rw [hspelled q _ _ hcell htrim] at hcell
    exact (cell?_layer_eq_some_iff hw).mp hcell
  · intro hshown
    exact cell?_paths_of_unique ((cell?_layer_eq_some_iff hw).mpr hshown)
      fun q o' hq htrim => hspelled q _ o' hq htrim

/-- Two heaps with the same operations under two spellings, each alone in its heap, list them
alike. -/
theorem Alone.cell?_paths_congr {h' : VersionHeap} (hw : h.WellFormed) (hw' : h'.WellFormed)
    {path path' : String} {n : Method} (halone : h.Alone target path n)
    (halone' : h'.Alone target path' n)
    (htrim : Text.trimLeftSlashes path = Text.trimLeftSlashes path')
    (hop : ∀ v ≤ target, h.operation? v path n = h'.operation? v path' n) (version : Nat) :
    Table.cell? (h.layer s bucket target).paths (Path.ofVersion version path) n =
      Table.cell? (h'.layer s bucket target).paths (Path.ofVersion version path) n := by
  have hshows : ∀ v ≤ target, ∀ o,
      h.Shows s bucket v path n o ↔ h'.Shows s bucket v path' n o := by
    intro v hv o
    unfold Shows
    rw [hop v hv]
  have hversions : h.shownVersions s bucket target path n =
      h'.shownVersions s bucket target path' n := by
    ext v
    exact and_congr_right fun hv => exists_congr (hshows v hv)
  have hkey : Path.ofVersion version path = Path.ofVersion version path' :=
    Path.ofVersion_inj.mpr ⟨rfl, htrim⟩
  ext o
  rw [halone.cell?_paths_eq_some_iff hw, hkey, halone'.cell?_paths_eq_some_iff hw', hversions]
  exact and_congr_right fun hgreatest => hshows version hgreatest.1.1 o

end Layers

end VersionHeap

/-- The item under its path without the slashes in front. -/
def PlacedItem.trimmed (e : PlacedItem) : PlacedItem :=
  { e with path := Text.trimLeftSlashes e.path }

namespace VersionHeap

variable {items : List PlacedItem} {v : Nat} {path : String} {n : Method}

/-- The items for a method, up to a version, that have one path without slashes are all spelled
alike. -/
def SpelledAlike (items : List PlacedItem) (target : Nat) (path : String) (n : Method) : Prop :=
  ∀ e ∈ items, e.version ≤ target → (e.item.get? n).isSome →
    Text.trimLeftSlashes e.path = Text.trimLeftSlashes path → e.path = path

theorem SpelledAlike.alone {target : Nat} (halike : SpelledAlike items target path n) :
    (insertItems {} items).Alone target path n := by
  intro u hu q hop htrim
  obtain ⟨e, he, rfl, rfl, hsome⟩ := exists_item_of_operation? hop
  exact halike e he hu hsome htrim

/-- Without slashes each path has one spelling. -/
theorem alone_trimmed (items : List PlacedItem) (target : Nat) (path : String) (n : Method) :
    (insertItems {} (items.map PlacedItem.trimmed)).Alone target (Text.trimLeftSlashes path) n := by
  intro u _ q hop htrim
  obtain ⟨e, he, _, rfl, _⟩ := exists_item_of_operation? hop
  obtain ⟨e', _, rfl⟩ := List.mem_map.mp he
  rw [Text.trimLeftSlashes_idem] at htrim
  rw [← htrim]
  exact (Text.trimLeftSlashes_idem e'.path).symm

/-- A path that is spelled in one way holds what the path without slashes does. -/
theorem SpelledAlike.operation?_trimmed {target : Nat} (halike : SpelledAlike items target path n)
    (hv : v ≤ target) : (insertItems {} items).operation? v path n =
      (insertItems {} (items.map PlacedItem.trimmed)).operation? v (Text.trimLeftSlashes path)
        n := by
  have hsame : (items.filter fun e => e.trimmed.Defines v (Text.trimLeftSlashes path) n) =
      items.filter fun e => e.Defines v path n := by
    apply List.filter_congr
    intro e he
    rw [decide_eq_decide]
    constructor
    · intro ⟨hversion, htrim, hsome⟩
      exact ⟨hversion, halike e he (hversion ▸ hv) hsome htrim, hsome⟩
    · intro ⟨hversion, hpath, hsome⟩
      exact ⟨hversion, congrArg Text.trimLeftSlashes hpath, hsome⟩
  rw [operation?_of_items, operation?_of_items, ← hsame, List.filter_map, List.getLast?_map,
    Option.bind_map]
  rfl

end VersionHeap

namespace Merger

variable {σ : Type}

/-- The merger with a heap of these items instead of its own. -/
def withItems (m : Merger σ) (items : List PlacedItem) : Merger σ :=
  { m with heap := .insertItems {} items }

/-- Merging what was inserted lists the greatest version of each spelling of a path, and the last
spelling where several are listed under one key. Where a path is spelled in one way this is what
merging lists without the slashes. -/
theorem merge_by_spelling (m : Merger σ) {s : MergeStrategy} (hstrategy : m.strategy? = some s)
    (items : List PlacedItem) {target : Nat} (ht : 1 ≤ target) :
    ∃ documents documents', (m.withItems items).merge target = .ok documents ∧
      (m.withItems (items.map .trimmed)).merge target = .ok documents' ∧
      documents.keys = documents'.keys ∧
      ∀ bucket d, documents.get? bucket = some d →
        (∀ key n o, Table.cell? d.paths key n = some o ↔
          (m.withItems items).heap.IsListed s bucket target key n o) ∧
        ∃ d', documents'.get? bucket = some d' ∧ { d with paths := d'.paths } = d' ∧
          ∀ path n, VersionHeap.SpelledAlike items target path n → ∀ version,
            Table.cell? d.paths (Path.ofVersion version path) n =
              Table.cell? d'.paths (Path.ofVersion version path) n := by
  have hmerge : ∀ items, (m.withItems items).merge target =
      .ok ((VersionHeap.insertItems {} items).merged s m.root target) :=
    fun items => merge_eq_ok (m := m.withItems items) hstrategy ht
  refine ⟨_, _, hmerge items, hmerge _, ?_, ?_⟩
  · rw [VersionHeap.keys_merged, VersionHeap.keys_merged]
  · intro bucket d hd
    obtain ⟨hbucket, rfl⟩ := VersionHeap.of_get?_merged hd
    refine ⟨?_, _, VersionHeap.get?_merged _ _ _ hbucket, rfl, ?_⟩
    · intro key n o
      exact VersionHeap.cell?_paths_eq_some_iff (VersionHeap.wellFormed_empty.insertItems items)
    · intro path n halike version
      apply halike.alone.cell?_paths_congr (VersionHeap.wellFormed_empty.insertItems items)
        (VersionHeap.wellFormed_empty.insertItems _)
      · exact VersionHeap.alone_trimmed items target path n
      · exact (Text.trimLeftSlashes_idem path).symm
      · exact fun v hv => halike.operation?_trimmed hv

/-- A path whose slash a later version drops, and a path that is spelled in one way. -/
def respelled : List PlacedItem :=
  [⟨1, "/x", { get := some { summary := "slash", tags := ["modifier.public"] } }⟩,
    ⟨2, "x", { get := some { summary := "plain", tags := ["modifier.public"] } }⟩,
    ⟨1, "/y", { get := some { tags := ["modifier.public"] } }⟩]

/-- A merger without operations. -/
def blank : Merger Unit where
  heap := {}
  root := ⟨"API", "https://localhost/api", []⟩
  strategy? := some .byModifier

theorem respelled_merged : VersionHeap.SpelledAlike respelled 2 "/y" .get ∧
    ∃ documents documents', (blank.withItems respelled).merge 2 = .ok documents ∧
      (blank.withItems (respelled.map .trimmed)).merge 2 = .ok documents' ∧
      ∃ d d', documents.get? "public" = some d ∧ documents'.get? "public" = some d' ∧
        (∀ key n o, Table.cell? d.paths key n = some o ↔
          (blank.withItems respelled).heap.IsListed .byModifier "public" 2 key n o) ∧
        ∀ version, Table.cell? d.paths (Path.ofVersion version "/y") .get =
          Table.cell? d'.paths (Path.ofVersion version "/y") .get := by
  have halike : VersionHeap.SpelledAlike respelled 2 "/y" .get := by
    unfold VersionHeap.SpelledAlike
    decide
  obtain ⟨documents, documents', hmerge, hmerge', _, heach⟩ :=
    merge_by_spelling blank rfl respelled (by decide : 1 ≤ 2)
  obtain ⟨d, hd⟩ : ∃ d, documents.get? "public" = some d := by
    cases hmerge
    exact ⟨_, rfl⟩
  obtain ⟨hlisted, d', hd', _, hsame⟩ := heach "public" d hd
  exact ⟨halike, documents, documents', hmerge, hmerge', d, d', hd, hd', hlisted,
    hsame "/y" .get halike⟩

/-- An operation stays listed under its version when a later version of it is inserted without the
slash. -/
theorem respelled_not_replaced : ¬ ∀ (σ : Type) (m : Merger σ) (s : MergeStrategy)
    (items : List PlacedItem) (target : Nat), m.strategy? = some s → 1 ≤ target →
    ∀ documents documents', (m.withItems items).merge target = .ok documents →
      (m.withItems (items.map .trimmed)).merge target = .ok documents' →
      ∀ bucket d d', documents.get? bucket = some d → documents'.get? bucket = some d' →
        ∀ key n, Table.cell? d.paths key n = Table.cell? d'.paths key n := by
  intro h
  have hsame := h Unit blank .byModifier respelled 2 rfl (by decide) _ _ rfl rfl "public" _ _ rfl
    rfl "/v1/x" .get
  have hlisted := congrArg Option.isSome hsame
  revert hlisted
  decide +kernel

end Merger
end ApiDocs
