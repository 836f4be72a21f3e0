import ApiDocs.Proofs.Command.Reload
import ApiDocs.Proofs.Command.Selector
import ApiDocs.Proofs.Files.Writes
import Mathlib.Data.List.Nodup
/-!
# What a merge reads and writes

A merge that succeeds reads the path documents and the tags first, and then writes one file for each
version and bucket.
-/
namespace ApiDocs

open Effect (outcome)
open FileTree (Writes Agree)

namespace Command

open CommandEffect (about)

variable {t t' : FileTree}

/-- The store that a merge works on. -/
def mergeStore (a : MergeArguments) : Store :=
  { Store.ofRoot a.docs with format := a.format }

/-- The tags that documents declare, as a merge reads them. -/
def tags? (t : FileTree) : Option String → Option (List Tag)
  | none => some []
  | some path =>
    match t.readText path with
    | .ok text => TagsFile.parse? text
    | .error _ => none

/-- What a merge reads before it writes. -/
structure Reads (a : MergeArguments) (t : FileTree) (heap : VersionHeap) (latest : Nat)
    (tags : List Tag) : Prop where
  directory : t.isDirectory a.docs
  loaded : outcome ((Store.ofRoot a.docs).loadHeap reservedNames t) = .ok heap
  chosen : a.latest?.or heap.latest? = some latest
  positive : 1 ≤ latest
  declared : tags? t a.tags? = some tags

/-- The files that a merge of versions writes, with their contents. -/
def mergedFiles (a : MergeArguments) (heap : VersionHeap) (tags : List Tag) (versions : List Nat) :
    List (String × Content) :=
  versions.flatMap fun version =>
    (heap.merged .byModifier ⟨a.title, a.baseUrl, tags⟩ version).entries.map fun e =>
      ((mergeStore a).mergedPath version e.1, .text (a.format.print e.2.toJson))

theorem saveAll_eq_ok_iff {s : Store} {version : Nat} {entries : List (String × Document)} :
    Merger.saveAll s.saver version entries t = .ok () t' ↔
      Writes (entries.map fun e =>
        (s.mergedPath version e.1, .text (s.format.print e.2.toJson))) t t' := by
  induction entries generalizing t with
  | nil =>
    rw [List.map_nil, FileTree.writes_nil_iff]
    exact Effect.pure_eq_ok_iff.trans (and_iff_right rfl)
  | cons e entries ih =>
    rw [List.map_cons, FileTree.writes_cons_iff]
    refine Effect.bind_eq_ok_iff.trans ?_
    constructor
    · intro ⟨_, t₁, hwrite, hrest⟩
      exact ⟨t₁, FileEffect.change_eq_ok_iff.mp hwrite, ih.mp hrest⟩
    · intro ⟨t₁, hwrite, hrest⟩
      exact ⟨(), t₁, FileEffect.change_eq_ok_iff.mpr hwrite, ih.mpr hrest⟩

theorem mergeAndSave_eq_ok_iff {m : Merger FileTree} {s : Store}
    (hstrategy : m.strategy? = some .byModifier) (hsaver : m.saver? = some s.saver)
    {version : Nat} {documents : MergedDocuments} :
    m.mergeAndSave version t = .ok documents t' ↔
      1 ≤ version ∧ m.heap.merged .byModifier m.root version = documents ∧
        Merger.saveAll s.saver version documents.entries t = .ok () t' := by
  have hsave : m.saver = .ok s.saver := by rw [Merger.saver, hsaver]
  refine (Effect.readOnly_lift m.saver).bind_eq_ok_iff.trans ?_
  simp only [Effect.lift_eq_ok_iff, hsave, Except.ok.injEq, and_true, exists_eq_left']
  refine (Effect.readOnly_lift (m.merge version)).bind_eq_ok_iff.trans ?_
  simp only [Effect.lift_eq_ok_iff, Merger.merge_eq_ok_iff hstrategy, and_true]
  constructor
  · rintro ⟨found, ⟨hversion, hmerged⟩, h⟩
    obtain ⟨_, t₁, hsaved, hpure⟩ := Effect.bind_eq_ok_iff.mp h
    obtain ⟨rfl, rfl⟩ := Effect.pure_eq_ok_iff.mp hpure
    exact ⟨hversion, hmerged, hsaved⟩
  · rintro ⟨hversion, hmerged, hsaved⟩
    exact ⟨documents, ⟨hversion, hmerged⟩,
      Effect.bind_eq_ok_iff.mpr ⟨(), t', hsaved, Effect.pure_eq_ok_iff.mpr ⟨rfl, rfl⟩⟩⟩

private theorem mergeVersions_eq_ok_iff {a : MergeArguments} {heap : VersionHeap} {tags : List Tag}
    {m : Merger FileTree} (hm : m = ⟨heap, ⟨a.title, a.baseUrl, tags⟩, some .byModifier,
      some (mergeStore a).saver⟩) {versions : List Nat} :
    mergeVersions m versions t = .ok () t' ↔
      (∀ version ∈ versions, 1 ≤ version) ∧ Writes (mergedFiles a heap tags versions) t t' := by
  induction versions generalizing t with
  | nil =>
    refine Effect.pure_eq_ok_iff.trans ?_
    simp [mergedFiles, FileTree.writes_nil_iff]
  | cons version versions ih =>
    have hstep : ∀ {documents : MergedDocuments} {t₁ : FileTree},
        about [s!"Failed to merge version {version}"] (m.mergeAndSave version) t =
            .ok documents t₁ ↔
          1 ≤ version ∧ heap.merged .byModifier ⟨a.title, a.baseUrl, tags⟩ version = documents ∧
            Merger.saveAll (mergeStore a).saver version documents.entries t = .ok () t₁ := by
      intro documents t₁
      subst hm
      rw [about_eq_ok_iff, mergeAndSave_eq_ok_iff rfl rfl]
    rw [mergedFiles, List.flatMap_cons, FileTree.writes_append_iff, List.forall_mem_cons]
    refine Effect.bind_eq_ok_iff.trans ?_
    constructor
    · intro ⟨documents, t₁, hmerged, hrest⟩
      obtain ⟨hversion, rfl, hsaved⟩ := hstep.mp hmerged
      obtain ⟨hversions, hwrites⟩ := ih.mp hrest
      exact ⟨⟨hversion, hversions⟩, t₁, saveAll_eq_ok_iff.mp hsaved, hwrites⟩
    · intro ⟨⟨hversion, hversions⟩, t₁, hsaved, hwrites⟩
      exact ⟨_, t₁, hstep.mpr ⟨hversion, rfl, saveAll_eq_ok_iff.mpr hsaved⟩,
        ih.mpr ⟨hversions, hwrites⟩⟩

theorem latestOf_eq_ok_iff {heap : VersionHeap} {docs : String} {latest : Nat} :
    latestOf heap docs t = .ok latest t ↔ heap.latest? = some latest := by
  unfold latestOf
  cases heap.latest? with
  | none => exact iff_of_false Effect.throw_ne_ok (by simp)
  | some found => exact Effect.pure_eq_ok_iff.trans (by simp)

theorem chooseLatest_eq_ok_iff {given? : Option Nat} {heap : VersionHeap} {docs : String}
    {latest : Nat} : chooseLatest given? heap docs t = .ok latest t ↔
      given?.or heap.latest? = some latest ∧ 1 ≤ latest := by
  have hchecked : ∀ found : Nat,
      (if found = 0 then CommandEffect.stop "The latest version must be a positive integer"
        else pure found : CommandEffect Nat) t = .ok latest t ↔ found = latest ∧ 1 ≤ latest := by
    intro found
    split
    · next hzero => exact iff_of_false Effect.throw_ne_ok (by omega)
    · next hpositive =>
      refine Effect.pure_eq_ok_iff.trans ?_
      rw [and_iff_left rfl]
      omega
  cases given? with
  | some found =>
    rw [Option.some_or, Option.some.injEq]
    exact hchecked found
  | none =>
    rw [Option.none_or]
    refine (readOnly_latestOf heap docs).bind_eq_ok_iff.trans ?_
    simp only [latestOf_eq_ok_iff]
    constructor
    · intro ⟨found, hfound, hlatest⟩
      obtain ⟨rfl, hpositive⟩ := (hchecked found).mp hlatest
      exact ⟨hfound, hpositive⟩
    · intro ⟨hfound, hpositive⟩
      exact ⟨latest, hfound, (hchecked latest).mpr ⟨rfl, hpositive⟩⟩

theorem readNamed_eq_ok_iff {context path text : String} :
    CommandEffect.readNamed context path t = .ok text t ↔ t.readText path = .ok text := by
  refine Effect.readOnly_get.bind_eq_ok_iff.trans ?_
  simp only [Effect.get_eq_ok_iff, and_true, exists_eq_left]
  cases t.readText path with
  | ok found => exact Effect.pure_eq_ok_iff.trans (by simp)
  | error fault => exact iff_of_false Effect.throw_ne_ok (by simp)

theorem loadTags_eq_ok_iff {path : String} {tags : List Tag} :
    loadTags path t = .ok tags t ↔ tags? t (some path) = some tags := by
  refine (readOnly_readNamed _ path).bind_eq_ok_iff.trans ?_
  simp only [readNamed_eq_ok_iff, tags?]
  cases hfile : t.readText path with
  | error fault => simp
  | ok text =>
    simp only [Except.ok.injEq, exists_eq_left']
    cases TagsFile.parse? text with
    | none => exact iff_of_false Effect.throw_ne_ok (by simp)
    | some found => exact Effect.pure_eq_ok_iff.trans (by simp)

private theorem withTags_eq_ok_iff {path? : Option String} {next : List Tag → CommandEffect Unit} :
    (match path? with
      | some path => loadTags path >>= next
      | none => pure [] >>= next) t = .ok () t' ↔
      ∃ tags, tags? t path? = some tags ∧ next tags t = .ok () t' := by
  cases path? with
  | some path =>
    refine (readOnly_loadTags path).bind_eq_ok_iff.trans ?_
    simp only [loadTags_eq_ok_iff]
  | none => simp [tags?]

theorem loadHeap_eq_ok_iff {a : MergeArguments} {heap : VersionHeap} :
    loadHeap (mergeStore a) t = .ok heap t ↔
      outcome ((Store.ofRoot a.docs).loadHeap reservedNames t) = .ok heap :=
  about_eq_ok_iff.trans (Store.readOnly_loadHeap (mergeStore a) reservedNames).eq_ok_iff

theorem resolve_eq_ok_iff {selector : VersionSelector} {latest : Nat} {versions : List Nat} :
    about [] (liftM (selector.resolve latest)) t = .ok versions t ↔
      selector.resolve latest = .ok versions :=
  about_eq_ok_iff.trans (Effect.lift_eq_ok_iff.trans (and_iff_left rfl))

/-- A merge succeeds if what it reads is there and the files can be written, and then it wrote
these files. -/
theorem runMerge_eq_ok_iff {a : MergeArguments} : runMerge a t = .ok () t' ↔
    ∃ heap latest tags versions, Reads a t heap latest tags ∧
      a.version.resolve latest = .ok versions ∧ (∀ version ∈ versions, 1 ≤ version) ∧
      Writes (mergedFiles a heap tags versions) t t' := by
  refine Effect.readOnly_get.bind_eq_ok_iff.trans ?_
  simp only [Effect.get_eq_ok_iff, and_true, exists_eq_left]
  constructor
  · intro h
    split at h
    · cases h
    next hdirectory =>
    obtain ⟨heap, hheap, h⟩ := (readOnly_loadHeap _).bind_eq_ok_iff.mp h
    obtain ⟨latest, hlatest, h⟩ := (readOnly_chooseLatest _ _ _).bind_eq_ok_iff.mp h
    obtain ⟨versions, hversions, h⟩ := (readOnly_resolve _ _).bind_eq_ok_iff.mp h
    obtain ⟨hchosen, hpositive⟩ := chooseLatest_eq_ok_iff.mp hlatest
    obtain ⟨tags, htags, h⟩ := withTags_eq_ok_iff.mp h
    exact ⟨heap, latest, tags, versions,
      ⟨by simpa using hdirectory, loadHeap_eq_ok_iff.mp hheap, hchosen, hpositive, htags⟩,
      resolve_eq_ok_iff.mp hversions, (mergeVersions_eq_ok_iff rfl).mp h⟩
  · intro ⟨heap, latest, tags, versions, hreads, hversions, hpositive, hwrites⟩
    rw [if_neg (by simpa using hreads.directory)]
    refine (readOnly_loadHeap _).bind_eq_ok_iff.mpr
      ⟨heap, loadHeap_eq_ok_iff.mpr hreads.loaded, ?_⟩
    refine (readOnly_chooseLatest _ _ _).bind_eq_ok_iff.mpr
      ⟨latest, chooseLatest_eq_ok_iff.mpr ⟨hreads.chosen, hreads.positive⟩, ?_⟩
    refine (readOnly_resolve _ _).bind_eq_ok_iff.mpr
      ⟨versions, resolve_eq_ok_iff.mpr hversions, ?_⟩
    exact withTags_eq_ok_iff.mpr
      ⟨tags, hreads.declared, (mergeVersions_eq_ok_iff rfl).mpr ⟨hpositive, hwrites⟩⟩

section Files

variable {a : MergeArguments} {heap : VersionHeap} {tags : List Tag} {versions : List Nat}

theorem mem_mergedFiles_iff {file : String × Content} :
    file ∈ mergedFiles a heap tags versions ↔ ∃ version ∈ versions,
      ∃ e ∈ (heap.merged .byModifier ⟨a.title, a.baseUrl, tags⟩ version).entries,
        ((mergeStore a).mergedPath version e.1, .text (a.format.print e.2.toJson)) = file := by
  rw [mergedFiles, List.mem_flatMap]
  simp only [List.mem_map]

theorem mergedFiles_append (front back : List Nat) : mergedFiles a heap tags (front ++ back) =
    mergedFiles a heap tags front ++ mergedFiles a heap tags back :=
  List.flatMap_append

/-- No file of a merge is written twice. -/
theorem agree_mergedFiles (hdocs : a.docs ≠ "") : Agree (mergedFiles a heap tags versions) := by
  intro file hfile file' hfile' hplace
  obtain ⟨version, _, e, he, rfl⟩ := mem_mergedFiles_iff.mp hfile
  obtain ⟨version', _, e', he', rfl⟩ := mem_mergedFiles_iff.mp hfile'
  obtain ⟨rfl, hbucket⟩ := Store.place_mergedPath_inj (s := mergeStore a) hdocs
    (bucket_of_mem_merged he) (bucket_of_mem_merged he') hplace
  have hsame : e = e' :=
    List.inj_on_of_nodup_map (heap.distinct_merged _ _ version) he he' hbucket
  rw [hsame]

end Files

end Command
end ApiDocs
