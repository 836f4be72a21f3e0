import ApiDocs.Proofs.Command.Again
import ApiDocs.Proofs.Command.Failure
/-!
# What a merge touches

A merge writes the merged documents of the selected versions and touches no other file, however it
ends. When it stops for what it reads, it touches nothing at all.
-/
namespace ApiDocs

open Effect (final)
open FilePath (place parentName)
open FileTree (Writes)

/-- Directories without files of a name that no file has agree on all files if they agree on those
of other names. -/
theorem Directory.FilesNamed.hasFile_iff {d d' : Directory} (hd : d.FilesNamed)
    (hd' : d'.FilesNamed) {names : List String} {c : Content}
    (h : names.getLast? ≠ some parentName → (d'.HasFile names c ↔ d.HasFile names c)) :
    d'.HasFile names c ↔ d.HasFile names c :=
  ⟨fun hfile => (h (hd' names c hfile)).mp hfile, fun hfile => (h (hd names c hfile)).mpr hfile⟩

namespace Command

variable {a : MergeArguments} {t t' : FileTree}

/-- What a merge makes documents of, with what it has read. -/
def merger (a : MergeArguments) (heap : VersionHeap) (tags : List Tag) : Merger FileTree :=
  ⟨heap, ⟨a.title, a.baseUrl, tags⟩, some .byModifier, some (mergeStore a).saver⟩

section Files

variable {heap : VersionHeap} {latest : Nat} {tags : List Tag} {versions : List Nat}

theorem Reads.mergedPaths_eq (h : Reads a t heap latest tags)
    (hversions : a.version.resolve latest = .ok versions) : mergedPaths a t =
      (pagesOf versions).map fun page => (mergeStore a).mergedPath page.1 page.2 := by
  rw [mergedPaths, h.latestVersion?_eq, Option.map_some, hversions]

/-- A merged document that was written is read as its text. -/
theorem Reads.readText_merged (h : Reads a t heap latest tags) (hsound : t.isSound)
    (hwrites : Writes (mergedFiles a heap tags versions) t t') {version : Nat}
    (hversion : version ∈ versions) {bucket : String} {document : Document}
    (hmerged : (heap.merged .byModifier ⟨a.title, a.baseUrl, tags⟩ version).get? bucket =
      some document) :
    t'.readText ((mergeStore a).mergedPath version bucket) =
      .ok (a.format.print document.toJson) := by
  have he := OrderedMap.mem_entries_of_find? hmerged
  have hfile := mem_mergedFiles_iff.mpr ⟨version, hversion, (bucket, document), he, rfl⟩
  have hagree : FileTree.Agree (mergedFiles a heap tags versions) :=
    agree_mergedFiles h.docs_ne_empty
  obtain ⟨_, hroot⟩ := FileTree.exists_leadsTo h.directory
  obtain ⟨_, hleads⟩ := hroot.kept fun _ hplace => hwrites.directory hplace
  have hagain := hwrites.write_again hagree hfile
  have hstands := hwrites.stands hagree hfile (FileTree.getLast?_place_of_write hagain)
  exact Store.readText_mergedPath (s := mergeStore a) hleads
    (hwrites.tidy (FileTree.tidy_of_isSound hsound)) (bucket_of_mem_merged he)
    (FileTree.write_eq_ok_iff.mp hagain).1 hstands

end Files

theorem WriteFailure.hasFile_iff {f : Failure} (h : WriteFailure a t f t') (hsound : t.isSound)
    {names : List String} {c : Content} (hfree : ∀ path ∈ mergedPaths a t, place path ≠ names) :
    t'.root.HasFile names c ↔ t.root.HasFile names c := by
  obtain @⟨heap, latest, tags, done, rest, version, fault, t₁, _, hreads, hversions, _, hdone,
    hfails⟩ := h
  have hall := hfails.after hdone
  rw [← mergedFiles_append] at hall
  have hnamed := FileTree.filesNamed_of_isSound hsound
  refine hnamed.hasFile_iff (hall.filesNamed hnamed) fun hlast => hall.file_iff hlast ?_
  intro file hfile
  have hmerged : file ∈ mergedFiles a heap tags (done ++ version :: rest) := by
    rw [List.append_cons, mergedFiles_append]
    exact List.mem_append_left _ hfile
  exact hfree file.1 (hreads.mem_mergedPaths hversions hmerged)

/-- However a merge ends, it leaves the files that are no merged documents of selected versions. -/
theorem hasFile_runMerge_iff (hsound : t.isSound) {names : List String} {c : Content}
    (hfree : ∀ path ∈ mergedPaths a t, place path ≠ names) :
    (final (runMerge a t)).root.HasFile names c ↔ t.root.HasFile names c := by
  cases hrun : runMerge a t with
  | ok _ t' =>
    obtain ⟨heap, latest, tags, versions, hreads, hversions, _, hwrites⟩ :=
      runMerge_eq_ok_iff.mp hrun
    have hnamed := FileTree.filesNamed_of_isSound hsound
    have hout : ∀ file ∈ mergedFiles a heap tags versions, place file.1 ≠ names :=
      fun file hfile => hfree file.1 (hreads.mem_mergedPaths hversions hfile)
    refine hnamed.hasFile_iff (hwrites.filesNamed hnamed) fun hlast => ?_
    refine (hwrites.file_iff (agree_mergedFiles hreads.docs_ne_empty) hlast).trans ?_
    rw [and_iff_right hout]
    exact or_iff_right fun ⟨file, hfile, hplace, _⟩ => hout file hfile hplace
  | error f t' =>
    rcases of_runMerge_error hrun with ⟨_, ht⟩ | hfails
    · rw [final, ht]
    · exact hfails.hasFile_iff hsound hfree

/-- A merge touches the merged documents of the selected versions only. If it succeeds, each of
them holds the text, in the chosen format, of its bucket in the merge of its version, over the heap
that was loaded at first. If it fails, either it stopped before it wrote, and the tree is as it was,
or one of these files could not be written. -/
theorem runMerge_touches_merged (a : MergeArguments) (t : FileTree) (hsound : t.isSound) :
    (∀ names c, (∀ path ∈ mergedPaths a t, place path ≠ names) →
      ((final (runMerge a t)).root.HasFile names c ↔ t.root.HasFile names c)) ∧
    (∀ t', runMerge a t = .ok () t' → ∃ heap latest tags versions,
      Reads a t heap latest tags ∧ a.version.resolve latest = .ok versions ∧
      mergedPaths a t =
        ((pagesOf versions).map fun page => (mergeStore a).mergedPath page.1 page.2) ∧
      ∀ version ∈ versions, ∃ documents, (merger a heap tags).merge version = .ok documents ∧
        ∀ bucket ∈ ["public", "private"], ∃ document, documents.get? bucket = some document ∧
          t'.readText ((mergeStore a).mergedPath version bucket) =
            .ok (a.format.print document.toJson)) ∧
    (∀ f t', runMerge a t = .error f t' →
      (Refusal a t f ∧ t' = t) ∨ WriteFailure a t f t') := by
  refine ⟨fun names c => hasFile_runMerge_iff hsound, ?_, fun f t' => of_runMerge_error⟩
  intro t' hrun
  obtain ⟨heap, latest, tags, versions, hreads, hversions, hpositive, hwrites⟩ :=
    runMerge_eq_ok_iff.mp hrun
  refine ⟨heap, latest, tags, versions, hreads, hversions, hreads.mergedPaths_eq hversions, ?_⟩
  intro version hversion
  have hmerge : (merger a heap tags).merge version =
      .ok (heap.merged .byModifier ⟨a.title, a.baseUrl, tags⟩ version) :=
    Merger.merge_eq_ok rfl (hpositive version hversion)
  refine ⟨_, hmerge, fun bucket hbucket => ?_⟩
  have hmerged := heap.get?_merged (s := .byModifier) ⟨a.title, a.baseUrl, tags⟩ version hbucket
  exact ⟨_, hmerged, hreads.readText_merged hsound hwrites hversion hmerged⟩

theorem sample_touches_merged : sampleTree.isSound ∧
    ∃ t', runMerge sampleMerge sampleTree = .ok () t' ∧
      t'.root.HasFile ["page.html"] (.text "%%SPECS%%") ∧
      ∃ heap tags documents document, Reads sampleMerge sampleTree heap 2 tags ∧
        (merger sampleMerge heap tags).merge 1 = .ok documents ∧
        documents.get? "public" = some document ∧
        t'.readText "docs/v1/public.json" = .ok (Format.json.print document.toJson) := by
  have hsound : sampleTree.isSound := by decide +kernel
  have hlatest : latestVersion? sampleMerge sampleTree = some 2 := by decide +kernel
  have hfree : ∀ path ∈ mergedPaths sampleMerge sampleTree, place path ≠ ["page.html"] := by
    rw [mergedPaths, hlatest]
    decide +kernel
  have hpage : sampleTree.root.HasFile ["page.html"] (.text "%%SPECS%%") := rfl
  obtain ⟨⟨⟩, t', hmerge⟩ :=
    Effect.exists_of_succeeds (runMerge sampleMerge) sampleTree (by decide +kernel)
  obtain ⟨hframe, hfiles, _⟩ := runMerge_touches_merged sampleMerge sampleTree hsound
  obtain ⟨heap, latest, tags, versions, hreads, hversions, _, hdocuments⟩ := hfiles t' hmerge
  obtain rfl : latest = 2 := Option.some.inj (hreads.latestVersion?_eq.symm.trans hlatest)
  have hfirst : 1 ∈ versions := by
    rw [← Except.ok.inj hversions]
    decide
  obtain ⟨documents, hmerged, hbuckets⟩ := hdocuments 1 hfirst
  obtain ⟨document, hdocument, hread⟩ := hbuckets "public" (by decide)
  have hkept := (hframe _ _ hfree).mpr hpage
  rw [hmerge] at hkept
  exact ⟨hsound, t', hmerge, hkept, heap, tags, documents, document, hreads, hmerged, hdocument,
    hread⟩

end Command
end ApiDocs
