import ApiDocs.Proofs.Command.Merge
/-!
# Merging again

What a merge reads is still there when it has written its files, so it can be repeated and changes
nothing more, and the versions can as well be merged one by one, in any order.
-/
namespace ApiDocs

open Effect (outcome)
open FilePath (place)
open FileTree (Writes Agree)

namespace TagsFile

private theorem parse?_ofList_cons {c : Char} (hspace : Json.isSpace c = false) (hc : c ≠ '[')
    (rest : List Char) : parse? (String.ofList (c :: rest)) = none := by
  simp [parse?, mark?, Json.skipSpace, hspace, hc]

/-- A merged document is no file of tags. -/
theorem parse?_print (format : Format) (d : Document) : parse? (format.print d.toJson) = none := by
  cases format with
  | json => exact parse?_ofList_cons (by decide) (by decide) _
  | yaml =>
    have hkey : Yaml.keyText 0 "openapi" = 'o' :: "penapi:".toList := by decide
    have hprint : ∃ rest, Yaml.document d.toJson = Yaml.keyText 0 "openapi" ++ rest := by
      simp only [Document.toJson, Json.ofFields, Json.field, List.filterMap_cons, id,
        List.filterMap_nil, Yaml.document, Yaml.members, List.append_assoc]
      exact ⟨_, rfl⟩
    obtain ⟨rest, hrest⟩ := hprint
    rw [Format.print, Yaml.print, hrest, hkey, List.cons_append]
    exact parse?_ofList_cons (by decide) (by decide) _

end TagsFile

namespace Command

variable {a : MergeArguments} {t t' : FileTree}

/-- The latest version as a merge takes it: the one given, or the greatest one found. -/
def latestVersion? (a : MergeArguments) (t : FileTree) : Option Nat :=
  match outcome ((Store.ofRoot a.docs).loadHeap reservedNames t) with
  | .ok heap => a.latest?.or heap.latest?
  | .error _ => none

/-- The paths of the files that a merge writes. -/
def mergedPaths (a : MergeArguments) (t : FileTree) : List String :=
  match (latestVersion? a t).map a.version.resolve with
  | some (.ok versions) => (pagesOf versions).map fun page => (mergeStore a).mergedPath page.1 page.2
  | _ => []

namespace Reads

variable {heap : VersionHeap} {latest : Nat} {tags : List Tag}

theorem latestVersion?_eq (h : Reads a t heap latest tags) : latestVersion? a t = some latest := by
  rw [latestVersion?, h.loaded]
  exact h.chosen

theorem docs_ne_empty (h : Reads a t heap latest tags) : a.docs ≠ "" := by
  obtain ⟨_, hleads⟩ := FileTree.exists_leadsTo h.directory
  exact hleads.nonempty

theorem mem_mergedPaths (h : Reads a t heap latest tags) {versions : List Nat}
    (hversions : a.version.resolve latest = .ok versions) {file : String × Content}
    (hfile : file ∈ mergedFiles a heap tags versions) : file.1 ∈ mergedPaths a t := by
  obtain ⟨version, hversion, e, he, rfl⟩ := mem_mergedFiles_iff.mp hfile
  have hpage : (version, e.1) ∈ pagesOf versions :=
    mem_pagesOf_iff.mpr ⟨version, hversion, e.1, bucket_of_mem_merged he, rfl⟩
  rw [mergedPaths, h.latestVersion?_eq, Option.map_some, hversions]
  exact List.mem_map.mpr ⟨(version, e.1), hpage, rfl⟩

/-- What a merge read is read again while the documents and the tags are kept. -/
theorem kept (h : Reads a t heap latest tags) (hsound : t.isSound) (hkeeps : KeepsDocuments t t')
    (htags : tags? t' a.tags? = some tags) : Reads a t' heap latest tags where
  directory := FileTree.isDirectory_kept h.directory hkeeps
  loaded := (Store.outcome_loadHeap (s := Store.ofRoot a.docs) hsound h.directory hkeeps).trans h.loaded
  chosen := h.chosen
  positive := h.positive
  declared := htags

theorem unique (h : Reads a t heap latest tags) {heap' : VersionHeap} {latest' : Nat}
    {tags' : List Tag} (h' : Reads a t heap' latest' tags') :
    heap' = heap ∧ latest' = latest ∧ tags' = tags := by
  obtain rfl : heap' = heap := Except.ok.inj (h'.loaded.symm.trans h.loaded)
  exact ⟨rfl, Option.some.inj (h'.chosen.symm.trans h.chosen),
    Option.some.inj (h'.declared.symm.trans h.declared)⟩

end Reads

theorem keeps_of_runMerge (h : runMerge a t = .ok () t') : KeepsDocuments t t' := by
  have hkeeps := respects_runMerge a t
  rw [h] at hkeeps
  exact hkeeps

section Tags

variable {files : List (String × Content)} {tags : List Tag}

private theorem tags?_some_iff {path : String} : tags? t (some path) = some tags ↔
    ∃ text, t.readText path = .ok text ∧ TagsFile.parse? text = some tags := by
  rw [tags?]
  cases t.readText path <;> simp

/-- The tags are read again if their file is not written. -/
theorem tags?_of_writes (hwrites : Writes files t t') (hagree : Agree files) (hsound : t.isSound)
    {path? : Option String} (htags : tags? t path? = some tags)
    (hfree : ∀ path ∈ path?, ∀ file ∈ files, place file.1 ≠ place path) :
    tags? t' path? = some tags := by
  cases path? with
  | none => exact htags
  | some path =>
    obtain ⟨text, hread, hparse⟩ := tags?_some_iff.mp htags
    have hlookup := FileTree.readText_eq_ok_iff.mp hread
    have hfile : t.root.HasFile (place path) (.text text) :=
      (FileTree.lookup_eq_file_iff.mp hlookup).2.2.2.1
    have hlast := FileTree.filesNamed_of_isSound hsound _ _ hfile
    have hstands : t'.root.HasFile (place path) (.text text) :=
      (hwrites.file_iff hagree hlast).mpr (.inr ⟨hfree path rfl, hfile⟩)
    have hlookup' := FileTree.lookup_file_kept hlookup (fun _ h => hwrites.directory h) hstands
    exact tags?_some_iff.mpr ⟨text, FileTree.readText_eq_ok_iff.mpr hlookup', hparse⟩

/-- Tags that can be read after a merge are those from before it, as no merged document can be
read for tags. -/
theorem tags?_of_merged {heap : VersionHeap} {versions : List Nat} {tags' : List Tag}
    (hwrites : Writes (mergedFiles a heap tags versions) t t') (hdocs : a.docs ≠ "")
    (hsound : t.isSound) (htags : tags? t a.tags? = some tags)
    (htags' : tags? t' a.tags? = some tags') : tags' = tags := by
  have hfree : ∀ path ∈ a.tags?, ∀ file ∈ mergedFiles a heap tags versions,
      place file.1 ≠ place path := by
    -- what was read again would be the text of a merged document
    intro path hpath file hfile hplace
    rw [hpath] at htags'
    obtain ⟨text, hread, hparse⟩ := tags?_some_iff.mp htags'
    have hfound : t'.root.HasFile (place path) (.text text) :=
      (FileTree.lookup_eq_file_iff.mp (FileTree.readText_eq_ok_iff.mp hread)).2.2.2.1
    have hnamed := hwrites.filesNamed (FileTree.filesNamed_of_isSound hsound) _ _ hfound
    have hstands : t'.root.HasFile (place path) file.2 := by
      rw [← hplace] at hnamed ⊢
      exact hwrites.stands (agree_mergedFiles hdocs) hfile hnamed
    obtain ⟨version, _, e, _, rfl⟩ := mem_mergedFiles_iff.mp hfile
    have hsame := Option.some.inj (hfound.symm.trans hstands)
    obtain rfl : text = a.format.print e.2.toJson := by
      injection hsame with hcontent
      exact Content.text.inj hcontent
    rw [TagsFile.parse?_print] at hparse
    cases hparse
  have hkept := tags?_of_writes hwrites (agree_mergedFiles hdocs) hsound htags hfree
  exact Option.some.inj (htags'.symm.trans hkept)

end Tags

theorem runMerge_again (hsound : t.isSound) (h : runMerge a t = .ok () t')
    (htags : ∀ path ∈ a.tags?, ∀ merged ∈ mergedPaths a t, place merged ≠ place path) :
    runMerge a t' = .ok () t' := by
  obtain ⟨heap, latest, tags, versions, hreads, hversions, hpositive, hwrites⟩ :=
    runMerge_eq_ok_iff.mp h
  have hagree : Agree (mergedFiles a heap tags versions) := agree_mergedFiles hreads.docs_ne_empty
  have hfree : ∀ path ∈ a.tags?, ∀ file ∈ mergedFiles a heap tags versions,
      place file.1 ≠ place path := fun path hpath file hfile =>
    htags path hpath file.1 (hreads.mem_mergedPaths hversions hfile)
  have hreads' := hreads.kept hsound (keeps_of_runMerge h)
    (tags?_of_writes hwrites hagree hsound hreads.declared hfree)
  exact runMerge_eq_ok_iff.mpr
    ⟨heap, latest, tags, versions, hreads', hversions, hpositive, hwrites.again hagree⟩

/-- Merge single versions one after another, with otherwise the same arguments. -/
def runEach (a : MergeArguments) : List Nat → CommandEffect Unit
  | [] => pure ()
  | version :: versions => do
    runMerge { a with version := .single version }
    runEach a versions

theorem Reads.withVersion {heap : VersionHeap} {latest : Nat} {tags : List Tag}
    (h : Reads a t heap latest tags) (selector : VersionSelector) :
    Reads { a with version := selector } t heap latest tags :=
  ⟨h.directory, h.loaded, h.chosen, h.positive, h.declared⟩

/-- A tree to which single versions were merged, and what was read before the first of them. -/
structure Progress (a : MergeArguments) (heap : VersionHeap) (latest : Nat) (tags : List Tag)
    (versions : List Nat) (t t' : FileTree) : Prop where
  reads : Reads a t heap latest tags
  writes : Writes (mergedFiles a heap tags versions) t t'
  keeps : KeepsDocuments t t'

namespace Progress

variable {heap : VersionHeap} {latest : Nat} {tags : List Tag} {done versions : List Nat}
  {version : Nat} {t₁ : FileTree}

theorem start (h : Reads a t heap latest tags) : Progress a heap latest tags [] t t :=
  ⟨h, .done t, keeps_refl t⟩

theorem agree (h : Progress a heap latest tags done t t') :
    Agree (mergedFiles a heap tags versions) :=
  agree_mergedFiles h.reads.docs_ne_empty

theorem concat (h : Progress a heap latest tags done t t')
    (hwrites : Writes (mergedFiles a heap tags [version]) t' t₁)
    (hmerge : runMerge { a with version := .single version } t' = .ok () t₁) :
    Progress a heap latest tags (done ++ [version]) t t₁ where
  reads := h.reads
  writes := by
    rw [mergedFiles_append, FileTree.writes_append_iff]
    exact ⟨t', h.writes, hwrites⟩
  keeps := keeps_trans _ _ _ h.keeps (keeps_of_runMerge hmerge)

/-- One more version is merged from what was read at first. -/
theorem next (h : Progress a heap latest tags done t t') (hsound : t.isSound)
    (hmerge : runMerge { a with version := .single version } t' = .ok () t₁) :
    Progress a heap latest tags (done ++ [version]) t t₁ := by
  obtain ⟨heap', latest', tags', versions, hreads', hversions, _, hwrites'⟩ :=
    runMerge_eq_ok_iff.mp hmerge
  have htags : tags' = tags := tags?_of_merged h.writes h.reads.docs_ne_empty hsound
    h.reads.declared hreads'.declared
  subst htags
  have hagain := (h.reads.kept hsound h.keeps hreads'.declared).withVersion (.single version)
  obtain ⟨rfl, rfl, _⟩ := hagain.unique hreads'
  obtain rfl := (VersionSelector.resolve_single_eq_ok_iff.mp hversions).2
  exact h.concat hwrites' hmerge

theorem each (h : Progress a heap latest tags done t t') (hsound : t.isSound)
    (heach : runEach a versions t' = .ok () t₁) :
    Progress a heap latest tags (done ++ versions) t t₁ := by
  induction versions generalizing done t' with
  | nil =>
    obtain ⟨_, rfl⟩ := Effect.pure_eq_ok_iff.mp heach
    rw [List.append_nil]
    exact h
  | cons version versions ih =>
    obtain ⟨_, middle, hmerge, hrest⟩ := Effect.bind_eq_ok_iff.mp heach
    rw [List.append_cons]
    exact ih (h.next hsound hmerge) hrest

/-- One version after another is merged if its files can be written and the tags are not
overwritten on the way. -/
theorem runEach_of_writes (h : Progress a heap latest tags done t t') (hsound : t.isSound)
    (hfree : ∀ path ∈ a.tags?, ∀ file ∈ mergedFiles a heap tags (done ++ versions),
      place file.1 ≠ place path)
    (hversions : ∀ version ∈ versions, 1 ≤ version ∧ version ≤ latest)
    (hwrites : Writes (mergedFiles a heap tags versions) t' t₁) :
    runEach a versions t' = .ok () t₁ := by
  induction versions generalizing done t' with
  | nil =>
    cases hwrites
    rfl
  | cons version versions ih =>
    obtain ⟨⟨hpositive, hle⟩, hrest⟩ := List.forall_mem_cons.mp hversions
    have hsplit : mergedFiles a heap tags (version :: versions) =
        mergedFiles a heap tags [version] ++ mergedFiles a heap tags versions :=
      mergedFiles_append [version] versions
    rw [hsplit, FileTree.writes_append_iff] at hwrites
    obtain ⟨middle, hfirst, hlater⟩ := hwrites
    have hdone : ∀ path ∈ a.tags?, ∀ file ∈ mergedFiles a heap tags done,
        place file.1 ≠ place path := by
      intro path hpath file hfile
      apply hfree path hpath
      rw [mergedFiles_append]
      exact List.mem_append_left _ hfile
    have htags := tags?_of_writes h.writes h.agree hsound h.reads.declared hdone
    have hmerge : runMerge { a with version := .single version } t' = .ok () middle := by
      apply runMerge_eq_ok_iff.mpr
      refine ⟨heap, latest, tags, [version], ?_, if_pos hle, by simpa using hpositive, hfirst⟩
      exact (h.reads.kept hsound h.keeps htags).withVersion (.single version)
    rw [List.append_cons] at hfree
    have hmerged := ih (h.concat hfirst hmerge) hfree hrest hlater
    exact Effect.bind_eq_ok_iff.mpr ⟨(), middle, hmerge, hmerged⟩

end Progress

/-- Merging the versions one by one, in any order, leaves the files that merging all of them at
once leaves. -/
theorem runEach_all (hsound : t.isSound) {latest : Nat} (hlatest : latestVersion? a t = some latest)
    (hpositive : 1 ≤ latest) {versions : List Nat} (hversions : versions.Perm (List.range' 1 latest))
    (h : runEach a versions t = .ok () t') :
    ∃ t₁, runMerge { a with version := .all } t = .ok () t₁ ∧
      ∀ place c, t₁.root.HasFile place c ↔ t'.root.HasFile place c := by
  -- the first of the runs tells what all of them read
  obtain ⟨heap, tags, hreads⟩ : ∃ heap tags, Reads a t heap latest tags := by
    cases versions with
    | nil =>
      have hlength := hversions.length_eq
      rw [List.length_nil, List.length_range'] at hlength
      omega
    | cons version versions =>
      obtain ⟨_, _, hmerge, _⟩ := Effect.bind_eq_ok_iff.mp h
      obtain ⟨heap, latest', tags, _, hreads, _⟩ := runMerge_eq_ok_iff.mp hmerge
      have hfirst : Reads a t heap latest' tags := hreads.withVersion a.version
      obtain rfl : latest' = latest :=
        Option.some.inj (hfirst.latestVersion?_eq.symm.trans hlatest)
      exact ⟨heap, tags, hfirst⟩
  have hwrites := ((Progress.start hreads).each hsound h).writes
  have horder : ∀ file, file ∈ mergedFiles a heap tags (List.range' 1 latest) ↔
      file ∈ mergedFiles a heap tags ([] ++ versions) := by
    intro file
    simp only [mem_mergedFiles_iff, List.nil_append, hversions.mem_iff]
  obtain ⟨t₁, hall, hsame⟩ := hwrites.reorder (agree_mergedFiles hreads.docs_ne_empty)
    (FileTree.tidy_of_isSound hsound) (FileTree.filesNamed_of_isSound hsound) horder
  refine ⟨t₁, runMerge_eq_ok_iff.mpr ⟨heap, latest, tags, List.range' 1 latest,
    hreads.withVersion .all, rfl, ?_, hall⟩, hsame⟩
  intro version hversion
  exact (List.mem_range'_1.mp hversion).1

/-- Where all versions can be merged at once, they can be merged one by one, in any order, unless
the tags are overwritten on the way. -/
theorem exists_runEach (hsound : t.isSound)
    (h : runMerge { a with version := .all } t = .ok () t')
    (htags : ∀ path ∈ a.tags?, ∀ merged ∈ mergedPaths { a with version := .all } t,
      place merged ≠ place path) {latest : Nat} (hlatest : latestVersion? a t = some latest)
    {versions : List Nat} (hversions : versions.Perm (List.range' 1 latest)) :
    ∃ t₁, runEach a versions t = .ok () t₁ := by
  obtain ⟨heap, latest', tags, _, hall, hrange, _, hwrites⟩ := runMerge_eq_ok_iff.mp h
  have hreads : Reads a t heap latest' tags := hall.withVersion a.version
  obtain rfl : latest' = latest :=
    Option.some.inj (hreads.latestVersion?_eq.symm.trans hlatest)
  have hsame : ∀ file, file ∈ mergedFiles a heap tags versions ↔
      file ∈ mergedFiles a heap tags (List.range' 1 latest') := by
    intro file
    simp only [mem_mergedFiles_iff, hversions.mem_iff]
  obtain rfl := Except.ok.inj hrange
  obtain ⟨t₁, horder, _⟩ := hwrites.reorder (agree_mergedFiles hreads.docs_ne_empty)
    (FileTree.tidy_of_isSound hsound) (FileTree.filesNamed_of_isSound hsound) hsame
  refine ⟨t₁, (Progress.start hreads).runEach_of_writes hsound ?_ ?_ horder⟩
  · intro path hpath file hfile
    exact htags path hpath file.1 (hall.mem_mergedPaths rfl ((hsame file).mp hfile))
  · intro version hversion
    have hmem := List.mem_range'_1.mp (hversions.mem_iff.mp hversion)
    omega

/-- Commands change nothing that later runs read: what is loaded from a directory stays the same,
however the commands end; a merge that succeeded succeeds again and changes no file; and versions
that are merged one by one give the files of merging all of them. -/
theorem commands_stable (t : FileTree) (hsound : t.isSound) :
    (∀ docs commands, t.isDirectory docs ∨ (∀ command ∈ commands, Command.docs command = docs) →
      outcome ((Store.ofRoot docs).loadHeap ["public.json", "private.json"] (runAll commands t)) =
        outcome ((Store.ofRoot docs).loadHeap ["public.json", "private.json"] t)) ∧
    (∀ a t', runMerge a t = .ok () t' →
      (∀ path ∈ a.tags?, ∀ merged ∈ mergedPaths a t, place merged ≠ place path) →
      runMerge a t' = .ok () t') ∧
    (∀ a latest versions t', latestVersion? a t = some latest → 1 ≤ latest →
      versions.Perm (List.range' 1 latest) → runEach a versions t = .ok () t' →
      ∃ t₁, runMerge { a with version := .all } t = .ok () t₁ ∧
        ∀ place c, t₁.root.HasFile place c ↔ t'.root.HasFile place c) := by
  have hreserved : reservedNames = ["public.json", "private.json"] := by decide
  refine ⟨?_, ?_, ?_⟩
  · intro docs commands hdocs
    rw [← hreserved]
    exact outcome_loadHeap_runAll hsound hdocs
  · intro a t' hmerge htags
    exact runMerge_again hsound hmerge htags
  · intro a latest versions t' hlatest hpositive hversions heach
    exact runEach_all hsound hlatest hpositive hversions heach

/-- A public operation at the first version and a private one at the second, with a file of tags
and a template. -/
def sampleTree : FileTree :=
  let operation (tag : String) := Json.obj ⟨[("tags", .arr [.str tag])]⟩
  let document := Json.obj ⟨[("/v1/a", .obj ⟨[("get", operation "modifier.public")]⟩),
    ("/v2/a", .obj ⟨[("put", operation "modifier.private")]⟩)]⟩
  ⟨⟨[("docs", .directory ⟨[("a.json", .file (.text document.compress))]⟩),
    ("tags.json", .file (.text "[]")), ("page.html", .file (.text "%%SPECS%%"))]⟩⟩

def sampleMerge : MergeArguments where
  docs := "docs"
  tags? := some "tags.json"

def samplePublish : PublishArguments where
  docs := "docs"
  template := "page.html"
  output? := some "docs/pages"

theorem sample_stable : sampleTree.isSound ∧ sampleTree.isDirectory "docs" ∧
    outcome ((Store.ofRoot "docs").loadHeap ["public.json", "private.json"]
      (runAll [.merge sampleMerge, .publish samplePublish] sampleTree)) =
        outcome ((Store.ofRoot "docs").loadHeap ["public.json", "private.json"] sampleTree) ∧
    ∃ t' t₁, runMerge sampleMerge sampleTree = .ok () t' ∧ runMerge sampleMerge t' = .ok () t' ∧
      runEach sampleMerge [2, 1] sampleTree = .ok () t₁ ∧
      ∀ place c, t'.root.HasFile place c ↔ t₁.root.HasFile place c := by
  have hsound : sampleTree.isSound := by decide +kernel
  have hdocs : sampleTree.isDirectory "docs" := by decide +kernel
  have hlatest : latestVersion? sampleMerge sampleTree = some 2 := by decide +kernel
  have htags : ∀ path ∈ sampleMerge.tags?, ∀ merged ∈ mergedPaths sampleMerge sampleTree,
      place merged ≠ place path := by
    rw [mergedPaths, hlatest]
    decide +kernel
  obtain ⟨⟨⟩, t', hmerge⟩ :=
    Effect.exists_of_succeeds (runMerge sampleMerge) sampleTree (by decide +kernel)
  have horder : [2, 1].Perm (List.range' 1 2) := .swap 1 2 []
  obtain ⟨t₁, hsingles⟩ := exists_runEach hsound hmerge htags hlatest horder
  obtain ⟨hload, hagain, heach⟩ := commands_stable sampleTree hsound
  obtain ⟨t₂, hall, hsame⟩ := heach sampleMerge 2 [2, 1] t₁ hlatest (by decide) horder hsingles
  obtain rfl : t₂ = t' := by
    have hboth := hall.symm.trans hmerge
    injection hboth
  exact ⟨hsound, hdocs, hload "docs" _ (.inl hdocs), t₂, t₁, hmerge,
    hagain sampleMerge t₂ hmerge htags, hsingles, hsame⟩

end Command
end ApiDocs
