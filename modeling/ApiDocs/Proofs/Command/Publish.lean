import ApiDocs.Proofs.Command.Frame
import ApiDocs.Proofs.Store.Pages
import ApiDocs.Proofs.Versions.Finite
/-!
# Publishing what was merged

A publication takes its versions from the path documents alone, while a merge may be told a latest
version. Where both agree on a version, what the merge has written is there and can be read, so the
publication puts it into a page.
-/
namespace ApiDocs

open Effect (outcome final)
open FilePath (place)
open FileTree (Writes)

namespace Command

variable {s : Store} {t t' t₁ : FileTree} {template : String} {selector : VersionSelector}
  {page : Nat × String} {pages : List (Nat × String)}

/-- A page is passed over only if it has no document and all versions are selected. -/
theorem publishPages_cons_eq_ok_iff :
    publishPages s template selector (page :: pages) t = .ok () t' ↔
      ∃ t₁, ((∃ path, s.publish page.1 page.2 template t = .ok path t₁) ∨
          selector = .all ∧ ∃ detail,
            s.publish page.1 page.2 template t = .error (.invalidArgument detail) t₁) ∧
        publishPages s template selector pages t₁ = .ok () t' := by
  obtain ⟨version, bucket⟩ := page
  refine Effect.bind_eq_ok_iff.trans ?_
  simp only [about_eq_ok_iff, Effect.tryCatch_eq_ok_iff]
  constructor
  · rintro ⟨⟨⟩, t₁, hwritten | ⟨e, t₂, hrefused, hpassed⟩, hrest⟩
    · obtain ⟨path, _, hpublish, hpure⟩ := Effect.bind_eq_ok_iff.mp hwritten
      obtain ⟨_, rfl⟩ := Effect.pure_eq_ok_iff.mp hpure
      exact ⟨_, .inl ⟨path, hpublish⟩, hrest⟩
    · have hstopped : s.publish version bucket template t = .error e t₂ := by
        rcases Effect.bind_eq_error_iff.mp hrefused with h | ⟨_, _, _, hpure⟩
        · exact h
        · exact absurd hpure Effect.pure_ne_error
      split at hpassed
      · next detail =>
        obtain ⟨_, rfl⟩ := Effect.pure_eq_ok_iff.mp hpassed
        exact ⟨t₂, .inr ⟨rfl, detail, hstopped⟩, hrest⟩
      · exact absurd hpassed Effect.throw_ne_ok
  · rintro ⟨t₁, ⟨path, hpublish⟩ | ⟨rfl, detail, hrefused⟩, hrest⟩
    · exact ⟨(), t₁, .inl (Effect.bind_eq_ok_iff.mpr ⟨path, t₁, hpublish, rfl⟩), hrest⟩
    · exact ⟨(), t₁, .inr ⟨_, t₁, Effect.bind_eq_error_iff.mpr (.inl hrefused), rfl⟩, hrest⟩

private theorem writes_publishPages (template : String) {inner : Directory}
    (hroot : t.LeadsTo s.root inner)
    (hbuckets : ∀ page ∈ pages, page.2 ∈ MergeStrategy.byModifier.buckets)
    (hpages : ∀ page ∈ pages, (∃ document, s.Ready t page document) ∨
      selector = .all ∧ s.Absent t page) :
    ∃ t', publishPages s template selector pages t = .ok () t' ∧
      Writes (pages.filterMap (s.pageFile? template t)) t t' := by
  induction pages generalizing t inner with
  | nil => exact ⟨t, rfl, .done t⟩
  | cons page pages ih =>
    obtain ⟨hpage, hrest⟩ := List.forall_mem_cons.mp hpages
    obtain ⟨hbucket, hbuckets⟩ := List.forall_mem_cons.mp hbuckets
    rw [List.filterMap_cons]
    rcases hpage with ⟨document, hready⟩ | ⟨rfl, habsent⟩
    · obtain ⟨t₁, hwrite⟩ := hready.writable.write (.text (Store.render template document))
      obtain ⟨inner₁, hroot₁⟩ := hroot.kept (FileTree.written_of_write hwrite).directory
      -- what the other pages need is as it was
      have hkept : ∀ other ∈ pages, ((∃ document, s.Ready t₁ other document) ∨
          selector = .all ∧ s.Absent t₁ other) ∧
            s.pageFile? template t₁ other = s.pageFile? template t other := by
        intro other hother
        rcases hrest other hother with ⟨found, hfound⟩ | ⟨hall, hnone⟩
        · have hfound₁ := hfound.kept hroot (hbuckets other hother) hbucket hwrite
          exact ⟨.inl ⟨found, hfound₁⟩, hfound₁.pageFile?_eq.trans hfound.pageFile?_eq.symm⟩
        · have hnone₁ := hnone.kept hroot (hbuckets other hother) hbucket hwrite
          exact ⟨.inr ⟨hall, hnone₁⟩, hnone₁.pageFile?_eq.trans hnone.pageFile?_eq.symm⟩
      obtain ⟨t', hpublish, hwrites⟩ :=
        ih hroot₁ hbuckets fun other hother => (hkept other hother).1
      rw [List.filterMap_congr fun other hother => (hkept other hother).2] at hwrites
      rw [hready.pageFile?_eq]
      have hwritten := Store.publish_eq_ok_iff.mpr ⟨rfl, document, hready.loaded, hwrite⟩
      exact ⟨t', publishPages_cons_eq_ok_iff.mpr ⟨t₁, .inl ⟨_, hwritten⟩, hpublish⟩,
        .next hwrite hwrites⟩
    · obtain ⟨t', hpublish, hwrites⟩ := ih hroot hbuckets hrest
      rw [habsent.pageFile?_eq]
      exact ⟨t', publishPages_cons_eq_ok_iff.mpr ⟨t, .inr ⟨rfl, _,
        Store.publish_eq_invalidArgument_iff.mpr ⟨habsent.missing, rfl, rfl⟩⟩, hpublish⟩, hwrites⟩

/-- Where every page can be written or left out, the pages hold their documents in the end. -/
theorem exists_publishPages (template : String) {inner : Directory} (hroot : t.LeadsTo s.root inner)
    (hbuckets : ∀ page ∈ pages, page.2 ∈ MergeStrategy.byModifier.buckets)
    (hpages : ∀ page ∈ pages, (∃ document, s.Ready t page document) ∨
      selector = .all ∧ s.Absent t page) :
    ∃ t', publishPages s template selector pages t = .ok () t' ∧
      ∀ page ∈ pages, ∀ document, s.Ready t page document →
        t'.root.HasFile (place (s.pagePath page.1 page.2))
          (.text (Store.render template document)) := by
  obtain ⟨t', hpublish, hwrites⟩ := writes_publishPages template hroot hbuckets hpages
  refine ⟨t', hpublish, fun page hpage document hready => ?_⟩
  have hfile : (s.pagePath page.1 page.2, .text (Store.render template document)) ∈
      pages.filterMap (s.pageFile? template t) :=
    List.mem_filterMap.mpr ⟨page, hpage, hready.pageFile?_eq⟩
  apply hwrites.stands (Store.agree_pageFiles hbuckets) hfile
  rw [Store.place_pagePath (hbuckets page hpage), List.getLast?_concat]
  exact fun h => Store.pageName_ne_parentName page.1 page.2 (Option.some.inj h)

/-- A merged document that cannot be read stops the pages, wherever it is among them. -/
theorem publishPages_ne_ok_of_corrupt {inner : Directory} (hroot : t.LeadsTo s.root inner)
    (hbuckets : ∀ page ∈ pages, page.2 ∈ MergeStrategy.byModifier.buckets)
    (hpage : page ∈ pages) (hcorrupt : s.Corrupt t page) :
    publishPages s template selector pages t ≠ .ok () t' := by
  intro hpublish
  induction pages generalizing t inner with
  | nil => exact List.not_mem_nil hpage
  | cons first pages ih =>
    obtain ⟨hbucket, hrest⟩ := List.forall_mem_cons.mp hbuckets
    obtain ⟨t₁, hfirst, hothers⟩ := publishPages_cons_eq_ok_iff.mp hpublish
    rcases hfirst with ⟨path, hwritten⟩ | ⟨_, detail, hrefused⟩
    · obtain ⟨_, document, hload, hwrite⟩ := Store.publish_eq_ok_iff.mp hwritten
      rcases List.mem_cons.mp hpage with rfl | hlater
      · exact hcorrupt.loadMerged?_ne_ok _ hload
      · obtain ⟨_, hroot₁⟩ := hroot.kept (FileTree.written_of_write hwrite).directory
        exact ih hroot₁ hrest hlater
          (hcorrupt.kept hroot (hbuckets page hpage) hbucket hwrite) hothers
    · obtain ⟨hload, _, rfl⟩ := Store.publish_eq_invalidArgument_iff.mp hrefused
      rcases List.mem_cons.mp hpage with rfl | hlater
      · exact hcorrupt.loadMerged?_ne_ok _ hload
      · exact ih hroot hrest hlater hcorrupt hothers

theorem loadHeap_publishStore_eq_ok_iff {p : PublishArguments} {heap : VersionHeap} :
    loadHeap (publishStore p) t = .ok heap t ↔
      outcome ((Store.ofRoot p.docs).loadHeap reservedNames t) = .ok heap := by
  have hload : (publishStore p).loadHeap reservedNames =
      (Store.ofRoot p.docs).loadHeap reservedNames := by
    unfold publishStore
    cases p.output? <;> rfl
  rw [loadHeap, about_eq_ok_iff, hload]
  exact (Store.readOnly_loadHeap _ reservedNames).eq_ok_iff

/-- A publication succeeds if what it reads is there and its pages can be written or left out. -/
theorem runPublish_eq_ok_iff {p : PublishArguments} : runPublish p t = .ok () t' ↔
    ∃ template heap found versions, t.readText p.template = .ok template ∧
      outcome ((Store.ofRoot p.docs).loadHeap reservedNames t) = .ok heap ∧
      heap.latest? = some found ∧ p.version.resolve found = .ok versions ∧
      publishPages (publishStore p) template p.version (pagesOf versions) t = .ok () t' := by
  refine (readOnly_readNamed _ _).bind_eq_ok_iff.trans ?_
  simp only [readNamed_eq_ok_iff]
  refine exists_congr fun template => ?_
  rw [(readOnly_loadHeap _).bind_eq_ok_iff]
  simp only [loadHeap_publishStore_eq_ok_iff, (readOnly_latestOf _ _).bind_eq_ok_iff,
    latestOf_eq_ok_iff, (readOnly_resolve _ _).bind_eq_ok_iff, resolve_eq_ok_iff]
  simp only [← exists_and_left]

/-- Of the versions that are published, every merged document has to be readable or absent. -/
theorem runPublish_ne_ok_of_corrupt {p : PublishArguments} {heap : VersionHeap} {found : Nat}
    {versions : List Nat} (hdocs : t.isDirectory p.docs)
    (hload : outcome ((Store.ofRoot p.docs).loadHeap reservedNames t) = .ok heap)
    (hfound : heap.latest? = some found) (hversions : p.version.resolve found = .ok versions)
    (hpage : page ∈ pagesOf versions) (hcorrupt : (publishStore p).Corrupt t page) :
    runPublish p t ≠ .ok () t' := by
  intro hpublish
  obtain ⟨template, heap', found', versions', _, hload', hfound', hversions', hpages⟩ :=
    runPublish_eq_ok_iff.mp hpublish
  obtain rfl : heap = heap' := Except.ok.inj (hload.symm.trans hload')
  obtain rfl : found = found' := Option.some.inj (hfound.symm.trans hfound')
  obtain rfl : versions = versions' := Except.ok.inj (hversions.symm.trans hversions')
  obtain ⟨inner, hroot⟩ := FileTree.exists_leadsTo hdocs
  rw [← root_publishStore p] at hroot
  exact publishPages_ne_ok_of_corrupt hroot (fun page => bucket_of_mem_pagesOf) hpage hcorrupt
    hpages

/-- The publication of what a merge has written: with its directory, format and versions. -/
def publication (a : MergeArguments) (template : String) (output? : Option String) :
    PublishArguments where
  docs := a.docs
  template := template
  version := a.version
  output? := output?
  format := a.format

/-- What a publication after a merge up to `latest` needs besides what was merged, when the path
documents go up to `found`. -/
structure Publishable (p : PublishArguments) (latest found : Nat) (text : String) (t : FileTree) :
    Prop where
  template : t.readText p.template = .ok text
  /-- A version that is selected alone is not above those that are found. -/
  single : ∀ version, p.version = .single version → version ≤ found
  writable : ∀ versions, p.version.resolve found = .ok versions → ∀ page ∈ pagesOf versions,
    t.Writable ((publishStore p).pagePath page.1 page.2)
  /-- The merged documents of later versions can be read if they are there. -/
  leftover : p.version = .all → ∀ version, latest < version → version ≤ found →
    ∀ bucket ∈ ["public", "private"],
      (∃ document, outcome ((publishStore p).loadMerged? version bucket t) = .ok (some document)) ∨
        (publishStore p).Absent t (version, bucket)

private theorem exists_resolve {selector : VersionSelector} {latest found : Nat}
    {versions : List Nat} (hversions : selector.resolve latest = .ok versions)
    (hsingle : ∀ version, selector = .single version → version ≤ found) :
    ∃ published, selector.resolve found = .ok published ∧
      ∀ version, version ∈ published ↔ (version ∈ versions ∧ version ≤ found) ∨
        (selector = .all ∧ latest < version ∧ version ≤ found) := by
  cases selector with
  | all =>
    obtain rfl := Except.ok.inj hversions
    refine ⟨List.range' 1 found, rfl, fun version => ?_⟩
    simp only [List.mem_range'_1, true_and]
    omega
  | single version =>
    obtain ⟨_, rfl⟩ := VersionSelector.resolve_single_eq_ok_iff.mp hversions
    have hfound := hsingle version rfl
    refine ⟨[version], VersionSelector.resolve_single_eq_ok_iff.mpr ⟨hfound, rfl⟩, fun v => ?_⟩
    rw [List.mem_singleton]
    constructor
    · rintro rfl
      exact .inl ⟨rfl, hfound⟩
    · rintro (⟨hv, _⟩ | ⟨⟨⟩, _⟩)
      exact hv

section Publication

variable {a : MergeArguments} (path : String) (output? : Option String) {heap : VersionHeap}
  {latest found : Nat} {tags : List Tag} {versions : List Nat} {version : Nat} {bucket : String}

/-- The merged documents are where the publication looks for them. -/
theorem mergedPath_publication : (publishStore (publication a path output?)).mergedPath =
    (mergeStore a).mergedPath := by
  cases output? <;> rfl

theorem root_publication : (publishStore (publication a path output?)).root = a.docs :=
  root_publishStore _

theorem format_publication : (publishStore (publication a path output?)).format = a.format := by
  cases output? <;> rfl

/-- The text of a merged document can be read. -/
theorem Reads.parse?_merged (h : Reads a t heap latest tags)
    (hbucket : bucket ∈ MergeStrategy.byModifier.buckets) {document : Document}
    (hmerged : (heap.merged .byModifier ⟨a.title, a.baseUrl, tags⟩ version).get? bucket =
      some document) (hdepth : document.toJson.depth ≤ 127) :
    Json.parse? document.toJson.pretty = some document.toJson.reread := by
  have hload := (Store.readOnly_loadHeap (Store.ofRoot a.docs) reservedNames).eq_ok_iff.mpr h.loaded
  have hfinite := Store.isFinite_of_loadHeap hload
  rw [heap.get?_merged _ version hbucket, Option.some.injEq] at hmerged
  subst hmerged
  exact Json.parse?_pretty_reread hdepth (hfinite.document _)

private theorem Reads.exists_ready (h : Reads a t heap latest tags) (hsound : t.isSound)
    (hjson : a.format = .json) (hwrites : Writes (mergedFiles a heap tags versions) t t')
    (hversion : version ∈ versions) (hpositive : 1 ≤ version)
    (hdepth : ∀ documents, (merger a heap tags).merge version = .ok documents →
      ∀ e ∈ documents.entries, e.2.toJson.depth ≤ 127)
    (hbucket : bucket ∈ MergeStrategy.byModifier.buckets) :
    ∃ documents document value, (merger a heap tags).merge version = .ok documents ∧
      documents.get? bucket = some document ∧ Json.parse? document.toJson.pretty = some value ∧
      (t'.Writable ((publishStore (publication a path output?)).pagePath version bucket) →
        (publishStore (publication a path output?)).Ready t' (version, bucket) value) := by
  have hmerge : (merger a heap tags).merge version =
      .ok (heap.merged .byModifier ⟨a.title, a.baseUrl, tags⟩ version) :=
    Merger.merge_eq_ok rfl hpositive
  obtain ⟨document, hdocument⟩ :
      ∃ document, (heap.merged .byModifier ⟨a.title, a.baseUrl, tags⟩ version).get? bucket =
        some document := ⟨_, heap.get?_merged _ version hbucket⟩
  have hentry := OrderedMap.mem_entries_of_find? hdocument
  have hnested := hdepth _ hmerge (bucket, document) hentry
  have hparse := h.parse?_merged hbucket hdocument hnested
  refine ⟨_, document, _, hmerge, hdocument, hparse, fun hwritable => ⟨?_, hwritable⟩⟩
  have hread := h.readText_merged hsound hwrites hversion hdocument
  rw [hjson, ← mergedPath_publication path output?] at hread
  refine Store.outcome_loadMerged?_eq_some_iff.mpr ⟨document.toJson.pretty, hread, ?_⟩
  rw [format_publication, hjson]
  exact hparse

/-- What was merged as JSON can be published with the same choices, unless the version that is
selected alone is above all that are found. Each merged version up to the greatest that is found
gets a page for each bucket, made of the merged document as its text is read. -/
theorem runPublish_of_runMerge (a : MergeArguments) (t t' : FileTree) (hsound : t.isSound)
    (hjson : a.format = .json) (hmerge : runMerge a t = .ok () t') :
    ∃ heap latest tags versions, Reads a t heap latest tags ∧
      a.version.resolve latest = .ok versions ∧
      ∀ path output? found text, heap.latest? = some found →
        (∀ version ∈ versions, ∀ documents, (merger a heap tags).merge version = .ok documents →
          ∀ e ∈ documents.entries, e.2.toJson.depth ≤ 127) →
        Publishable (publication a path output?) latest found text t' →
        ∃ t'', runPublish (publication a path output?) t' = .ok () t'' ∧
          ∀ version ∈ versions, version ≤ found → ∀ bucket ∈ ["public", "private"],
            ∃ documents document value, (merger a heap tags).merge version = .ok documents ∧
              documents.get? bucket = some document ∧
              Json.parse? document.toJson.pretty = some value ∧
              t''.root.HasFile
                (place ((publishStore (publication a path output?)).pagePath version bucket))
                (.text (Store.render text value)) := by
  obtain ⟨heap, latest, tags, versions, hreads, hversions, hpositive, hwrites⟩ :=
    runMerge_eq_ok_iff.mp hmerge
  refine ⟨heap, latest, tags, versions, hreads, hversions, ?_⟩
  intro path output? found text hfound hdepth hpublish
  have hready := fun version hversion bucket (hbucket : bucket ∈ ["public", "private"]) =>
    hreads.exists_ready path output? hsound hjson hwrites hversion (hpositive version hversion)
      (hdepth version hversion) hbucket
  obtain ⟨published, hpublished, hmem⟩ := exists_resolve hversions hpublish.single
  have hwritable := hpublish.writable published hpublished
  have hpages : ∀ page ∈ pagesOf published,
      (∃ document, (publishStore (publication a path output?)).Ready t' page document) ∨
        a.version = .all ∧ (publishStore (publication a path output?)).Absent t' page := by
    intro page hpage
    obtain ⟨version, hversion, bucket, hbucket, rfl⟩ := mem_pagesOf_iff.mp hpage
    rcases (hmem version).mp hversion with ⟨hselected, _⟩ | ⟨hall, hlater, hle⟩
    · obtain ⟨_, _, value, _, _, _, hvalue⟩ := hready version hselected bucket hbucket
      exact .inl ⟨value, hvalue (hwritable (version, bucket) hpage)⟩
    · rcases hpublish.leftover hall version hlater hle bucket hbucket with ⟨value, hload⟩ | habsent
      · exact .inl ⟨value, hload, hwritable (version, bucket) hpage⟩
      · exact .inr ⟨hall, habsent⟩
  have hkeeps := keeps_of_runMerge hmerge
  obtain ⟨inner, hroot⟩ :=
    FileTree.exists_leadsTo (FileTree.isDirectory_kept hreads.directory hkeeps)
  have hload := (Store.outcome_loadHeap (s := Store.ofRoot a.docs) hsound hreads.directory
    hkeeps).trans hreads.loaded
  rw [← root_publication path output?] at hroot
  obtain ⟨t'', hrun, hfiles⟩ := exists_publishPages text hroot
    (fun page => bucket_of_mem_pagesOf) hpages
  refine ⟨t'', runPublish_eq_ok_iff.mpr
    ⟨text, heap, found, published, hpublish.template, hload, hfound, hpublished, hrun⟩, ?_⟩
  intro version hversion hle bucket hbucket
  obtain ⟨documents, document, value, hmerge, hdocument, hparse, hvalue⟩ :=
    hready version hversion bucket hbucket
  have hpage := mem_pagesOf_iff.mpr
    ⟨version, (hmem version).mpr (.inl ⟨hversion, hle⟩), bucket, hbucket, rfl⟩
  exact ⟨documents, document, value, hmerge, hdocument, hparse,
    hfiles (version, bucket) hpage value (hvalue (hwritable (version, bucket) hpage))⟩

end Publication

private theorem sample_loaded {heap : VersionHeap} {tags : List Tag}
    (hheap : outcome ((Store.ofRoot "docs").loadHeap reservedNames sampleTree) = .ok heap)
    (htags : tags? sampleTree (some "tags.json") = some tags) :
    heap.latest? = some 2 ∧ ∀ version ∈ [1, 2, 3], ∀ documents,
      (merger sampleMerge heap tags).merge version = .ok documents →
        ∀ e ∈ documents.entries, e.2.toJson.depth ≤ 127 := by
  have hnone : tags? sampleTree (some "tags.json") = some [] := by decide +kernel
  obtain rfl : [] = tags := Option.some.inj (hnone.symm.trans htags)
  have hchecked : (outcome ((Store.ofRoot "docs").loadHeap reservedNames sampleTree)).toOption.all
      (fun heap => heap.latest? == some 2 && [1, 2, 3].all fun version => (heap.merged .byModifier
        ⟨sampleMerge.title, sampleMerge.baseUrl, []⟩ version).entries.all fun e =>
          decide (e.2.toJson.depth ≤ 127)) = true := by
    decide +kernel
  rw [hheap] at hchecked
  simp only [Except.toOption, Option.all_some, Bool.and_eq_true, beq_iff_eq, List.all_eq_true,
    decide_eq_true_eq] at hchecked
  refine ⟨hchecked.1, fun version hversion documents hmerged => ?_⟩
  obtain ⟨_, rfl⟩ : 1 ≤ version ∧ heap.merged .byModifier
      ⟨sampleMerge.title, sampleMerge.baseUrl, []⟩ version = documents :=
    (Merger.merge_eq_ok_iff rfl).mp hmerged
  exact hchecked.2 version hversion

-- Whether the template of a publication is there and all pages of versions can be written.
private def isOpen (p : PublishArguments) (versions : List Nat) (t : FileTree) : Bool :=
  decide (t.readText p.template = .ok "%%SPECS%%" ∧ ∀ page ∈ pagesOf versions,
    (t.write ((publishStore p).pagePath page.1 page.2) (.text "")).1 = .ok ())

private theorem of_isOpen {p : PublishArguments} {versions : List Nat} (h : isOpen p versions t) :
    t.readText p.template = .ok "%%SPECS%%" ∧ ∀ page ∈ pagesOf versions,
      t.Writable ((publishStore p).pagePath page.1 page.2) := by
  obtain ⟨htemplate, hwrite⟩ := of_decide_eq_true h
  exact ⟨htemplate, fun page hpage => FileTree.writable_of_write (hwrite page hpage)⟩

theorem sample_published : sampleTree.isSound ∧ ∃ t' t'',
    runMerge sampleMerge sampleTree = .ok () t' ∧
    runPublish (publication sampleMerge "page.html" (some "docs/pages")) t' = .ok () t'' ∧
    ∃ value, t''.root.HasFile ["docs", "pages", "v2-private.html"]
      (.text (Store.render "%%SPECS%%" value)) := by
  have hsound : sampleTree.isSound := by decide +kernel
  obtain ⟨⟨⟩, t', hmerge, hopen⟩ := Effect.exists_of_reaches (runMerge sampleMerge) sampleTree
    (isOpen (publication sampleMerge "page.html" (some "docs/pages")) [1, 2])
    (by decide +kernel)
  obtain ⟨htemplate, hwritable⟩ := of_isOpen hopen
  obtain ⟨heap, latest, tags, versions, hreads, hversions, hpublish⟩ :=
    runPublish_of_runMerge sampleMerge sampleTree t' hsound rfl hmerge
  obtain ⟨hfound, hdepth⟩ := sample_loaded hreads.loaded hreads.declared
  obtain rfl : 2 = latest := Option.some.inj (hfound.symm.trans hreads.chosen)
  obtain rfl : [1, 2] = versions := Except.ok.inj hversions
  have hpublishable : Publishable (publication sampleMerge "page.html" (some "docs/pages")) 2 2
      "%%SPECS%%" t' := by
    refine ⟨htemplate, nofun, ?_, ?_⟩
    · intro versions hversions
      obtain rfl : [1, 2] = versions := Except.ok.inj hversions
      exact hwritable
    · intro _ version hlater hle
      omega
  obtain ⟨t'', hrun, hpages⟩ := hpublish "page.html" (some "docs/pages") 2 "%%SPECS%%" hfound
    (fun version hversion => hdepth version (List.mem_append_left [3] hversion)) hpublishable
  obtain ⟨_, _, value, _, _, _, hfile⟩ := hpages 2 (by decide) (by decide) "private" (by decide)
  have hplace : place ((publishStore (publication sampleMerge "page.html"
      (some "docs/pages"))).pagePath 2 "private") = ["docs", "pages", "v2-private.html"] := by
    decide +kernel
  rw [hplace] at hfile
  exact ⟨hsound, t', t'', hmerge, hrun, value, hfile⟩

/-- A merge of a version above all that are found, with the latest version given. -/
def laterMerge : MergeArguments :=
  { sampleMerge with version := .single 3, latest? := some 3 }

def laterPublication : PublishArguments :=
  publication laterMerge "page.html" (some "docs/pages")

/-- A publication cannot be told a latest version, so it refuses what was merged above those that
are found, although every page could be written. -/
theorem later_not_published : sampleTree.isSound ∧
    ∃ t', runMerge laterMerge sampleTree = .ok () t' ∧ t'.readText "page.html" = .ok "%%SPECS%%" ∧
      (∀ page ∈ pagesOf [3], ∃ document, (publishStore laterPublication).Ready t' page document) ∧
      ∀ t'', runPublish laterPublication t' ≠ .ok () t'' := by
  have hsound : sampleTree.isSound := by decide +kernel
  obtain ⟨⟨⟩, t', hmerge, hopen⟩ := Effect.exists_of_reaches (runMerge laterMerge) sampleTree
    (isOpen laterPublication [3]) (by decide +kernel)
  obtain ⟨htemplate, hwritable⟩ := of_isOpen hopen
  obtain ⟨heap, latest, tags, versions, hreads, hversions, hpositive, hwrites⟩ :=
    runMerge_eq_ok_iff.mp hmerge
  obtain rfl : 3 = latest := Option.some.inj hreads.chosen
  obtain rfl := (VersionSelector.resolve_single_eq_ok_iff.mp hversions).2
  obtain ⟨hfound, hdepth⟩ := sample_loaded hreads.loaded hreads.declared
  have hkeeps := keeps_of_runMerge hmerge
  refine ⟨hsound, t', hmerge, htemplate, ?_, ?_⟩
  · intro page hpage
    obtain ⟨version, hversion, bucket, hbucket, rfl⟩ := mem_pagesOf_iff.mp hpage
    obtain rfl := List.mem_singleton.mp hversion
    obtain ⟨_, _, value, _, _, _, hready⟩ := hreads.exists_ready "page.html"
      (some "docs/pages") hsound rfl hwrites hversion (by decide) (hdepth 3 (by decide)) hbucket
    exact ⟨value, hready (hwritable (3, bucket) hpage)⟩
  · intro t'' hpublish
    obtain ⟨_, heap', found, _, _, hload, hfound', hresolve, _⟩ := runPublish_eq_ok_iff.mp hpublish
    have hagain := (Store.outcome_loadHeap (s := Store.ofRoot "docs") hsound hreads.directory
      hkeeps).trans hreads.loaded
    obtain rfl : heap = heap' := Except.ok.inj (hagain.symm.trans hload)
    obtain rfl : 2 = found := Option.some.inj (hfound.symm.trans hfound')
    exact absurd (VersionSelector.resolve_single_eq_ok_iff.mp hresolve).1 (by decide)

end Command
end ApiDocs
