import ApiDocs.Proofs.Files.Kept
import ApiDocs.Proofs.Store.Effect
import ApiDocs.Proofs.Store.Merged
/-!
# Pages of merged documents

All pages are files of one directory, and none of them is a merged document. So what a page is made
of is still there when other pages were written.
-/
namespace ApiDocs.Store

open Effect (outcome)
open FilePath (place parts parent parentName resolve joinAll IsName)
open FileTree (Writable)

variable {s : Store} {t t' : FileTree} {version : Nat} {bucket template : String}

theorem outcome_loadMerged?_eq_some_iff {document : Json} :
    outcome (s.loadMerged? version bucket t) = .ok (some document) ↔
      ∃ text, t.readText (s.mergedPath version bucket) = .ok text ∧
        s.format.parse? text = some document :=
  outcome_loadFile?_eq_some_iff

theorem outcome_loadMerged?_eq_none_iff :
    outcome (s.loadMerged? version bucket t) = .ok none ↔
      t.readText (s.mergedPath version bucket) = .error .missing :=
  outcome_loadFile?_eq_none_iff

private theorem hyphen_notMem_digits (n : Nat) : '-' ∉ Nat.toDigits 10 n :=
  Text.notMem_toDigits (by decide) n

theorem pageName_ne_parentName (version : Nat) (bucket : String) :
    pageName version bucket ≠ parentName := by
  intro h
  have hlist := congrArg String.toList h
  rw [toList_pageName] at hlist
  simp [parentName] at hlist

theorem pageName_ne_versionName (version v : Nat) (bucket : String) :
    pageName version bucket ≠ versionName v := by
  intro h
  have hlist := congrArg String.toList h
  rw [toList_pageName, toList_versionName] at hlist
  have hmem : '-' ∈ Nat.toDigits 10 v := by
    rw [← (List.cons.inj hlist).2]
    simp
  exact hyphen_notMem_digits v hmem

section Buckets

variable {v : Nat} {other : String} (hbucket : bucket ∈ MergeStrategy.byModifier.buckets)

include hbucket

theorem pageName_ne_bucketName (version : Nat) (other : String) (format : Format) :
    pageName version other ≠ bucketName format bucket := by
  intro h
  have hlist := congrArg String.toList h
  rw [toList_pageName] at hlist
  have hhead : (bucketName format bucket).toList.head? = some 'p' := by
    rcases mem_buckets_iff.mp hbucket with rfl | rfl <;> cases format <;> decide
  simp [← hlist] at hhead

theorem pageName_inj (h : pageName version bucket = pageName v other) :
    version = v ∧ bucket = other := by
  have hlist := congrArg String.toList h
  rw [toList_pageName, toList_pageName] at hlist
  have hrest : '-' ∉ bucket.toList ++ ".html".toList := by
    rcases mem_buckets_iff.mp hbucket with rfl | rfl <;> decide
  obtain ⟨hversion, _, hname⟩ := (List.append_cons_inj_of_notMem (hyphen_notMem_digits version)
    hrest).mp (List.cons.inj hlist).2
  constructor
  · exact Text.toDigits_injective hversion
  · exact String.toList_inj.mp (List.append_cancel_right hname)

theorem parts_pagePath (version : Nat) :
    parts (s.pagePath version bucket) = parts s.pages ++ [pageName version bucket] :=
  FilePath.parts_join_name s.pages (isName_pageName hbucket version)

theorem place_pagePath (version : Nat) :
    place (s.pagePath version bucket) = place s.pages ++ [pageName version bucket] := by
  rw [place, parts_pagePath hbucket, FilePath.resolve_append, FilePath.resolve,
    if_neg (pageName_ne_parentName version bucket), FilePath.resolve, place]

theorem parts_parent_pagePath (h : t.Writable (s.pagePath version bucket)) :
    parts (parent (s.pagePath version bucket)) = parts s.pages := by
  obtain ⟨_, _, hwrite⟩ := h
  have hfile := (FileTree.write_eq_ok_iff.mp hwrite).2.1
  have hparts := (FilePath.parts_parent (name?_pagePath hbucket version) hfile).1
  rw [parts_pagePath hbucket] at hparts
  exact (List.append_cancel_right hparts).symm

variable (hother : other ∈ MergeStrategy.byModifier.buckets)

include hother

theorem place_pagePath_inj (h : place (s.pagePath version bucket) = place (s.pagePath v other)) :
    version = v ∧ bucket = other := by
  rw [place_pagePath hbucket, place_pagePath hother, List.append_cancel_left_eq] at h
  exact pageName_inj hbucket (List.singleton_inj.mp h)

/-- A page is not on the way to a merged document. -/
theorem not_pagePath_before {inner : Directory} (hroot : t.LeadsTo s.root inner)
    (h : t.Writable (s.pagePath v other)) :
    ¬ place (s.pagePath v other) <+: place (s.mergedPath version bucket) := by
  intro hway
  have hplace : place (s.mergedPath version bucket) =
      place s.root ++ [versionName version] ++ [bucketName s.format bucket] := by
    rw [place_mergedPath hroot.nonempty hbucket, List.append_assoc]
    rfl
  rw [hplace, List.prefix_concat_iff, List.prefix_concat_iff, place_pagePath hother] at hway
  rcases hway with hfile | hversion | habove
  · have hlast := List.append_inj_right' hfile rfl
    exact pageName_ne_bucketName hbucket v other s.format (List.singleton_inj.mp hlast)
  · have hlast := List.append_inj_right' hversion rfl
    exact pageName_ne_versionName v version other (List.singleton_inj.mp hlast)
  · obtain ⟨_, _, hwrite⟩ := h
    apply FileTree.not_hasDirectory_of_write hwrite
    rw [place_pagePath hother]
    have hdirectory : t.root.HasDirectory (place s.root) := ⟨inner, hroot.find⟩
    exact hdirectory.of_before habove

end Buckets

theorem getLast?_mergedPath (hroot : s.root ≠ "")
    (hbucket : bucket ∈ MergeStrategy.byModifier.buckets) (version : Nat) :
    (place (s.mergedPath version bucket)).getLast? ≠ some parentName := by
  have hparent := parentName_notMem hbucket s.format version
  rw [place_mergedPath hroot hbucket, List.append_cons, List.getLast?_concat]
  exact fun h => hparent (by simp [← Option.some.inj h])

theorem readText_eq_missing_iff {inner : Directory} (hroot : t.LeadsTo s.root inner)
    (hbucket : bucket ∈ MergeStrategy.byModifier.buckets) :
    t.readText (s.mergedPath version bucket) = .error .missing ↔
      FilePath.isValid (s.mergedPath version bucket) ∧ ¬ Directory.isLong (versionName version) ∧
        t.root.Missing (place (s.mergedPath version bucket)) := by
  have hnames : ∀ name ∈ [versionName version, bucketName s.format bucket], IsName name := by
    simp [isName_versionName, isName_bucketName hbucket]
  have hshort : ∀ name ∈ [bucketName s.format bucket], ¬ Directory.isLong name := by
    rcases mem_buckets_iff.mp hbucket with rfl | rfl <;> cases s.format <;> decide
  rw [place_mergedPath hroot.nonempty hbucket]
  exact hroot.readText_eq_missing_iff hnames (parentName_notMem hbucket s.format version) hshort

/-- A page can be written: its document is read, and a file can be put at its path. -/
structure Ready (s : Store) (t : FileTree) (page : Nat × String) (document : Json) : Prop where
  loaded : outcome (s.loadMerged? page.1 page.2 t) = .ok (some document)
  writable : t.Writable (s.pagePath page.1 page.2)

/-- A page has no document, and the path to the pages does not lead through its place. -/
structure Absent (s : Store) (t : FileTree) (page : Nat × String) : Prop where
  missing : outcome (s.loadMerged? page.1 page.2 t) = .ok none
  apart : ∀ front, front <+: parts s.pages → resolve [] front ≠ place (s.mergedPath page.1 page.2)

/-- The merged document of a page is there, but its text is none of a document. -/
def Corrupt (s : Store) (t : FileTree) (page : Nat × String) : Prop :=
  ∃ text, t.readText (s.mergedPath page.1 page.2) = .ok text ∧ s.format.parse? text = none

theorem Corrupt.loadMerged?_ne_ok {page : Nat × String} (h : s.Corrupt t page)
    (document? : Option Json) : outcome (s.loadMerged? page.1 page.2 t) ≠ .ok document? := by
  obtain ⟨text, hread, hparse⟩ := h
  rw [loadMerged?, outcome_loadFile?, hread]
  dsimp only
  rw [hparse]
  exact nofun

section Kept

variable {inner : Directory} {page other : Nat × String} {content : Content}
  (hroot : t.LeadsTo s.root inner) (hpage : page.2 ∈ MergeStrategy.byModifier.buckets)
  (hother : other.2 ∈ MergeStrategy.byModifier.buckets)
  (hwrite : t.write (s.pagePath other.1 other.2) content = (.ok (), t'))

include hroot hpage hother hwrite

theorem readText_merged_kept {text : String}
    (h : t.readText (s.mergedPath page.1 page.2) = .ok text) :
    t'.readText (s.mergedPath page.1 page.2) = .ok text := by
  have hne : ¬ place (s.pagePath other.1 other.2) <+: place (s.mergedPath page.1 page.2) :=
    not_pagePath_before hpage hother hroot ⟨_, _, hwrite⟩
  apply FileTree.readText_of_write hwrite h (getLast?_mergedPath hroot.nonempty hpage page.1)
  exact fun hsame => hne ⟨[], by rw [List.append_nil, hsame]⟩

theorem Ready.kept {document : Json} (h : s.Ready t page document) : s.Ready t' page document := by
  obtain ⟨text, hread, hparse⟩ := outcome_loadMerged?_eq_some_iff.mp h.loaded
  have hread' := readText_merged_kept hroot hpage hother hwrite hread
  have hdirectory : parts (parent (s.pagePath page.1 page.2)) =
      parts (parent (s.pagePath other.1 other.2)) := by
    rw [parts_parent_pagePath hpage h.writable, parts_parent_pagePath hother ⟨_, _, hwrite⟩]
  exact ⟨outcome_loadMerged?_eq_some_iff.mpr ⟨text, hread', hparse⟩,
    h.writable.beside hwrite hdirectory⟩

theorem Corrupt.kept (h : s.Corrupt t page) : s.Corrupt t' page := by
  obtain ⟨text, hread, hparse⟩ := h
  exact ⟨text, readText_merged_kept hroot hpage hother hwrite hread, hparse⟩

theorem Absent.kept (h : s.Absent t page) : s.Absent t' page := by
  have hread := outcome_loadMerged?_eq_none_iff.mp h.missing
  obtain ⟨hvalid, hshort, hmissing⟩ := (readText_eq_missing_iff hroot hpage).mp hread
  obtain ⟨_, hroot'⟩ := hroot.kept (FileTree.written_of_write hwrite).directory
  have hwritable : t.Writable (s.pagePath other.1 other.2) := ⟨_, _, hwrite⟩
  have hway : ∀ front, front <+: parts (parent (s.pagePath other.1 other.2)) →
      resolve [] front ≠ place (s.mergedPath page.1 page.2) := by
    rw [parts_parent_pagePath hother hwritable]
    exact h.apart
  have hmissing' := FileTree.missing_of_write hwrite hmissing
    (getLast?_mergedPath hroot.nonempty hpage page.1)
    (not_pagePath_before hpage hother hroot hwritable) hway
  exact ⟨outcome_loadMerged?_eq_none_iff.mpr
    ((readText_eq_missing_iff hroot' hpage).mpr ⟨hvalid, hshort, hmissing'⟩), h.apart⟩

end Kept

theorem publish_eq_ok_iff {path : String} :
    s.publish version bucket template t = .ok path t' ↔ path = s.pagePath version bucket ∧
      ∃ document, outcome (s.loadMerged? version bucket t) = .ok (some document) ∧
        t.write (s.pagePath version bucket) (.text (render template document)) = (.ok (), t') := by
  have hread := readOnly_loadFile? s.format (s.mergedPath version bucket)
  refine hread.bind_eq_ok_iff.trans ?_
  constructor
  · intro ⟨found, hload, hpublish⟩
    cases found with
    | none => exact absurd hpublish Effect.throw_ne_ok
    | some document =>
      obtain ⟨⟨⟩, t₁, hwrite, hpure⟩ := Effect.bind_eq_ok_iff.mp hpublish
      obtain ⟨rfl, rfl⟩ := Effect.pure_eq_ok_iff.mp hpure
      exact ⟨rfl, document, hread.eq_ok_iff.mp hload, FileEffect.change_eq_ok_iff.mp hwrite⟩
  · rintro ⟨rfl, document, hload, hwrite⟩
    exact ⟨some document, hread.eq_ok_iff.mpr hload,
      Effect.bind_eq_ok_iff.mpr ⟨(), t', FileEffect.change_eq_ok_iff.mpr hwrite, rfl⟩⟩

theorem outcome_loadFile?_ne_invalidArgument {format : Format} {path detail : String} :
    outcome (loadFile? format path t) ≠ .error (.invalidArgument detail) := by
  rw [outcome_loadFile?]
  split
  · split <;> exact nofun
  · exact nofun
  · exact nofun

/-- Only a page without a document is refused as an invalid argument. -/
theorem publish_eq_invalidArgument_iff {detail : String} :
    s.publish version bucket template t = .error (.invalidArgument detail) t' ↔
      outcome (s.loadMerged? version bucket t) = .ok none ∧
        detail = s!"no merged document {s.mergedPath version bucket}" ∧ t' = t := by
  have hread := readOnly_loadFile? s.format (s.mergedPath version bucket)
  refine hread.bind_eq_error_iff.trans ?_
  constructor
  · rintro (hload | ⟨found, hload, hpublish⟩)
    · exact absurd (hread.eq_error_iff.mp hload).1 outcome_loadFile?_ne_invalidArgument
    cases found with
    | none =>
      obtain ⟨hdetail, rfl⟩ := Effect.throw_eq_error_iff.mp hpublish
      exact ⟨hread.eq_ok_iff.mp hload, (Error.invalidArgument.inj hdetail).symm, rfl⟩
    | some document =>
      rcases Effect.bind_eq_error_iff.mp hpublish with hwrite | ⟨⟨⟩, _, _, hpure⟩
      · obtain ⟨fault, _, hfault⟩ := FileEffect.change_eq_error_iff.mp hwrite
        cases hfault
      · exact absurd hpure Effect.pure_ne_error
  · rintro ⟨hload, rfl, rfl⟩
    exact .inr ⟨none, hread.eq_ok_iff.mpr hload, rfl⟩

/-- The file of a page, if the document of the page can be read. -/
def pageFile? (s : Store) (template : String) (t : FileTree) (page : Nat × String) :
    Option (String × Content) :=
  (outcome (s.loadMerged? page.1 page.2 t)).toOption.join.map fun document =>
    (s.pagePath page.1 page.2, .text (render template document))

theorem Ready.pageFile?_eq {page : Nat × String} {document : Json} (h : s.Ready t page document) :
    s.pageFile? template t page =
      some (s.pagePath page.1 page.2, .text (render template document)) := by
  rw [pageFile?, h.loaded]
  rfl

theorem Absent.pageFile?_eq {page : Nat × String} (h : s.Absent t page) :
    s.pageFile? template t page = none := by
  rw [pageFile?, h.missing]
  rfl

/-- Each page has a file of its own. -/
theorem agree_pageFiles {pages : List (Nat × String)}
    (hbuckets : ∀ page ∈ pages, page.2 ∈ MergeStrategy.byModifier.buckets) :
    FileTree.Agree (pages.filterMap (s.pageFile? template t)) := by
  have hpath : ∀ {page file}, s.pageFile? template t page = some file →
      file.1 = s.pagePath page.1 page.2 := by
    intro page file hfile
    obtain ⟨document, _, rfl⟩ := Option.map_eq_some_iff.mp hfile
    rfl
  intro file hfile file' hfile' hplace
  obtain ⟨page, hpage, hread⟩ := List.mem_filterMap.mp hfile
  obtain ⟨page', hpage', hread'⟩ := List.mem_filterMap.mp hfile'
  rw [hpath hread, hpath hread'] at hplace
  obtain ⟨hversion, hbucket⟩ :=
    place_pagePath_inj (hbuckets page hpage) (hbuckets page' hpage') hplace
  obtain rfl : page = page' := Prod.ext hversion hbucket
  rw [Option.some.inj (hread.symm.trans hread')]

end ApiDocs.Store
