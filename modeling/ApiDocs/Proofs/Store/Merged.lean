import ApiDocs.Command.Run
import ApiDocs.Proofs.Files.Read
import ApiDocs.Proofs.Route.VersionPath
/-!
# Where merged documents and pages are stored

Each version has a directory for its merged documents, one file for each bucket. Neither these
files nor the pages have names of documents that are scanned.
-/
namespace ApiDocs.Store

open FilePath (IsName joinAll place)

/-- The directory of the merged documents of a version. -/
def versionName (version : Nat) : String :=
  s!"v{version}"

/-- The file of the merged document of a bucket. -/
def bucketName (format : Format) (bucket : String) : String :=
  s!"{bucket}.{format.name}"

def pageName (version : Nat) (bucket : String) : String :=
  s!"v{version}-{bucket}.html"

theorem toList_versionName (version : Nat) :
    (versionName version).toList = 'v' :: Nat.toDigits 10 version := by
  change ("v" ++ version.repr).toList = _
  simp

theorem toList_pageName (version : Nat) (bucket : String) : (pageName version bucket).toList =
    'v' :: (Nat.toDigits 10 version ++ '-' :: (bucket.toList ++ ".html".toList)) := by
  change ("v" ++ version.repr ++ "-" ++ bucket ++ ".html").toList = _
  simp

theorem versionName_injective : Function.Injective versionName := by
  intro v w h
  have hlist := congrArg String.toList h
  rw [toList_versionName, toList_versionName] at hlist
  exact Text.toDigits_injective (List.cons.inj hlist).2

theorem isName_versionName (version : Nat) : IsName (versionName version) where
  moves := by
    rw [toList_versionName]
    simp [FilePath.staysInPlace]
  noSlash := by
    rw [toList_versionName]
    simpa using Path.slash_notMem_digits version

theorem isName_pageName_of_notMem {bucket : String} (hslash : '/' ∉ bucket.toList)
    (version : Nat) : IsName (pageName version bucket) where
  moves := by
    rw [toList_pageName]
    simp [FilePath.staysInPlace]
  noSlash := by
    rw [toList_pageName]
    simp [Path.slash_notMem_digits version, hslash]

theorem mem_buckets_iff {bucket : String} : bucket ∈ MergeStrategy.byModifier.buckets ↔
    bucket = "public" ∨ bucket = "private" := by
  simp [MergeStrategy.byModifier]

section Buckets

variable {bucket : String} (hbucket : bucket ∈ MergeStrategy.byModifier.buckets)

include hbucket

theorem isName_bucketName (format : Format) : IsName (bucketName format bucket) := by
  constructor <;> rcases mem_buckets_iff.mp hbucket with rfl | rfl <;> cases format <;> decide

/-- The merged documents are left out by their names when they are JSON, and else for their
extension. -/
theorem isDocument_bucketName (format : Format) :
    Scan.isDocument Command.reservedNames (bucketName format bucket) = false := by
  rcases mem_buckets_iff.mp hbucket with rfl | rfl <;> cases format <;> decide

theorem isName_pageName (version : Nat) : IsName (pageName version bucket) := by
  apply isName_pageName_of_notMem
  rcases mem_buckets_iff.mp hbucket with rfl | rfl <;> decide

end Buckets

theorem isDocument_pageName (reserved : List String) (version : Nat) (bucket : String) :
    Scan.isDocument reserved (pageName version bucket) = false := by
  have hextension :
      FilePath.hasExtension (pageName version bucket) Scan.documentExtension = false := by
    rw [FilePath.hasExtension, toList_pageName, Bool.and_eq_false_iff]
    refine .inl (Bool.eq_false_iff.mpr fun hsuffix => ?_)
    have hlast := (List.isSuffixOf_iff_suffix.mp hsuffix).getLast (by simp)
    simp [Scan.documentExtension] at hlast
  rw [Scan.isDocument, hextension, Bool.false_and]

variable {s : Store}

theorem name?_mergedPath {bucket : String} (hbucket : bucket ∈ MergeStrategy.byModifier.buckets)
    (version : Nat) :
    FilePath.name? (s.mergedPath version bucket) = some (bucketName s.format bucket) :=
  FilePath.name?_join _ (isName_bucketName hbucket s.format)

theorem name?_pagePath {bucket : String} (hbucket : bucket ∈ MergeStrategy.byModifier.buckets)
    (version : Nat) : FilePath.name? (s.pagePath version bucket) = some (pageName version bucket) :=
  FilePath.name?_join _ (isName_pageName hbucket version)

theorem parts_mergedPath (hroot : s.root ≠ "") {bucket : String}
    (hbucket : bucket ∈ MergeStrategy.byModifier.buckets) (version : Nat) :
    FilePath.parts (s.mergedPath version bucket) =
      FilePath.parts s.root ++ [versionName version, bucketName s.format bucket] := by
  have hnames : ∀ name ∈ [versionName version, bucketName s.format bucket], IsName name := by
    simp [isName_versionName, isName_bucketName hbucket]
  have hpath : s.mergedPath version bucket =
      joinAll s.root [versionName version, bucketName s.format bucket] := rfl
  rw [hpath, FilePath.parts_joinAll hroot hnames]

theorem parentName_notMem {bucket : String}
    (hbucket : bucket ∈ MergeStrategy.byModifier.buckets) (format : Format) (version : Nat) :
    FilePath.parentName ∉ [versionName version, bucketName format bucket] := by
  have hversion : versionName version ≠ FilePath.parentName := by
    intro he
    have hlist := congrArg String.toList he
    rw [toList_versionName] at hlist
    simp [FilePath.parentName] at hlist
  have hfile : bucketName format bucket ≠ FilePath.parentName := by
    rcases mem_buckets_iff.mp hbucket with rfl | rfl <;> cases format <;> decide
  simp [hversion.symm, hfile.symm]

theorem place_mergedPath (hroot : s.root ≠ "") {bucket : String}
    (hbucket : bucket ∈ MergeStrategy.byModifier.buckets) (version : Nat) :
    place (s.mergedPath version bucket) =
      place s.root ++ [versionName version, bucketName s.format bucket] := by
  rw [place, parts_mergedPath hroot hbucket, FilePath.resolve_append,
    FilePath.resolve_of_notMem (parentName_notMem hbucket s.format version), place]

/-- A merged document that stands at its place is read at its path. -/
theorem readText_mergedPath {t : FileTree} {d : Directory} (hleads : t.LeadsTo s.root d)
    (htidy : t.root.Tidy []) {bucket text : String}
    (hbucket : bucket ∈ MergeStrategy.byModifier.buckets) {version : Nat}
    (hvalid : FilePath.isValid (s.mergedPath version bucket))
    (hfile : t.root.HasFile (place (s.mergedPath version bucket)) (.text text)) :
    t.readText (s.mergedPath version bucket) = .ok text := by
  have hpath : s.mergedPath version bucket =
      joinAll s.root [versionName version, bucketName s.format bucket] := rfl
  have hnames : ∀ name ∈ [versionName version, bucketName s.format bucket], IsName name := by
    simp [isName_versionName, isName_bucketName hbucket]
  rw [place_mergedPath hleads.nonempty hbucket] at hfile
  have hshort : ∀ name ∈ [versionName version, bucketName s.format bucket],
      ¬ Directory.isLong name := fun name hname =>
    htidy.short _ _ hfile name (List.mem_append_right _ hname)
  rw [hpath] at hvalid ⊢
  exact hleads.readText (by simp) hnames (parentName_notMem hbucket s.format version) hshort hvalid
    hfile

/-- Each version has its own file for each bucket. -/
theorem place_mergedPath_inj (hroot : s.root ≠ "") {v w : Nat} {bucket bucket' : String}
    (hbucket : bucket ∈ MergeStrategy.byModifier.buckets)
    (hbucket' : bucket' ∈ MergeStrategy.byModifier.buckets)
    (h : place (s.mergedPath v bucket) = place (s.mergedPath w bucket')) :
    v = w ∧ bucket = bucket' := by
  rw [place_mergedPath hroot hbucket, place_mergedPath hroot hbucket',
    List.append_cancel_left_eq] at h
  obtain ⟨hversion, hfile⟩ := List.cons.inj h
  refine ⟨versionName_injective hversion, ?_⟩
  have hname := List.singleton_inj.mp hfile
  rcases mem_buckets_iff.mp hbucket with rfl | rfl <;>
    rcases mem_buckets_iff.mp hbucket' with rfl | rfl <;> cases hformat : s.format <;>
    rw [hformat] at hname <;> revert hname <;> decide

end ApiDocs.Store
