import ApiDocs.Proofs.Files.Read
import ApiDocs.Proofs.Files.Sound
import ApiDocs.Proofs.Text.Bytes
import Mathlib.Data.List.Sort
/-!
# The order of a scan

A scan lists every path document below a directory once, in the order of the bytes of the names on
the way. Which names are listed does not depend on the path of the directory.
-/
namespace ApiDocs

open FilePath (IsName isLong join joinAll parts)

mutual
/-- Whether no directory of an entry that stands at a path has too long a path to be opened. -/
def Entry.opens (path : String) : Entry → Bool
  | .file _ => true
  | .directory d => !isLong path && allOpen path d.entries
def allOpen (path : String) : List (String × Entry) → Bool
  | [] => true
  | (name, e) :: rest => e.opens (join path name) && allOpen path rest
end

private theorem opens_of_mem {entries : List (String × Entry)} {path : String}
    (h : allOpen path entries) {e : String × Entry} (he : e ∈ entries) :
    e.2.opens (join path e.1) := by
  induction entries with
  | nil => cases he
  | cons first rest ih =>
    rw [allOpen, Bool.and_eq_true] at h
    rcases List.mem_cons.mp he with rfl | hmem
    · exact h.1
    · exact ih h.2 hmem

namespace Scan

variable {reserved : List String}

private theorem not_isLong_of_opens {names : List String} {e : Entry} {path : String}
    (h : e.opens path) {inner : Directory} (hinner : e.descend names = some (.directory inner)) :
    ¬ isLong (joinAll path names) := by
  have hopens : (Entry.directory inner).opens (joinAll path names) := by
    refine @Entry.of_descend (fun names e => e.opens (joinAll path names)) ?_ [] names e _ h hinner
    intro names d hd e he
    rw [Entry.opens, Bool.and_eq_true] at hd
    rw [FilePath.joinAll_concat]
    exact opens_of_mem hd.2 he
  rw [Entry.opens, Bool.and_eq_true, Bool.not_eq_true'] at hopens
  exact Bool.eq_false_iff.mp hopens.1

private theorem opens_below {path name : String} {rest : List String} {d : Directory}
    (h : (Entry.directory d).opens path) {content : Content}
    (hfile : d.HasFile (name :: rest) content) : Opens (join path name) rest := by
  rintro front back rfl hback
  have hway : ∃ inner, d.find? (name :: front) = some (.directory inner) :=
    Directory.exists_directory_of_find? hback hfile
  obtain ⟨inner, hinner⟩ := hway
  rw [← Directory.descend_directory] at hinner
  have hshort : ¬ isLong (joinAll path (name :: front)) := not_isLong_of_opens h hinner
  exact hshort

/-- Names lead from a directory to a path document: a file below it with the extension of documents
and none of the reserved names, not hidden and not among the pages. -/
structure IsPathDocument (reserved : List String) (d : Directory) (names : List String) : Prop where
  file : ∃ content, d.HasFile names content
  below : FilePath.rootName ∉ names
  extension : ∃ stem, stem ≠ "" ∧ names.getLast? = some (stem ++ ".json")
  unreserved : ∀ name ∈ names.getLast?, name ∉ reserved
  visible : ∀ name ∈ names, name.toList.head? ≠ some '.'
  apart : ∀ rest, names = "build" :: rest → rest = []

theorem hasExtension_iff {name : String} :
    FilePath.hasExtension name documentExtension ↔ ∃ stem, stem ≠ "" ∧ name = stem ++ ".json" := by
  have hending : '.' :: documentExtension.toList = ".json".toList := by decide
  rw [FilePath.hasExtension, hending, Bool.and_eq_true, List.isSuffixOf_iff_suffix,
    decide_eq_true_eq]
  constructor
  · rintro ⟨⟨stem, hstem⟩, hlength⟩
    refine ⟨String.ofList stem, ?_, ?_⟩
    · intro hempty
      rw [← hstem, String.ofList_eq_empty_iff.mp hempty] at hlength
      exact Nat.lt_irrefl _ hlength
    · rw [← String.toList_inj, String.toList_append, String.toList_ofList, hstem]
  · rintro ⟨stem, hstem, rfl⟩
    have hne : stem.toList ≠ [] := by simpa using hstem
    rw [String.toList_append, List.length_append]
    exact ⟨List.suffix_append _ _, Nat.lt_add_of_pos_left (List.length_pos_iff.mpr hne)⟩

theorem isHidden_eq_false_iff {name : String} :
    isHidden name = false ↔ name.toList.head? ≠ some '.' ∧ name ≠ FilePath.rootName := by
  rw [isHidden, FilePath.leadsOut]
  constructor
  · intro h
    simp_all
  · rintro ⟨hdot, hroot⟩
    have hparent : name ≠ FilePath.parentName := by
      rintro rfl
      exact hdot (by decide)
    simp [hdot, hroot, hparent]

theorem apart_of_isShown {names : List String} (h : isShown reserved true names) :
    ∀ rest, names = buildName :: rest → rest = [] := by
  rintro rest rfl
  cases rest with
  | nil => rfl
  | cons next rest => simp [isShown] at h

/-- Path documents are the files whose names are shown. -/
theorem isPathDocument_iff {d : Directory} {names : List String} :
    IsPathDocument reserved d names ↔
      (∃ content, d.HasFile names content) ∧ isShown reserved true names := by
  constructor
  · intro h
    obtain ⟨stem, hstem, hlast⟩ := h.extension
    obtain ⟨front, rfl⟩ := List.getLast?_eq_some_iff.mp hlast
    refine ⟨h.file, isShown_concat ?_ ?_ ?_⟩
    · intro name hname
      exact isHidden_eq_false_iff.mpr ⟨h.visible name hname, fun he => h.below (he ▸ hname)⟩
    · intro _ hhead
      obtain ⟨rest, rfl⟩ := List.head?_eq_some_iff.mp hhead
      simpa using h.apart (rest ++ [stem ++ ".json"]) rfl
    · have hfree := h.unreserved _ hlast
      rw [isDocument, hasExtension_iff.mpr ⟨stem, hstem, rfl⟩]
      simpa using hfree
  · rintro ⟨hfile, hshown⟩
    have hvisible := fun name hname =>
      isHidden_eq_false_iff.mp (isShown_visible hshown name hname)
    obtain ⟨front, last, rfl, hlast⟩ := exists_last_of_isShown hshown
    rw [isDocument, Bool.and_eq_true, decide_eq_true_eq] at hlast
    obtain ⟨stem, hstem, hname⟩ := hasExtension_iff.mp hlast.1
    refine ⟨hfile, fun hroot => (hvisible _ hroot).2 rfl, ⟨stem, hstem, ?_⟩, ?_,
      fun name hname => (hvisible name hname).1, apart_of_isShown hshown⟩
    · rw [List.getLast?_concat, hname]
    · intro name hname
      rw [List.getLast?_concat] at hname
      rw [← Option.some.inj hname]
      exact hlast.2

/-- Paths in the order of their parts. -/
def Ascending (files : List String) : Prop :=
  files.Pairwise fun a b => parts a < parts b

private theorem pairwise_names {visits : List (String × List String)}
    (hdistinct : (visits.map Prod.fst).Nodup) :
    (visits.mergeSort fun a b => a.1 ≤ b.1).Pairwise fun a b => a.1 < b.1 := by
  have hsorted : (visits.mergeSort fun a b => a.1 ≤ b.1).Pairwise fun a b => a.1 ≤ b.1 := by
    simpa using List.pairwise_mergeSort le_trans_fst le_total_fst visits
  have hne : (visits.mergeSort fun a b => a.1 ≤ b.1).Pairwise fun a b => a.1 ≠ b.1 := by
    have hperm := (List.mergeSort_perm visits fun a b => a.1 ≤ b.1).map Prod.fst
    exact List.pairwise_map.mp (hperm.nodup_iff.mpr hdistinct)
  exact (hsorted.and hne).imp fun h => String.not_le.mp fun hle => h.2 (String.le_antisymm h.1 hle)

/-- What entries of different names list ascends if each of them does. -/
theorem ascending_inOrder (front : List String) {visits : List (String × List String)}
    (hdistinct : (visits.map Prod.fst).Nodup)
    (hbelow : ∀ v ∈ visits, ∀ file ∈ v.2, ∃ rest, parts file = front ++ v.1 :: rest)
    (hvisits : ∀ v ∈ visits, Ascending v.2) : Ascending (inOrder visits) := by
  rw [Ascending, inOrder, List.pairwise_flatMap]
  refine ⟨fun v hv => hvisits v (List.mem_mergeSort.mp hv), ?_⟩
  apply (pairwise_names hdistinct).imp_of_mem
  intro v w hv hw hname a ha b hb
  obtain ⟨_, ha⟩ := hbelow v (List.mem_mergeSort.mp hv) a ha
  obtain ⟨_, hb⟩ := hbelow w (List.mem_mergeSort.mp hw) b hb
  rw [ha, hb]
  exact List.append_left_lt (.rel hname)

private theorem visits_eq_map (top : Bool) (path : String) (entries : List (String × Entry)) :
    visits reserved top path entries =
      entries.map fun e => (e.1, documentsOf reserved top (join path e.1) e.1 e.2) := by
  induction entries with
  | nil => rfl
  | cons e rest ih => rw [visits, ih, List.map_cons]

private theorem parts_of_mem_documentsOf {e : String × Entry} {top : Bool} {path file : String}
    (hpath : path ≠ "") (hname : Directory.isEntryName e.1) (hsound : e.2.isSound)
    (hfile : file ∈ documentsOf reserved top (join path e.1) e.1 e.2) :
    ∃ rest, parts file = parts path ++ e.1 :: rest := by
  obtain ⟨rest, content, hfind, hshown, _, rfl⟩ :=
    (mem_documentsOf e.2 top _ e.1 file (Entry.distinctBelow_of_isSound hsound)).mp hfile
  have hentries : ∀ n ∈ e.1 :: rest, Directory.isEntryName n :=
    List.forall_mem_cons.mpr ⟨hname, (sound_of_descend hsound hfind).2⟩
  have hnames : ∀ n ∈ e.1 :: rest, IsName n := fun n hn =>
    FileTree.isName_of_visible (hentries n hn) (isShown_visible hshown n hn)
  exact ⟨rest, FilePath.parts_joinAll hpath hnames⟩

private theorem ascending_visits {entries : List (String × Entry)} {top : Bool} {path : String}
    (hpath : path ≠ "") (hdistinct : (entries.map Prod.fst).Nodup) (hsound : areSound entries)
    (hentries : ∀ e ∈ entries, Ascending (documentsOf reserved top (join path e.1) e.1 e.2)) :
    Ascending (inOrder (visits reserved top path entries)) := by
  rw [visits_eq_map]
  refine ascending_inOrder (parts path) (by rwa [List.map_map])
    (List.forall_mem_map.mpr fun e he file hfile => ?_) (List.forall_mem_map.mpr hentries)
  obtain ⟨hname, _, hentry⟩ := sound_of_mem hsound he
  exact parts_of_mem_documentsOf hpath hname hentry hfile

mutual
private theorem ascending_documentsOf : ∀ (e : Entry) (top : Bool) (path name : String),
    path ≠ "" → e.isSound → Ascending (documentsOf reserved top path name e)
  | .file _, _, _, _, _, _ => by
    rw [documentsOf]
    split
    · exact List.pairwise_singleton _ _
    · exact List.Pairwise.nil
  | .directory ⟨entries⟩, _, path, _, hpath, hsound => by
    rw [Entry.isSound, Bool.and_eq_true, decide_eq_true_iff] at hsound
    rw [documentsOf]
    split
    · exact List.Pairwise.nil
    · exact ascending_visits hpath hsound.1 hsound.2
        (ascending_documentsIn entries false path hpath hsound.2)
private theorem ascending_documentsIn : ∀ (entries : List (String × Entry)) (top : Bool)
    (path : String), path ≠ "" → areSound entries →
    ∀ e ∈ entries, Ascending (documentsOf reserved top (join path e.1) e.1 e.2)
  | [], _, _, _, _, _, he => by cases he
  | (name, entry) :: rest, top, path, hpath, hsound, e, he => by
    simp only [areSound, Bool.and_eq_true, Bool.not_eq_true'] at hsound
    rcases List.mem_cons.mp he with rfl | hmem
    · by_cases hhidden : isHidden name
      · rw [documentsOf_hidden hhidden]
        exact List.Pairwise.nil
      · have hname : IsName name :=
          FileTree.isName_of_visible hsound.1.1.1 (Bool.eq_false_iff.mpr hhidden)
        exact ascending_documentsOf entry top _ name (FilePath.join_ne_empty hpath hname) hsound.1.2
    · exact ascending_documentsIn rest top path hpath hsound.2 e hmem
end

section Listed

variable {t : FileTree} {path : String} {d : Directory}

theorem mem_scan_iff_isPathDocument (hsound : t.isSound)
    (hpath : t.lookup path = .ok (.directory d)) (hopens : (Entry.directory d).opens path)
    {file : String} : file ∈ t.scan path reserved ↔
      ∃ names, IsPathDocument reserved d names ∧ file = joinAll path names := by
  have hdistinct := Entry.distinctBelow_of_isSound (FileTree.isSound_of_lookup hsound hpath)
  rw [mem_scan_iff hpath hdistinct]
  constructor
  · rintro ⟨name, rest, content, hfile, hshown, _, rfl⟩
    exact ⟨name :: rest, isPathDocument_iff.mpr ⟨⟨content, hfile⟩, hshown⟩, rfl⟩
  · rintro ⟨names, hdocument, rfl⟩
    obtain ⟨⟨content, hfile⟩, hshown⟩ := isPathDocument_iff.mp hdocument
    obtain ⟨name, rest, rfl⟩ := List.exists_cons_of_ne_nil (ne_nil_of_isShown hshown)
    exact ⟨name, rest, content, hfile, hshown, opens_below hopens hfile, rfl⟩

theorem ascending_scan (hsound : t.isSound) (hpath : t.lookup path = .ok (.directory d)) :
    Ascending (t.scan path reserved) := by
  have hne := (FileTree.leadsTo_of_lookup hpath).nonempty
  have hd := FileTree.isSound_of_lookup hsound hpath
  rw [Entry.isSound, Bool.and_eq_true, decide_eq_true_iff] at hd
  rw [FileTree.scan, hpath]
  exact ascending_visits hne hd.1 hd.2 (ascending_documentsIn d.entries true path hne hd.2)

theorem IsPathDocument.parts_joinAll {names : List String} (h : IsPathDocument reserved d names)
    (hsound : (Entry.directory d).isSound) (hne : path ≠ "") :
    parts (joinAll path names) = parts path ++ names := by
  obtain ⟨⟨content, hfile⟩, hshown⟩ := isPathDocument_iff.mp h
  rw [Directory.HasFile, ← Directory.descend_directory] at hfile
  refine FilePath.parts_joinAll hne fun name hname => ?_
  exact FileTree.isName_of_visible ((sound_of_descend hsound hfile).2 name hname)
    (isShown_visible hshown name hname)

private theorem lt_of_append_lt {front a b : List String} (h : front ++ a < front ++ b) :
    a < b := by
  induction front with
  | nil => exact h
  | cons name front ih => exact ih (List.cons_lt_cons_self.mp h)

/-- The listed files are those of the path documents, in the order of their names. -/
theorem exists_places (hsound : t.isSound) (hpath : t.lookup path = .ok (.directory d))
    (hopens : (Entry.directory d).opens path) : ∃ places : List (List String),
      t.scan path reserved = places.map (joinAll path) ∧ places.Pairwise (· < ·) ∧
        ∀ names, names ∈ places ↔ IsPathDocument reserved d names := by
  have hne := (FileTree.leadsTo_of_lookup hpath).nonempty
  have hd := FileTree.isSound_of_lookup hsound hpath
  have hmem : ∀ file, file ∈ t.scan path reserved ↔
      ∃ names, IsPathDocument reserved d names ∧ file = joinAll path names := fun _ =>
    mem_scan_iff_isPathDocument hsound hpath hopens
  let below (file : String) : List String := (parts file).drop (parts path).length
  have hbelow : ∀ names, IsPathDocument reserved d names → below (joinAll path names) = names := by
    intro names h
    simp only [below, h.parts_joinAll hd hne, List.drop_left]
  refine ⟨(t.scan path reserved).map below, ?_, ?_, fun names => ?_⟩
  · rw [List.map_map]
    refine ((List.map_congr_left fun file hfile => ?_).trans (List.map_id _)).symm
    obtain ⟨names, hnames, rfl⟩ := (hmem file).mp hfile
    rw [Function.comp_apply, hbelow names hnames, id]
  · rw [List.pairwise_map]
    apply (ascending_scan hsound hpath).imp_of_mem
    intro a b ha hb hlt
    obtain ⟨x, hx, rfl⟩ := (hmem a).mp ha
    obtain ⟨y, hy, rfl⟩ := (hmem b).mp hb
    rw [hx.parts_joinAll hd hne, hy.parts_joinAll hd hne] at hlt
    rw [hbelow x hx, hbelow y hy]
    exact lt_of_append_lt hlt
  · rw [List.mem_map]
    constructor
    · rintro ⟨file, hfile, rfl⟩
      obtain ⟨x, hx, rfl⟩ := (hmem file).mp hfile
      rwa [hbelow x hx]
    · intro h
      exact ⟨joinAll path names, (hmem _).mpr ⟨names, h, rfl⟩, hbelow names h⟩

/-- A scan of a directory lists its path documents and nothing else, each of them once, in the order
of the bytes of their names. Where the directory stands does not matter. -/
theorem scan_lists_path_documents (reserved : List String) (t : FileTree) (path : String)
    (d : Directory) (hsound : t.isSound) (hpath : t.lookup path = .ok (.directory d))
    (hopens : (Entry.directory d).opens path) :
    (∀ file, file ∈ t.scan path reserved ↔
      ∃ names, IsPathDocument reserved d names ∧ file = joinAll path names) ∧
    (t.scan path reserved).Nodup ∧
    ((t.scan path reserved).Pairwise fun a b =>
      (parts a).map Text.bytes < (parts b).map Text.bytes) ∧
    ∀ (t' : FileTree) (path' : String), t'.isSound → t'.lookup path' = .ok (.directory d) →
      (Entry.directory d).opens path' → ∃ places : List (List String),
        t.scan path reserved = places.map (joinAll path) ∧
          t'.scan path' reserved = places.map (joinAll path') := by
  have hascending : Ascending (t.scan path reserved) := ascending_scan hsound hpath
  refine ⟨fun file => mem_scan_iff_isPathDocument hsound hpath hopens, ?_,
    hascending.imp Text.map_bytes_lt, ?_⟩
  · apply hascending.imp
    rintro a _ hlt rfl
    exact List.lt_irrefl _ hlt
  · intro t' path' hsound' hpath' hopens'
    obtain ⟨places, hscan, hlt, hplaces⟩ := exists_places hsound hpath hopens
    obtain ⟨places', hscan', hlt', hplaces'⟩ := exists_places hsound' hpath' hopens'
    have hsame : places' = places := List.Pairwise.eq_of_mem_iff hlt' hlt fun names =>
      (hplaces' names).trans (hplaces names).symm
    exact ⟨places, hscan, hsame ▸ hscan'⟩

end Listed

/-- Documents, a reserved name, other files, and directories that are hidden or named as that of
the pages. -/
def mixedDirectory : Directory :=
  let file : Entry := .file (.text "\x7b\x7d")
  let pages : Entry := .directory ⟨[("y.json", file)]⟩
  ⟨[("v2.json", file), ("v10.json", file), ("public.json", file), ("notes.md", file),
    ("a.json", file), ("a", .directory ⟨[("x.json", file), (".json", file), ("build", pages)]⟩),
    (".cache", pages), ("build", pages)]⟩

theorem mixedDirectory_listed :
    let t : FileTree := ⟨⟨[("docs", .directory mixedDirectory),
      ("copy", .directory ⟨[("inner", .directory mixedDirectory)]⟩)]⟩⟩
    t.isSound ∧ (Entry.directory mixedDirectory).opens "docs" ∧
    t.scan "docs" ["public.json"] =
      ["docs/a/build/y.json", "docs/a/x.json", "docs/a.json", "docs/v10.json", "docs/v2.json"] ∧
    (t.scan "docs" ["public.json"]).Nodup ∧ ∃ places : List (List String),
      t.scan "docs" ["public.json"] = places.map (joinAll "docs") ∧
        t.scan "copy/inner" ["public.json"] = places.map (joinAll "copy/inner") := by
  intro t
  have hsound : t.isSound := by decide +kernel
  have hdocs : t.lookup "docs" = .ok (.directory mixedDirectory) := by rfl
  have hcopy : t.lookup "copy/inner" = .ok (.directory mixedDirectory) := by rfl
  have hopens : (Entry.directory mixedDirectory).opens "docs" := by decide +kernel
  have hopensCopy : (Entry.directory mixedDirectory).opens "copy/inner" := by decide +kernel
  obtain ⟨_, honce, _, hplaces⟩ :=
    scan_lists_path_documents ["public.json"] t "docs" mixedDirectory hsound hdocs hopens
  have hlisted : t.scan "docs" ["public.json"] =
      ["docs/a/build/y.json", "docs/a/x.json", "docs/a.json", "docs/v10.json", "docs/v2.json"] := by
    rw [FileTree.scan, hdocs]
    simp +decide [mixedDirectory, visits, documentsOf, inOrder, List.mergeSort,
      List.MergeSort.Internal.splitInTwo]
  exact ⟨hsound, hopens, hlisted, honce, hplaces t "copy/inner" hsound hcopy hopensCopy⟩

end Scan
end ApiDocs
