import ApiDocs.Proofs.Files.Read
import ApiDocs.Proofs.Files.Scan
import ApiDocs.Proofs.Json.RoundTrip
import ApiDocs.Proofs.Store.Save
import ApiDocs.Proofs.Versions.Documents
/-!
# Loading saved documents

A saved document is read back as it was. So the heap that is loaded from a store is that of the
documents that stand there and that a scan lists.
-/
namespace ApiDocs

open FilePath (IsName joinAll parentName place)

/-- A document that its text is read back as: it is not nested too deeply and holds no
floating-point number. That its integers are of 64 bits and its objects have no key twice, as in
every document that is built, is checked as well. -/
def PathDocument.isTextual (d : PathDocument) : Bool :=
  (PathDocument.toJson d).isTextual Json.maxLevels

theorem PathDocument.parse?_text {d : PathDocument} (h : d.isTextual) :
    Json.parse? d.text = some (PathDocument.toJson d) :=
  Json.parse?_pretty h

theorem PathDocument.text_inj {d d' : PathDocument} (h : d.isTextual) (h' : d'.isTextual)
    (htext : d.text = d'.text) : d = d' := by
  have hparse := PathDocument.parse?_text h
  rw [htext, PathDocument.parse?_text h'] at hparse
  exact PathDocument.toJson_injective (Option.some.inj hparse).symm

namespace Store

variable {s : Store} {t t' : FileTree}

private theorem addFiles_cons {heap : VersionHeap} {file : String} {files : List String}
    {document : PathDocument} (hread : t.readText file = .ok document.text)
    (htextual : document.isTextual) :
    addFiles heap (file :: files) t = addFiles (heap.insertDocument document).1 files t := by
  have hobject : (PathDocument.toJson document).isObject := rfl
  rw [addFiles_eq, hread]
  simp only [PathDocument.parse?_text htextual, hobject, VersionHeap.insertJson_toJson]
  rfl

/-- From files that hold documents the heap takes exactly these. -/
theorem addFiles_eq_ok (heap : VersionHeap) {files : List String}
    (hfiles : ∀ file ∈ files, ∃ d : PathDocument, d.isTextual ∧ t.readText file = .ok d.text) :
    ∃ documents, addFiles heap files t = .ok (heap.insertDocuments documents) t ∧
      ∀ d, d ∈ documents ↔ d.isTextual ∧ ∃ file ∈ files, t.readText file = .ok d.text := by
  induction files generalizing heap with
  | nil => exact ⟨[], rfl, by simp⟩
  | cons file files ih =>
    obtain ⟨d, htextual, hread⟩ := hfiles file List.mem_cons_self
    obtain ⟨documents, hadded, hmem⟩ := ih (heap.insertDocument d).1 fun f hf =>
      hfiles f (List.mem_cons_of_mem _ hf)
    refine ⟨d :: documents, (addFiles_cons hread htextual).trans hadded, fun d' => ?_⟩
    rw [List.mem_cons, hmem, List.exists_mem_cons_iff, and_or_left]
    refine or_congr_left ⟨?_, ?_⟩
    · rintro rfl
      exact ⟨htextual, hread⟩
    · rintro ⟨htextual', hread'⟩
      exact PathDocument.text_inj htextual' htextual
        (Except.ok.inj (hread'.symm.trans hread))

/-- The documents that a scan finds after all were saved. -/
def kept (s : Store) (reserved : List String) (entries : List (String × PathDocument)) :
    List PathDocument :=
  ((s.standing entries).filter fun e => s.lists reserved e.1).map Prod.snd

section Saved

variable {entries : List (String × PathDocument)} {reserved : List String}

theorem mem_kept {d : PathDocument} : d ∈ s.kept reserved entries ↔
    ∃ e ∈ s.standing entries, s.lists reserved e.1 ∧ e.2 = d := by
  simp only [kept, List.mem_map, List.mem_filter, and_assoc]

/-- Among plain groups, and the one without a name, the document of each group with a version is
kept. -/
theorem mem_kept_of_plain (hroot : s.root ≠ "") (hdistinct : (entries.map Prod.fst).Nodup)
    (hplain : ∀ e ∈ entries, e.1 = "" ∨ Plain reserved e.1) {e : String × PathDocument}
    (he : e ∈ entries) (hversion : e.1.toList.head? = some 'v') :
    e.2 ∈ s.kept reserved entries := by
  have hne : e.1 ≠ "" := by
    intro hempty
    rw [hempty] at hversion
    cases hversion
  have hgroup := (hplain e he).resolve_left hne
  have hpages : (FilePath.cut '/' e.1.toList).head? ≠ some Scan.buildName.toList := by
    obtain ⟨word, words, hcut⟩ := FilePath.cut_of_head hversion (by decide : 'v' ≠ '/')
    rw [hcut]
    intro h
    cases h
  refine mem_kept.mpr ⟨e, mem_standing hdistinct he ?_, hgroup.lists hroot hpages, rfl⟩
  intro later hlater hplace
  rcases hplain later hlater with hempty | hlaterPlain
  · rw [hempty] at hplace
    exact absurd hplace.symm (hgroup.documentPlace_ne hroot)
  · exact hlaterPlain.documentPlace_inj hgroup hroot hplace

private theorem tidy_of_empty (hempty : t.LeadsTo s.root {}) : t.root.Tidy (place s.root) where
  distinct names inner hfind := by
    rw [hempty.find?_below] at hfind
    cases names with
    | nil =>
      cases hfind
      exact OrderedMap.distinct_empty
    | cons name rest => cases hfind
  short names e hfind := by
    rw [hempty.find?_below] at hfind
    cases names with
    | nil => simp
    | cons name rest => cases hfind

variable (hempty : t.LeadsTo s.root {}) (hsaved : s.Saved entries t.root t'.root)

include hempty hsaved

private theorem hasFile_iff {below : List String} {content : Content}
    (hshown : Scan.isShown reserved true below) :
    t'.root.HasFile (place s.root ++ below) content ↔ ∃ e ∈ s.standing entries,
      s.documentPlace e.1 = place s.root ++ below ∧ content = .text e.2.text := by
  have hne := Scan.ne_nil_of_isShown hshown
  have hlast : (place s.root ++ below).getLast? ≠ some parentName := by
    intro h
    rw [List.getLast?_append_of_ne_nil _ hne] at h
    exact Scan.parentName_notMem hshown (List.mem_of_getLast? h)
  rw [hsaved.file_iff _ content hlast]
  refine or_iff_left fun h => ?_
  have hfile := h.2
  rw [Directory.HasFile, hempty.find?_below, Directory.find?_empty hne] at hfile
  cases hfile

private theorem isValid_below {e : String × PathDocument} (he : e ∈ entries)
    {below front : List String} (hplace : s.documentPlace e.1 = place s.root ++ below)
    (hfront : front <+: below) (hne : front ≠ []) :
    FilePath.isValid (joinAll s.root front) ∧ ∀ name ∈ front, IsName name := by
  rw [documentPlace_eq hempty.nonempty] at hplace
  -- a group may pass through `..`, so what is left of its names is a part of them only
  have hsublist := hfront.sublist.trans (FilePath.sublist_of_resolve_eq hplace)
  refine ⟨?_, fun name hname => FilePath.isName_of_mem_names (hsublist.subset hname)⟩
  exact FilePath.isValid_joinAll hempty.nonempty (head?_documentFile e.1) (hsaved.valid e he)
    hsublist hne

theorem mem_scan_iff_standing (reserved : List String) (file : String) :
    file ∈ t'.scan s.root reserved ↔ ∃ e ∈ s.standing entries, ∃ below,
      s.documentPlace e.1 = place s.root ++ below ∧ Scan.isShown reserved true below ∧
        file = joinAll s.root below := by
  obtain ⟨d, hleads⟩ := hempty.kept hsaved.directory
  have htidy := hsaved.tidy _ (tidy_of_empty hempty)
  have hdistinct : Scan.DistinctBelow (.directory d) := by
    intro names inner hfind
    rw [Directory.descend_directory, ← hleads.find?_below] at hfind
    exact htidy.distinct names inner hfind
  rw [Scan.mem_scan_iff hleads.lookup hdistinct]
  constructor
  · rintro ⟨name, rest, content, hfind, hshown, _, rfl⟩
    rw [← hleads.find?_below] at hfind
    obtain ⟨e, he, hplace, _⟩ := (hasFile_iff hempty hsaved hshown).mp hfind
    exact ⟨e, he, name :: rest, hplace, hshown, rfl⟩
  · rintro ⟨e, he, below, hplace, hshown, rfl⟩
    cases below with
    | nil => cases hshown
    | cons name rest =>
      refine ⟨name, rest, .text e.2.text, ?_, hshown, ?_, rfl⟩
      · rw [← hleads.find?_below]
        exact (hasFile_iff hempty hsaved hshown).mpr ⟨e, he, hplace, rfl⟩
      · -- each directory on the way has a shorter path than the file that could be written
        intro front back heq _
        have hfront : name :: front <+: name :: rest := ⟨back, by rw [heq]; rfl⟩
        have hvalid := (isValid_below hempty hsaved (standing_subset entries he) hplace hfront
          (List.cons_ne_nil name front)).1
        exact Bool.eq_false_iff.mp (FilePath.isLong_of_isValid hvalid)

/-- A listed document is read as its text. -/
theorem readText_of_standing {e : String × PathDocument} (he : e ∈ s.standing entries)
    {below : List String} (hplace : s.documentPlace e.1 = place s.root ++ below)
    (hshown : Scan.isShown reserved true below) :
    t'.readText (joinAll s.root below) = .ok e.2.text := by
  obtain ⟨d, hleads⟩ := hempty.kept hsaved.directory
  have hne := Scan.ne_nil_of_isShown hshown
  have hfile := (hasFile_iff hempty hsaved hshown).mpr ⟨e, he, hplace, rfl⟩
  obtain ⟨hvalid, hnames⟩ := isValid_below hempty hsaved (standing_subset entries he) hplace
    (List.prefix_refl below) hne
  have hshort := (hsaved.tidy _ (tidy_of_empty hempty)).short below _ hfile
  exact hleads.readText hne hnames (Scan.parentName_notMem hshown) hshort hvalid hfile

/-- What is loaded after documents were saved is the heap of those that a scan finds. -/
theorem loadHeap_of_saved (reserved : List String) (htextual : ∀ e ∈ entries, e.2.isTextual) :
    ∃ documents, s.loadHeap reserved t' = .ok (VersionHeap.insertDocuments {} documents) t' ∧
      ∀ d, d ∈ documents ↔ d ∈ s.kept reserved entries := by
  have hscan := mem_scan_iff_standing hempty hsaved reserved
  have hfiles : ∀ file ∈ t'.scan s.root reserved,
      ∃ d : PathDocument, d.isTextual ∧ t'.readText file = .ok d.text := by
    intro file hfile
    obtain ⟨e, he, below, hplace, hshown, rfl⟩ := (hscan file).mp hfile
    exact ⟨e.2, htextual e (standing_subset entries he),
      readText_of_standing hempty hsaved he hplace hshown⟩
  obtain ⟨documents, hadded, hmem⟩ := addFiles_eq_ok {} hfiles
  refine ⟨documents, hadded, fun d => ?_⟩
  rw [hmem, mem_kept]
  constructor
  · rintro ⟨hd, file, hfile, hread⟩
    obtain ⟨e, he, below, hplace, hshown, rfl⟩ := (hscan file).mp hfile
    refine ⟨e, he, lists_iff.mpr ⟨below, hplace, hshown⟩, ?_⟩
    have hread' := readText_of_standing hempty hsaved he hplace hshown
    apply PathDocument.text_inj (htextual e (standing_subset entries he)) hd
    exact Except.ok.inj (hread'.symm.trans hread)
  · rintro ⟨e, he, hlists, rfl⟩
    obtain ⟨below, hplace, hshown⟩ := lists_iff.mp hlists
    exact ⟨htextual e (standing_subset entries he), _,
      (hscan _).mpr ⟨e, he, below, hplace, hshown, rfl⟩,
      readText_of_standing hempty hsaved he hplace hshown⟩

end Saved

end Store
end ApiDocs
