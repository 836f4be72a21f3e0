import ApiDocs.Proofs.Files.Sound
import ApiDocs.Proofs.Store.ReadOrder
/-!
# Corrupt files

Loading works through the listed files in order. It stops at the first one whose text is not a
document, and otherwise ends with what all of them say, the later files over the earlier ones.
-/
namespace ApiDocs

mutual
/-- Whether every file of an entry is a text. -/
def Entry.isText : Entry → Bool
  | .file (.text _) => true
  | .file (.bytes _) => false
  | .directory d => areTexts d.entries
def areTexts : List (String × Entry) → Bool
  | [] => true
  | (_, e) :: rest => e.isText && areTexts rest
end

private theorem isText_of_mem {entries : List (String × Entry)} (h : areTexts entries)
    {e : String × Entry} (he : e ∈ entries) : e.2.isText := by
  induction entries with
  | nil => cases he
  | cons first rest ih =>
    rw [areTexts, Bool.and_eq_true] at h
    rcases List.mem_cons.mp he with rfl | hmem
    · exact h.1
    · exact ih h.2 hmem

private theorem isText_of_descend {names : List String} {e found : Entry} (h : e.isText)
    (hfound : e.descend names = some found) : found.isText := by
  refine @Entry.of_descend (fun _ e => e.isText) ?_ [] names e found h hfound
  intro _ d hd e he
  rw [Entry.isText] at hd
  exact isText_of_mem hd he

namespace FileTree

/-- The value in a file. -/
def document? (t : FileTree) (file : String) : Option Json :=
  match t.readText file with
  | .ok text => Json.parse? text
  | .error _ => none

/-- A file with a text that is no JSON, or an object with an object in it that is no path item. -/
inductive IsCorrupt (t : FileTree) (file : String) : Prop
  | malformed {text : String} (read : t.readText file = .ok text) (parse : Json.parse? text = none)
  | foreign {text key : String} {members fields : OrderedMap Json}
      (read : t.readText file = .ok text) (parse : Json.parse? text = some (.obj members))
      (entry : (key, .obj fields) ∈ members.entries)
      (item : PathItem.ofJson? (.obj fields) = none)

/-- The objects in files, in the order of the files. -/
def objectsIn (t : FileTree) (files : List String) : List Json :=
  files.filterMap fun file => (t.document? file).filter Json.isObject

/-- The heap of one file alone. -/
def heapOf (t : FileTree) (file : String) : VersionHeap :=
  (t.document? file).elim {} fun j => ((VersionHeap.insertJson j).attempt {}).2

/-- Whether every file of a tree is a text. -/
def isText (t : FileTree) : Bool :=
  (Entry.directory t.root).isText

variable {t : FileTree} {file text : String}

theorem exists_text_of_isText (h : t.isText) {place : List String} {content : Content}
    (hfile : t.root.HasFile place content) : ∃ text, content = .text text := by
  rw [Directory.HasFile, ← Directory.descend_directory] at hfile
  have hcontent := isText_of_descend h hfile
  cases content with
  | text value => exact ⟨value, rfl⟩
  | bytes value => cases hcontent

theorem isCorrupt_iff (hread : t.readText file = .ok text) :
    t.IsCorrupt file ↔ ¬ t.IsLoadable file := by
  constructor
  · rintro (⟨hread', hparse⟩ | ⟨hread', hparse, hmem, hitem⟩)
    · rintro ⟨text', j, hread'', hparse', _⟩
      cases hread'.symm.trans hread''
      rw [hparse] at hparse'
      cases hparse'
    · rintro ⟨text', j, hread'', hparse', hreadable⟩
      cases hread'.symm.trans hread''
      cases hparse.symm.trans hparse'
      exact hreadable (VersionHeap.documentItems?_eq_none_iff.mpr ⟨_, _, _, rfl, hmem, hitem⟩)
  · intro hnot
    cases hparse : Json.parse? text with
    | none => exact .malformed hread hparse
    | some j =>
      have hnone : VersionHeap.documentItems? j = none := by
        by_contra hreadable
        exact hnot ⟨text, j, hread, hparse, hreadable⟩
      obtain ⟨members, key, fields, rfl, hmem, hitem⟩ :=
        VersionHeap.documentItems?_eq_none_iff.mp hnone
      exact .foreign hread hparse hmem hitem

theorem isLoadable_iff : t.IsLoadable file ↔
    ((t.document? file).bind VersionHeap.documentItems?).isSome := by
  rw [IsLoadable, document?]
  cases t.readText file with
  | error fault => simp
  | ok text => cases hparse : Json.parse? text <;> simp [hparse, Option.isSome_iff_ne_none]

instance : Decidable (t.IsLoadable file) :=
  decidable_of_iff _ isLoadable_iff.symm

instance : Decidable (t.IsCorrupt file) :=
  match hread : t.readText file with
  | .ok _ => decidable_of_iff (¬ t.IsLoadable file) (isCorrupt_iff hread).symm
  | .error _ => isFalse (by
      rintro (⟨hread', _⟩ | ⟨hread', _⟩)
      · cases hread.symm.trans hread'
      · cases hread.symm.trans hread')

theorem heapOf_eq (h : t.IsLoadable file) :
    t.heapOf file = VersionHeap.insertItems {} (t.placedItems file) := by
  obtain ⟨text, j, hread, hparse, hreadable⟩ := h
  have hinsert := VersionHeap.insertJson_of_ne_none hreadable {}
  simp [heapOf, document?, placedItems, hread, hparse, Effect.attempt, hinsert]

end FileTree

namespace VersionHeap

/-- Write documents given as JSON, one after another, as long as none of them fails. -/
def insertEach : List Json → Effect VersionHeap Unit
  | [] => pure ()
  | document :: documents => do
    let _ ← insertJson document
    insertEach documents

theorem insertEach_objectsIn {t : FileTree} {files : List String} (h : VersionHeap)
    (hfiles : ∀ file ∈ files, t.IsLoadable file) :
    insertEach (t.objectsIn files) h = .ok () (h.insertItems (files.flatMap t.placedItems)) := by
  induction files generalizing h with
  | nil => rfl
  | cons file files ih =>
    obtain ⟨hfile, hfiles⟩ := List.forall_mem_cons.mp hfiles
    obtain ⟨text, j, hread, hparse, hreadable⟩ := hfile
    have hinsert := insertJson_of_ne_none hreadable h
    have hitems : t.placedItems file = j.placedItems := by
      simp [FileTree.placedItems, hread, hparse]
    have hdocument : t.document? file = some j := by
      simp [FileTree.document?, hread, hparse]
    rw [List.flatMap_cons, insertItems_append, hitems, ← ih _ hfiles, FileTree.objectsIn,
      List.filterMap_cons, hdocument]
    cases j with
    | obj members =>
      change insertEach (Json.obj members :: t.objectsIn files) h = _
      simp only [insertEach, Bind.bind, EStateM.bind, hinsert]
    | _ => rfl

/-- The last file that defines an operation decides. -/
theorem operation?_of_files {t : FileTree} {files : List String}
    (hfiles : ∀ file ∈ files, t.IsLoadable file) (v : Nat) (p : String) (m : Method) :
    (insertItems {} (files.flatMap t.placedItems)).operation? v p m =
      files.reverse.findSome? fun file => (t.heapOf file).operation? v p m := by
  induction files using List.reverseRecOn with
  | nil => rfl
  | append_singleton front file ih =>
    obtain ⟨hfront, hfile⟩ := List.forall_mem_append.mp hfiles
    have hwell := wellFormed_empty.insertItems (front.flatMap t.placedItems)
    rw [List.flatMap_append, List.flatMap_singleton, insertItems_append,
      hwell.operation?_insertItems, ih hfront, ← operation?_of_items,
      ← FileTree.heapOf_eq (hfile file List.mem_cons_self), List.reverse_append,
      List.reverse_singleton, List.singleton_append, List.findSome?_cons]
    cases (t.heapOf file).operation? v p m <;> rfl

end VersionHeap

namespace Store

variable {t : FileTree} {files : List String}

theorem addFiles_of_isCorrupt (heap : VersionHeap) {file : String} (hfile : t.IsCorrupt file) :
    addFiles heap (file :: files) t = .error (corrupt file) t := by
  rw [addFiles_eq]
  cases hfile with
  | malformed hread hparse => simp [hread, hparse]
  | foreign hread hparse hmem hitem =>
    have hnone := VersionHeap.documentItems?_eq_none_iff.mpr ⟨_, _, _, rfl, hmem, hitem⟩
    have hinsert := VersionHeap.insertJson_eq_error_iff (h := heap).mpr ⟨hnone, rfl, rfl⟩
    simp [hread, hparse, hinsert, Json.isObject]

/-- Reading fails with the first corrupt file if all files are texts. -/
theorem addFiles_eq_error_iff {heap : VersionHeap} {e : Error}
    (hread : ∀ file ∈ files, ∃ text, t.readText file = .ok text) :
    addFiles heap files t = .error e t ↔ ∃ front file back, files = front ++ file :: back ∧
      (∀ g ∈ front, ¬ t.IsCorrupt g) ∧ t.IsCorrupt file ∧ e = corrupt file := by
  induction files generalizing heap with
  | nil =>
    constructor
    · intro h
      cases h
    · rintro ⟨front, _, _, hsplit, _⟩
      cases front <;> cases hsplit
  | cons first rest ih =>
    obtain ⟨⟨text, hfirst⟩, hrest⟩ := List.forall_mem_cons.mp hread
    have hcorrupt := FileTree.isCorrupt_iff hfirst
    by_cases hloadable : t.IsLoadable first
    · rw [addFiles_of_isLoadable hloadable, ih hrest]
      constructor
      · rintro ⟨front, file, back, rfl, hfront, hfile⟩
        refine ⟨first :: front, file, back, rfl, ?_, hfile⟩
        exact List.forall_mem_cons.mpr ⟨fun h => hcorrupt.mp h hloadable, hfront⟩
      · rintro ⟨front, file, back, hsplit, hfront, hfile⟩
        cases front with
        | nil =>
          cases hsplit
          exact absurd hloadable (hcorrupt.mp hfile.1)
        | cons g front =>
          cases hsplit
          exact ⟨front, file, back, rfl, (List.forall_mem_cons.mp hfront).2, hfile⟩
    · rw [addFiles_of_isCorrupt heap (hcorrupt.mpr hloadable)]
      constructor
      · intro h
        cases h
        exact ⟨[], first, rest, rfl, List.forall_mem_nil _, hcorrupt.mpr hloadable, rfl⟩
      · rintro ⟨front, file, back, hsplit, hfront, hfile, rfl⟩
        cases front with
        | nil =>
          cases hsplit
          rfl
        | cons g front =>
          cases hsplit
          exact absurd (hcorrupt.mpr hloadable) ((List.forall_mem_cons.mp hfront).1)

end Store

namespace FileTree

variable {t : FileTree} {path file : String} {reserved : List String}

/-- The listed files of a tree of texts can be read if they have paths that files may have. -/
theorem exists_readText_of_mem_scan (hsound : t.isSound) (htext : t.isText)
    (hfile : file ∈ t.scan path reserved) (hvalid : FilePath.isValid file) :
    ∃ text, t.readText file = .ok text := by
  cases hlookup : t.lookup path with
  | error fault =>
    rw [scan, hlookup] at hfile
    cases hfile
  | ok entry =>
    cases entry with
    | file content =>
      obtain ⟨_, _, _, hplace, _⟩ := lookup_eq_file_iff.mp hlookup
      obtain ⟨text, rfl⟩ := exists_text_of_isText htext hplace
      have hpath : file = path := by
        simp only [scan, hlookup] at hfile
        split at hfile
        · exact List.mem_singleton.mp hfile
        · cases hfile
      exact ⟨text, readText_eq_ok_iff.mpr (hpath ▸ hlookup)⟩
    | directory d =>
      have hleads := leadsTo_of_lookup hlookup
      obtain ⟨names, content, hshown, hnames, hshort, hplace, rfl⟩ :=
        names_of_mem_scan hsound hleads hfile
      obtain ⟨text, rfl⟩ := exists_text_of_isText htext hplace
      exact ⟨text, hleads.readText (Scan.ne_nil_of_isShown hshown) hnames
        (Scan.parentName_notMem hshown) hshort hvalid hplace⟩

end FileTree

namespace Store

/-- Two files with one operation, a file with a list, and more files. -/
def overlapping (more : List (String × Entry)) : Directory :=
  let document (tag : String) := Json.obj ⟨[("/v1/x", .obj ⟨[("get",
    .obj ⟨[("tags", .arr [.str tag])]⟩)]⟩)]⟩
  ⟨[("c.json", .file (.text (document "late").compress)),
    ("a.json", .file (.text (document "early").compress)),
    ("b", .directory ⟨[("list.json", .file (.text "[1]"))]⟩)] ++ more⟩

def overlappingTree (more : List (String × Entry)) : FileTree :=
  ⟨⟨[("docs", .directory (overlapping more))]⟩⟩

private theorem scan_overlapping (more : List (String × Entry)) :
    (overlappingTree more).scan "docs" [] =
      Scan.inOrder (Scan.visits [] true "docs" (overlapping more).entries) := by
  have hlookup : (overlappingTree more).lookup "docs" = .ok (.directory (overlapping more)) := by
    rfl
  rw [FileTree.scan, hlookup]

end Store
end ApiDocs
