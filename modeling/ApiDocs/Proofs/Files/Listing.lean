import ApiDocs.Proofs.Files.Read
import ApiDocs.Proofs.Files.Sound
/-!
# What keeps a scan as it is

A scan does not see empty directories, nor files whose names are not those of documents. So neither
creating directories nor writing such a file changes what is listed below any directory.
-/
namespace ApiDocs

private theorem append_inj_of_test {α : Type} {p : α → Bool} {front back front' back' : List α}
    (h : front ++ back = front' ++ back') (hfront : ∀ x ∈ front, p x) (hback : ∀ x ∈ back, ¬ p x)
    (hfront' : ∀ x ∈ front', p x) (hback' : ∀ x ∈ back', ¬ p x) :
    front = front' ∧ back = back' := by
  have hfilter := congrArg (List.filter p) h
  rw [List.filter_append, List.filter_append, List.filter_eq_self.mpr hfront,
    List.filter_eq_self.mpr hfront', List.filter_eq_nil_iff.mpr hback,
    List.filter_eq_nil_iff.mpr hback', List.append_nil, List.append_nil] at hfilter
  subst hfilter
  exact ⟨rfl, List.append_cancel_left h⟩

private theorem filter_mergeSort {α : Type} {le : α → α → Bool}
    (htrans : ∀ a b c, le a b = true → le b c = true → le a c = true)
    (htotal : ∀ a b, (le a b || le b a) = true) (p : α → Bool) (l : List α) :
    (l.mergeSort le).filter p = (l.filter p).mergeSort le := by
  induction l with
  | nil => simp
  | cons a l ih =>
    obtain ⟨front, back, hsort, hrest, hfront⟩ := List.mergeSort_cons htrans htotal a l
    rw [hrest, List.filter_append] at ih
    rw [hsort, List.filter_append, List.filter_cons, List.filter_cons]
    by_cases hp : p a
    · rw [if_pos hp, if_pos hp]
      obtain ⟨front', back', hsort', hrest', hfront'⟩ :=
        List.mergeSort_cons htrans htotal a (l.filter p)
      -- what comes before `a` are the elements that `a` is not below, in either list
      have hback : ∀ {m before after}, (a :: m).mergeSort le = before ++ a :: after →
          ∀ x ∈ after, ¬ (!le a x) = true := by
        intro m before after h x hx
        have hpairwise := List.pairwise_mergeSort htrans htotal (a :: m)
        rw [h, List.pairwise_append] at hpairwise
        simpa using List.rel_of_pairwise_cons hpairwise.2.1 hx
      obtain ⟨hbefore, hafter⟩ := append_inj_of_test (p := fun x => !le a x)
        (ih.trans hrest') (fun x hx => hfront x (List.mem_filter.mp hx).1)
        (fun x hx => hback hsort x (List.mem_filter.mp hx).1) hfront' (hback hsort')
      rw [hsort', hbefore, hafter]
    · rw [if_neg hp, if_neg hp, ih]

namespace Scan

open FilePath (join)

variable {reserved : List String}

private theorem inOrder_filter (entries : List (String × List String)) :
    inOrder (entries.filter fun e => !e.2.isEmpty) = inOrder entries := by
  rw [inOrder, ← filter_mergeSort le_trans_fst le_total_fst, inOrder]
  generalize entries.mergeSort _ = sorted
  induction sorted with
  | nil => rfl
  | cons e sorted ih =>
    rw [List.filter_cons, List.flatMap_cons]
    by_cases hempty : e.2 = []
    · simp [hempty, ih]
    · simp [hempty, ih]

private theorem filter_visits (top : Bool) (path : String) (entries : List (String × Entry)) :
    (visits reserved top path entries).filter (fun e => !e.2.isEmpty) =
      entries.flatMap fun e =>
        [(e.1, documentsOf reserved top (join path e.1) e.1 e.2)].filter fun e => !e.2.isEmpty := by
  induction entries with
  | nil => rfl
  | cons e rest ih =>
    rw [visits, List.filter_cons, ih, List.flatMap_cons, List.filter_cons]
    split <;> rfl

/-- Two directories with the same documents, at whatever path they stand. -/
def SameListing (reserved : List String) (d d' : Directory) : Prop :=
  ∀ top path, inOrder (visits reserved top path d'.entries) =
    inOrder (visits reserved top path d.entries)

/-- An entry without documents, at whatever path it stands. -/
def Silent (reserved : List String) (name : String) (e : Entry) : Prop :=
  ∀ top path, documentsOf reserved top path name e = []

theorem silent_of_hidden {name : String} (h : isHidden name) (e : Entry) :
    Silent reserved name e :=
  documentsOf_hidden h e

theorem silent_file {name : String} (h : isDocument reserved name = false) (content : Content) :
    Silent reserved name (.file content) := by
  intro top path
  simp [documentsOf, h]

theorem silent_empty (name : String) : Silent reserved name (.directory {}) := by
  intro top path
  simp [documentsOf, visits, inOrder]

private theorem sameListing_insert {d : Directory} {name : String} {entry : Entry}
    (h : ∀ top path, documentsOf reserved top path name entry =
      ((d.get? name).map (documentsOf reserved top path name)).getD []) :
    SameListing reserved d (d.insert name entry) := by
  intro top path
  rw [← inOrder_filter, ← inOrder_filter (visits reserved top path d.entries), filter_visits,
    filter_visits]
  congr 1
  apply OrderedMap.flatMap_upsertIn
  have hpart := h top (join path name)
  change _ = ((d.get? name).map _).getD []
  cases hget : d.get? name with
  | none =>
    rw [hget] at hpart
    simpa using hpart
  | some e =>
    rw [hget] at hpart
    simp only [Option.map_some, Option.getD_some] at hpart ⊢
    rw [hpart]

end Scan

namespace Directory

open FilePath (parentName)
open Scan (Silent SameListing isDocument)

variable {reserved : List String}

theorem Rooted.below {d inner : Directory} {front back : List String}
    (h : d.Rooted (front ++ back)) (hfront : d.find? front = some (.directory inner)) :
    inner.Rooted back := by
  intro place hplace hlast
  by_cases hne : place = []
  · rw [hne]
    exact hasDirectory_nil inner
  · have hway : front ++ place <+: front ++ back := (List.prefix_append_right_inj front).mpr hplace
    obtain ⟨found, hfound⟩ := h (front ++ place) hway
      (by rwa [List.getLast?_append_of_ne_nil _ hne])
    rw [find?_append, hfront, Option.bind_some, descend_directory] at hfound
    exact ⟨found, hfound⟩

/-- A leaf without documents in the place of nothing, or of such an entry, is not seen. -/
theorem sameListing_put {d : Directory} {front : List String} {name : String} {entry : Entry}
    (hrooted : d.Rooted front) (hentry : Silent reserved name entry)
    (hbefore : ∀ e, d.find? (front ++ [name]) = some e → Silent reserved name e) :
    SameListing reserved d (put entry d (front ++ [name])) := by
  induction front generalizing d with
  | nil =>
    apply Scan.sameListing_insert
    intro top path
    rw [hentry top path]
    cases hget : d.get? name with
    | none => rfl
    | some e =>
      have he := hbefore e (by rw [List.nil_append, find?_cons, hget]; rfl)
      exact (he top path).symm
  | cons first front ih =>
    rw [List.cons_append, put_cons _ _ _ (by simp)]
    apply Scan.sameListing_insert
    intro top path
    by_cases hhidden : Scan.isHidden first
    · rw [Scan.silent_of_hidden hhidden _ top path]
      cases d.get? first with
      | none => rfl
      | some e => exact (Scan.silent_of_hidden hhidden e top path).symm
    · -- only `..` may be missing on the way, and that is hidden
      have hlast : ([first] : List String).getLast? ≠ some parentName := by
        intro he
        obtain rfl := Option.some.inj he
        exact hhidden (by decide)
      obtain ⟨inner, hinner⟩ := hrooted [first] (by simp) hlast
      have hget : d.get? first = some (.directory inner) := by
        rw [find?_cons, Option.bind_eq_some_iff] at hinner
        obtain ⟨e, he, heq⟩ := hinner
        rw [he, Option.some.inj heq]
      have hbelow : d.Rooted ([first] ++ front) := hrooted
      have hsame := ih (hbelow.below hinner) fun e he => by
        apply hbefore e
        rw [List.cons_append, find?_cons, hget, Option.bind_some, descend_directory, he]
      rw [hget, ofEntry, Option.map_some, Option.getD_some, Scan.documentsOf, Scan.documentsOf,
        hsame false path]

/-- What a change keeps that is not seen by any scan: the files that are documents, and what is
listed below each directory. -/
structure Keeps (reserved : List String) (d d' : Directory) : Prop where
  file : ∀ front name content, isDocument reserved name → d.HasFile (front ++ [name]) content →
    d'.HasFile (front ++ [name]) content
  listing : ∀ place inner, d.find? place = some (.directory inner) →
    ∃ inner', d'.find? place = some (.directory inner') ∧ SameListing reserved inner inner'

theorem Keeps.refl (reserved : List String) (d : Directory) : Keeps reserved d d :=
  ⟨fun _ _ _ _ h => h, fun _ inner h => ⟨inner, h, fun _ _ => rfl⟩⟩

theorem Keeps.trans {a b c : Directory} (h : Keeps reserved a b) (h' : Keeps reserved b c) :
    Keeps reserved a c where
  file front name content hname hfile :=
    h'.file front name content hname (h.file front name content hname hfile)
  listing place inner hinner := by
    obtain ⟨middle, hmiddle, hsame⟩ := h.listing place inner hinner
    obtain ⟨inner', hinner', hsame'⟩ := h'.listing place middle hmiddle
    exact ⟨inner', hinner', fun top path => (hsame' top path).trans (hsame top path)⟩

theorem Keeps.directory {d d' : Directory} (h : Keeps reserved d d') {place : List String}
    (hplace : d.HasDirectory place) : d'.HasDirectory place := by
  obtain ⟨inner, hinner⟩ := hplace
  obtain ⟨inner', hinner', _⟩ := h.listing place inner hinner
  exact ⟨inner', hinner'⟩

theorem isDocument_parentName : isDocument reserved parentName = false := by
  have hextension : FilePath.hasExtension parentName Scan.documentExtension = false := by decide
  rw [isDocument, hextension, Bool.false_and]

private theorem listing_put {d : Directory} {reached place : List String} {name : String}
    {entry : Entry} {inner : Directory} (hrooted : d.Rooted reached)
    (hplace : ¬ d.HasDirectory (reached ++ [name])) (hentry : Silent reserved name entry)
    (hbefore : ∀ e, d.find? (reached ++ [name]) = some e → Silent reserved name e)
    (hinner : d.find? place = some (.directory inner)) :
    ∃ inner', (put entry d (reached ++ [name])).find? place = some (.directory inner') ∧
      SameListing reserved inner inner' := by
  cases position (reached ++ [name]) place with
  | same hsame => exact absurd ⟨inner, hsame ▸ hinner⟩ hplace
  | above rest hrest hrestNe =>
    obtain ⟨front, last, rfl⟩ := (List.eq_nil_or_concat' rest).resolve_left hrestNe
    rw [← List.append_assoc] at hrest
    obtain ⟨rfl, hlast⟩ := List.append_inj' hrest rfl
    obtain rfl := List.singleton_inj.mp hlast
    refine ⟨put entry inner (front ++ [last]), ?_, ?_⟩
    · rw [List.append_assoc, find?_put_above entry d place (by simp), hinner]
      rfl
    · apply sameListing_put (hrooted.below hinner) hentry
      intro e he
      apply hbefore e
      rw [List.append_assoc, find?_append, hinner, Option.bind_some, descend_directory, he]
  | below rest hrest _ => exact absurd (HasDirectory.of_before ⟨inner, hinner⟩ ⟨rest, hrest⟩) hplace
  | elsewhere habove hbelow =>
    refine ⟨inner, ?_, fun _ _ => rfl⟩
    rw [find?_put_elsewhere entry d habove hbelow, hinner]

theorem keeps_put {d : Directory} {reached : List String} {name : String} {entry : Entry}
    (hrooted : d.Rooted reached) (hplace : ¬ d.HasDirectory (reached ++ [name]))
    (hleaf : IsLeaf entry) (hentry : Silent reserved name entry)
    (hfree : d.find? (reached ++ [name]) = none ∨ isDocument reserved name = false) :
    Keeps reserved d (put entry d (reached ++ [name])) where
  file front last content hlast hfile := by
    -- the name of a document is none of those that `put` may miss
    have hmoves : (front ++ [last]).getLast? ≠ some parentName := by
      rw [List.getLast?_concat]
      intro he
      rw [Option.some.inj he, isDocument_parentName] at hlast
      cases hlast
    rw [hasFile_put_iff hrooted hplace hleaf hmoves]
    split
    · next hsame =>
      exfalso
      rcases hfree with hmissing | hname
      · rw [hsame, HasFile, hmissing] at hfile
        cases hfile
      · obtain ⟨_, heq⟩ := List.append_inj' hsame rfl
        rw [List.singleton_inj.mp heq, hname] at hlast
        cases hlast
    · exact hfile
  listing place inner hinner := by
    apply listing_put hrooted hplace hentry ?_ hinner
    intro e he
    cases e with
    | directory there => exact absurd ⟨there, he⟩ hplace
    | file content =>
      rcases hfree with hmissing | hname
      · rw [hmissing] at he
        cases he
      · exact Scan.silent_file hname content

theorem Created.keeps {d d' : Directory} (h : Created d d') : Keeps reserved d d' := by
  induction h with
  | done d => exact Keeps.refl reserved d
  | @next d d' reached name hrooted hmissing _ _ ih =>
    have hplace := not_hasDirectory_of_missing hmissing
    exact (keeps_put hrooted hplace isLeaf_empty (Scan.silent_empty name) (.inl hmissing)).trans ih

end Directory

namespace FileTree

open Directory (Keeps)

variable {reserved : List String} {t t' : FileTree} {path : String}

/-- Writing a file that is no document keeps all documents, whether or not it succeeds. -/
theorem keeps_of_write {content : Content} {result : Except Fault Unit}
    (h : t.write path content = (result, t'))
    (hname : ∀ name, FilePath.name? path = some name → Scan.isDocument reserved name = false) :
    Keeps reserved t.root t'.root := by
  cases result with
  | error fault => exact (created_of_write_error h).keeps
  | ok _ =>
    obtain ⟨_, _, _, name, directory, made, hlast, _, _, hmade, hplace, rfl⟩ := write_eq_ok_iff.mp h
    obtain ⟨hcreated, hreached⟩ := Directory.created_of_makeAll (Directory.rooted_nil t.root) hmade
    have hrooted := (hreached directory rfl).2
    have hsilent := Scan.silent_file (hname name hlast) content
    exact hcreated.keeps.trans (Directory.keeps_put hrooted hplace (Directory.isLeaf_file content)
      hsilent (.inr (hname name hlast)))

theorem exists_leadsTo (hdocs : t.isDirectory path) : ∃ d, t.LeadsTo path d := by
  unfold isDirectory at hdocs
  split at hdocs
  · next d hlookup => exact ⟨d, leadsTo_of_lookup hlookup⟩
  · cases hdocs

private theorem LeadsTo.keeps {d : Directory} (h : t.LeadsTo path d)
    (hkeeps : Keeps reserved t.root t'.root) :
    ∃ d', t'.LeadsTo path d' ∧ Scan.SameListing reserved d d' := by
  obtain ⟨d', hleads⟩ := h.kept fun place => hkeeps.directory
  obtain ⟨inner, hinner, hsame⟩ := hkeeps.listing _ d h.find
  rw [hleads.find] at hinner
  cases hinner
  exact ⟨d', hleads, hsame⟩

theorem isDirectory_kept (hdocs : t.isDirectory path) (hkeeps : Keeps reserved t.root t'.root) :
    t'.isDirectory path := by
  obtain ⟨d, hleads⟩ := exists_leadsTo hdocs
  obtain ⟨d', hleads', _⟩ := hleads.keeps hkeeps
  rw [isDirectory, hleads'.lookup]

/-- The same documents are listed below a directory. -/
theorem scan_kept (hdocs : t.isDirectory path) (hkeeps : Keeps reserved t.root t'.root) :
    t'.scan path reserved = t.scan path reserved := by
  obtain ⟨d, hleads⟩ := exists_leadsTo hdocs
  obtain ⟨d', hleads', hsame⟩ := hleads.keeps hkeeps
  rw [scan, scan, hleads'.lookup, hleads.lookup]
  exact hsame true path

/-- The documents that are listed are read as before. -/
theorem readText_kept (hsound : t.isSound) (hdocs : t.isDirectory path)
    (hkeeps : Keeps reserved t.root t'.root) {file : String} (hfile : file ∈ t.scan path reserved) :
    t'.readText file = t.readText file := by
  obtain ⟨d, hleads⟩ := exists_leadsTo hdocs
  obtain ⟨d', hleads', _⟩ := hleads.keeps hkeeps
  obtain ⟨names, content, hshown, hisName, hshort, hfind, rfl⟩ :=
    names_of_mem_scan hsound hleads hfile
  obtain ⟨front, last, hnames, hlast⟩ := Scan.exists_last_of_isShown hshown
  have hne := Scan.ne_nil_of_isShown hshown
  have hparent := Scan.parentName_notMem hshown
  have hkept : t'.root.HasFile (FilePath.place path ++ names) content := by
    rw [hnames, ← List.append_assoc] at hfind ⊢
    exact hkeeps.file _ last content hlast hfind
  rw [readText, readText, hleads.lookup_file hne hisName hparent hshort hfind,
    hleads'.lookup_file hne hisName hparent hshort hkept]

end FileTree
end ApiDocs
