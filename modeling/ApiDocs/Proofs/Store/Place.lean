import ApiDocs.Proofs.Files.Path
import ApiDocs.Proofs.Files.Scan
import ApiDocs.Proofs.Files.Write
import ApiDocs.Proofs.Text.Trim
import ApiDocs.Store
/-!
# Where documents are stored

A group's document is stored below the root unless `..` in the group leads out of it, and a scan
lists it unless one of its names is hidden, reserved or that of the pages. Groups of plain segments
are stored apart from each other and are all listed.
-/
namespace ApiDocs

open FilePath (cut names parentName place resolve staysInPlace)

namespace Store

variable {s : Store} {reserved : List String} {group : String}

/-- The file of a group below the root. -/
def documentFile (group : String) : String :=
  s!"{Text.trimSlashes group}.json"

/-- The names of a group's file that mean something. -/
def documentNames (group : String) : List String :=
  names (cut '/' (documentFile group).toList)

/-- Where the document of a group is stored. -/
def documentPlace (s : Store) (group : String) : List String :=
  place (s.documentPath group)

/-- Whether a scan lists the file of a group. -/
def lists (s : Store) (reserved : List String) (group : String) : Bool :=
  (place s.root).isPrefixOf (s.documentPlace group) &&
    Scan.isShown reserved true ((s.documentPlace group).drop (place s.root).length)

theorem lists_iff : s.lists reserved group ↔ ∃ below,
    s.documentPlace group = place s.root ++ below ∧ Scan.isShown reserved true below := by
  rw [lists, Bool.and_eq_true, List.isPrefixOf_iff_prefix]
  constructor
  · rintro ⟨⟨below, hplace⟩, hshown⟩
    rw [← hplace, List.drop_left] at hshown
    exact ⟨below, hplace.symm, hshown⟩
  · rintro ⟨below, hplace, hshown⟩
    rw [hplace, List.drop_left]
    exact ⟨List.prefix_append _ _, hshown⟩

private theorem toList_documentFile (group : String) : (documentFile group).toList =
    Text.dropBoth (· == '/') group.toList ++ ".json".toList := by
  change (Text.trimSlashes group ++ ".json").toList = _
  rw [String.toList_append, Text.trimSlashes, Text.trimWhere, String.toList_ofList]

theorem head?_documentFile (group : String) :
    (documentFile group).toList.head? ≠ some '/' := by
  rw [toList_documentFile]
  intro h
  cases hdrop : Text.dropBoth (· == '/') group.toList with
  | nil =>
    rw [hdrop] at h
    exact absurd h (by decide)
  | cons c cs =>
    have hhead := Text.head?_dropBoth (p := (· == '/')) group.toList (c := c) (by rw [hdrop]; rfl)
    rw [hdrop] at h
    cases h
    cases hhead

/-- The names of a group's file are followed from the root. -/
theorem documentPlace_eq (hroot : s.root ≠ "") :
    s.documentPlace group = resolve (place s.root) (documentNames group) := by
  rw [documentPlace, place, documentPath, ← documentFile,
    FilePath.parts_join hroot (head?_documentFile group), FilePath.resolve_append]
  rfl

/-- A group whose segments are not taken for something else: none stays in place or is hidden, and
the last is not the name of a reserved file. -/
structure Plain (reserved : List String) (group : String) : Prop where
  segments : ∀ piece ∈ cut '/' group.toList, piece ≠ [] ∧ piece.head? ≠ some '.'
  file : ∀ piece ∈ (cut '/' group.toList).getLast?, s!"{String.ofList piece}.json" ∉ reserved

instance : Decidable (Plain reserved group) :=
  decidable_of_iff
    ((∀ piece ∈ cut '/' group.toList, piece ≠ [] ∧ piece.head? ≠ some '.') ∧
      ∀ piece ∈ (cut '/' group.toList).getLast?, s!"{String.ofList piece}.json" ∉ reserved)
    ⟨fun h => ⟨h.1, h.2⟩, fun h => ⟨h.segments, h.file⟩⟩

private theorem Plain.dropBoth_eq (h : Plain reserved group) :
    Text.dropBoth (· == '/') group.toList = group.toList := by
  have hne : [] ∉ cut '/' group.toList := fun hmem => (h.segments [] hmem).1 rfl
  have hstart : group.toList.dropWhile (· == '/') = group.toList := by
    cases hlist : group.toList with
    | nil => rfl
    | cons c cs =>
      have hc : c ≠ '/' := by
        rintro rfl
        rw [hlist, cut, if_pos rfl] at hne
        exact hne List.mem_cons_self
      rw [List.dropWhile_cons, if_neg (by simpa using hc)]
  rw [Text.dropBoth, hstart]
  rcases List.eq_nil_or_concat' group.toList with hlist | ⟨cs, c, hlist⟩
  · rw [hlist]
    rfl
  · have hc : c ≠ '/' := by
      rintro rfl
      rw [hlist, FilePath.cut_append] at hne
      exact hne (List.mem_append_right _ (List.mem_singleton_self []))
    rw [hlist]
    exact Text.dropRight_concat (by simpa using hc) cs

private def ending : List Char := ".json".toList

private theorem Plain.documentNames_eq (h : Plain reserved group) :
    ∃ front last, cut '/' group.toList = front ++ [last] ∧
      (∀ piece ∈ front ++ [last ++ ending], piece ≠ [] ∧ piece.head? ≠ some '.') ∧
      documentNames group = (front ++ [last ++ ending]).map String.ofList := by
  obtain ⟨front, last, hcut, happend⟩ :=
    FilePath.cut_append_of_notMem (by decide : '/' ∉ ending) group.toList
  have hplain : ∀ piece ∈ front ++ [last ++ ending],
      piece ≠ [] ∧ piece.head? ≠ some '.' := by
    have hlast := h.segments last (by simp [hcut])
    intro piece hpiece
    rcases List.mem_append.mp hpiece with hmem | hmem
    · exact h.segments piece (by simp [hcut, hmem])
    · rw [List.mem_singleton.mp hmem]
      exact ⟨by simp [hlast.1], by rw [List.head?_append_of_ne_nil _ hlast.1]; exact hlast.2⟩
  refine ⟨front, last, hcut, hplain, ?_⟩
  have hmoves : ∀ piece ∈ front ++ [last ++ ending], (!staysInPlace piece) = true := by
    intro piece hpiece
    obtain ⟨hne, hdot⟩ := hplain piece hpiece
    have hdot' : piece ≠ ['.'] := fun he => hdot (by rw [he]; rfl)
    simp [staysInPlace, hne, hdot']
  rw [documentNames, toList_documentFile, h.dropBoth_eq, ← ending, happend, names,
    List.filter_eq_self.mpr hmoves]

private theorem Plain.visible (h : Plain reserved group) :
    ∀ name ∈ documentNames group, Scan.isHidden name = false := by
  obtain ⟨front, last, _, hplain, hnames⟩ := h.documentNames_eq
  intro name hname
  have hslash := (FilePath.isName_of_mem_names hname).noSlash
  rw [hnames] at hname
  obtain ⟨piece, hpiece, rfl⟩ := List.mem_map.mp hname
  refine Scan.isHidden_eq_false ?_ hslash
  simpa using (hplain piece hpiece).2

theorem Plain.documentPlace_eq (h : Plain reserved group) (hroot : s.root ≠ "") :
    s.documentPlace group = place s.root ++ documentNames group := by
  rw [Store.documentPlace_eq hroot]
  refine FilePath.resolve_of_notMem fun hparent => ?_
  have hvisible := h.visible parentName hparent
  exact absurd hvisible (by decide)

private theorem Plain.isDocument (h : Plain reserved group) {front : List (List Char)}
    {last : List Char} (hcut : cut '/' group.toList = front ++ [last]) :
    Scan.isDocument reserved (String.ofList (last ++ ending)) := by
  have hlast := (h.segments last (by simp [hcut])).1
  have hfile : String.ofList (last ++ ending) ∉ reserved := by
    have hname := h.file last (by rw [hcut, List.getLast?_concat]; rfl)
    rwa [String.ofList_append]
  have hextension : FilePath.hasExtension (String.ofList (last ++ ending))
      Scan.documentExtension := by
    have hlength := List.length_pos_iff.mpr hlast
    have hending : '.' :: Scan.documentExtension.toList = ending := by decide
    rw [FilePath.hasExtension, String.toList_ofList, hending, Bool.and_eq_true,
      List.isSuffixOf_iff_suffix, decide_eq_true_eq, List.length_append]
    exact ⟨List.suffix_append last ending, by omega⟩
  rw [Scan.isDocument, hextension]
  simpa using hfile

/-- The file of a plain group is listed, unless it is among the pages. -/
theorem Plain.lists (h : Plain reserved group) (hroot : s.root ≠ "")
    (hpages : (cut '/' group.toList).head? ≠ some Scan.buildName.toList) :
    s.lists reserved group := by
  rw [lists_iff]
  refine ⟨documentNames group, h.documentPlace_eq hroot, ?_⟩
  obtain ⟨front, last, hcut, _, hnames⟩ := h.documentNames_eq
  have hvisible := h.visible
  rw [hnames, List.map_append] at hvisible ⊢
  refine Scan.isShown_concat hvisible (fun _ hhead => ?_) (h.isDocument hcut)
  cases front with
  | nil => cases hhead
  | cons first rest =>
    have hfirst : first = Scan.buildName.toList := by
      rw [← Option.some.inj hhead, String.toList_ofList]
    exact hpages (by rw [hcut, hfirst]; rfl)

/-- Plain groups are stored apart from each other. -/
theorem Plain.documentPlace_inj {group' : String} (h : Plain reserved group)
    (h' : Plain reserved group') (hroot : s.root ≠ "")
    (hplace : s.documentPlace group = s.documentPlace group') : group = group' := by
  rw [h.documentPlace_eq hroot, h'.documentPlace_eq hroot, List.append_cancel_left_eq] at hplace
  obtain ⟨front, last, hcut, _, hnames⟩ := h.documentNames_eq
  obtain ⟨front', last', hcut', _, hnames'⟩ := h'.documentNames_eq
  rw [hnames, hnames'] at hplace
  have hpieces := List.map_injective_iff.mpr (fun a b => String.ofList_injective) hplace
  obtain ⟨rfl, hlast⟩ := List.append_inj' hpieces rfl
  obtain rfl := List.append_cancel_right (List.singleton_inj.mp hlast)
  exact String.toList_injective (FilePath.cut_inj (hcut.trans hcut'.symm))

/-- The file without a name is hidden, so no plain group is stored there. -/
theorem Plain.documentPlace_ne (h : Plain reserved group) (hroot : s.root ≠ "") :
    s.documentPlace group ≠ s.documentPlace "" := by
  intro hplace
  have hnames : documentNames "" = [".json"] := by decide
  have hempty : s.documentPlace "" = place s.root ++ [".json"] := by
    rw [Store.documentPlace_eq hroot, hnames, FilePath.resolve_of_notMem (by decide)]
  rw [hempty, h.documentPlace_eq hroot, List.append_cancel_left_eq] at hplace
  have hvisible := h.visible ".json" (by rw [hplace]; exact List.mem_singleton_self _)
  exact absurd hvisible (by decide)

end Store
end ApiDocs
