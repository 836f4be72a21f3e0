import ApiDocs.Proofs.Files.Directory
import ApiDocs.Proofs.Files.Path
/-!
# Writing files

Creating directories keeps every file and every directory. Writing a file then changes what is
found at its place and nothing else. Only `..` is followed without looking, so files are told apart
from it by the last of their names.
-/
namespace ApiDocs.Directory

open FilePath (parentName above resolve)

/-- A file in a directory, by plain names. -/
def HasFile (d : Directory) (place : List String) (content : Content) : Prop :=
  d.find? place = some (.file content)

/-- A directory below a directory, by plain names. -/
def HasDirectory (d : Directory) (place : List String) : Prop :=
  ∃ inner, d.find? place = some (.directory inner)

theorem HasFile.not_hasDirectory {d : Directory} {place : List String} {content : Content}
    (h : d.HasFile place content) : ¬ d.HasDirectory place := by
  rintro ⟨inner, hinner⟩
  rw [HasFile, hinner] at h
  cases h

theorem not_hasDirectory_of_missing {d : Directory} {place : List String}
    (h : d.find? place = none) : ¬ d.HasDirectory place := by
  intro ⟨inner, hinner⟩
  rw [h] at hinner
  cases hinner

theorem hasDirectory_nil (d : Directory) : d.HasDirectory [] :=
  ⟨d, rfl⟩

theorem HasDirectory.of_before {d : Directory} {front place : List String}
    (h : d.HasDirectory place) (hway : front <+: place) : d.HasDirectory front := by
  obtain ⟨rest, rfl⟩ := hway
  by_cases hrest : rest = []
  · simpa [hrest] using h
  · obtain ⟨inner, hinner⟩ := h
    exact exists_directory_of_find? hrest hinner

/-- Everything on the way to a place is a directory, but for what `..` leads to. -/
def Rooted (d : Directory) (place : List String) : Prop :=
  ∀ front, front <+: place → front.getLast? ≠ some parentName → d.HasDirectory front

theorem rooted_nil (d : Directory) : d.Rooted [] := by
  intro front hfront _
  rw [List.prefix_nil.mp hfront]
  exact hasDirectory_nil d

theorem Rooted.of_before {d : Directory} {front place : List String} (h : d.Rooted place)
    (hway : front <+: place) : d.Rooted front :=
  fun before hbefore => h before (hbefore.trans hway)

theorem Rooted.concat {d : Directory} {place : List String} {name : String} (h : d.Rooted place)
    (hname : name ≠ parentName → d.HasDirectory (place ++ [name])) :
    d.Rooted (place ++ [name]) := by
  intro front hfront hlast
  rcases List.prefix_concat_iff.mp hfront with rfl | hfront
  · rw [List.getLast?_concat] at hlast
    exact hname fun he => hlast (congrArg some he)
  · exact h front hfront hlast

theorem Rooted.above {d : Directory} {place : List String} (h : d.Rooted place) :
    d.Rooted (above place) := by
  unfold FilePath.above
  split
  · exact (rooted_nil d).concat fun hne => absurd rfl hne
  · split
    · exact h.concat fun hne => absurd rfl hne
    · split
      · exact h
      · exact h.of_before (List.dropLast_prefix place)

/-- What a change of a directory keeps that adds only directories. -/
structure Grows (d d' : Directory) : Prop where
  file_iff : ∀ place content, place.getLast? ≠ some parentName →
    (d'.HasFile place content ↔ d.HasFile place content)
  directory : ∀ place, d.HasDirectory place → d'.HasDirectory place

theorem Grows.refl (d : Directory) : Grows d d :=
  ⟨fun _ _ _ => Iff.rfl, fun _ h => h⟩

theorem Grows.trans {a b c : Directory} (h : Grows a b) (h' : Grows b c) : Grows a c where
  file_iff place content hlast :=
    (h'.file_iff place content hlast).trans (h.file_iff place content hlast)
  directory place hplace := h'.directory place (h.directory place hplace)

theorem Rooted.grows {d d' : Directory} {place : List String} (h : d.Rooted place)
    (hgrows : Grows d d') : d'.Rooted place :=
  fun front hfront hlast => hgrows.directory front (h front hfront hlast)

/-- Nothing is below a file or an empty directory. -/
def IsLeaf (entry : Entry) : Prop :=
  ∀ rest, rest ≠ [] → entry.descend rest = none

theorem isLeaf_file (content : Content) : IsLeaf (.file content) :=
  fun _ hrest => descend_file content hrest

theorem isLeaf_empty : IsLeaf (.directory {}) :=
  fun rest hrest => (descend_directory {} rest).trans (find?_empty hrest)

section Put

variable {d : Directory} {entry : Entry} {reached : List String} {name : String}

/-- A leaf put at a rooted place changes no file but the one that is there. -/
theorem hasFile_put_iff (hrooted : d.Rooted reached)
    (hplace : ¬ d.HasDirectory (reached ++ [name])) (hleaf : IsLeaf entry)
    {place : List String} {content : Content} (hlast : place.getLast? ≠ some parentName) :
    (put entry d (reached ++ [name])).HasFile place content ↔
      if place = reached ++ [name] then entry = .file content else d.HasFile place content := by
  have hne : reached ++ [name] ≠ [] := by simp
  cases position (reached ++ [name]) place with
  | same hsame =>
    have hfind := find?_put_below entry d hne []
    rw [List.append_nil] at hfind
    rw [if_pos hsame, HasFile, hsame, hfind]
    simp [Entry.descend]
  | above rest hrest hrestNe =>
    -- on the way are directories, before and after
    have hsame : place ≠ reached ++ [name] := by simpa [← hrest] using hrestNe
    have hway := (List.prefix_concat_iff.mp ⟨rest, hrest⟩).resolve_left hsame
    have hbefore := hrooted place hway hlast
    have hafter : (put entry d (reached ++ [name])).HasDirectory place := by
      rw [← hrest]
      exact ⟨_, find?_put_above entry d place hrestNe⟩
    rw [if_neg hsame]
    exact ⟨fun h => absurd hafter h.not_hasDirectory, fun h => absurd hbefore h.not_hasDirectory⟩
  | below rest hrest hrestNe =>
    subst hrest
    rw [if_neg (by simpa using hrestNe), HasFile, find?_put_below entry d hne, hleaf rest hrestNe]
    refine ⟨nofun, fun h => ?_⟩
    exact absurd (exists_directory_of_find? hrestNe h) hplace
  | elsewhere habove hbelow =>
    have hsame : place ≠ reached ++ [name] := by
      intro he
      exact habove (he ▸ List.prefix_refl _)
    rw [if_neg hsame, HasFile, find?_put_elsewhere entry d habove hbelow]
    rfl

theorem hasDirectory_put (hplace : ¬ d.HasDirectory (reached ++ [name])) {place : List String}
    (h : d.HasDirectory place) : (put entry d (reached ++ [name])).HasDirectory place := by
  cases position (reached ++ [name]) place with
  | same hsame => exact absurd (hsame ▸ h) hplace
  | above rest hrest hrestNe =>
    rw [← hrest]
    exact ⟨_, find?_put_above entry d place hrestNe⟩
  | below rest hrest _ => exact absurd (h.of_before ⟨rest, hrest⟩) hplace
  | elsewhere habove hbelow =>
    obtain ⟨inner, hinner⟩ := h
    exact ⟨inner, (find?_put_elsewhere entry d habove hbelow).trans hinner⟩

theorem grows_put_empty (hrooted : d.Rooted reached) (hplace : d.find? (reached ++ [name]) = none) :
    Grows d (put (.directory {}) d (reached ++ [name])) := by
  have hnotDirectory := not_hasDirectory_of_missing hplace
  refine ⟨fun place content hlast => ?_, fun place h => hasDirectory_put hnotDirectory h⟩
  rw [hasFile_put_iff hrooted hnotDirectory isLeaf_empty hlast]
  split
  · next hsame =>
    rw [HasFile, hsame, hplace]
    exact ⟨nofun, nofun⟩
  · rfl

end Put

/-- Below a place every directory lists a name once, and no name is too long. -/
structure Tidy (base : List String) (d : Directory) : Prop where
  distinct : ∀ names inner, d.find? (base ++ names) = some (.directory inner) → inner.Distinct
  short : ∀ names entry, d.find? (base ++ names) = some entry → ∀ name ∈ names, ¬ isLong name

private theorem Tidy.short_of_rooted {base : List String} {d : Directory} (h : Tidy base d)
    {names : List String} (hrooted : d.Rooted (base ++ names)) :
    ∀ name ∈ names, ¬ isLong name := by
  induction names using List.reverseRecOn with
  | nil => simp
  | append_singleton front last ih =>
    rw [← List.append_assoc] at hrooted
    have hfront := ih (hrooted.of_before (List.prefix_append _ _))
    intro name hname
    rcases List.mem_append.mp hname with hmem | hmem
    · exact hfront name hmem
    · rw [List.mem_singleton.mp hmem]
      by_cases hlast : last = parentName
      · rw [hlast]
        decide
      · have hne : (base ++ front ++ [last]).getLast? ≠ some parentName := by
          rw [List.getLast?_concat]
          exact fun he => hlast (Option.some.inj he)
        obtain ⟨inner, hinner⟩ := hrooted _ (List.prefix_refl _) hne
        rw [List.append_assoc] at hinner
        exact h.short _ _ hinner last (by simp)

private theorem distinct_put {entry : Entry} {d : Directory} (h : d.Distinct)
    {place : List String} (hplace : place ≠ []) : (put entry d place).Distinct := by
  cases place with
  | nil => exact absurd rfl hplace
  | cons name rest =>
    cases rest with
    | nil => exact OrderedMap.Distinct.insert h name entry
    | cons next rest => exact OrderedMap.Distinct.insert h name _

/-- After a leaf was put, an entry is the leaf, a directory on its way, or was there before. -/
theorem find?_put_cases {entry : Entry} {d : Directory} {reached : List String}
    {name : String} (hleaf : IsLeaf entry) {place : List String} {found : Entry}
    (h : (put entry d (reached ++ [name])).find? place = some found) :
    (place = reached ++ [name] ∧ found = entry) ∨
    (place <+: reached ∧ ∃ rest, rest ≠ [] ∧
      found = .directory (put entry (ofEntry (d.find? place)) rest)) ∨
    d.find? place = some found := by
  have hne : reached ++ [name] ≠ [] := by simp
  cases position (reached ++ [name]) place with
  | same hsame =>
    have hfind := find?_put_below entry d hne []
    rw [hsame] at h
    rw [List.append_nil, h] at hfind
    exact .inl ⟨hsame, Option.some.inj hfind⟩
  | above rest hrest hrestNe =>
    have hsame : place ≠ reached ++ [name] := by simpa [← hrest] using hrestNe
    have hway := (List.prefix_concat_iff.mp ⟨rest, hrest⟩).resolve_left hsame
    rw [← hrest, find?_put_above entry d place hrestNe] at h
    exact .inr (.inl ⟨hway, rest, hrestNe, (Option.some.inj h).symm⟩)
  | below rest hrest hrestNe =>
    rw [← hrest, find?_put_below entry d hne, hleaf rest hrestNe] at h
    cases h
  | elsewhere habove hbelow =>
    rw [find?_put_elsewhere entry d habove hbelow] at h
    exact .inr (.inr h)

theorem Tidy.put {base : List String} {d : Directory} (h : Tidy base d) {entry : Entry}
    {reached : List String} {name : String} (hrooted : d.Rooted reached) (hleaf : IsLeaf entry)
    (hentry : ∀ inner, entry = .directory inner → inner.Distinct) (hname : ¬ isLong name) :
    Tidy base (put entry d (reached ++ [name])) where
  distinct names inner hfind := by
    rcases find?_put_cases hleaf hfind with ⟨_, heq⟩ | ⟨_, rest, hrest, heq⟩ | hbefore
    · exact hentry inner heq.symm
    · cases heq
      refine distinct_put ?_ hrest
      cases hbefore : d.find? (base ++ names) with
      | none => exact OrderedMap.distinct_empty
      | some e =>
        cases e with
        | file content => exact OrderedMap.distinct_empty
        | directory inner => exact h.distinct names inner hbefore
    · exact h.distinct names inner hbefore
  short names found hfind := by
    rcases find?_put_cases hleaf hfind with ⟨hplace, _⟩ | ⟨hway, _⟩ | hbefore
    · rcases List.eq_nil_or_concat' names with rfl | ⟨front, last, rfl⟩
      · simp
      · rw [← List.append_assoc] at hplace
        obtain ⟨hfront, hlast⟩ := List.append_inj' hplace rfl
        obtain rfl := List.singleton_inj.mp hlast
        intro n hn
        rcases List.mem_append.mp hn with hmem | hmem
        · exact h.short_of_rooted (hfront ▸ hrooted) n hmem
        · rw [List.mem_singleton.mp hmem]
          exact hname
    · exact h.short_of_rooted (hrooted.of_before hway)
    · exact h.short names found hbefore

/-- What creating directories does: those that are missing are put at rooted places, one after
another. -/
inductive Created : Directory → Directory → Prop where
  | done (d : Directory) : Created d d
  | next {d d' : Directory} {reached : List String} {name : String} (hrooted : d.Rooted reached)
      (hmissing : d.find? (reached ++ [name]) = none) (hshort : ¬ isLong name)
      (hrest : Created (put (.directory {}) d (reached ++ [name])) d') : Created d d'

theorem Created.grows {d d' : Directory} (h : Created d d') : Grows d d' := by
  induction h with
  | done d => exact Grows.refl d
  | next hrooted hmissing _ _ ih => exact (grows_put_empty hrooted hmissing).trans ih

theorem Created.tidy {d d' : Directory} (h : Created d d') {base : List String}
    (htidy : Tidy base d) : Tidy base d' := by
  induction h with
  | done d => exact htidy
  | next hrooted _ hshort _ ih =>
    apply ih
    apply htidy.put hrooted isLeaf_empty ?_ hshort
    intro inner hinner
    cases hinner
    exact OrderedMap.distinct_empty

theorem hasDirectory_put_empty (d : Directory) {place : List String} (hplace : place ≠ []) :
    (put (.directory {}) d place).HasDirectory place := by
  have hfind := find?_put_below (.directory {}) d hplace []
  rw [List.append_nil] at hfind
  exact ⟨{}, hfind⟩

/-- Creating directories reaches where the parts lead. -/
theorem created_of_makeAll {d d' : Directory} {reached parts : List String}
    {result : Except Fault (List String)} (hrooted : d.Rooted reached)
    (h : makeAll d reached parts = (result, d')) :
    Created d d' ∧ ∀ place, result = .ok place → place = resolve reached parts ∧ d'.Rooted place := by
  induction parts generalizing d reached with
  | nil =>
    cases h
    refine ⟨.done _, fun place hplace => ?_⟩
    cases hplace
    exact ⟨rfl, hrooted⟩
  | cons name rest ih =>
    rw [makeAll] at h
    rw [resolve]
    split at h
    · next hname =>
      rw [if_pos hname]
      exact ih hrooted.above h
    · next hname =>
      rw [if_neg hname]
      split at h
      · next inner hfind => exact ih (hrooted.concat fun _ => ⟨inner, hfind⟩) h
      · cases h
        exact ⟨.done _, by simp⟩
      · next hfind =>
        split at h
        · cases h
          exact ⟨.done _, by simp⟩
        · next hshort =>
          have hgrows := grows_put_empty hrooted hfind
          have hplace := hasDirectory_put_empty d (by simp : reached ++ [name] ≠ [])
          obtain ⟨hcreated, hresult⟩ := ih ((hrooted.grows hgrows).concat fun _ => hplace) h
          exact ⟨.next hrooted hfind hshort hcreated, hresult⟩

end ApiDocs.Directory

namespace ApiDocs

/-- Where a path leads when everything on the way is a directory. -/
def FilePath.place (path : String) : List String :=
  FilePath.resolve [] (FilePath.parts path)

namespace FileTree

open Directory

variable {t t' : FileTree} {path : String} {content : Content}

/-- What writing a file at a path does to the files below the start. -/
structure Written (path : String) (content : Content) (d d' : Directory) : Prop where
  valid : FilePath.isValid path
  file_iff : ∀ place c, place.getLast? ≠ some FilePath.parentName →
    (d'.HasFile place c ↔ if place = FilePath.place path then c = content else d.HasFile place c)
  directory : ∀ place, d.HasDirectory place → d'.HasDirectory place
  tidy : ∀ base, Tidy base d → Tidy base d'

private theorem writeIn_eq_ok_iff {directory : List String} {name : String} :
    t.writeIn directory name content = (.ok (), t') ↔
      ¬ isLong name ∧ name ≠ FilePath.parentName ∧ ¬ t.root.HasDirectory (directory ++ [name]) ∧
        t' = ⟨put (.file content) t.root (directory ++ [name])⟩ := by
  have hplace : t.root.HasDirectory (directory ++ [name]) ↔
      ∃ inner, t.root.find? (directory ++ [name]) = some (.directory inner) := Iff.rfl
  rw [writeIn, hplace]
  split
  · simp [*]
  · split
    · simp [*]
    · split
      · simp [*]
      · next hfree =>
        have hfree' : ¬ ∃ inner, t.root.find? (directory ++ [name]) = some (.directory inner) :=
          fun ⟨inner, hinner⟩ => hfree inner hinner
        simp [*, eq_comm]

private theorem writeIn_error {directory : List String} {name : String} {fault : Fault}
    (h : t.writeIn directory name content = (.error fault, t')) : t' = t := by
  unfold writeIn at h
  dsimp only at h
  split at h
  · cases h
    rfl
  · split at h
    · cases h
      rfl
    · split at h
      · cases h
        rfl
      · cases h

private theorem makeDirectories_eq_ok_iff (hmoves : FilePath.endsInPlace path = false)
    {directory : List String} : t.makeDirectories path = (.ok directory, t') ↔
      FilePath.isValid path ∧ t.root.makeAll [] (FilePath.parts path) = (.ok directory, t'.root) := by
  obtain ⟨root⟩ := t'
  rw [makeDirectories, hmoves]
  by_cases hvalid : FilePath.isValid path
  · cases hmade : t.root.makeAll [] (FilePath.parts path)
    simp [hvalid]
  · simp [hvalid]

private theorem created_of_makeDirectories {result : Except Fault (List String)}
    (h : t.makeDirectories path = (result, t')) : Created t.root t'.root := by
  have hmade : ∀ parts, Created t.root (t.root.makeAll [] parts).2 := fun parts =>
    (created_of_makeAll (rooted_nil t.root) rfl).1
  unfold makeDirectories at h
  split at h
  · cases h
    exact .done _
  · split at h
    · have hparent := hmade (FilePath.parts (FilePath.parent path))
      split at h
      · next fault root hroot =>
        cases h
        rwa [hroot] at hparent
      · next place root hroot =>
        cases h
        rwa [hroot] at hparent
    · cases h
      exact hmade (FilePath.parts path)

/-- A write that fails has created directories at most. -/
theorem created_of_write_error {fault : Fault} (h : t.write path content = (.error fault, t')) :
    Created t.root t'.root := by
  unfold write at h
  split at h
  · cases h
    exact .done _
  split at h
  · next hmade =>
    cases h
    exact created_of_makeDirectories hmade
  next directory made hmade =>
  have hcreated := created_of_makeDirectories hmade
  split at h
  · cases h
    exact hcreated
  split at h
  · cases h
    exact hcreated
  · rwa [writeIn_error h]

/-- A file is written when its directory is there or can be created and no directory stands in its
place. -/
theorem write_eq_ok_iff : t.write path content = (.ok (), t') ↔
    FilePath.isValid path ∧ FilePath.demandsDirectory path = false ∧
    FilePath.isValid (FilePath.parent path) ∧ ∃ name directory made,
      FilePath.name? path = some name ∧ name ≠ FilePath.parentName ∧ ¬ isLong name ∧
      t.root.makeAll [] (FilePath.parts (FilePath.parent path)) = (.ok directory, made) ∧
      ¬ made.HasDirectory (directory ++ [name]) ∧
      t' = ⟨put (.file content) made (directory ++ [name])⟩ := by
  rw [write]
  cases hname : FilePath.name? path with
  | none => simp
  | some name =>
    by_cases hfile : FilePath.demandsDirectory path = false
    · have hmade : ∀ directory (made : FileTree),
          t.makeDirectories (FilePath.parent path) = (.ok directory, made) ↔
            FilePath.isValid (FilePath.parent path) ∧
              t.root.makeAll [] (FilePath.parts (FilePath.parent path)) = (.ok directory, made.root) :=
        fun _ _ => makeDirectories_eq_ok_iff (FilePath.parts_parent hname hfile).2
      constructor
      · intro h
        dsimp only at h
        split at h
        · cases h
        next directory made hdirectories =>
        obtain ⟨hparent, hreached⟩ := (hmade directory made).mp hdirectories
        split at h
        · cases h
        next hvalid =>
        rw [hfile, if_neg (by simp)] at h
        obtain ⟨hshort, hnotParent, hplace, heq⟩ := writeIn_eq_ok_iff.mp h
        exact ⟨by simpa using hvalid, hfile, hparent, name, directory, made.root, rfl, hnotParent,
          hshort, hreached, hplace, heq⟩
      · intro ⟨hvalid, _, hparent, name', directory, made, hname', hnotParent, hshort, hreached,
          hplace, heq⟩
        obtain rfl := Option.some.inj hname'
        have hwritten : (FileTree.mk made).writeIn directory name content = (.ok (), t') :=
          writeIn_eq_ok_iff.mpr ⟨hshort, hnotParent, hplace, heq⟩
        simp [(hmade directory ⟨made⟩).mpr ⟨hparent, hreached⟩, hvalid, hfile, hwritten]
    · refine iff_of_false (fun h => ?_) fun h => hfile h.2.1
      dsimp only at h
      split at h
      · cases h
      · split at h
        · cases h
        · rw [if_pos (by simpa using hfile)] at h
          cases h

/-- The place of a file is in the directory to which its parent leads. -/
theorem place_eq_concat {name : String} (hname : FilePath.name? path = some name)
    (hfile : FilePath.demandsDirectory path = false) (hparent : name ≠ FilePath.parentName) :
    FilePath.place path = FilePath.place (FilePath.parent path) ++ [name] := by
  rw [FilePath.place, (FilePath.parts_parent hname hfile).1, FilePath.resolve_append,
    FilePath.resolve, if_neg hparent, FilePath.resolve, FilePath.place]

/-- The place of a file is in the directory that was created for it. -/
theorem place_eq_of_makeAll {name : String} {directory : List String} {made : Directory}
    (hname : FilePath.name? path = some name) (hfile : FilePath.demandsDirectory path = false)
    (hparent : name ≠ FilePath.parentName)
    (hmade : t.root.makeAll [] (FilePath.parts (FilePath.parent path)) = (.ok directory, made)) :
    FilePath.place path = directory ++ [name] := by
  have hdirectory := ((created_of_makeAll (rooted_nil t.root) hmade).2 directory rfl).1
  rw [place_eq_concat hname hfile hparent, hdirectory, FilePath.place]

/-- A file that was written is found at its place, and everything else is as it was. -/
theorem written_of_write (h : t.write path content = (.ok (), t')) :
    Written path content t.root t'.root := by
  obtain ⟨hvalid, hfile, _, name, directory, made, hname, hnotParent, hshort, hmade, hplace, rfl⟩ :=
    write_eq_ok_iff.mp h
  obtain ⟨hcreated, hreached⟩ := created_of_makeAll (rooted_nil t.root) hmade
  have hrooted := (hreached directory rfl).2
  have hpathPlace := place_eq_of_makeAll hname hfile hnotParent hmade
  refine ⟨hvalid, ?_, ?_, ?_⟩
  · intro place c hlast
    rw [hasFile_put_iff hrooted hplace (isLeaf_file content) hlast,
      hcreated.grows.file_iff place c hlast, hpathPlace]
    simp [eq_comm]
  · intro place hbefore
    exact hasDirectory_put hplace (hcreated.grows.directory place hbefore)
  · intro base hbase
    exact (hcreated.tidy hbase).put hrooted (isLeaf_file content) nofun hshort

end FileTree
end ApiDocs
