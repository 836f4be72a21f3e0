import ApiDocs.Proofs.Files.Write
/-!
# Writing several files

Files that were written once can be written again, which changes nothing. In what order they are
written does not matter either: a place holds what was written there, and a directory that can be
created in one order can be created in any.
-/
namespace ApiDocs

namespace Directory

open FilePath (parentName above)

theorem hasDirectory_of_makeAll {d d' : Directory} {reached parts place : List String}
    {result : Except Fault (List String)} (hmade : makeAll d reached parts = (result, d'))
    (h : d.HasDirectory place) : d'.HasDirectory place := by
  induction parts generalizing d reached with
  | nil =>
    cases hmade
    exact h
  | cons name rest ih =>
    rw [makeAll] at hmade
    split at hmade
    · exact ih hmade h
    split at hmade
    · exact ih hmade h
    · cases hmade
      exact h
    next hmissing =>
    split at hmade
    · cases hmade
      exact h
    · exact ih hmade (hasDirectory_put (not_hasDirectory_of_missing hmissing) h)

/-- Directories that were created are found where they are, also when others were added. -/
theorem makeAll_again {d d' e : Directory} {reached parts place : List String}
    (hmade : makeAll d reached parts = (.ok place, d'))
    (hkept : ∀ p, d'.HasDirectory p → e.HasDirectory p) :
    makeAll e reached parts = (.ok place, e) := by
  induction parts generalizing d reached with
  | nil =>
    cases hmade
    rfl
  | cons name rest ih =>
    rw [makeAll] at hmade
    split at hmade
    · next hname =>
      rw [makeAll, if_pos hname]
      exact ih hmade
    next hname =>
    have hthere : ∀ {d₁ : Directory}, makeAll d₁ (reached ++ [name]) rest = (.ok place, d') →
        d₁.HasDirectory (reached ++ [name]) →
        makeAll e reached (name :: rest) = (.ok place, e) := by
      intro d₁ hrest hdirectory
      obtain ⟨inner, hinner⟩ := hkept _ (hasDirectory_of_makeAll hrest hdirectory)
      rw [makeAll, if_neg hname, hinner]
      exact ih hrest
    split at hmade
    · next inner hinner => exact hthere hmade ⟨inner, hinner⟩
    · cases hmade
    · split at hmade
      · cases hmade
      · exact hthere hmade (hasDirectory_put_empty d (by simp))

/-- What one directory has, another has as well, but for what its files hold. -/
structure Within (d e : Directory) : Prop where
  file : ∀ place content, place.getLast? ≠ some parentName → d.HasFile place content →
    ∃ c, e.HasFile place c
  directory : ∀ place, d.HasDirectory place → e.HasDirectory place

theorem Within.not_hasDirectory {d e : Directory} (h : Within d e) {place : List String}
    {content : Content} (hfile : e.HasFile place content) : ¬ d.HasDirectory place :=
  fun hplace => hfile.not_hasDirectory (h.directory place hplace)

theorem Within.put_empty {d e : Directory} (h : Within d e) {reached : List String} {name : String}
    (hrooted : d.Rooted reached) (hmissing : d.find? (reached ++ [name]) = none)
    (hplace : e.HasDirectory (reached ++ [name])) :
    Within (put (.directory {}) d (reached ++ [name])) e where
  file place content hlast hfile :=
    h.file place content hlast
      (((grows_put_empty hrooted hmissing).file_iff place content hlast).mp hfile)
  directory place hdirectory := by
    obtain ⟨inner, hinner⟩ := hdirectory
    rcases find?_put_cases isLeaf_empty hinner with ⟨hsame, _⟩ | ⟨hway, _⟩ | hbefore
    · exact hsame ▸ hplace
    · exact hplace.of_before (hway.trans (List.prefix_append _ _))
    · exact h.directory place ⟨inner, hbefore⟩

/-- Directories that are there in a larger directory can be created in a smaller one. -/
theorem Within.makeAll {d e : Directory} (h : Within d e) (htidy : e.Tidy [])
    {reached parts place : List String} (hrooted : d.Rooted reached)
    (hthere : makeAll e reached parts = (.ok place, e)) :
    ∃ d', makeAll d reached parts = (.ok place, d') ∧ d'.Rooted place ∧ Within d' e := by
  induction parts generalizing d reached with
  | nil =>
    cases hthere
    exact ⟨d, rfl, hrooted, h⟩
  | cons name rest ih =>
    rw [Directory.makeAll] at hthere ⊢
    split at hthere
    · next hname =>
      rw [if_pos hname]
      exact ih h hrooted.above hthere
    next hname =>
    rw [if_neg hname]
    split at hthere
    · next inner hinner =>
      have hplace : e.HasDirectory (reached ++ [name]) := ⟨inner, hinner⟩
      have hlast : (reached ++ [name]).getLast? ≠ some parentName := by
        rw [List.getLast?_concat]
        exact fun he => hname (Option.some.inj he)
      have hshort : ¬ isLong name := htidy.short _ _ hinner name (by simp)
      split
      · next there hfind => exact ih h (hrooted.concat fun _ => ⟨there, hfind⟩) hthere
      · next content hfind =>
        obtain ⟨c, hc⟩ := h.file _ content hlast hfind
        exact absurd hplace hc.not_hasDirectory
      · next hmissing =>
        rw [if_neg hshort]
        have hgrows := grows_put_empty hrooted hmissing
        apply ih (h.put_empty hrooted hmissing hplace) ?_ hthere
        exact (hrooted.grows hgrows).concat fun _ => hasDirectory_put_empty d (by simp)
    · cases hthere
    · -- a directory that is missing in the larger one would have been created there
      next hmissing =>
      split at hthere
      · cases hthere
      · have hcreated := hasDirectory_of_makeAll hthere (hasDirectory_put_empty e (by simp))
        exact absurd hcreated (not_hasDirectory_of_missing hmissing)

/-- No file has the name of the directory above. -/
def FilesNamed (d : Directory) : Prop :=
  ∀ place content, d.HasFile place content → place.getLast? ≠ some parentName

theorem HasFile.before_put {d : Directory} {entry : Entry} {reached place : List String}
    {name : String} {content : Content} (hleaf : IsLeaf entry)
    (h : (put entry d (reached ++ [name])).HasFile place content) :
    (place = reached ++ [name] ∧ entry = .file content) ∨ d.HasFile place content := by
  rcases find?_put_cases hleaf h with ⟨hsame, hentry⟩ | ⟨_, _, _, hentry⟩ | hbefore
  · exact .inl ⟨hsame, hentry.symm⟩
  · cases hentry
  · exact .inr hbefore

theorem Created.hasFile {d d' : Directory} (h : Created d d') {place : List String}
    {content : Content} (hfile : d'.HasFile place content) : d.HasFile place content := by
  induction h with
  | done d => exact hfile
  | next _ _ _ _ ih =>
    rcases (ih hfile).before_put isLeaf_empty with ⟨_, hentry⟩ | hbefore
    · cases hentry
    · exact hbefore

theorem Created.filesNamed {d d' : Directory} (h : Created d d') (hnamed : d.FilesNamed) :
    d'.FilesNamed :=
  fun place content hfile => hnamed place content (h.hasFile hfile)

end Directory

namespace FileTree

open Directory

variable {t t' : FileTree} {path : String} {content : Content}

theorem getLast?_place_of_write (h : t.write path content = (.ok (), t')) :
    (FilePath.place path).getLast? ≠ some FilePath.parentName := by
  obtain ⟨_, hfile, _, name, _, _, hname, hparent, _⟩ := write_eq_ok_iff.mp h
  rw [place_eq_concat hname hfile hparent, List.getLast?_concat]
  exact fun he => hparent (Option.some.inj he)

theorem filesNamed_of_write (h : t.write path content = (.ok (), t'))
    (hnamed : t.root.FilesNamed) : t'.root.FilesNamed := by
  obtain ⟨_, _, _, name, directory, made, _, hparent, _, hmade, _, rfl⟩ := write_eq_ok_iff.mp h
  have hcreated := (created_of_makeAll (rooted_nil t.root) hmade).1
  intro place c hfile
  rcases hfile.before_put (isLeaf_file content) with ⟨rfl, _⟩ | hbefore
  · rw [List.getLast?_concat]
    exact fun he => hparent (Option.some.inj he)
  · exact hcreated.filesNamed hnamed place c hbefore

/-- A file that was written and still stands there can be written again. -/
theorem write_again (h : t.write path content = (.ok (), t')) {e : FileTree}
    (hkept : ∀ place, t'.root.HasDirectory place → e.root.HasDirectory place)
    (hstands : e.root.HasFile (FilePath.place path) content) :
    e.write path content = (.ok (), e) := by
  obtain ⟨hvalid, hfile, hparentValid, name, directory, made, hname, hparent, hshort, hmade, hplace,
    rfl⟩ := write_eq_ok_iff.mp h
  rw [place_eq_of_makeAll hname hfile hparent hmade] at hstands
  have hthere : e.root.makeAll [] (FilePath.parts (FilePath.parent path)) = (.ok directory, e.root) :=
    makeAll_again hmade fun place h => hkept place (hasDirectory_put hplace h)
  refine write_eq_ok_iff.mpr ⟨hvalid, hfile, hparentValid, name, directory, e.root, hname, hparent,
    hshort, hthere, hstands.not_hasDirectory, ?_⟩
  rw [put_of_find? hstands]

/-- A file that can be written without any change stands in a directory that is there. -/
theorem exists_of_write_same (h : t.write path content = (.ok (), t)) :
    ∃ name directory, FilePath.name? path = some name ∧ name ≠ FilePath.parentName ∧
      ¬ isLong name ∧
      t.root.makeAll [] (FilePath.parts (FilePath.parent path)) = (.ok directory, t.root) ∧
      t.root.HasFile (directory ++ [name]) content := by
  obtain ⟨_, _, _, name, directory, made, hname, hparent, hshort, hmade, hplace, heq⟩ :=
    write_eq_ok_iff.mp h
  have hroot : t.root = put (.file content) made (directory ++ [name]) := congrArg FileTree.root heq
  refine ⟨name, directory, hname, hparent, hshort, ?_, ?_⟩
  · apply makeAll_again hmade
    intro place hdirectory
    rw [hroot]
    exact hasDirectory_put hplace hdirectory
  · have hfind := find?_put_below (.file content) made (by simp : directory ++ [name] ≠ []) []
    rw [List.append_nil] at hfind
    rw [hroot]
    exact hfind

/-- A file that stands in a larger tree can be written in a smaller one. -/
theorem write_within (hwithin : Within t.root t'.root) (htidy : t'.root.Tidy [])
    (h : t'.write path content = (.ok (), t')) :
    ∃ t₁, t.write path content = (.ok (), t₁) ∧ Within t₁.root t'.root := by
  obtain ⟨hvalid, hfile, hparentValid, _⟩ := write_eq_ok_iff.mp h
  obtain ⟨name, directory, hname, hparent, hshort, hthere, hstands⟩ := exists_of_write_same h
  obtain ⟨made', hmade', hrooted', hwithin'⟩ :=
    hwithin.makeAll htidy (rooted_nil t.root) hthere
  have hfree := hwithin'.not_hasDirectory hstands
  refine ⟨⟨put (.file content) made' (directory ++ [name])⟩, write_eq_ok_iff.mpr ⟨hvalid, hfile,
    hparentValid, name, directory, made', hname, hparent, hshort, hmade', hfree, rfl⟩, ?_, ?_⟩
  · intro place c hlast hc
    rw [hasFile_put_iff hrooted' hfree (isLeaf_file content) hlast] at hc
    split at hc
    · next hsame => exact ⟨content, hsame ▸ hstands⟩
    · exact hwithin'.file place c hlast hc
  · intro place ⟨inner, hinner⟩
    rcases find?_put_cases (isLeaf_file content) hinner with ⟨_, hcontent⟩ | ⟨hway, _⟩ | hbefore
    · cases hcontent
    · have hreached : t'.root.HasDirectory directory :=
        exists_directory_of_find? (by simp) hstands
      exact hreached.of_before hway
    · exact hwithin'.directory place ⟨inner, hbefore⟩

/-- Writing files, one after another, each with its content. -/
inductive Writes : List (String × Content) → FileTree → FileTree → Prop where
  | done (t : FileTree) : Writes [] t t
  | next {path : String} {content : Content} {files : List (String × Content)}
      {t t₁ t' : FileTree} (hwrite : t.write path content = (.ok (), t₁))
      (hrest : Writes files t₁ t') : Writes ((path, content) :: files) t t'

/-- Files at one place have one content. -/
def Agree (files : List (String × Content)) : Prop :=
  ∀ a ∈ files, ∀ b ∈ files, FilePath.place a.1 = FilePath.place b.1 → a.2 = b.2

variable {files : List (String × Content)}

theorem writes_nil_iff {t t' : FileTree} : Writes [] t t' ↔ t = t' := by
  constructor
  · intro h
    cases h
    rfl
  · rintro rfl
    exact .done t

theorem writes_cons_iff {t t' : FileTree} : Writes ((path, content) :: files) t t' ↔
    ∃ t₁, t.write path content = (.ok (), t₁) ∧ Writes files t₁ t' := by
  constructor
  · intro h
    cases h with
    | next hwrite hrest => exact ⟨_, hwrite, hrest⟩
  · intro ⟨_, hwrite, hrest⟩
    exact .next hwrite hrest

theorem writes_append_iff {front back : List (String × Content)} {t t' : FileTree} :
    Writes (front ++ back) t t' ↔ ∃ t₁, Writes front t t₁ ∧ Writes back t₁ t' := by
  induction front generalizing t with
  | nil => simp [writes_nil_iff]
  | cons a front ih =>
    obtain ⟨path, content⟩ := a
    rw [List.cons_append]
    simp only [writes_cons_iff, ih]
    constructor
    · intro ⟨t₁, hwrite, t₂, hfront, hback⟩
      exact ⟨t₂, ⟨t₁, hwrite, hfront⟩, hback⟩
    · intro ⟨t₂, ⟨t₁, hwrite, hfront⟩, hback⟩
      exact ⟨t₁, hwrite, t₂, hfront, hback⟩

theorem Writes.directory (h : Writes files t t') {place : List String}
    (hplace : t.root.HasDirectory place) : t'.root.HasDirectory place := by
  induction h with
  | done t => exact hplace
  | next hwrite _ ih => exact ih ((written_of_write hwrite).directory place hplace)

theorem Writes.tidy (h : Writes files t t') {base : List String} (htidy : t.root.Tidy base) :
    t'.root.Tidy base := by
  induction h with
  | done t => exact htidy
  | next hwrite _ ih => exact ih ((written_of_write hwrite).tidy base htidy)

theorem Writes.filesNamed (h : Writes files t t') (hnamed : t.root.FilesNamed) :
    t'.root.FilesNamed := by
  induction h with
  | done t => exact hnamed
  | next hwrite _ ih => exact ih (filesNamed_of_write hwrite hnamed)

/-- After files were written, a place holds what was written there last, or what was there. -/
theorem Writes.file_iff (h : Writes files t t') (hagree : Agree files) {place : List String}
    {c : Content} (hlast : place.getLast? ≠ some FilePath.parentName) : t'.root.HasFile place c ↔
      (∃ a ∈ files, FilePath.place a.1 = place ∧ a.2 = c) ∨
        (∀ a ∈ files, FilePath.place a.1 ≠ place) ∧ t.root.HasFile place c := by
  induction h with
  | done t => simp
  | @next path content files t t₁ t' hwrite hrest ih =>
    have hrestAgree : Agree files := fun a ha b hb =>
      hagree a (List.mem_cons_of_mem _ ha) b (List.mem_cons_of_mem _ hb)
    rw [ih hrestAgree, (written_of_write hwrite).file_iff place c hlast, List.exists_mem_cons_iff,
      List.forall_mem_cons]
    by_cases hsame : FilePath.place path = place
    · simp only [hsame, ne_eq, not_true_eq_false, false_and, or_false, true_and, if_true]
      constructor
      · rintro (hlater | ⟨_, hcontent⟩)
        · exact .inr hlater
        · exact .inl hcontent.symm
      · rintro (hcontent | hlater)
        · by_cases hfree : ∀ a ∈ files, ¬ FilePath.place a.1 = place
          · exact .inr ⟨hfree, hcontent.symm⟩
          · push Not at hfree
            obtain ⟨a, ha, hplace⟩ := hfree
            have hcontents := hagree a (List.mem_cons_of_mem _ ha) (path, content)
              List.mem_cons_self (hplace.trans hsame.symm)
            exact .inl ⟨a, ha, hplace, hcontents.trans hcontent⟩
        · exact .inl hlater
    · simp only [hsame, Ne.symm hsame, ne_eq, not_false_eq_true, false_and, true_and, false_or,
        if_false]

theorem Writes.stands (h : Writes files t t') (hagree : Agree files) {a : String × Content}
    (ha : a ∈ files) (hlast : (FilePath.place a.1).getLast? ≠ some FilePath.parentName) :
    t'.root.HasFile (FilePath.place a.1) a.2 :=
  (h.file_iff hagree hlast).mpr (.inl ⟨a, ha, rfl, rfl⟩)

/-- What was written can be written again, which changes nothing. -/
theorem Writes.write_again (h : Writes files t t') (hagree : Agree files) {a : String × Content}
    (ha : a ∈ files) : t'.write a.1 a.2 = (.ok (), t') := by
  have hstands := fun hlast => h.stands hagree ha hlast
  clear hagree
  induction h with
  | done t => cases ha
  | @next path content files t t₁ t' hwrite hrest ih =>
    rcases List.mem_cons.mp ha with rfl | hmem
    · apply FileTree.write_again hwrite fun place hplace => hrest.directory hplace
      exact hstands (getLast?_place_of_write hwrite)
    · exact ih hmem hstands

theorem writes_of_forall {t : FileTree}
    (h : ∀ a ∈ files, t.write a.1 a.2 = (.ok (), t)) : Writes files t t := by
  induction files with
  | nil => exact .done t
  | cons a files ih =>
    exact .next (h a List.mem_cons_self) (ih fun b hb => h b (List.mem_cons_of_mem _ hb))

theorem Writes.again (h : Writes files t t') (hagree : Agree files) : Writes files t' t' :=
  writes_of_forall fun _ ha => h.write_again hagree ha

theorem Writes.within (h : Writes files t t') (hagree : Agree files) :
    Within t.root t'.root where
  file place content hlast hfile := by
    by_cases hfree : ∀ a ∈ files, FilePath.place a.1 ≠ place
    · exact ⟨content, (h.file_iff hagree hlast).mpr (.inr ⟨hfree, hfile⟩)⟩
    · push Not at hfree
      obtain ⟨a, ha, hplace⟩ := hfree
      exact ⟨a.2, (h.file_iff hagree hlast).mpr (.inl ⟨a, ha, hplace, rfl⟩)⟩
  directory _ hplace := h.directory hplace

private theorem exists_writes_within {t t' : FileTree} (hwithin : Within t.root t'.root)
    (htidy : t'.root.Tidy []) (h : ∀ a ∈ files, t'.write a.1 a.2 = (.ok (), t')) :
    ∃ t₁, Writes files t t₁ := by
  induction files generalizing t with
  | nil => exact ⟨t, .done t⟩
  | cons a files ih =>
    obtain ⟨t₁, hwrite, hwithin₁⟩ := write_within hwithin htidy (h a List.mem_cons_self)
    obtain ⟨t₂, hrest⟩ := ih hwithin₁ fun b hb => h b (List.mem_cons_of_mem _ hb)
    exact ⟨t₂, .next hwrite hrest⟩

/-- Files that could be written in one order can be written in any, and then all hold the same. -/
theorem Writes.reorder (h : Writes files t t') (hagree : Agree files) (htidy : t.root.Tidy [])
    (hnamed : t.root.FilesNamed) {order : List (String × Content)}
    (horder : ∀ a, a ∈ order ↔ a ∈ files) :
    ∃ t₁, Writes order t t₁ ∧ ∀ place c, t₁.root.HasFile place c ↔ t'.root.HasFile place c := by
  obtain ⟨t₁, hwrites⟩ := exists_writes_within (h.within hagree) (h.tidy htidy)
    fun a ha => h.write_again hagree ((horder a).mp ha)
  have horderAgree : Agree order := fun a ha b hb =>
    hagree a ((horder a).mp ha) b ((horder b).mp hb)
  have hsame : ∀ place c, place.getLast? ≠ some FilePath.parentName →
      (t₁.root.HasFile place c ↔ t'.root.HasFile place c) := by
    intro place c hlast
    rw [hwrites.file_iff horderAgree hlast, h.file_iff hagree hlast]
    simp only [horder]
  refine ⟨t₁, hwrites, fun place c => ⟨fun hfile => ?_, fun hfile => ?_⟩⟩
  · exact (hsame place c (hwrites.filesNamed hnamed place c hfile)).mp hfile
  · exact (hsame place c (h.filesNamed hnamed place c hfile)).mpr hfile

/-- Writing files, one after another, until one of them cannot be written. -/
inductive WritesUntil : List (String × Content) → FileTree → Fault → FileTree → Prop where
  | stop {path : String} {content : Content} {files : List (String × Content)} {fault : Fault}
      {t t' : FileTree} (hwrite : t.write path content = (.error fault, t')) :
      WritesUntil ((path, content) :: files) t fault t'
  | next {path : String} {content : Content} {files : List (String × Content)} {fault : Fault}
      {t t₁ t' : FileTree} (hwrite : t.write path content = (.ok (), t₁))
      (hrest : WritesUntil files t₁ fault t') : WritesUntil ((path, content) :: files) t fault t'

variable {fault : Fault}

theorem WritesUntil.after {front back : List (String × Content)} {t t₁ t' : FileTree}
    (h : WritesUntil back t₁ fault t') (hfront : Writes front t t₁) :
    WritesUntil (front ++ back) t fault t' := by
  induction hfront with
  | done t => exact h
  | next hwrite _ ih => exact .next hwrite (ih h)

theorem WritesUntil.filesNamed (h : WritesUntil files t fault t') (hnamed : t.root.FilesNamed) :
    t'.root.FilesNamed := by
  induction h with
  | stop hwrite => exact (created_of_write_error hwrite).filesNamed hnamed
  | next hwrite _ ih => exact ih (filesNamed_of_write hwrite hnamed)

/-- What stands at other places is not touched. -/
theorem WritesUntil.file_iff (h : WritesUntil files t fault t') {place : List String} {c : Content}
    (hlast : place.getLast? ≠ some FilePath.parentName)
    (hfree : ∀ a ∈ files, FilePath.place a.1 ≠ place) :
    t'.root.HasFile place c ↔ t.root.HasFile place c := by
  induction h with
  | stop hwrite => exact (created_of_write_error hwrite).grows.file_iff place c hlast
  | next hwrite _ ih =>
    obtain ⟨hfirst, hrest⟩ := List.forall_mem_cons.mp hfree
    rw [ih hrest, (written_of_write hwrite).file_iff place c hlast, if_neg (Ne.symm hfirst)]

end FileTree
end ApiDocs
