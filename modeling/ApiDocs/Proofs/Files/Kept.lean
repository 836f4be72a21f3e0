import ApiDocs.Proofs.Files.Read
import ApiDocs.Proofs.Files.Writes
/-!
# What stays while files are written

Files of one directory can be written one after another if each of them can be written alone. What
was written is read, what is read elsewhere stays the same, and what is missing stays so unless a
directory is created there.
-/
namespace ApiDocs

namespace Directory

open FilePath (parentName resolve)

/-- Nothing is at a place, and no file is on the way there. -/
structure Missing (d : Directory) (place : List String) : Prop where
  nothing : d.find? place = none
  passable : ∀ front c, front <+: place → ¬ d.HasFile front c

theorem find?_below_missing {d : Directory} {front place : List String} (h : d.find? front = none)
    (hway : front <+: place) : d.find? place = none := by
  obtain ⟨rest, rfl⟩ := hway
  rw [find?_append, h, Option.bind_none]

theorem missing_of_next {d : Directory} {reached rest : List String} {name : String}
    (hreached : d.HasDirectory reached) (h : d.find? (reached ++ [name]) = none) :
    d.Missing (reached ++ name :: rest) where
  nothing := find?_below_missing h (by simp)
  passable front c hfront hfile := by
    have hnext : reached ++ [name] <+: reached ++ name :: rest := by simp
    rcases List.prefix_or_prefix_of_prefix hfront hnext with hbefore | hafter
    · rcases List.prefix_concat_iff.mp hbefore with rfl | hbefore
      · rw [HasFile, h] at hfile
        cases hfile
      · exact hfile.not_hasDirectory (hreached.of_before hbefore)
    · rw [HasFile, find?_below_missing h hafter] at hfile
      cases hfile

theorem follow_next {d : Directory} {reached : List String} {name : String}
    (hreached : d.HasDirectory reached) (hname : name ≠ parentName) (rest : List String) :
    d.follow reached (name :: rest) =
      if isLong name then .error .badName
      else if (d.find? (reached ++ [name])).isNone then .error .missing
      else d.follow (reached ++ [name]) rest := by
  obtain ⟨inner, hinner⟩ := hreached
  rw [follow, hinner]
  exact if_neg hname

/-- Names lead to something missing when the first that is not there follows directories only. -/
theorem follow_eq_missing_iff {d : Directory} {reached rest : List String} {name : String}
    (hreached : d.HasDirectory reached) (hparent : parentName ∉ name :: rest)
    (hshort : ∀ n ∈ rest, ¬ isLong n) : d.follow reached (name :: rest) = .error .missing ↔
      ¬ isLong name ∧ d.Missing (reached ++ name :: rest) := by
  induction rest generalizing reached name with
  | nil =>
    have hname : name ≠ parentName := fun he => hparent (he ▸ List.mem_cons_self)
    rw [follow_next hreached hname]
    by_cases hlong : isLong name
    · simp [hlong]
    cases hfind : d.find? (reached ++ [name]) with
    | none => simp [hlong, missing_of_next hreached hfind]
    | some e =>
      have hthere : ¬ d.Missing (reached ++ [name]) := fun hmissing => by
        simp [hmissing.nothing] at hfind
      simp [hlong, follow, hthere]
  | cons next rest ih =>
    have hname : name ≠ parentName := fun he => hparent (he ▸ List.mem_cons_self)
    obtain ⟨hnext, hrest⟩ := List.forall_mem_cons.mp hshort
    rw [follow_next hreached hname]
    by_cases hlong : isLong name
    · simp [hlong]
    cases hfind : d.find? (reached ++ [name]) with
    | none => simp [hlong, missing_of_next hreached hfind]
    | some e =>
      rw [if_neg hlong, if_neg (by simp)]
      cases e with
      | file c =>
        have hblocked : ¬ d.Missing (reached ++ name :: next :: rest) := fun hmissing =>
          hmissing.passable (reached ++ [name]) c (by simp) hfind
        simp [follow, hfind, hblocked]
      | directory there =>
        have hfollow := ih ⟨there, hfind⟩ (fun h => hparent (List.mem_cons_of_mem _ h)) hrest
        rw [List.append_assoc] at hfollow
        simpa [hlong, hnext] using hfollow

/-- What names lead to is there. -/
theorem isSome_of_follow {d : Directory} {reached names place : List String}
    (hreached : (d.find? reached).isSome) (hparent : parentName ∉ names)
    (h : d.follow reached names = .ok place) : (d.find? place).isSome := by
  induction names generalizing reached with
  | nil =>
    cases h
    exact hreached
  | cons name rest ih =>
    have hname : name ≠ parentName := fun he => hparent (he ▸ List.mem_cons_self)
    rw [follow_next (hasDirectory_of_follow h) hname] at h
    split at h
    · cases h
    split at h
    · cases h
    next hthere =>
    apply ih ?_ (fun h => hparent (List.mem_cons_of_mem _ h)) h
    simpa [Option.isSome_iff_ne_none] using hthere

/-- An entry that is put elsewhere leaves a place empty. -/
theorem Rooted.find?_put_eq_none {d : Directory} {entry : Entry} {reached place : List String}
    {name : String} (hrooted : d.Rooted reached) (hleaf : IsLeaf entry)
    (hlast : place.getLast? ≠ some parentName) (hfind : d.find? place = none)
    (hne : place ≠ reached ++ [name]) : (put entry d (reached ++ [name])).find? place = none := by
  rw [Option.eq_none_iff_forall_ne_some]
  intro e he
  rcases find?_put_cases hleaf he with ⟨hsame, _⟩ | ⟨hbefore, _⟩ | hbefore
  · exact hne hsame
  · exact not_hasDirectory_of_missing hfind (hrooted place hbefore hlast)
  · rw [hfind] at hbefore
    cases hbefore

/-- Creating directories puts something only where the path of them leads through. -/
theorem find?_makeAll {d d' : Directory} {reached parts place : List String}
    {result : Except Fault (List String)} (hrooted : d.Rooted reached)
    (hmade : makeAll d reached parts = (result, d')) (hlast : place.getLast? ≠ some parentName)
    (hfind : d.find? place = none)
    (hway : ∀ front, front <+: parts → resolve reached front ≠ place) :
    d'.find? place = none := by
  induction parts generalizing d reached with
  | nil =>
    cases hmade
    exact hfind
  | cons name rest ih =>
    have hnext : ∀ front, front <+: rest → resolve reached (name :: front) ≠ place :=
      fun front hfront => hway (name :: front) (List.cons_prefix_cons.mpr ⟨rfl, hfront⟩)
    rw [makeAll] at hmade
    split at hmade
    · next hname =>
      simp only [resolve, if_pos hname] at hnext
      exact ih hrooted.above hmade hfind hnext
    next hname =>
    simp only [resolve, if_neg hname] at hnext
    split at hmade
    · next inner hinner => exact ih (hrooted.concat fun _ => ⟨inner, hinner⟩) hmade hfind hnext
    · cases hmade
      exact hfind
    next hmissing =>
    split at hmade
    · cases hmade
      exact hfind
    · have hgrows := grows_put_empty hrooted hmissing
      have hplace := hasDirectory_put_empty d (by simp : reached ++ [name] ≠ [])
      have hempty := hrooted.find?_put_eq_none isLeaf_empty hlast hfind
        fun hsame => hnext [] List.nil_prefix hsame.symm
      exact ih ((hrooted.grows hgrows).concat fun _ => hplace) hmade hempty hnext

/-- What parts lead through from a rooted place to a directory is a directory. -/
theorem Rooted.hasDirectory {d : Directory} {reached parts : List String} (h : d.Rooted reached)
    (hplace : d.HasDirectory (resolve reached parts)) : d.HasDirectory reached := by
  by_cases hlast : reached.getLast? = some parentName
  · exact hplace.of_before (FilePath.prefix_resolve hlast (List.prefix_refl _) parts)
  · exact h reached (List.prefix_refl _) hlast

/-- Where all directories are there already, creating them is following the path. -/
theorem follow_of_makeAll {d : Directory} {reached parts place : List String} (htidy : d.Tidy [])
    (hrooted : d.Rooted reached) (hmade : makeAll d reached parts = (.ok place, d))
    (hplace : d.HasDirectory (resolve reached parts)) : d.follow reached parts = .ok place := by
  induction parts generalizing reached with
  | nil =>
    cases hmade
    rfl
  | cons name rest ih =>
    have hreached := hrooted.hasDirectory hplace
    rw [makeAll] at hmade
    rw [resolve] at hplace
    split at hmade
    · next hname =>
      obtain ⟨inner, hinner⟩ := hreached
      rw [if_pos hname] at hplace
      rw [follow, hinner]
      exact (if_pos hname).trans (ih hrooted.above hmade hplace)
    next hname =>
    rw [if_neg hname] at hplace
    rw [follow_next hreached hname]
    split at hmade
    · next inner hinner =>
      have hshort := htidy.short (reached ++ [name]) _ hinner name (by simp)
      rw [if_neg hshort, if_neg (by simp [hinner])]
      exact ih (hrooted.concat fun _ => ⟨inner, hinner⟩) hmade hplace
    · cases hmade
    · -- a directory that was missing would be there now
      next hmissing =>
      split at hmade
      · cases hmade
      · have hcreated := hasDirectory_of_makeAll hmade (hasDirectory_put_empty d (by simp))
        exact absurd hcreated (not_hasDirectory_of_missing hmissing)

end Directory

namespace FileTree

open Directory
open FilePath (place parts parent parentName joinAll IsName isValid resolve)

variable {t t' : FileTree} {path sibling : String} {content : Content}

/-- A file can be written at a path. -/
def Writable (t : FileTree) (path : String) : Prop :=
  ∃ content t', t.write path content = (.ok (), t')

theorem write_eq_of_fst (h : (t.write path content).1 = .ok ()) :
    t.write path content = (.ok (), (t.write path content).2) :=
  Prod.ext h rfl

theorem writable_of_write (h : (t.write path content).1 = .ok ()) : t.Writable path :=
  ⟨content, _, write_eq_of_fst h⟩

theorem Writable.write (h : t.Writable path) (content : Content) :
    ∃ t', t.write path content = (.ok (), t') := by
  obtain ⟨_, _, hwrite⟩ := h
  obtain ⟨hvalid, hfile, hparentValid, name, directory, made, hname, hparent, hshort, hmade, hplace,
    _⟩ := write_eq_ok_iff.mp hwrite
  exact ⟨_, write_eq_ok_iff.mpr ⟨hvalid, hfile, hparentValid, name, directory, made, hname, hparent,
    hshort, hmade, hplace, rfl⟩⟩

/-- A file can still be written when another one was written into the same directory. -/
theorem Writable.beside (h : t.Writable path) (hwrite : t.write sibling content = (.ok (), t'))
    (hparts : parts (parent path) = parts (parent sibling)) : t'.Writable path := by
  obtain ⟨content', _, hpath⟩ := h
  obtain ⟨hvalid, hfile, hparentValid, name, directory, made, hname, hparent, hshort, hmade, hplace,
    _⟩ := write_eq_ok_iff.mp hpath
  obtain ⟨_, _, _, other, directory', made', _, _, _, hmade', hplace', rfl⟩ :=
    write_eq_ok_iff.mp hwrite
  rw [← hparts, hmade] at hmade'
  obtain ⟨hdirectory, rfl⟩ := Prod.mk.inj hmade'
  obtain rfl := Except.ok.inj hdirectory
  refine ⟨content', _, write_eq_ok_iff.mpr ⟨hvalid, hfile, hparentValid, name, directory, _, hname,
    hparent, hshort, makeAll_again hmade fun _ h => hasDirectory_put hplace' h, ?_, rfl⟩⟩
  rintro ⟨inner, hinner⟩
  rcases find?_put_cases (isLeaf_file content) hinner with ⟨_, hentry⟩ | ⟨hbefore, _⟩ | hbefore
  · cases hentry
  · have hlength := hbefore.length_le
    rw [List.length_append, List.length_singleton] at hlength
    omega
  · exact hplace ⟨inner, hbefore⟩

theorem not_hasDirectory_of_write (h : t.write path content = (.ok (), t')) :
    ¬ t.root.HasDirectory (place path) := by
  have hwritten := written_of_write h
  have hfile : t'.root.HasFile (place path) content :=
    (hwritten.file_iff _ _ (getLast?_place_of_write h)).mpr (if_pos rfl ▸ rfl)
  exact fun hplace => hfile.not_hasDirectory (hwritten.directory _ hplace)

theorem readText_of_write (hwrite : t.write path content = (.ok (), t')) {other text : String}
    (hread : t.readText other = .ok text) (hlast : (place other).getLast? ≠ some parentName)
    (hne : place other ≠ place path) : t'.readText other = .ok text := by
  have hwritten := written_of_write hwrite
  have hlookup := readText_eq_ok_iff.mp hread
  have hfile := (lookup_eq_file_iff.mp hlookup).2.2.2.1
  apply readText_eq_ok_iff.mpr
  apply lookup_file_kept hlookup hwritten.directory
  rw [hwritten.file_iff _ _ hlast, if_neg hne]
  exact hfile

/-- A file that can be written without any change is read as it would be written. -/
theorem lookup_of_write_same (h : t.write path content = (.ok (), t)) (htidy : t.root.Tidy []) :
    t.lookup path = .ok (.file content) := by
  obtain ⟨hvalid, hfile, _⟩ := write_eq_ok_iff.mp h
  obtain ⟨name, directory, hname, hparent, hshort, hmade, hstands⟩ := exists_of_write_same h
  have hpath := place_eq_of_makeAll hname hfile hparent hmade
  have hdirectory := ((created_of_makeAll (rooted_nil t.root) hmade).2 directory rfl).1
  have hthere : t.root.HasDirectory directory := exists_directory_of_find? (by simp) hstands
  have hne : path ≠ "" := by
    rintro rfl
    cases hname
  have hfront : t.root.follow [] (parts (parent path)) = .ok directory :=
    follow_of_makeAll htidy (rooted_nil t.root) hmade (hdirectory ▸ hthere)
  have hlast : t.root.follow directory [name] = .ok (directory ++ [name]) :=
    follow_of_hasFile hstands (by simpa using hparent.symm) (by simpa using hshort)
  refine lookup_eq_file_iff.mpr ⟨hne, hvalid, ?_, hpath ▸ hstands, hfile⟩
  rw [(FilePath.parts_parent hname hfile).1, follow_append, hfront, hpath]
  exact hlast

/-- What was written is read. -/
theorem lookup_of_write (hwrite : t.write path content = (.ok (), t')) (htidy : t.root.Tidy []) :
    t'.lookup path = .ok (.file content) := by
  have hwritten := written_of_write hwrite
  have hstands : t'.root.HasFile (place path) content :=
    (hwritten.file_iff _ _ (getLast?_place_of_write hwrite)).mpr (if_pos rfl ▸ rfl)
  exact lookup_of_write_same (write_again hwrite (fun _ h => h) hstands) (hwritten.tidy [] htidy)

/-- What was written is read, unless something else was written in its place. -/
theorem Writes.lookup {files : List (String × Content)} (h : Writes files t t')
    (hagree : Agree files) (htidy : t.root.Tidy []) {a : String × Content} (ha : a ∈ files) :
    t'.lookup a.1 = .ok (.file a.2) :=
  lookup_of_write_same (h.write_again hagree ha) (h.tidy htidy)

theorem missing_of_write (hwrite : t.write path content = (.ok (), t')) {names : List String}
    (hmissing : t.root.Missing names) (hlast : names.getLast? ≠ some parentName)
    (hpath : ¬ place path <+: names)
    (hway : ∀ front, front <+: parts (parent path) → resolve [] front ≠ names) :
    t'.root.Missing names := by
  obtain ⟨_, hfile, _, name, directory, made, hname, hparent, _, hmade, _, rfl⟩ :=
    write_eq_ok_iff.mp hwrite
  obtain ⟨hcreated, hreached⟩ := created_of_makeAll (rooted_nil t.root) hmade
  have hrooted := (hreached directory rfl).2
  have hplace := place_eq_of_makeAll hname hfile hparent hmade
  have hmadeNone := find?_makeAll (rooted_nil t.root) hmade hlast hmissing.nothing hway
  rw [hplace] at hpath
  constructor
  · exact hrooted.find?_put_eq_none (isLeaf_file content) hlast hmadeNone
      fun hsame => hpath (hsame ▸ List.prefix_refl _)
  · intro front c hfront hfound
    rcases hfound.before_put (isLeaf_file content) with ⟨rfl, _⟩ | hbefore
    · exact hpath hfront
    · exact hmissing.passable front c hfront (hcreated.hasFile hbefore)

/-- A file below a directory is missing when nothing is at its place and no file is on the way. -/
theorem LeadsTo.readText_eq_missing_iff {inner : Directory} (h : t.LeadsTo path inner)
    {name : String} {rest : List String} (hnames : ∀ n ∈ name :: rest, IsName n)
    (hparent : parentName ∉ name :: rest) (hshort : ∀ n ∈ rest, ¬ isLong n) :
    t.readText (joinAll path (name :: rest)) = .error .missing ↔
      isValid (joinAll path (name :: rest)) ∧ ¬ isLong name ∧
        t.root.Missing (place path ++ name :: rest) := by
  have hfollow : t.root.follow [] (parts (joinAll path (name :: rest))) =
      t.root.follow (place path) (name :: rest) := by
    rw [FilePath.parts_joinAll h.nonempty hnames, Directory.follow_append, h.follow]
    rfl
  have hpath : joinAll path (name :: rest) ≠ "" := FilePath.joinAll_ne_empty h.nonempty hnames
  rw [← follow_eq_missing_iff ⟨inner, h.find⟩ hparent hshort]
  unfold FileTree.readText FileTree.lookup
  rw [if_neg hpath, hfollow]
  by_cases hvalid : isValid (joinAll path (name :: rest))
  · cases hresult : t.root.follow (place path) (name :: rest) with
    | error fault => simp [hvalid]
    | ok names =>
      have hthere := isSome_of_follow (by rw [h.find]; rfl) hparent hresult
      obtain ⟨e, he⟩ := Option.isSome_iff_exists.mp hthere
      cases e with
      | directory there => simp [hvalid, he]
      | file c =>
        by_cases hfile : FilePath.demandsDirectory (joinAll path (name :: rest)) <;> cases c <;>
          simp [hvalid, he, hfile]
  · simp [hvalid]

end FileTree
end ApiDocs
