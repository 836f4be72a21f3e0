import ApiDocs.Proofs.Files.Write
/-!
# Reading files

A path is followed to where its parts lead, and leads there still when directories were added.
What stands below a directory is read at the path of its names from there.
-/
namespace ApiDocs

namespace Directory

open FilePath (parentName resolve)

theorem eq_resolve_of_follow {d : Directory} {reached parts place : List String}
    (h : d.follow reached parts = .ok place) : place = resolve reached parts := by
  induction parts generalizing reached with
  | nil =>
    cases h
    rfl
  | cons name rest ih =>
    rw [follow] at h
    rw [resolve]
    split at h
    · cases h
    · cases h
    · split at h
      · next hname => rw [if_pos hname, ih h]
      · next hname =>
        rw [if_neg hname]
        split at h
        · cases h
        · split at h
          · cases h
          · exact ih h

/-- A part is looked up in a directory. -/
theorem hasDirectory_of_follow {d : Directory} {reached rest place : List String} {name : String}
    (h : d.follow reached (name :: rest) = .ok place) : d.HasDirectory reached := by
  rw [follow] at h
  split at h
  · cases h
  · cases h
  · next inner hinner => exact ⟨inner, hinner⟩

/-- A path leads where it led in a tree that has the directories on its way and something there. -/
theorem follow_of_way {d d' : Directory} {reached parts place : List String}
    (hway : ∀ front, front <+: parts →
      d.HasDirectory (resolve reached front) → d'.HasDirectory (resolve reached front))
    (h : d.follow reached parts = .ok place) (hplace : (d'.find? place).isSome) :
    d'.follow reached parts = .ok place := by
  induction parts generalizing reached with
  | nil => exact h
  | cons name rest ih =>
    have hnext : ∀ front, front <+: rest →
        d.HasDirectory (resolve reached (name :: front)) →
          d'.HasDirectory (resolve reached (name :: front)) := fun front hfront =>
      hway (name :: front) (List.cons_prefix_cons.mpr ⟨rfl, hfront⟩)
    simp only [resolve] at hnext
    obtain ⟨inner, hinner⟩ := hasDirectory_of_follow h
    obtain ⟨inner', hinner'⟩ := hway [] List.nil_prefix ⟨inner, hinner⟩
    rw [follow, hinner] at h
    rw [resolve] at hinner'
    rw [follow, hinner']
    dsimp only at h ⊢
    split at h
    · next hname =>
      rw [if_pos hname]
      simp only [if_pos hname] at hnext
      exact ih hnext h
    next hname =>
    simp only [if_neg hname] at hnext
    split at h
    · cases h
    next hshort =>
    split at h
    · cases h
    have hfound : (d'.find? (reached ++ [name])).isSome := by
      cases rest with
      | nil =>
        cases h
        exact hplace
      | cons next rest =>
        obtain ⟨there, hthere⟩ := hnext [] List.nil_prefix (hasDirectory_of_follow h)
        rw [resolve] at hthere
        rw [hthere]
        rfl
    have hsome : ¬ (d'.find? (reached ++ [name])).isNone = true := by
      rw [Option.isNone_iff_eq_none, ← Option.not_isSome_iff_eq_none, not_not]
      exact hfound
    rw [if_neg hname, if_neg hshort, if_neg hsome]
    exact ih hnext h

/-- A path leads where it led in every tree with the same directories and more, if something is
there. -/
theorem follow_of_found {d d' : Directory} {reached parts place : List String}
    (hkept : ∀ place, d.HasDirectory place → d'.HasDirectory place)
    (h : d.follow reached parts = .ok place) (hplace : (d'.find? place).isSome) :
    d'.follow reached parts = .ok place :=
  follow_of_way (fun _ _ => hkept _) h hplace

theorem follow_append (d : Directory) (reached front back : List String) :
    d.follow reached (front ++ back) = (d.follow reached front).bind fun place =>
      d.follow place back := by
  induction front generalizing reached with
  | nil => rfl
  | cons name front ih =>
    rw [List.cons_append, follow, follow]
    cases d.find? reached with
    | none => rfl
    | some e =>
      cases e with
      | file content => rfl
      | directory inner =>
        dsimp only
        split
        · exact ih _
        · split
          · rfl
          · split
            · rfl
            · exact ih _

/-- Before the end of the way that parts lead are directories only. -/
theorem hasDirectory_of_way {d : Directory} {reached front back place : List String}
    (h : d.follow reached (front ++ back) = .ok place) (hback : back ≠ []) :
    d.HasDirectory (resolve reached front) := by
  rw [follow_append] at h
  cases hfront : d.follow reached front with
  | error fault =>
    rw [hfront] at h
    cases h
  | ok middle =>
    obtain ⟨name, rest, rfl⟩ := List.exists_cons_of_ne_nil hback
    rw [hfront] at h
    rw [← eq_resolve_of_follow hfront]
    exact hasDirectory_of_follow h

/-- Names lead from a directory to a file below it. -/
theorem follow_of_hasFile {d : Directory} {reached names : List String} {content : Content}
    (hfile : d.HasFile (reached ++ names) content) (hparent : parentName ∉ names)
    (hshort : ∀ name ∈ names, ¬ isLong name) : d.follow reached names = .ok (reached ++ names) := by
  induction names generalizing reached with
  | nil => simp [follow]
  | cons name rest ih =>
    obtain ⟨inner, hinner⟩ := exists_directory_of_find? (by simp) hfile
    have hname : name ≠ parentName := fun he => hparent (he ▸ List.mem_cons_self)
    have hmem := hshort name List.mem_cons_self
    have hfile' : d.HasFile (reached ++ [name] ++ rest) content := by
      rw [List.append_assoc]
      exact hfile
    have hsome : (d.find? (reached ++ [name])).isNone = false := by
      rw [HasFile, find?_append] at hfile'
      cases hfind : d.find? (reached ++ [name]) with
      | none =>
        rw [hfind] at hfile'
        cases hfile'
      | some e => rfl
    have hrest := ih hfile' (fun h => hparent (List.mem_cons_of_mem _ h)) fun n hn =>
      hshort n (List.mem_cons_of_mem _ hn)
    rw [follow, hinner]
    dsimp only
    rw [if_neg hname, if_neg hmem, hsome, if_neg (by simp), hrest, List.append_assoc]
    rfl

end Directory

namespace FileTree

open FilePath (place parts joinAll IsName isValid parentName)

/-- The path of a directory and where it leads. -/
structure LeadsTo (t : FileTree) (path : String) (inner : Directory) : Prop where
  nonempty : path ≠ ""
  valid : isValid path
  follow : t.root.follow [] (parts path) = .ok (place path)
  find : t.root.find? (place path) = some (.directory inner)

theorem leadsTo_of_lookup {t : FileTree} {path : String} {inner : Directory}
    (h : t.lookup path = .ok (.directory inner)) : t.LeadsTo path inner := by
  unfold lookup at h
  split at h
  · cases h
  next hne =>
  split at h
  · cases h
  next hvalid =>
  split at h
  · cases h
  next names hfollow =>
  obtain rfl : names = place path := Directory.eq_resolve_of_follow hfollow
  split at h
  · cases h
  · next d hfind =>
    cases h
    exact ⟨hne, by simpa using hvalid, hfollow, hfind⟩
  · split at h <;> cases h

theorem lookup_eq_file_iff {t : FileTree} {path : String} {content : Content} :
    t.lookup path = .ok (.file content) ↔
      path ≠ "" ∧ isValid path ∧ t.root.follow [] (parts path) = .ok (place path) ∧
        t.root.HasFile (place path) content ∧ FilePath.demandsDirectory path = false := by
  constructor
  · intro h
    unfold lookup at h
    split at h
    · cases h
    next hne =>
    split at h
    · cases h
    next hvalid =>
    split at h
    · cases h
    next names hfollow =>
    obtain rfl : names = place path := Directory.eq_resolve_of_follow hfollow
    split at h
    · cases h
    · cases h
    · next found hfind =>
      split at h
      · cases h
      next hfile =>
      cases h
      exact ⟨hne, by simpa using hvalid, hfollow, hfind, by simpa using hfile⟩
  · intro ⟨hne, hvalid, hfollow, hfile, hmoves⟩
    rw [Directory.HasFile] at hfile
    simp [lookup, hne, hvalid, hfollow, hfile, hmoves]

theorem readText_eq_ok_iff {t : FileTree} {path text : String} :
    t.readText path = .ok text ↔ t.lookup path = .ok (.file (.text text)) := by
  rw [readText]
  cases t.lookup path with
  | error fault => simp
  | ok entry =>
    cases entry with
    | directory d => simp
    | file content => cases content <;> simp

/-- A file is found at its path while its directories and a file in its place are kept. -/
theorem lookup_file_kept {t t' : FileTree} {path : String} {content content' : Content}
    (h : t.lookup path = .ok (.file content))
    (hkept : ∀ place, t.root.HasDirectory place → t'.root.HasDirectory place)
    (hstands : t'.root.HasFile (place path) content') :
    t'.lookup path = .ok (.file content') := by
  obtain ⟨hne, hvalid, hfollow, _, hmoves⟩ := lookup_eq_file_iff.mp h
  have hfound : (t'.root.find? (place path)).isSome := by
    rw [Directory.HasFile] at hstands
    rw [hstands]
    rfl
  exact lookup_eq_file_iff.mpr
    ⟨hne, hvalid, Directory.follow_of_found hkept hfollow hfound, hstands, hmoves⟩

/-- Nothing is below a file. -/
theorem readText_below_file {t : FileTree} {path below : String} {content : Content}
    (h : t.lookup path = .ok (.file content)) {name : String} {rest : List String}
    (hparts : parts below = parts path ++ name :: rest) (text : String) :
    t.readText below ≠ .ok text := by
  intro hread
  obtain ⟨_, _, hfollow, hfile, _⟩ := lookup_eq_file_iff.mp h
  obtain ⟨_, _, hbelow, _, _⟩ := lookup_eq_file_iff.mp (readText_eq_ok_iff.mp hread)
  rw [hparts, Directory.follow_append, hfollow] at hbelow
  change t.root.follow (place path) (name :: rest) = _ at hbelow
  rw [Directory.HasFile] at hfile
  rw [Directory.follow, hfile] at hbelow
  cases hbelow

theorem LeadsTo.lookup {t : FileTree} {path : String} {inner : Directory}
    (h : t.LeadsTo path inner) : t.lookup path = .ok (.directory inner) := by
  simp [FileTree.lookup, h.nonempty, h.valid, h.follow, h.find]

theorem LeadsTo.find?_below {t : FileTree} {path : String} {inner : Directory}
    (h : t.LeadsTo path inner) (names : List String) :
    t.root.find? (place path ++ names) = inner.find? names := by
  rw [Directory.find?_append, h.find, Option.bind_some, Directory.descend_directory]

/-- A directory is still found at its path when other directories were added. -/
theorem LeadsTo.kept {t t' : FileTree} {path : String} {inner : Directory}
    (h : t.LeadsTo path inner)
    (hkept : ∀ place, t.root.HasDirectory place → t'.root.HasDirectory place) :
    ∃ inner', t'.LeadsTo path inner' := by
  have hplace : t.root.HasDirectory (place path) := ⟨inner, h.find⟩
  obtain ⟨inner', hfind'⟩ := hkept _ hplace
  have hfound : (t'.root.find? (place path)).isSome := by rw [hfind']; rfl
  exact ⟨inner', h.nonempty, h.valid, Directory.follow_of_found hkept h.follow hfound, hfind'⟩

/-- A file below a directory is found at the path of its names, if files may have that path. -/
theorem LeadsTo.lookup_file {t : FileTree} {path : String} {inner : Directory}
    (h : t.LeadsTo path inner) {names : List String} {content : Content} (hne : names ≠ [])
    (hnames : ∀ name ∈ names, IsName name) (hparent : parentName ∉ names)
    (hshort : ∀ name ∈ names, ¬ Directory.isLong name)
    (hfile : t.root.HasFile (place path ++ names) content) :
    t.lookup (joinAll path names) =
      if isValid (joinAll path names) then .ok (.file content) else .error .badName := by
  have hfollow : t.root.follow [] (parts (joinAll path names)) = .ok (place path ++ names) := by
    rw [FilePath.parts_joinAll h.nonempty hnames, Directory.follow_append, h.follow]
    exact Directory.follow_of_hasFile hfile hparent hshort
  have hmoves : FilePath.demandsDirectory (joinAll path names) = false := by
    obtain ⟨front, name, rfl⟩ := (List.eq_nil_or_concat' names).resolve_left hne
    rw [FilePath.joinAll_concat]
    refine FilePath.demandsDirectory_join ?_ (hnames name (by simp))
    exact FilePath.joinAll_ne_empty h.nonempty fun n hn => hnames n (List.mem_append_left _ hn)
  have hpath : joinAll path names ≠ "" := FilePath.joinAll_ne_empty h.nonempty hnames
  rw [Directory.HasFile] at hfile
  cases hvalid : isValid (joinAll path names) <;>
    simp [FileTree.lookup, hpath, hvalid, hfollow, hfile, hmoves]

/-- A file below a directory is read at the path of its names. -/
theorem LeadsTo.readText {t : FileTree} {path : String} {inner : Directory}
    (h : t.LeadsTo path inner) {names : List String} {text : String} (hne : names ≠ [])
    (hnames : ∀ name ∈ names, IsName name) (hparent : parentName ∉ names)
    (hshort : ∀ name ∈ names, ¬ Directory.isLong name) (hvalid : isValid (joinAll path names))
    (hfile : t.root.HasFile (place path ++ names) (.text text)) :
    t.readText (joinAll path names) = .ok text := by
  rw [FileTree.readText, h.lookup_file hne hnames hparent hshort hfile, if_pos hvalid]

end FileTree
end ApiDocs
