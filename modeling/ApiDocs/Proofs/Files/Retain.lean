import ApiDocs.Proofs.Files.Elsewhere
/-!
# Removing entries of a directory

When entries of a directory are removed, they are gone with all that is below them, and everything
else is as it was. So a path reads what it read before exactly if it passes nothing that is gone.
-/
namespace ApiDocs

namespace Directory

open FilePath (resolve)

theorem modify_eq_put (f : Directory → Directory) {d inner : Directory} {base : List String}
    (hbase : base ≠ []) (h : d.find? base = some (.directory inner)) :
    d.modify f base = put (.directory (f inner)) d base := by
  induction base generalizing d with
  | nil => exact absurd rfl hbase
  | cons name rest ih =>
    rw [find?_cons] at h
    obtain ⟨e, he, hinner⟩ := Option.bind_eq_some_iff.mp h
    cases e with
    | file content =>
      cases rest <;> cases hinner
    | directory next =>
      rw [descend_directory] at hinner
      rw [modify, he]
      by_cases hrest : rest = []
      · subst hrest
        cases hinner
        rfl
      · rw [put_cons _ _ _ hrest, he, ofEntry]
        exact congrArg (fun entry => d.insert name (.directory entry)) (ih hrest hinner)

/-- Below the directory that is changed is what the changed one has. -/
theorem find?_modify (f : Directory → Directory) {d inner : Directory} {base : List String}
    (h : d.find? base = some (.directory inner)) (names : List String) :
    (d.modify f base).find? (base ++ names) = (f inner).find? names := by
  by_cases hbase : base = []
  · subst hbase
    cases h
    rfl
  · rw [modify_eq_put f hbase h, find?_put_below _ _ hbase, descend_directory]

/-- Elsewhere nothing changes but what directories on the way hold. -/
theorem find?_modify_apart (f : Directory → Directory) {d inner : Directory}
    {base place : List String} (h : d.find? base = some (.directory inner))
    (hplace : ¬ base <+: place) : (d.modify f base).find? place = d.find? place ∨
      (d.modify f base).HasDirectory place ∧ d.HasDirectory place := by
  have hbase : base ≠ [] := fun he => hplace (he ▸ List.nil_prefix)
  rw [modify_eq_put f hbase h]
  by_cases hway : place <+: base
  · obtain ⟨rest, rfl⟩ := hway
    have hrest : rest ≠ [] := fun he => hplace (by simp [he])
    exact .inr ⟨⟨_, find?_put_above _ _ _ hrest⟩, exists_directory_of_find? hrest h⟩
  · exact .inl (find?_put_elsewhere _ _ hway hplace)

/-- The entries of a directory in its place that do not pass a test are removed. -/
def retained (d : Directory) (base : List String) (stays : String → Bool) : Directory :=
  d.modify (fun inner => inner.filterKeys stays) base

/-- The places below a directory under the names that do not pass a test. -/
def Dropped (base : List String) (stays : String → Bool) (place : List String) : Prop :=
  ∃ name rest, place = base ++ name :: rest ∧ stays name = false

section Retained

variable {d inner : Directory} {base place : List String} {stays : String → Bool}
  (h : d.find? base = some (.directory inner))

include h

theorem find?_of_dropped (hplace : Dropped base stays place) :
    (d.retained base stays).find? place = none := by
  obtain ⟨name, rest, rfl, hname⟩ := hplace
  rw [retained, find?_modify _ h, find?_cons, OrderedMap.get?_filterKeys_of_not hname,
    Option.bind_none]

/-- What is not removed is found as before, or is a directory as before. -/
theorem find?_of_not_dropped (hplace : ¬ Dropped base stays place) :
    (d.retained base stays).find? place = d.find? place ∨
      (d.retained base stays).HasDirectory place ∧ d.HasDirectory place := by
  by_cases hbelow : base <+: place
  · obtain ⟨names, rfl⟩ := hbelow
    have hfind : (d.retained base stays).find? (base ++ names) =
        find? (inner.filterKeys stays) names := find?_modify _ h names
    have hfind' : d.find? (base ++ names) = inner.find? names := by
      rw [find?_append, h, Option.bind_some, descend_directory]
    cases names with
    | nil => exact .inr ⟨⟨_, hfind⟩, ⟨_, hfind'⟩⟩
    | cons name rest =>
      have hstays : stays name = true := by
        by_contra hname
        exact hplace ⟨name, rest, rfl, by simpa using hname⟩
      rw [hfind, hfind', find?_cons, find?_cons, OrderedMap.get?_filterKeys hstays]
      exact .inl rfl
  · exact find?_modify_apart _ h hbelow

end Retained

/-- A directory without what is gone from another one. -/
structure Lacks (gone : List String → Prop) (d d' : Directory) : Prop where
  missing : ∀ place, gone place → d'.find? place = none
  file : ∀ place content, ¬ gone place → (d'.HasFile place content ↔ d.HasFile place content)
  directory : ∀ place, ¬ gone place → (d'.HasDirectory place ↔ d.HasDirectory place)

theorem lacks_retained {d inner : Directory} {base : List String}
    (h : d.find? base = some (.directory inner)) (stays : String → Bool) :
    Lacks (Dropped base stays) d (d.retained base stays) where
  missing _ hplace := find?_of_dropped h hplace
  file place content hplace := by
    rcases find?_of_not_dropped h hplace with hsame | ⟨hthere', hthere⟩
    · rw [HasFile, HasFile, hsame]
    · exact iff_of_false (fun hfile => hfile.not_hasDirectory hthere')
        fun hfile => hfile.not_hasDirectory hthere
  directory place hplace := by
    rcases find?_of_not_dropped h hplace with hsame | ⟨hthere', hthere⟩
    · rw [HasDirectory, HasDirectory, hsame]
    · exact iff_of_true hthere' hthere

section Lacks

variable {gone : List String → Prop} {d d' : Directory} (h : Lacks gone d d')

include h

theorem Lacks.not_gone {place : List String} {e : Entry} (he : d'.find? place = some e) :
    ¬ gone place := by
  intro hgone
  rw [h.missing place hgone] at he
  cases he

/-- A path leads to the same file as before if nothing on its way is gone, and to none else. -/
theorem Lacks.reaches_file_iff {reached parts place : List String} {content : Content} :
    d'.follow reached parts = .ok place ∧ d'.HasFile place content ↔
      (d.follow reached parts = .ok place ∧ d.HasFile place content) ∧
        ∀ front, front <+: parts → ¬ gone (resolve reached front) := by
  constructor
  · intro ⟨hfollow, hfile⟩
    have hthere : ∀ place, d'.HasDirectory place → d.HasDirectory place := by
      intro place ⟨inner, hinner⟩
      exact (h.directory place (h.not_gone hinner)).mp ⟨inner, hinner⟩
    have hfile' := (h.file place content (h.not_gone hfile)).mp hfile
    refine ⟨⟨follow_of_found hthere hfollow (Option.isSome_iff_exists.mpr ⟨_, hfile'⟩), hfile'⟩, ?_⟩
    rintro front ⟨back, rfl⟩
    by_cases hback : back = []
    · subst hback
      rw [List.append_nil] at hfollow
      rw [← eq_resolve_of_follow hfollow]
      exact h.not_gone hfile
    · obtain ⟨_, hinner⟩ := hasDirectory_of_way hfollow hback
      exact h.not_gone hinner
  · intro ⟨⟨hfollow, hfile⟩, hway⟩
    have hplace : ¬ gone place := by
      rw [eq_resolve_of_follow hfollow]
      exact hway parts (List.prefix_refl parts)
    have hfile' := (h.file place content hplace).mpr hfile
    refine ⟨follow_of_way (fun front hfront => ?_) hfollow
      (Option.isSome_iff_exists.mpr ⟨_, hfile'⟩), hfile'⟩
    exact (h.directory _ (hway front hfront)).mpr

end Lacks

end Directory

namespace FileTree

open Directory (Lacks)
open FilePath (place parts resolve)

variable {t t' : FileTree} {path : String}

/-- What is read from a tree that lacks what is gone from another one. -/
theorem readText_of_lacks {gone : List String → Prop} (h : Lacks gone t.root t'.root)
    {text : String} : t'.readText path = .ok text ↔
      t.readText path = .ok text ∧ ∀ front, front <+: parts path → ¬ gone (resolve [] front) := by
  have hfile : t'.root.follow [] (parts path) = .ok (place path) ∧
      t'.root.HasFile (place path) (.text text) ↔ _ := h.reaches_file_iff
  rw [readText_eq_ok_iff, readText_eq_ok_iff, lookup_eq_file_iff, lookup_eq_file_iff]
  tauto

/-- The names that stay in a directory: those that pass a test, and those that are no entries. -/
def stays (keep : String → Bool) (name : String) : Bool :=
  FilePath.leadsOut name || keep name

/-- What is left when the entries of a directory that do not stay are removed. -/
def retained (t : FileTree) (path : String) (keep : String → Bool) : FileTree :=
  ⟨t.root.retained (place path) (stays keep)⟩

/-- Entries are removed from a directory that is there; else nothing changes. -/
theorem retain_eq (t : FileTree) (path : String) (keep : String → Bool) : t.retain path keep =
    match t.lookup path with
    | .ok (.directory _) => (.ok (), t.retained path keep)
    | .ok (.file _) => (.error .notDirectory, t)
    | .error fault => (.error fault, t) := by
  rw [retain, directoryAt]
  cases hlookup : t.lookup path with
  | error fault => rfl
  | ok e =>
    cases e with
    | file content => rfl
    | directory inner =>
      simp only [(leadsTo_of_lookup hlookup).follow]
      rfl

/-- Where the directory was there are the entries that stay. -/
theorem find?_retained {inner : Directory} (h : t.LeadsTo path inner) (keep : String → Bool) :
    (t.retained path keep).root.find? (place path) =
      some (.directory (inner.filterKeys (stays keep))) := by
  have hfind := Directory.find?_modify (fun inner => inner.filterKeys (stays keep)) h.find []
  rwa [List.append_nil] at hfind

end FileTree
end ApiDocs
