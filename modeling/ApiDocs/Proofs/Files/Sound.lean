import ApiDocs.Proofs.Files.Read
import ApiDocs.Proofs.Files.Scan
import ApiDocs.Proofs.Files.Writes
/-!
# Sound trees

In a tree that a file system holds each directory lists a name once, and every name is one that an
entry can have.
-/
namespace ApiDocs

/-- A name that an entry can have: one piece of a path, or that of a directory elsewhere. -/
def Directory.isEntryName (name : String) : Bool :=
  !isLong name && (FilePath.leadsOut name ||
    (!FilePath.staysInPlace name.toList && !name.toList.contains '/'))

def Entry.isFile : Entry → Bool
  | .file _ => true
  | .directory _ => false

mutual
/-- Whether every directory lists a name once and only names that entries can have, those of
directories elsewhere for directories. -/
def Entry.isSound : Entry → Bool
  | .file _ => true
  | .directory d => decide d.keys.Nodup && areSound d.entries
def areSound : List (String × Entry) → Bool
  | [] => true
  | (name, e) :: rest =>
    Directory.isEntryName name && !(FilePath.leadsOut name && e.isFile) && e.isSound &&
      areSound rest
end

theorem sound_of_mem {entries : List (String × Entry)} (h : areSound entries)
    {e : String × Entry} (he : e ∈ entries) :
    Directory.isEntryName e.1 ∧ (FilePath.leadsOut e.1 && e.2.isFile) = false ∧ e.2.isSound := by
  induction entries with
  | nil => cases he
  | cons first rest ih =>
    simp only [areSound, Bool.and_eq_true, Bool.not_eq_true'] at h
    rcases List.mem_cons.mp he with rfl | hmem
    · exact ⟨h.1.1.1, h.1.1.2, h.1.2⟩
    · exact ih h.2 hmem

theorem sound_of_descend {names : List String} {e found : Entry} (h : e.isSound)
    (hfound : e.descend names = some found) :
    found.isSound ∧ ∀ name ∈ names, Directory.isEntryName name := by
  refine Entry.of_descend (P := fun names e => e.isSound ∧ ∀ name ∈ names,
    Directory.isEntryName name) ?_ ⟨h, List.forall_mem_nil _⟩ hfound
  intro names d ⟨hd, hnames⟩ e he
  rw [Entry.isSound, Bool.and_eq_true] at hd
  obtain ⟨hname, _, hentry⟩ := sound_of_mem hd.2 he
  exact ⟨hentry, List.forall_mem_append.mpr ⟨hnames, List.forall_mem_singleton.mpr hname⟩⟩

theorem Entry.distinctBelow_of_isSound {e : Entry} (h : e.isSound) : Scan.DistinctBelow e := by
  intro names inner hinner
  have hsound := (sound_of_descend h hinner).1
  rw [Entry.isSound, Bool.and_eq_true, decide_eq_true_iff] at hsound
  exact hsound.1

namespace FileTree

variable {t : FileTree}

/-- A tree as a file system holds it. -/
def isSound (t : FileTree) : Bool :=
  (Entry.directory t.root).isSound

theorem names_of_isSound (h : t.isSound) {names : List String} {e : Entry}
    (he : t.root.find? names = some e) : ∀ name ∈ names, Directory.isEntryName name := by
  rw [← Directory.descend_directory] at he
  exact (sound_of_descend h he).2

theorem isSound_of_lookup (h : t.isSound) {path : String} {d : Directory}
    (hpath : t.lookup path = .ok (.directory d)) : (Entry.directory d).isSound := by
  have hfind := (leadsTo_of_lookup hpath).find
  rw [← Directory.descend_directory] at hfind
  exact (sound_of_descend h hfind).1

private theorem sound_of_find? (h : t.isSound) {place : List String} {inner : Directory}
    (hinner : t.root.find? place = some (.directory inner)) :
    inner.keys.Nodup ∧ areSound inner.entries := by
  rw [← Directory.descend_directory] at hinner
  have hsound := (sound_of_descend h hinner).1
  rw [Entry.isSound, Bool.and_eq_true, decide_eq_true_iff] at hsound
  exact hsound

theorem tidy_of_isSound (h : t.isSound) : t.root.Tidy [] where
  distinct names inner hinner := by
    rw [List.nil_append] at hinner
    exact (sound_of_find? h hinner).1
  short names e he name hname := by
    have hentry := names_of_isSound h he name hname
    rw [Directory.isEntryName, Bool.and_eq_true, Bool.not_eq_true'] at hentry
    exact Bool.eq_false_iff.mp hentry.1

theorem filesNamed_of_isSound (h : t.isSound) : t.root.FilesNamed := by
  intro place content hfile hlast
  obtain ⟨front, rfl⟩ := List.getLast?_eq_some_iff.mp hlast
  obtain ⟨inner, hinner⟩ := Directory.exists_directory_of_find? (by simp) hfile
  have hget : inner.get? FilePath.parentName = some (.file content) := by
    rw [Directory.HasFile, Directory.find?_append, hinner, Option.bind_some,
      Directory.descend_directory, Directory.find?_cons, Option.bind_eq_some_iff] at hfile
    obtain ⟨e, he, hfile⟩ := hfile
    rw [he, Option.some.inj hfile]
  have hmem := OrderedMap.mem_entries_of_find? hget
  have hout := (sound_of_mem (sound_of_find? h hinner).2 hmem).2.1
  simp [FilePath.leadsOut, Entry.isFile] at hout

theorem isName_of_visible {name : String} (h : Directory.isEntryName name)
    (hvisible : Scan.isHidden name = false) : FilePath.IsName name := by
  rw [Scan.isHidden, Bool.or_eq_false_iff] at hvisible
  rw [Directory.isEntryName, hvisible.2, Bool.false_or] at h
  simp only [Bool.and_eq_true, Bool.not_eq_true', List.contains_eq_mem, decide_eq_false_iff_not] at h
  exact ⟨by simp [h.2.1], h.2.2⟩

/-- A listed file stands below the directory of the scan, under the names that its path is put
together from. -/
theorem names_of_mem_scan (h : t.isSound) {path : String} {d : Directory} {reserved : List String}
    (hleads : t.LeadsTo path d) {file : String} (hfile : file ∈ t.scan path reserved) :
    ∃ names content, Scan.isShown reserved true names ∧ (∀ name ∈ names, FilePath.IsName name) ∧
      (∀ name ∈ names, ¬ Directory.isLong name) ∧
      t.root.HasFile (FilePath.place path ++ names) content ∧
      file = FilePath.joinAll path names := by
  have hd := isSound_of_lookup h hleads.lookup
  obtain ⟨name, rest, content, hfind, hshown, _, rfl⟩ :=
    (Scan.mem_scan_iff hleads.lookup (Entry.distinctBelow_of_isSound hd)).mp hfile
  rw [← hleads.find?_below] at hfind
  have hentries : ∀ n ∈ name :: rest, Directory.isEntryName n := fun n hn =>
    names_of_isSound h hfind n (List.mem_append_right _ hn)
  refine ⟨name :: rest, content, hshown, fun n hn => ?_, fun n hn => ?_, hfind, rfl⟩
  · exact isName_of_visible (hentries n hn) (Scan.isShown_visible hshown n hn)
  · exact (tidy_of_isSound h).short _ _ hfind n (List.mem_append_right _ hn)

end FileTree
end ApiDocs
