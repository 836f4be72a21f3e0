import ApiDocs.Files.Scan
import ApiDocs.Proofs.Files.Directory
import ApiDocs.Proofs.Files.Path
/-!
# What a scan finds

A scan finds a file exactly when the names that lead to it are those of a document: none of them
is hidden, the first is not that of the pages, and the last is that of a file that is not
reserved.
-/
namespace ApiDocs.Scan

open FilePath (join joinAll isLong)

variable {reserved : List String}

theorem isHidden_eq_false {name : String} (hdot : name.toList.head? ≠ some '.')
    (hslash : '/' ∉ name.toList) : isHidden name = false := by
  have hroot : name ≠ FilePath.rootName := by
    rintro rfl
    exact hslash (by decide)
  have hparent : name ≠ FilePath.parentName := by
    rintro rfl
    exact hdot (by decide)
  simp [isHidden, FilePath.leadsOut, hdot, hroot, hparent]

/-- Whether names lead to a document. Only names that start right below the root are kept apart
from the directory of pages. -/
def isShown (reserved : List String) : (top : Bool) → List String → Bool
  | _, [] => false
  | _, [name] => !isHidden name && isDocument reserved name
  | top, name :: next :: rest =>
    !(isHidden name || (top && name == buildName)) && isShown reserved false (next :: rest)

theorem isShown_visible {top : Bool} {names : List String} (h : isShown reserved top names) :
    ∀ name ∈ names, isHidden name = false := by
  induction names generalizing top with
  | nil => simp
  | cons name rest ih =>
    cases rest with
    | nil =>
      rw [isShown, Bool.and_eq_true, Bool.not_eq_true'] at h
      intro n hn
      rw [List.mem_singleton.mp hn]
      exact h.1
    | cons next rest =>
      rw [isShown, Bool.and_eq_true, Bool.not_eq_true', Bool.or_eq_false_iff] at h
      intro n hn
      rcases List.mem_cons.mp hn with rfl | hmem
      · exact h.1.1
      · exact ih h.2 n hmem

theorem exists_last_of_isShown {top : Bool} {names : List String}
    (h : isShown reserved top names) :
    ∃ front last, names = front ++ [last] ∧ isDocument reserved last := by
  induction names generalizing top with
  | nil => cases h
  | cons name rest ih =>
    cases rest with
    | nil =>
      rw [isShown, Bool.and_eq_true] at h
      exact ⟨[], name, rfl, h.2⟩
    | cons next rest =>
      rw [isShown, Bool.and_eq_true] at h
      obtain ⟨front, last, hrest, hlast⟩ := ih h.2
      exact ⟨name :: front, last, by rw [hrest]; rfl, hlast⟩

theorem ne_nil_of_isShown {top : Bool} {names : List String} (h : isShown reserved top names) :
    names ≠ [] := by
  intro hnil
  rw [hnil] at h
  cases h

theorem parentName_notMem {top : Bool} {names : List String} (h : isShown reserved top names) :
    FilePath.parentName ∉ names := by
  intro hmem
  have hvisible := isShown_visible h FilePath.parentName hmem
  exact absurd hvisible (by decide)

theorem isShown_concat {top : Bool} {front : List String} {name : String}
    (hvisible : ∀ n ∈ front ++ [name], isHidden n = false)
    (hpages : top → front.head? ≠ some buildName) (hfile : isDocument reserved name) :
    isShown reserved top (front ++ [name]) := by
  induction front generalizing top with
  | nil =>
    have hname := hvisible name (List.mem_singleton_self name)
    rw [List.nil_append, isShown, hname, hfile]
    rfl
  | cons first front ih =>
    have hfirst := hvisible first List.mem_cons_self
    have hrest : isShown reserved false (front ++ [name]) :=
      ih (fun n hn => hvisible n (List.mem_cons_of_mem _ hn)) nofun
    have htop : (top && first == buildName) = false := by
      cases top with
      | false => rfl
      | true => simpa using hpages rfl
    obtain ⟨next, rest, hnext⟩ := List.exists_cons_of_ne_nil
      (List.append_ne_nil_of_right_ne_nil front (List.cons_ne_nil name []))
    rw [hnext] at hrest
    rw [List.cons_append, hnext, isShown, hfirst, htop, hrest]
    rfl

/-- No directory on the way has too long a path to be opened. -/
def Opens (path : String) (names : List String) : Prop :=
  ∀ front back, names = front ++ back → back ≠ [] → ¬ isLong (joinAll path front)

private theorem opens_nil (path : String) : Opens path [] := by
  intro front back h hback
  exact absurd (List.append_eq_nil_iff.mp h.symm).2 hback

private theorem opens_cons_iff {path name : String} {rest : List String} :
    Opens path (name :: rest) ↔ ¬ isLong path ∧ Opens (join path name) rest := by
  constructor
  · intro h
    refine ⟨h [] (name :: rest) rfl (by simp), fun front back heq hback => ?_⟩
    exact h (name :: front) back (by rw [heq]; rfl) hback
  · rintro ⟨hpath, hrest⟩ front back heq hback
    cases front with
    | nil => exact hpath
    | cons n front =>
      obtain ⟨rfl, hback'⟩ := List.cons.inj heq
      exact hrest front back hback' hback

theorem le_trans_fst : ∀ a b c : String × List String,
    decide (a.1 ≤ b.1) = true → decide (b.1 ≤ c.1) = true → decide (a.1 ≤ c.1) = true := by
  simpa using fun a b c : String => String.le_trans

theorem le_total_fst : ∀ a b : String × List String,
    (decide (a.1 ≤ b.1) || decide (b.1 ≤ a.1)) = true := by
  simpa using fun a b : String => String.le_total a b

theorem documentsOf_hidden {name : String} (h : isHidden name) (e : Entry) (top : Bool)
    (path : String) : documentsOf reserved top path name e = [] := by
  cases e <;> simp [documentsOf, h]

private theorem mem_inOrder {entries : List (String × List String)} {file : String} :
    file ∈ inOrder entries ↔ ∃ e ∈ entries, file ∈ e.2 := by
  simp [inOrder]

private theorem mem_visits {top : Bool} {path file : String} {entries : List (String × Entry)} :
    (∃ v ∈ visits reserved top path entries, file ∈ v.2) ↔
      ∃ e ∈ entries, file ∈ documentsOf reserved top (join path e.1) e.1 e.2 := by
  induction entries with
  | nil => simp [visits]
  | cons e rest ih => simp [visits, ih]

/-- A scan finds nothing when only hidden entries and the pages stand below its root. -/
theorem scan_eq_nil {t : FileTree} {path : String} {d : Directory}
    (hpath : t.lookup path = .ok (.directory d))
    (hnames : ∀ name ∈ d.keys, isHidden name ∨ name = buildName) : t.scan path reserved = [] := by
  rw [FileTree.scan, hpath, List.eq_nil_iff_forall_not_mem]
  intro file hfile
  obtain ⟨e, he, hfile⟩ := mem_visits.mp (mem_inOrder.mp hfile)
  rcases hnames e.1 (List.mem_map_of_mem he) with hhidden | hbuild
  · rw [documentsOf_hidden hhidden] at hfile
    cases hfile
  · have hdocument : isDocument reserved buildName = false := by
      rw [isDocument, show FilePath.hasExtension buildName documentExtension = false by decide,
        Bool.false_and]
    rw [hbuild] at hfile
    cases hentry : e.2 <;> simp [hentry, documentsOf, hdocument] at hfile

/-- All directories below an entry list each name once. -/
def DistinctBelow (e : Entry) : Prop :=
  ∀ names inner, e.descend names = some (.directory inner) → inner.Distinct

/-- What the documents of an entry are: files below it whose names are shown. -/
def Finds (reserved : List String) (top : Bool) (path name : String) (e : Entry)
    (file : String) : Prop :=
  ∃ rest content, e.descend rest = some (.file content) ∧
    isShown reserved top (name :: rest) ∧ Opens path rest ∧ file = joinAll path rest

private theorem finds_file {top : Bool} {path name file : String} {content : Content} :
    file ∈ documentsOf reserved top path name (.file content) ↔
      Finds reserved top path name (.file content) file := by
  rw [documentsOf]
  constructor
  · intro h
    split at h
    · next hshown => exact ⟨[], content, rfl, hshown, opens_nil path, List.mem_singleton.mp h⟩
    · cases h
  · rintro ⟨rest, content', hfile, hshown, _, rfl⟩
    have hrest : rest = [] := by
      by_contra hne
      rw [Directory.descend_file content hne] at hfile
      cases hfile
    subst hrest
    rw [isShown] at hshown
    rw [if_pos hshown]
    exact List.mem_singleton_self path

private theorem finds_directory {top : Bool} {path name file : String} {d : Directory}
    (hd : d.Distinct) (hinner : ∀ e ∈ d.entries,
      file ∈ documentsOf reserved false (join path e.1) e.1 e.2 ↔
        Finds reserved false (join path e.1) e.1 e.2 file) :
    file ∈ documentsOf reserved top path name (.directory d) ↔
      Finds reserved top path name (.directory d) file := by
  have hlist : file ∈ inOrder (visits reserved false path d.entries) ↔
      ∃ e ∈ d.entries, Finds reserved false (join path e.1) e.1 e.2 file := by
    rw [mem_inOrder, mem_visits]
    exact exists_congr fun e => and_congr_right fun he => hinner e he
  rw [documentsOf]
  constructor
  · intro h
    split at h
    · cases h
    next hopen =>
    simp only [Bool.or_eq_true, not_or] at hopen
    obtain ⟨⟨n, e⟩, hmem, rest, content, hfile, hshown, hopens, rfl⟩ := hlist.mp h
    refine ⟨n :: rest, content, ?_, ?_, opens_cons_iff.mpr ⟨hopen.2, hopens⟩, rfl⟩
    · rw [Directory.descend_directory, Directory.find?_cons, hd.mem_entries_iff.mp hmem]
      exact hfile
    · have hname : (isHidden name || (top && name == buildName)) = false := by
        simpa using hopen.1
      rw [isShown, hname]
      exact hshown
  · rintro ⟨rest, content, hfile, hshown, hopens, rfl⟩
    cases rest with
    | nil => cases hfile
    | cons n rest =>
      rw [Directory.descend_directory, Directory.find?_cons, Option.bind_eq_some_iff] at hfile
      obtain ⟨e, he, hfile⟩ := hfile
      obtain ⟨hpath, hopens⟩ := opens_cons_iff.mp hopens
      rw [isShown, Bool.and_eq_true, Bool.not_eq_true'] at hshown
      have hclosed : (isHidden name || (top && name == buildName) || isLong path) = false := by
        rw [hshown.1]
        simpa using hpath
      rw [hclosed, if_neg (by simp), hlist]
      exact ⟨(n, e), hd.mem_entries_iff.mpr he, rest, content, hfile, hshown.2, hopens, rfl⟩

theorem distinctBelow_of_get? {d : Directory} (h : DistinctBelow (.directory d))
    {name : String} {e : Entry} (he : d.get? name = some e) : DistinctBelow e := by
  intro names inner hinner
  apply h (name :: names) inner
  rw [Directory.descend_directory, Directory.find?_cons, he]
  exact hinner

mutual
theorem mem_documentsOf : ∀ (e : Entry) (top : Bool) (path name file : String),
    DistinctBelow e →
    (file ∈ documentsOf reserved top path name e ↔ Finds reserved top path name e file)
  | .file _, _, _, _, _, _ => finds_file
  | .directory ⟨entries⟩, _, path, _, file, h => by
    have hd : OrderedMap.Distinct ⟨entries⟩ := h [] ⟨entries⟩ rfl
    refine finds_directory hd (mem_documentsIn entries path file ?_)
    intro e he
    exact distinctBelow_of_get? h (hd.mem_entries_iff.mp he)
private theorem mem_documentsIn : ∀ (entries : List (String × Entry)) (path file : String),
    (∀ e ∈ entries, DistinctBelow e.2) → ∀ e ∈ entries,
    (file ∈ documentsOf reserved false (join path e.1) e.1 e.2 ↔
      Finds reserved false (join path e.1) e.1 e.2 file)
  | [], _, _, _, _, he => by cases he
  | (name, entry) :: rest, path, file, h, e, he => by
    rcases List.mem_cons.mp he with heq | hmem
    · rw [heq]
      exact mem_documentsOf entry false (join path name) name file
        (h (name, entry) List.mem_cons_self)
    · exact mem_documentsIn rest path file (fun e he => h e (List.mem_cons_of_mem _ he)) e hmem
end

/-- A scan of a directory finds the files whose names are shown, at the paths of their names. -/
theorem mem_scan_iff {t : FileTree} {path : String} {d : Directory}
    (hpath : t.lookup path = .ok (.directory d)) (hd : DistinctBelow (.directory d))
    {file : String} : file ∈ t.scan path reserved ↔ ∃ name rest content,
      d.find? (name :: rest) = some (.file content) ∧ isShown reserved true (name :: rest) ∧
        Opens (join path name) rest ∧ file = joinAll path (name :: rest) := by
  have hdistinct : d.Distinct := hd [] d rfl
  rw [FileTree.scan, hpath]
  change file ∈ inOrder (visits reserved true path d.entries) ↔ _
  rw [mem_inOrder, mem_visits]
  constructor
  · rintro ⟨⟨name, e⟩, hmem, hfile⟩
    have he := hdistinct.mem_entries_iff.mp hmem
    obtain ⟨rest, content, hfind, hshown, hopens, rfl⟩ :=
      (mem_documentsOf e true (join path name) name file (distinctBelow_of_get? hd he)).mp hfile
    refine ⟨name, rest, content, ?_, hshown, hopens, rfl⟩
    rw [Directory.find?_cons, he]
    exact hfind
  · rintro ⟨name, rest, content, hfind, hshown, hopens, rfl⟩
    rw [Directory.find?_cons, Option.bind_eq_some_iff] at hfind
    obtain ⟨e, he, hfind⟩ := hfind
    refine ⟨(name, e), hdistinct.mem_entries_iff.mpr he, ?_⟩
    exact (mem_documentsOf e true (join path name) name _ (distinctBelow_of_get? hd he)).mpr
      ⟨rest, content, hfind, hshown, hopens, rfl⟩

end ApiDocs.Scan
