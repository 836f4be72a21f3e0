import ApiDocs.Proofs.Files.Retain
import ApiDocs.Proofs.Store.Pages
/-!
# Deleting the documents of a store

Everything below the root of a store is deleted but for the entry of one fixed name, the one that
the pages of a store have by default. Nothing that a heap could be loaded from is left. A page is
left where its path passes nothing that is deleted; pages that are kept at another place below the
root go with the documents.
-/
namespace ApiDocs.Store

open Directory (Lacks Dropped)
open FilePath (Forward parentName parts place resolve)
open FileTree (stays)

variable {s : Store} {t t' : FileTree}

/-- Whether an entry of the root stays when the documents are deleted. -/
def keepsEntry (name : String) : Bool :=
  stays (· == Scan.buildName) name

/-- What deleting the documents removes. -/
def Deletes (s : Store) (t : FileTree) (names : List String) : Prop :=
  t.isDirectory s.root ∧ Dropped (place s.root) keepsEntry names

/-- The pages are not kept where documents are deleted: outside of the root, or below an entry of
it that stays. -/
def PagesApart (s : Store) : Prop :=
  ∀ below, parts s.pages = parts s.root ++ below →
    ∃ name rest, below = name :: rest ∧ keepsEntry name = true

theorem deleteDocuments_eq_ok_iff : s.deleteDocuments t = .ok () t' ↔
    (∃ inner, t.LeadsTo s.root inner) ∧ t' = t.retained s.root (· == Scan.buildName) ∨
      t.lookup s.root = .error .missing ∧ t' = t := by
  rw [deleteDocuments, FileEffect.change_eq_ok_iff, FileTree.retain_eq]
  have hleads : (∃ inner, t.LeadsTo s.root inner) ↔
      ∃ inner, t.lookup s.root = .ok (.directory inner) :=
    exists_congr fun inner => ⟨FileTree.LeadsTo.lookup, FileTree.leadsTo_of_lookup⟩
  rw [hleads]
  cases t.lookup s.root with
  | error fault => cases fault <;> simp [eq_comm]
  | ok e => cases e <;> simp [eq_comm]

section Deleted

variable (h : s.deleteDocuments t = .ok () t')

include h

theorem lacks_of_deleteDocuments : Lacks (s.Deletes t) t.root t'.root := by
  rcases deleteDocuments_eq_ok_iff.mp h with ⟨⟨inner, hleads⟩, rfl⟩ | ⟨hmissing, rfl⟩
  · have hroot : t.isDirectory s.root := by rw [FileTree.isDirectory, hleads.lookup]
    have hdeletes : s.Deletes t = Dropped (place s.root) keepsEntry :=
      funext fun _ => propext (and_iff_right hroot)
    rw [hdeletes]
    exact Directory.lacks_retained hleads.find keepsEntry
  · have hroot : ¬ t'.isDirectory s.root := by simp [FileTree.isDirectory, hmissing]
    exact ⟨fun _ hgone => absurd hgone.1 hroot, fun _ _ _ => Iff.rfl, fun _ _ => Iff.rfl⟩

/-- A file is read as before unless its path passes something that was deleted. -/
theorem readText_deleted {path text : String} : t'.readText path = .ok text ↔
    t.readText path = .ok text ∧
      ∀ front, front <+: parts path → ¬ s.Deletes t (resolve [] front) :=
  FileTree.readText_of_lacks (lacks_of_deleteDocuments h)

theorem scan_deleted (reserved : List String) : t'.scan s.root reserved = [] := by
  cases hlookup : t'.lookup s.root with
  | error fault => rw [FileTree.scan, hlookup]
  | ok e =>
    rcases deleteDocuments_eq_ok_iff.mp h with ⟨⟨inner, hleads⟩, rfl⟩ | ⟨hmissing, rfl⟩
    · have hfind := FileTree.find?_retained hleads (· == Scan.buildName)
      cases e with
      | file content =>
        obtain ⟨_, _, _, hfile, _⟩ := FileTree.lookup_eq_file_iff.mp hlookup
        cases hfile.symm.trans hfind
      | directory d =>
        cases (FileTree.leadsTo_of_lookup hlookup).find.symm.trans hfind
        refine Scan.scan_eq_nil hlookup fun name hname => ?_
        rw [OrderedMap.keys_filterKeys, List.mem_filter, stays, Bool.or_eq_true] at hname
        refine hname.2.imp (fun hout => ?_) fun hbuild => by simpa using hbuild
        rw [Scan.isHidden, hout, Bool.or_true]
    · rw [hmissing] at hlookup
      cases hlookup

theorem loadHeap_deleted (reserved : List String) : s.loadHeap reserved t' = .ok {} t' := by
  have hload : s.loadHeap reserved t' = addFiles {} (t'.scan s.root reserved) t' := rfl
  rw [hload, scan_deleted h]
  rfl

end Deleted

theorem keepsEntry_iff {name : String} : keepsEntry name = true ↔
    name = FilePath.rootName ∨ name = parentName ∨ name = Scan.buildName := by
  simp [keepsEntry, stays, FilePath.leadsOut, or_assoc]

theorem keepsEntry_pageName (version : Nat) (bucket : String) :
    keepsEntry (pageName version bucket) = false := by
  have hhead : (pageName version bucket).toList.head? = some 'v' := by
    rw [toList_pageName]
    rfl
  rw [Bool.eq_false_iff, Ne, keepsEntry_iff]
  rintro (he | he | he) <;> rw [he] at hhead <;> exact absurd hhead (by decide)

private theorem eq_or_below_of_prefix {base names rest : List String} {name file : String}
    (h : base ++ name :: rest <+: names ++ [file]) :
    names = base ∨ ∃ below, names = base ++ name :: below := by
  rcases List.prefix_concat_iff.mp h with hfile | ⟨back, hback⟩
  · rcases List.eq_nil_or_concat' rest with rfl | ⟨rest, last, rfl⟩
    · exact .inl (List.append_inj' hfile rfl).1.symm
    · rw [← List.cons_append, ← List.append_assoc] at hfile
      exact .inr ⟨rest, (List.append_inj' hfile rfl).1.symm⟩
  · exact .inr ⟨rest ++ back, by rw [← hback, List.append_assoc, List.cons_append]⟩

section Pages

variable {version : Nat} {bucket : String} (hbucket : '/' ∉ bucket.toList)
  (hroot : Forward (parts s.root)) (hpages : Forward (parts s.pages))

include hbucket hroot hpages

/-- On the path of a page nothing is deleted exactly if the pages are kept apart. -/
theorem not_deletes_pagePath_iff :
    (∀ front, front <+: parts (s.pagePath version bucket) → ¬ s.Deletes t (resolve [] front)) ↔
      (t.isDirectory s.root → s.PagesApart) := by
  have hparts : parts (s.pagePath version bucket) = parts s.pages ++ [pageName version bucket] :=
    FilePath.parts_join_name s.pages (isName_pageName_of_notMem hbucket version)
  have hforward : Forward (parts s.pages ++ [pageName version bucket]) :=
    hpages.concat (pageName_ne_parentName version bucket)
  have hplace : place s.root = parts s.root := hroot
  rw [hparts]
  constructor
  · intro hway hdirectory below hbelow
    have hpage := hway _ (List.prefix_refl _)
    rw [hforward, hbelow, List.append_assoc] at hpage
    cases below with
    | nil =>
      refine absurd ⟨hdirectory, pageName version bucket, [], ?_, keepsEntry_pageName _ _⟩ hpage
      rw [hplace, List.nil_append]
    | cons name rest =>
      refine ⟨name, rest, rfl, ?_⟩
      by_contra hname
      refine hpage ⟨hdirectory, name, rest ++ [pageName version bucket], ?_, by simpa using hname⟩
      rw [hplace, List.cons_append]
  · intro hapart front hfront hdeletes
    obtain ⟨hdirectory, name, rest, hgone, hname⟩ := hdeletes
    rw [hforward.of_before hfront, hplace] at hgone
    rw [hgone] at hfront
    rcases eq_or_below_of_prefix hfront with hsame | ⟨below, hbelow⟩
    · obtain ⟨_, _, hcons, _⟩ := hapart hdirectory [] (by rw [hsame, List.append_nil])
      cases hcons
    · obtain ⟨_, _, hcons, hkeep⟩ := hapart hdirectory _ hbelow
      cases hcons
      rw [hname] at hkeep
      cases hkeep

end Pages

/-- The pages of a store are kept apart where they are by default. -/
theorem pagesApart_of_default (h : s.pages = FilePath.join s.root Scan.buildName) :
    parts s.pages = parts s.root ++ [Scan.buildName] ∧ s.PagesApart := by
  have hname : FilePath.IsName Scan.buildName := by constructor <;> decide
  have hparts : parts s.pages = parts s.root ++ [Scan.buildName] :=
    h ▸ FilePath.parts_join_name s.root hname
  refine ⟨hparts, fun below hbelow => ?_⟩
  rw [hparts, List.append_cancel_left_eq] at hbelow
  exact ⟨Scan.buildName, [], hbelow.symm, by decide⟩

/-- Once the documents are deleted, there is nothing to load, and of the files those are left that
are not deleted themselves and whose paths pass nothing that is. So where `..` undoes no step, all
pages are left if they are kept apart, as they are by default, and none is if they are not. -/
theorem deleteDocuments_leaves (h : s.deleteDocuments t = .ok () t') :
    (∀ reserved, s.loadHeap reserved t' = .ok {} t') ∧
    (∀ path text, t'.readText path = .ok text ↔ t.readText path = .ok text ∧
      ∀ front, front <+: parts path → ¬ s.Deletes t (resolve [] front)) ∧
    (Forward (parts s.root) → Forward (parts s.pages) →
      ∀ version bucket text, '/' ∉ bucket.toList →
        t.readText (s.pagePath version bucket) = .ok text →
          (t'.readText (s.pagePath version bucket) = .ok text ↔
            (t.isDirectory s.root → s.PagesApart))) ∧
    (Forward (parts s.root) → s.pages = FilePath.join s.root Scan.buildName →
      ∀ version bucket text, '/' ∉ bucket.toList →
        t.readText (s.pagePath version bucket) = .ok text →
          t'.readText (s.pagePath version bucket) = .ok text) := by
  have hpages : ∀ version bucket text, '/' ∉ bucket.toList →
      Forward (parts s.root) → Forward (parts s.pages) →
        t.readText (s.pagePath version bucket) = .ok text →
          (t'.readText (s.pagePath version bucket) = .ok text ↔
            (t.isDirectory s.root → s.PagesApart)) := by
    intro version bucket text hbucket hroot hpages hread
    rw [readText_deleted h, and_iff_right hread, not_deletes_pagePath_iff hbucket hroot hpages]
  refine ⟨fun reserved => loadHeap_deleted h reserved, fun path text => readText_deleted h, ?_, ?_⟩
  · intro hroot hforward version bucket text hbucket
    exact hpages version bucket text hbucket hroot hforward
  · intro hroot hdefault version bucket text hbucket hread
    obtain ⟨hparts, hapart⟩ := pagesApart_of_default hdefault
    have hforward : Forward (parts s.pages) := hparts ▸ hroot.concat (by decide)
    exact (hpages version bucket text hbucket hroot hforward hread).mpr fun _ => hapart

-- A document and a page below the root of a store.
private def publishedTree : FileTree :=
  ⟨⟨[("docs", .directory ⟨[
    ("v1", .directory ⟨[("items.json", .file (.text "\x7b\x7d"))]⟩),
    ("build", .directory ⟨[("v1-public.html", .file (.text "<html></html>"))]⟩)]⟩)]⟩⟩

theorem publishedTree_left : ∃ t', (ofRoot "docs").deleteDocuments publishedTree = .ok () t' ∧
    (ofRoot "docs").loadHeap [] t' = .ok {} t' ∧
    (∀ text, t'.readText "docs/v1/items.json" ≠ .ok text) ∧
    t'.readText "docs/build/v1-public.html" = .ok "<html></html>" := by
  have hdelete : (ofRoot "docs").deleteDocuments publishedTree = .ok () _ := rfl
  obtain ⟨hload, hread, _, hdefault⟩ := deleteDocuments_leaves hdelete
  refine ⟨_, hdelete, hload [], fun text hitems => ?_, ?_⟩
  · refine ((hread _ _).mp hitems).2 ["docs", "v1"] (by decide) ⟨by decide, "v1", [], ?_, ?_⟩
    · decide
    · decide
  · exact hdefault (by decide) rfl 1 "public" "<html></html>" (by decide) rfl

-- A store whose pages are below its root, under a name of their own.
private def sitePages : Store :=
  { root := "docs", pages := "docs/site" }

-- A merged document below the root of the store.
private def mergedTree : FileTree :=
  ⟨⟨[("docs", .directory ⟨[("v1", .directory ⟨[
    ("public.json", .file (.text "\x7b\x7d"))]⟩)]⟩)]⟩⟩

/-- A page that was published goes with the documents. -/
theorem sitePages_lost : ∃ t t',
    sitePages.publish 1 "public" "%%SPECS%%" mergedTree = .ok "docs/site/v1-public.html" t ∧
    t.readText (sitePages.pagePath 1 "public") = .ok "\x7b\x7d" ∧
    sitePages.deleteDocuments t = .ok () t' ∧
    t'.readText (sitePages.pagePath 1 "public") = .error .missing :=
  ⟨_, _, rfl, rfl, rfl, rfl⟩

end ApiDocs.Store
