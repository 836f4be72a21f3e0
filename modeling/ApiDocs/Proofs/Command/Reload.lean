import ApiDocs.Proofs.Files.Listing
import ApiDocs.Proofs.Store.Effect
import ApiDocs.Proofs.Store.Merged
import ApiDocs.Proofs.Versions.Overlay
/-!
# What commands leave as it is

Commands write merged documents and pages, into the very tree that they scan. None of these has the
name of a document, so what is loaded from a directory does not change, however commands end.
-/
namespace ApiDocs

open Effect (final outcome ReadOnly Respects)

namespace Store

variable {s : Store} {reserved : List String} {t t' : FileTree}

/-- What is loaded from a directory does not change while its documents are kept. -/
theorem outcome_loadHeap (hsound : t.isSound) (hroot : t.isDirectory s.root)
    (hkeeps : Directory.Keeps reserved t.root t'.root) :
    outcome (s.loadHeap reserved t') = outcome (s.loadHeap reserved t) := by
  have hload : ∀ t : FileTree, s.loadHeap reserved t = addFiles {} (t.scan s.root reserved) t :=
    fun _ => rfl
  rw [hload, hload, FileTree.scan_kept hroot hkeeps]
  exact outcome_addFiles {} fun file => FileTree.readText_kept hsound hroot hkeeps

end Store

namespace Command

open CommandEffect (about stop readNamed)

/-- The path documents of one tree are those of another. -/
def KeepsDocuments (t t' : FileTree) : Prop :=
  Directory.Keeps reservedNames t.root t'.root

theorem keeps_refl (t : FileTree) : KeepsDocuments t t :=
  Directory.Keeps.refl reservedNames t.root

theorem keeps_trans (a b c : FileTree) (h : KeepsDocuments a b) (h' : KeepsDocuments b c) :
    KeepsDocuments a c :=
  Directory.Keeps.trans h h'

theorem respects_writeText {path text : String}
    (hname : ∀ name, FilePath.name? path = some name →
      Scan.isDocument reservedNames name = false) :
    Respects KeepsDocuments (FileEffect.writeText path text) := by
  intro t
  rw [FileEffect.writeText, FileEffect.final_change]
  obtain ⟨result, t', hwrite⟩ : ∃ result t', t.write path (.text text) = (result, t') :=
    ⟨_, _, rfl⟩
  rw [hwrite]
  exact FileTree.keeps_of_write hwrite hname

theorem about_eq {α : Type} (contexts : List String) (effect : FileEffect α) (t : FileTree) :
    about contexts effect t =
      match effect t with
      | .ok a files => .ok a files
      | .error e files => .error ⟨contexts, some (.failed e)⟩ files :=
  rfl

theorem about_eq_ok_iff {α : Type} {contexts : List String} {effect : FileEffect α} {a : α}
    {t t' : FileTree} : about contexts effect t = .ok a t' ↔ effect t = .ok a t' := by
  rw [about_eq]
  cases effect t <;> simp

theorem about_eq_error_iff {α : Type} {contexts : List String} {effect : FileEffect α} {f : Failure}
    {t t' : FileTree} : about contexts effect t = .error f t' ↔
      ∃ e, effect t = .error e t' ∧ f = ⟨contexts, some (.failed e)⟩ := by
  rw [about_eq]
  cases effect t <;> simp [and_comm, eq_comm]

theorem final_about {α : Type} (contexts : List String) (effect : FileEffect α) (t : FileTree) :
    final (about contexts effect t) = final (effect t) := by
  rw [about_eq]
  cases effect t <;> rfl

theorem readOnly_about {α : Type} (contexts : List String) {effect : FileEffect α}
    (h : ReadOnly effect) : ReadOnly (about contexts effect) :=
  fun t => (final_about contexts effect t).trans (h t)

theorem respects_about {α : Type} (contexts : List String) {effect : FileEffect α}
    (h : Respects KeepsDocuments effect) : Respects KeepsDocuments (about contexts effect) := by
  intro t
  rw [final_about]
  exact h t

theorem readOnly_stop {α : Type} (text : String) : ReadOnly (stop text : CommandEffect α) :=
  Effect.readOnly_throw _

theorem readOnly_readNamed (context path : String) : ReadOnly (readNamed context path) := by
  apply Effect.readOnly_get.bind
  intro t
  split
  · exact Effect.readOnly_pure _
  · exact Effect.readOnly_throw _

theorem readOnly_loadHeap (s : Store) : ReadOnly (loadHeap s) :=
  readOnly_about _ (Store.readOnly_loadHeap s reservedNames)

theorem readOnly_latestOf (heap : VersionHeap) (docs : String) : ReadOnly (latestOf heap docs) := by
  unfold latestOf
  split
  · exact Effect.readOnly_pure _
  · exact readOnly_stop _

theorem readOnly_chooseLatest (given? : Option Nat) (heap : VersionHeap) (docs : String) :
    ReadOnly (chooseLatest given? heap docs) := by
  have hchecked : ∀ latest : Nat, ReadOnly
      (if latest = 0 then stop "The latest version must be a positive integer" else pure latest :
        CommandEffect Nat) := by
    intro latest
    split
    · exact readOnly_stop _
    · exact Effect.readOnly_pure _
  cases given? with
  | some latest => exact hchecked latest
  | none => exact (readOnly_latestOf heap docs).bind hchecked

theorem readOnly_resolve (selector : VersionSelector) (latest : Nat) :
    ReadOnly (about [] (liftM (selector.resolve latest))) :=
  readOnly_about [] (Effect.readOnly_lift _)

theorem readOnly_loadTags (path : String) : ReadOnly (loadTags path) := by
  apply (readOnly_readNamed _ path).bind
  intro text
  split
  · exact Effect.readOnly_pure _
  · exact Effect.readOnly_throw _

private theorem respects_saveAll {s : Store} {version : Nat} {entries : List (String × Document)}
    (h : ∀ e ∈ entries, e.1 ∈ MergeStrategy.byModifier.buckets) :
    Respects KeepsDocuments (Merger.saveAll s.saver version entries) := by
  induction entries with
  | nil => exact (Effect.readOnly_pure ()).respects keeps_refl
  | cons e entries ih =>
    obtain ⟨hbucket, hrest⟩ := List.forall_mem_cons.mp h
    have hsave : Respects KeepsDocuments (s.saver version e.1 e.2) := by
      apply respects_writeText
      intro name hname
      rw [Store.name?_mergedPath hbucket] at hname
      rw [← Option.some.inj hname]
      exact Store.isDocument_bucketName hbucket s.format
    exact hsave.bind keeps_trans fun _ _ _ _ => ih hrest

theorem bucket_of_mem_merged {heap : VersionHeap} {root : DocumentRoot} {version : Nat}
    {e : String × Document} (he : e ∈ (heap.merged .byModifier root version).entries) :
    e.1 ∈ MergeStrategy.byModifier.buckets :=
  VersionHeap.mem_keys_merged.mp (List.mem_map_of_mem he)

private theorem respects_mergeAndSave {m : Merger FileTree} {s : Store}
    (hstrategy : m.strategy? = some .byModifier) (hsaver : m.saver? = some s.saver)
    (version : Nat) : Respects KeepsDocuments (m.mergeAndSave version) := by
  apply (Effect.readOnly_lift _).respects_bind keeps_refl
  intro _ save hsave
  have hsave' : m.saver = .ok save := (Effect.lift_eq_ok_iff.mp hsave).1
  rw [Merger.saver, hsaver] at hsave'
  obtain rfl := Except.ok.inj hsave'
  apply (Effect.readOnly_lift _).respects_bind keeps_refl
  intro _ documents hmerge
  obtain ⟨_, rfl⟩ := (Merger.merge_eq_ok_iff hstrategy).mp (Effect.lift_eq_ok_iff.mp hmerge).1
  have hsaved : Respects KeepsDocuments (Merger.saveAll s.saver version
      (m.heap.merged .byModifier m.root version).entries) :=
    respects_saveAll fun e => bucket_of_mem_merged
  exact hsaved.bind keeps_trans fun _ _ _ _ => (Effect.readOnly_pure _).respects keeps_refl

private theorem respects_mergeVersions {m : Merger FileTree} {s : Store}
    (hstrategy : m.strategy? = some .byModifier) (hsaver : m.saver? = some s.saver)
    (versions : List Nat) : Respects KeepsDocuments (mergeVersions m versions) := by
  induction versions with
  | nil => exact (Effect.readOnly_pure ()).respects keeps_refl
  | cons version versions ih =>
    have hmerged := respects_about [s!"Failed to merge version {version}"]
      (respects_mergeAndSave hstrategy hsaver version)
    exact hmerged.bind keeps_trans fun _ _ _ _ => ih

theorem respects_runMerge (a : MergeArguments) : Respects KeepsDocuments (runMerge a) := by
  apply Effect.readOnly_get.respects_bind keeps_refl
  intro _ t _
  split
  · exact (readOnly_stop _).respects keeps_refl
  apply (readOnly_loadHeap _).respects_bind keeps_refl
  intro _ heap _
  apply (readOnly_chooseLatest _ _ _).respects_bind keeps_refl
  intro _ latest _
  apply (readOnly_resolve _ _).respects_bind keeps_refl
  intro _ versions _
  split
  · apply (readOnly_loadTags _).respects_bind keeps_refl
    intro _ tags _
    exact respects_mergeVersions rfl rfl versions
  · exact respects_mergeVersions rfl rfl versions

private theorem respects_publish {s : Store} {bucket : String}
    (hbucket : bucket ∈ MergeStrategy.byModifier.buckets) (version : Nat) (template : String) :
    Respects KeepsDocuments (s.publish version bucket template) := by
  apply (Store.readOnly_loadFile? s.format (s.mergedPath version bucket)).respects_bind keeps_refl
  intro _ document? _
  cases document? with
  | none => exact (Effect.readOnly_throw _).respects keeps_refl
  | some document =>
    have hwrite : Respects KeepsDocuments
        (FileEffect.writeText (s.pagePath version bucket) (Store.render template document)) := by
      apply respects_writeText
      intro name hname
      rw [Store.name?_pagePath hbucket] at hname
      rw [← Option.some.inj hname]
      exact Store.isDocument_pageName reservedNames version bucket
    exact hwrite.bind keeps_trans fun _ _ _ _ => (Effect.readOnly_pure _).respects keeps_refl

theorem mem_pagesOf_iff {versions : List Nat} {page : Nat × String} : page ∈ pagesOf versions ↔
    ∃ version ∈ versions, ∃ bucket ∈ MergeStrategy.byModifier.buckets, (version, bucket) = page := by
  rw [pagesOf, List.mem_flatMap]
  simp only [List.mem_map]

theorem bucket_of_mem_pagesOf {versions : List Nat} {page : Nat × String}
    (h : page ∈ pagesOf versions) : page.2 ∈ MergeStrategy.byModifier.buckets := by
  obtain ⟨version, _, bucket, hbucket, rfl⟩ := mem_pagesOf_iff.mp h
  exact hbucket

private theorem readOnly_handle (selector : VersionSelector) (e : Error) : ReadOnly
    (match e, selector with
      | .invalidArgument _, .all => pure ()
      | e, _ => throw e : FileEffect Unit) := by
  split
  · exact Effect.readOnly_pure ()
  · exact Effect.readOnly_throw _

private theorem respects_publishPages {s : Store} {template : String} {selector : VersionSelector}
    {pages : List (Nat × String)} (h : ∀ page ∈ pages, page.2 ∈ MergeStrategy.byModifier.buckets) :
    Respects KeepsDocuments (publishPages s template selector pages) := by
  induction pages with
  | nil => exact (Effect.readOnly_pure ()).respects keeps_refl
  | cons page pages ih =>
    obtain ⟨hbucket, hrest⟩ := List.forall_mem_cons.mp h
    have hpublish := (respects_publish hbucket page.1 template (s := s)).bind keeps_trans
      fun _ _ _ _ => (Effect.readOnly_pure ()).respects keeps_refl
    have hcaught := hpublish.tryCatch keeps_trans fun e =>
      (readOnly_handle selector e).respects keeps_refl
    exact (respects_about _ hcaught).bind keeps_trans fun _ _ _ _ => ih hrest

theorem respects_runPublish (a : PublishArguments) : Respects KeepsDocuments (runPublish a) := by
  apply (readOnly_readNamed _ _).respects_bind keeps_refl
  intro _ template _
  apply (readOnly_loadHeap _).respects_bind keeps_refl
  intro _ heap _
  apply (readOnly_latestOf _ _).respects_bind keeps_refl
  intro _ latest _
  apply (readOnly_resolve _ _).respects_bind keeps_refl
  intro _ versions _
  exact respects_publishPages fun page => bucket_of_mem_pagesOf

/-- The directory of documents that a command works on. -/
def docs : Command → String
  | .merge a => a.docs
  | .publish a => a.docs

/-- The tree that commands leave, each run on what the one before left, also where it failed. -/
def runAll (commands : List Command) (t : FileTree) : FileTree :=
  commands.foldl (fun t command => final (command.run t)) t

theorem respects_run (command : Command) : Respects KeepsDocuments command.run := by
  cases command with
  | merge a => exact respects_runMerge a
  | publish a => exact respects_runPublish a

theorem keeps_runAll (commands : List Command) (t : FileTree) :
    KeepsDocuments t (runAll commands t) := by
  induction commands generalizing t with
  | nil => exact keeps_refl t
  | cons command commands ih =>
    exact keeps_trans _ _ _ (respects_run command t) (ih (final (command.run t)))

private theorem final_publishPages {s : Store} {template : String} {selector : VersionSelector}
    {t : FileTree} {pages : List (Nat × String)}
    (h : ∀ page ∈ pages, ∀ text, t.readText (s.mergedPath page.1 page.2) ≠ .ok text) :
    final (publishPages s template selector pages t) = t := by
  induction pages with
  | nil => rfl
  | cons page pages ih =>
    obtain ⟨hpage, hrest⟩ := List.forall_mem_cons.mp h
    have hload : ∀ document, s.loadMerged? page.1 page.2 t ≠ .ok (some document) t := by
      intro document hok
      obtain ⟨text?, _, hread, hparse⟩ := Effect.bind_eq_ok_iff.mp hok
      rw [FileEffect.readText?, FileEffect.read_eq] at hread
      cases htext : t.readText (s.mergedPath page.1 page.2) with
      | ok text => exact hpage text htext
      | error fault =>
        rw [htext] at hread
        cases fault <;> cases hread
        cases hparse
    have hpublish : final (s.publish page.1 page.2 template t) = t := by
      apply Effect.final_bind (Store.readOnly_loadFile? s.format (s.mergedPath page.1 page.2) t)
      intro document? hdocument
      cases document? with
      | none => rfl
      | some document => exact absurd hdocument (hload document)
    apply Effect.final_bind
    · rw [final_about]
      apply Effect.final_tryCatch ?_ (readOnly_handle selector)
      exact Effect.final_bind hpublish fun _ _ => rfl
    · intro _ _
      exact ih hrest

theorem root_publishStore (a : PublishArguments) : (publishStore a).root = a.docs := by
  unfold publishStore
  cases a.output? <;> rfl

private theorem final_runPublish_of_file {a : PublishArguments} {t : FileTree} {content : Content}
    (h : t.lookup a.docs = .ok (.file content)) : final (runPublish a t) = t := by
  apply Effect.final_bind (readOnly_readNamed _ _ t)
  intro template _
  apply Effect.final_bind (readOnly_loadHeap _ t)
  intro heap _
  apply Effect.final_bind (readOnly_latestOf _ _ t)
  intro latest _
  apply Effect.final_bind (readOnly_resolve _ _ t)
  intro versions _
  apply final_publishPages
  intro page hpage
  have hparts := Store.parts_mergedPath (s := publishStore a)
    (root_publishStore a ▸ (FileTree.lookup_eq_file_iff.mp h).1) (bucket_of_mem_pagesOf hpage) page.1
  rw [root_publishStore] at hparts
  exact FileTree.readText_below_file h hparts

private theorem final_runPublish_of_error {a : PublishArguments} {t : FileTree} {fault : Fault}
    (h : t.lookup a.docs = .error fault) : final (runPublish a t) = t := by
  have hscan : t.scan (publishStore a).root reservedNames = [] := by
    rw [FileTree.scan, root_publishStore, h]
  have hload : loadHeap (publishStore a) t = .ok {} t := by
    have hheap : (publishStore a).loadHeap reservedNames t =
        Store.addFiles {} (t.scan (publishStore a).root reservedNames) t := rfl
    rw [hscan] at hheap
    rw [loadHeap, about_eq, hheap]
    rfl
  apply Effect.final_bind (readOnly_readNamed _ _ t)
  intro template _
  apply Effect.final_bind (readOnly_loadHeap _ t)
  intro heap hheap
  rw [hload] at hheap
  cases hheap
  -- no version is found, so the command stops
  rfl

/-- Without a directory of documents nothing is changed at all. -/
theorem final_run_of_not_directory {command : Command} {t : FileTree}
    (h : t.isDirectory command.docs = false) : final (command.run t) = t := by
  cases command with
  | merge a =>
    apply Effect.final_bind (Effect.readOnly_get t)
    intro found hfound
    obtain ⟨rfl, _⟩ := Effect.get_eq_ok_iff.mp hfound
    have hdocs : found.isDirectory a.docs = false := h
    rw [hdocs]
    rfl
  | publish a =>
    have hdocs : t.isDirectory a.docs = false := h
    unfold FileTree.isDirectory at hdocs
    cases hlookup : t.lookup a.docs with
    | error fault => exact final_runPublish_of_error hlookup
    | ok entry =>
      cases entry with
      | file content => exact final_runPublish_of_file hlookup
      | directory d =>
        rw [hlookup] at hdocs
        cases hdocs

/-- What is loaded from a directory is what was loaded before commands were run: any commands if
the directory is there, and else those that work on it. -/
theorem outcome_loadHeap_runAll {t : FileTree} (hsound : t.isSound) {root : String}
    {commands : List Command}
    (hroot : t.isDirectory root ∨ ∀ command ∈ commands, command.docs = root) :
    outcome ((Store.ofRoot root).loadHeap reservedNames (runAll commands t)) =
      outcome ((Store.ofRoot root).loadHeap reservedNames t) := by
  by_cases hdirectory : t.isDirectory root
  · exact Store.outcome_loadHeap hsound hdirectory (keeps_runAll commands t)
  · have hdocs := hroot.resolve_left hdirectory
    have hsame : runAll commands t = t := by
      clear hroot
      induction commands with
      | nil => rfl
      | cons command commands ih =>
        obtain ⟨hcommand, hrest⟩ := List.forall_mem_cons.mp hdocs
        have hfinal : final (command.run t) = t :=
          final_run_of_not_directory (by rw [hcommand]; exact Bool.eq_false_iff.mpr hdirectory)
        rw [runAll, List.foldl_cons, hfinal]
        exact ih hrest
    rw [hsame]

end Command
end ApiDocs
