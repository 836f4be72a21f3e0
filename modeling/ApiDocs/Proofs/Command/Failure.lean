import ApiDocs.Proofs.Command.Merge
/-!
# How a merge fails

A merge stops for what it reads, before it writes anything, or at the first file that cannot be
written. Every way to stop has its own text.
-/
namespace ApiDocs

open Effect (outcome)
open FileTree (Writes WritesUntil)

namespace Command

open CommandEffect (about)

variable {a : MergeArguments} {t t' : FileTree} {f : Failure}

/-- The directory of documents is there, and a heap is loaded from it. -/
structure Loads (a : MergeArguments) (t : FileTree) (heap : VersionHeap) : Prop where
  directory : t.isDirectory a.docs
  loaded : outcome ((Store.ofRoot a.docs).loadHeap reservedNames t) = .ok heap

/-- A merge that stops before it writes, and how it tells why. -/
inductive Refusal (a : MergeArguments) (t : FileTree) : Failure → Prop where
  | noDirectory (hdocs : t.isDirectory a.docs = false) :
      Refusal a t ⟨[s!"Documents directory does not exist: {a.docs}"], none⟩
  | notLoaded {e : Error} (hdocs : t.isDirectory a.docs)
      (hload : outcome ((Store.ofRoot a.docs).loadHeap reservedNames t) = .error e) :
      Refusal a t ⟨["Failed to load path documents"], some (.failed e)⟩
  | noVersion {heap : VersionHeap} (hloads : Loads a t heap)
      (hlatest : a.latest?.or heap.latest? = none) :
      Refusal a t ⟨[s!"No versioned path documents found in {a.docs}"], none⟩
  | noLatest {heap : VersionHeap} (hloads : Loads a t heap)
      (hlatest : a.latest?.or heap.latest? = some 0) :
      Refusal a t ⟨["The latest version must be a positive integer"], none⟩
  | rejected {heap : VersionHeap} {latest : Nat} {e : Error} (hloads : Loads a t heap)
      (hlatest : a.latest?.or heap.latest? = some latest) (hpositive : 1 ≤ latest)
      (hversion : a.version.resolve latest = .error e) : Refusal a t ⟨[], some (.failed e)⟩
  | tagsUnreadable {heap : VersionHeap} {latest : Nat} {versions : List Nat} {path : String}
      {fault : Fault} (hloads : Loads a t heap)
      (hlatest : a.latest?.or heap.latest? = some latest) (hpositive : 1 ≤ latest)
      (hversions : a.version.resolve latest = .ok versions) (htags : a.tags? = some path)
      (hread : t.readText path = .error fault) :
      Refusal a t ⟨[s!"Failed to read tags file: {path}"], some (.unreadable fault)⟩
  | tagsMalformed {heap : VersionHeap} {latest : Nat} {versions : List Nat} {path text : String}
      (hloads : Loads a t heap) (hlatest : a.latest?.or heap.latest? = some latest)
      (hpositive : 1 ≤ latest) (hversions : a.version.resolve latest = .ok versions)
      (htags : a.tags? = some path) (hread : t.readText path = .ok text)
      (hparse : TagsFile.parse? text = none) :
      Refusal a t ⟨[s!"Failed to parse tags file: {path}"], some .malformed⟩
  | versionZero {heap : VersionHeap} {latest : Nat} {tags : List Tag}
      (hreads : Reads a t heap latest tags) (hzero : a.version = .single 0) :
      Refusal a t ⟨[s!"Failed to merge version {0}"],
        some (.failed (.invalidArgument "version must be a positive integer"))⟩

/-- A merge that stops at a file of a version. The files before it were written. -/
inductive WriteFailure (a : MergeArguments) (t : FileTree) : Failure → FileTree → Prop where
  | intro {heap : VersionHeap} {latest : Nat} {tags : List Tag} {done rest : List Nat}
      {version : Nat} {fault : Fault} {t₁ t' : FileTree} (hreads : Reads a t heap latest tags)
      (hversions : a.version.resolve latest = .ok (done ++ version :: rest))
      (hpositive : ∀ v ∈ done ++ [version], 1 ≤ v)
      (hdone : Writes (mergedFiles a heap tags done) t t₁)
      (hfails : WritesUntil (mergedFiles a heap tags [version]) t₁ fault t') :
      WriteFailure a t ⟨[s!"Failed to merge version {version}"],
        some (.failed (.io fault.message))⟩ t'

private theorem of_loadHeap_error (h : loadHeap (mergeStore a) t = .error f t') :
    ∃ e, outcome ((Store.ofRoot a.docs).loadHeap reservedNames t) = .error e ∧
      f = ⟨["Failed to load path documents"], some (.failed e)⟩ ∧ t' = t := by
  obtain ⟨e, hload, rfl⟩ := about_eq_error_iff.mp h
  obtain ⟨houtcome, rfl⟩ :=
    (Store.readOnly_loadHeap (mergeStore a) reservedNames).eq_error_iff.mp hload
  exact ⟨e, houtcome, rfl, rfl⟩

private theorem of_chooseLatest_error {given? : Option Nat} {heap : VersionHeap} {docs : String}
    (h : chooseLatest given? heap docs t = .error f t') :
    (given?.or heap.latest? = none ∧
        f = ⟨[s!"No versioned path documents found in {docs}"], none⟩ ∨
      given?.or heap.latest? = some 0 ∧
        f = ⟨["The latest version must be a positive integer"], none⟩) ∧ t' = t := by
  have hchecked : ∀ {found : Nat},
      (if found = 0 then CommandEffect.stop "The latest version must be a positive integer"
        else pure found : CommandEffect Nat) t = .error f t' →
        found = 0 ∧ f = ⟨["The latest version must be a positive integer"], none⟩ ∧ t' = t := by
    intro found h
    split at h
    · next hzero =>
      obtain ⟨rfl, rfl⟩ := Effect.throw_eq_error_iff.mp h
      exact ⟨hzero, rfl, rfl⟩
    · exact absurd h Effect.pure_ne_error
  cases given? with
  | some found =>
    obtain ⟨rfl, hf, ht⟩ := hchecked h
    exact ⟨.inr ⟨rfl, hf⟩, ht⟩
  | none =>
    rw [Option.none_or]
    rcases (readOnly_latestOf heap docs).bind_eq_error_iff.mp h with hstop | ⟨found, hfound, hzero⟩
    · unfold latestOf at hstop
      cases hlatest : heap.latest? with
      | none =>
        rw [hlatest] at hstop
        obtain ⟨rfl, rfl⟩ := Effect.throw_eq_error_iff.mp hstop
        exact ⟨.inl ⟨rfl, rfl⟩, rfl⟩
      | some found =>
        rw [hlatest] at hstop
        exact absurd hstop Effect.pure_ne_error
    · obtain ⟨rfl, hf, ht⟩ := hchecked hzero
      exact ⟨.inr ⟨latestOf_eq_ok_iff.mp hfound, hf⟩, ht⟩

private theorem of_readNamed_error {context path : String}
    (h : CommandEffect.readNamed context path t = .error f t') :
    (∃ fault, t.readText path = .error fault ∧ f = ⟨[context], some (.unreadable fault)⟩) ∧
      t' = t := by
  rcases Effect.readOnly_get.bind_eq_error_iff.mp h with hget | ⟨found, hget, h⟩
  · cases hget
  obtain ⟨rfl, _⟩ := Effect.get_eq_ok_iff.mp hget
  cases hread : found.readText path with
  | ok text =>
    rw [hread] at h
    exact absurd h Effect.pure_ne_error
  | error fault =>
    rw [hread] at h
    obtain ⟨rfl, rfl⟩ := Effect.throw_eq_error_iff.mp h
    exact ⟨⟨fault, rfl, rfl⟩, rfl⟩

private theorem of_loadTags_error {path : String} (h : loadTags path t = .error f t') :
    ((∃ fault, t.readText path = .error fault ∧
        f = ⟨[s!"Failed to read tags file: {path}"], some (.unreadable fault)⟩) ∨
      ∃ text, t.readText path = .ok text ∧ TagsFile.parse? text = none ∧
        f = ⟨[s!"Failed to parse tags file: {path}"], some .malformed⟩) ∧ t' = t := by
  rcases (readOnly_readNamed _ path).bind_eq_error_iff.mp h with hstop | ⟨text, htext, hparse⟩
  · obtain ⟨hfault, ht⟩ := of_readNamed_error hstop
    exact ⟨.inl hfault, ht⟩
  · have hread := readNamed_eq_ok_iff.mp htext
    cases htags : TagsFile.parse? text with
    | none =>
      rw [htags] at hparse
      obtain ⟨rfl, rfl⟩ := Effect.throw_eq_error_iff.mp hparse
      exact ⟨.inr ⟨text, hread, htags, rfl⟩, rfl⟩
    | some tags =>
      rw [htags] at hparse
      exact absurd hparse Effect.pure_ne_error

private theorem of_saveAll_error {s : Store} {version : Nat} {entries : List (String × Document)}
    {e : Error} (h : Merger.saveAll s.saver version entries t = .error e t') :
    ∃ fault, WritesUntil (entries.map fun e =>
        (s.mergedPath version e.1, .text (s.format.print e.2.toJson))) t fault t' ∧
      e = .io fault.message := by
  induction entries generalizing t with
  | nil => exact absurd h Effect.pure_ne_error
  | cons entry entries ih =>
    rw [List.map_cons]
    rcases Effect.bind_eq_error_iff.mp h with hwrite | ⟨_, t₁, hwrite, hrest⟩
    · obtain ⟨fault, hwrite, he⟩ := FileEffect.change_eq_error_iff.mp hwrite
      exact ⟨fault, .stop hwrite, he⟩
    · obtain ⟨fault, hfails, he⟩ := ih hrest
      exact ⟨fault, .next (FileEffect.change_eq_ok_iff.mp hwrite) hfails, he⟩

private theorem of_mergeAndSave_error {m : Merger FileTree} {s : Store}
    (hstrategy : m.strategy? = some .byModifier) (hsaver : m.saver? = some s.saver)
    {version : Nat} {e : Error} (h : m.mergeAndSave version t = .error e t') :
    version = 0 ∧ e = .invalidArgument "version must be a positive integer" ∧ t' = t ∨
      1 ≤ version ∧ ∃ fault, WritesUntil ((m.heap.merged .byModifier m.root version).entries.map
        fun e => (s.mergedPath version e.1, .text (s.format.print e.2.toJson))) t fault t' ∧
        e = .io fault.message := by
  have hsave : m.saver = .ok s.saver := by rw [Merger.saver, hsaver]
  rw [Merger.mergeAndSave] at h
  rcases (Effect.readOnly_lift m.saver).bind_eq_error_iff.mp h with hstop | ⟨save, hfound, h⟩
  · rw [hsave] at hstop
    exact absurd hstop Effect.pure_ne_error
  obtain rfl : s.saver = save :=
    Except.ok.inj (hsave.symm.trans (Effect.lift_eq_ok_iff.mp hfound).1)
  rcases (Effect.readOnly_lift (m.merge version)).bind_eq_error_iff.mp h with
    hstop | ⟨documents, hmerge, h⟩
  · obtain ⟨hmerge, rfl⟩ := Effect.lift_eq_error_iff.mp hstop
    rw [Merger.merge_eq hstrategy] at hmerge
    split at hmerge
    · next hzero => exact .inl ⟨hzero, (Except.error.inj hmerge).symm, rfl⟩
    · cases hmerge
  · obtain ⟨hversion, rfl⟩ :=
      (Merger.merge_eq_ok_iff hstrategy).mp (Effect.lift_eq_ok_iff.mp hmerge).1
    rcases Effect.bind_eq_error_iff.mp h with hstop | ⟨_, _, _, hpure⟩
    · exact .inr ⟨hversion, of_saveAll_error hstop⟩
    · exact absurd hpure Effect.pure_ne_error

private theorem of_mergeVersions_error {heap : VersionHeap} {tags : List Tag}
    {m : Merger FileTree} (hm : m = ⟨heap, ⟨a.title, a.baseUrl, tags⟩, some .byModifier,
      some (mergeStore a).saver⟩) {versions : List Nat}
    (h : mergeVersions m versions t = .error f t') :
    ∃ done version rest t₁, versions = done ++ version :: rest ∧ (∀ v ∈ done, 1 ≤ v) ∧
      Writes (mergedFiles a heap tags done) t t₁ ∧
      (version = 0 ∧ t' = t₁ ∧ f = ⟨[s!"Failed to merge version {version}"],
          some (.failed (.invalidArgument "version must be a positive integer"))⟩ ∨
        1 ≤ version ∧ ∃ fault, WritesUntil (mergedFiles a heap tags [version]) t₁ fault t' ∧
          f = ⟨[s!"Failed to merge version {version}"], some (.failed (.io fault.message))⟩) := by
  induction versions generalizing t with
  | nil => exact absurd h Effect.pure_ne_error
  | cons version versions ih =>
    have hstrategy : m.strategy? = some .byModifier := by rw [hm]
    have hsaver : m.saver? = some (mergeStore a).saver := by rw [hm]
    have hfiles : (m.heap.merged .byModifier m.root version).entries.map (fun e =>
        ((mergeStore a).mergedPath version e.1, .text (a.format.print e.2.toJson))) =
          mergedFiles a heap tags [version] := by
      rw [hm, mergedFiles, List.flatMap_singleton]
    rcases Effect.bind_eq_error_iff.mp h with hstop | ⟨documents, t₁, hmerge, hrest⟩
    · obtain ⟨e, hmerge, rfl⟩ := about_eq_error_iff.mp hstop
      refine ⟨[], version, versions, t, rfl, List.forall_mem_nil _, .done t, ?_⟩
      rcases of_mergeAndSave_error hstrategy hsaver hmerge with
        ⟨hzero, rfl, ht⟩ | ⟨hversion, fault, hfails, rfl⟩
      · exact .inl ⟨hzero, ht, rfl⟩
      · exact .inr ⟨hversion, fault, hfiles ▸ hfails, rfl⟩
    · obtain ⟨hversion, rfl, hsaved⟩ :=
        (mergeAndSave_eq_ok_iff hstrategy hsaver).mp (about_eq_ok_iff.mp hmerge)
      have hfirst : Writes (mergedFiles a heap tags [version]) t t₁ :=
        hfiles ▸ saveAll_eq_ok_iff.mp hsaved
      obtain ⟨done, stopped, rest, t₂, rfl, hpositive, hwrites, hend⟩ := ih hrest
      refine ⟨version :: done, stopped, rest, t₂, rfl,
        List.forall_mem_cons.mpr ⟨hversion, hpositive⟩, ?_, hend⟩
      rw [← List.singleton_append, mergedFiles_append, FileTree.writes_append_iff]
      exact ⟨t₁, hfirst, hwrites⟩

private theorem single_of_resolve {selector : VersionSelector} {latest : Nat}
    {done rest : List Nat} (h : selector.resolve latest = .ok (done ++ 0 :: rest)) :
    selector = .single 0 ∧ done = [] := by
  cases selector with
  | all =>
    have hmem : 0 ∈ List.range' 1 latest := by
      rw [Except.ok.inj h]
      simp
    have hpositive := (List.mem_range'_1.mp hmem).1
    omega
  | single version =>
    rw [VersionSelector.resolve] at h
    split at h
    · have hsingle := Except.ok.inj h
      cases done with
      | nil =>
        rw [(List.cons.inj hsingle).1]
        exact ⟨rfl, rfl⟩
      | cons v done => simp at hsingle
    · cases h

/-- A merge that fails stopped before it wrote anything, or at a file that could not be written. -/
theorem of_runMerge_error (h : runMerge a t = .error f t') :
    (Refusal a t f ∧ t' = t) ∨ WriteFailure a t f t' := by
  rcases Effect.readOnly_get.bind_eq_error_iff.mp h with hget | ⟨found, hget, h⟩
  · cases hget
  obtain ⟨rfl, _⟩ := Effect.get_eq_ok_iff.mp hget
  split at h
  · next hdocs =>
    obtain ⟨rfl, rfl⟩ := Effect.throw_eq_error_iff.mp h
    exact .inl ⟨.noDirectory (by simpa using hdocs), rfl⟩
  next hdocs =>
  have hdirectory : found.isDirectory a.docs := by simpa using hdocs
  rcases (readOnly_loadHeap _).bind_eq_error_iff.mp h with hstop | ⟨heap, hheap, h⟩
  · obtain ⟨e, hload, rfl, ht⟩ := of_loadHeap_error hstop
    exact .inl ⟨.notLoaded hdirectory hload, ht⟩
  have hloads : Loads a found heap := ⟨hdirectory, loadHeap_eq_ok_iff.mp hheap⟩
  rcases (readOnly_chooseLatest _ _ _).bind_eq_error_iff.mp h with hstop | ⟨latest, hlatest, h⟩
  · obtain ⟨⟨hnone, rfl⟩ | ⟨hzero, rfl⟩, ht⟩ := of_chooseLatest_error hstop
    · exact .inl ⟨.noVersion hloads hnone, ht⟩
    · exact .inl ⟨.noLatest hloads hzero, ht⟩
  obtain ⟨hchosen, hpositive⟩ := chooseLatest_eq_ok_iff.mp hlatest
  rcases (readOnly_resolve _ _).bind_eq_error_iff.mp h with hstop | ⟨versions, hversions, h⟩
  · obtain ⟨e, hresolve, rfl⟩ := about_eq_error_iff.mp hstop
    obtain ⟨hrejected, rfl⟩ := Effect.lift_eq_error_iff.mp hresolve
    exact .inl ⟨.rejected hloads hchosen hpositive hrejected, rfl⟩
  have hresolved := resolve_eq_ok_iff.mp hversions
  have hmerging : ∀ {tags : List Tag}, tags? found a.tags? = some tags →
      mergeVersions ⟨heap, ⟨a.title, a.baseUrl, tags⟩, some .byModifier,
        some (mergeStore a).saver⟩ versions found = .error f t' →
      (Refusal a found f ∧ t' = found) ∨ WriteFailure a found f t' := by
    intro tags htags h
    have hreads : Reads a found heap latest tags :=
      ⟨hdirectory, hloads.loaded, hchosen, hpositive, htags⟩
    obtain ⟨done, version, rest, t₁, rfl, hdone, hwrites, hend⟩ := of_mergeVersions_error rfl h
    rcases hend with ⟨rfl, rfl, rfl⟩ | ⟨hversion, fault, hfails, rfl⟩
    · obtain ⟨hselector, rfl⟩ := single_of_resolve hresolved
      exact .inl ⟨.versionZero hreads hselector, (FileTree.writes_nil_iff.mp hwrites).symm⟩
    · refine .inr (.intro hreads hresolved ?_ hwrites hfails)
      rw [List.forall_mem_append]
      exact ⟨hdone, by simpa using hversion⟩
  cases hpath : a.tags? with
  | none =>
    rw [hpath] at h
    exact hmerging (by rw [hpath]; rfl) h
  | some path =>
    rw [hpath] at h
    rcases (readOnly_loadTags path).bind_eq_error_iff.mp h with hstop | ⟨tags, htags, h⟩
    · obtain ⟨⟨fault, hread, rfl⟩ | ⟨text, hread, hparse, rfl⟩, ht⟩ := of_loadTags_error hstop
      · exact .inl ⟨.tagsUnreadable hloads hchosen hpositive hresolved hpath hread, ht⟩
      · exact .inl ⟨.tagsMalformed hloads hchosen hpositive hresolved hpath hread hparse, ht⟩
    · exact hmerging (by rw [hpath]; exact loadTags_eq_ok_iff.mp htags) h

end Command
end ApiDocs
