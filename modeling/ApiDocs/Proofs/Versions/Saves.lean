import ApiDocs.Proofs.Effect
import ApiDocs.Proofs.Versions.Overlay
/-!
# Saving merged documents

Merged documents are saved version by version, and bucket by bucket within a version. The first
document that cannot be saved ends the run with its error, and nothing is saved after it.
-/
namespace ApiDocs

/-- What a saver is called with. -/
structure SaveCall where
  version : Nat
  bucket : String
  document : Document

/-- A run through planned calls of a saver, and the calls that it makes: each in turn, up to the
first that fails. -/
inductive SavesUntil {σ : Type} (save : Saver σ) :
    (planned made : List SaveCall) → σ → Except Error Unit → σ → Prop
  | done (state : σ) : SavesUntil save [] [] state (.ok ()) state
  | next {c : SaveCall} {planned made : List SaveCall} {state middle state' : σ}
      {answer : Except Error Unit}
      (hsave : save c.version c.bucket c.document state = .ok () middle)
      (hrest : SavesUntil save planned made middle answer state') :
      SavesUntil save (c :: planned) (c :: made) state answer state'
  | stop {c : SaveCall} {planned : List SaveCall} {state state' : σ} {e : Error}
      (hsave : save c.version c.bucket c.document state = .error e state') :
      SavesUntil save (c :: planned) [c] state (.error e) state'

namespace SavesUntil

variable {σ : Type} {save : Saver σ} {planned made : List SaveCall} {state state' : σ}
  {answer : Except Error Unit}

/-- A run that succeeds goes on. -/
theorem append {front back made' : List SaveCall} {middle : σ}
    (h : SavesUntil save front made state (.ok ()) middle)
    (hback : SavesUntil save back made' middle answer state') :
    SavesUntil save (front ++ back) (made ++ made') state answer state' := by
  generalize hok : (Except.ok () : Except Error Unit) = ok at h
  induction h with
  | done state => exact hback
  | next hsave _ ih => exact .next hsave (ih hback hok)
  | stop hsave => cases hok

/-- A run that fails is not continued. -/
theorem append_of_error {front : List SaveCall} {e : Error}
    (h : SavesUntil save front made state (.error e) state') (back : List SaveCall) :
    SavesUntil save (front ++ back) made state (.error e) state' := by
  generalize herror : (Except.error e : Except Error Unit) = error at h ⊢
  induction h with
  | done state => cases herror
  | next hsave _ ih => exact .next hsave (ih herror)
  | stop hsave => exact .stop hsave

theorem made_prefix (h : SavesUntil save planned made state answer state') : made <+: planned := by
  induction h with
  | done state => exact List.prefix_refl []
  | next _ _ ih => exact List.cons_prefix_cons.mpr ⟨rfl, ih⟩
  | stop _ => exact List.cons_prefix_cons.mpr ⟨rfl, List.nil_prefix⟩

end SavesUntil

namespace Merger

variable {σ : Type} {m : Merger σ} {s : MergeStrategy} {save : Saver σ} {state : σ}

/-- The calls that save the merged documents of versions: version by version, the buckets of each in
the order of their first mention, with the document that merging assigns to the bucket. -/
structure Plans (m : Merger σ) (s : MergeStrategy) (versions : List Nat)
    (planned : List SaveCall) : Prop where
  order : planned.map (fun c => (c.version, c.bucket)) =
    versions.flatMap fun version => s.buckets.eraseDups.map fun bucket => (version, bucket)
  document : ∀ c ∈ planned, ∃ documents, m.merge c.version = .ok documents ∧
    documents.get? c.bucket = some c.document

theorem plans_nil : m.Plans s [] [] :=
  ⟨rfl, List.forall_mem_nil _⟩

theorem Plans.append {versions later : List Nat} {planned rest : List SaveCall}
    (h : m.Plans s versions planned) (h' : m.Plans s later rest) :
    m.Plans s (versions ++ later) (planned ++ rest) where
  order := by rw [List.map_append, List.flatMap_append, h.order, h'.order]
  document := List.forall_mem_append.mpr ⟨h.document, h'.document⟩

/-- The calls for the documents of one version. -/
def callsOf (version : Nat) (documents : MergedDocuments) : List SaveCall :=
  documents.entries.map fun e => ⟨version, e.1, e.2⟩

theorem plans_of_merge (hstrategy : m.strategy? = some s) {version : Nat}
    {documents : MergedDocuments} (h : m.merge version = .ok documents) :
    m.Plans s [version] (callsOf version documents) := by
  obtain ⟨_, rfl⟩ := (merge_eq_ok_iff hstrategy).mp h
  have hkeys := m.heap.keys_merged s m.root version
  constructor
  · rw [callsOf, List.map_map, List.flatMap_singleton, ← hkeys, OrderedMap.keys, List.map_map]
    rfl
  · intro c hc
    obtain ⟨e, he, rfl⟩ := List.mem_map.mp hc
    exact ⟨_, h, (m.heap.distinct_merged s m.root version).mem_entries_iff.mp he⟩

theorem exists_plans (hstrategy : m.strategy? = some s) {versions : List Nat}
    (hpositive : ∀ version ∈ versions, 1 ≤ version) : ∃ planned, m.Plans s versions planned := by
  induction versions with
  | nil => exact ⟨[], plans_nil⟩
  | cons version rest ih =>
    obtain ⟨hversion, hrest⟩ := List.forall_mem_cons.mp hpositive
    obtain ⟨planned, hplanned⟩ := ih hrest
    exact ⟨_, (plans_of_merge hstrategy (merge_eq_ok hstrategy hversion)).append hplanned⟩

/-- Saving documents one after another makes the calls for them. -/
theorem savesUntil_saveAll (save : Saver σ) (version : Nat) (entries : List (String × Document))
    (state : σ) : ∃ made answer state',
      SavesUntil save (callsOf version ⟨entries⟩) made state answer state' ∧
        (saveAll save version entries).attempt state = (answer, state') := by
  induction entries generalizing state with
  | nil => exact ⟨[], .ok (), state, .done state, rfl⟩
  | cons e rest ih =>
    obtain ⟨bucket, document⟩ := e
    cases hsave : save version bucket document state with
    | ok _ middle =>
      obtain ⟨made, answer, state', hrest, hrun⟩ := ih middle
      exact ⟨_, answer, state', .next hsave hrest, (Effect.attempt_bind_of_ok hsave).trans hrun⟩
    | error e state' =>
      exact ⟨_, .error e, state', .stop hsave, Effect.attempt_bind_of_error hsave⟩

/-- A run that saves the documents of versions: from a state to an answer and another state. -/
def SavesVersions (m : Merger σ) (s : MergeStrategy) (save : Saver σ) (versions : List Nat)
    (state : σ) (answer : Except Error Unit) (state' : σ) : Prop :=
  ∃ planned made, m.Plans s versions planned ∧ SavesUntil save planned made state answer state'

theorem SavesVersions.append {versions later : List Nat} {middle state' : σ}
    {answer : Except Error Unit} (h : m.SavesVersions s save versions state (.ok ()) middle)
    (h' : m.SavesVersions s save later middle answer state') :
    m.SavesVersions s save (versions ++ later) state answer state' := by
  obtain ⟨_, _, hplans, hsaves⟩ := h
  obtain ⟨_, _, hplans', hsaves'⟩ := h'
  exact ⟨_, _, hplans.append hplans', hsaves.append hsaves'⟩

theorem SavesVersions.append_of_error {versions later : List Nat} {e : Error} {state' : σ}
    (h : m.SavesVersions s save versions state (.error e) state')
    (hstrategy : m.strategy? = some s) (hlater : ∀ version ∈ later, 1 ≤ version) :
    m.SavesVersions s save (versions ++ later) state (.error e) state' := by
  obtain ⟨_, _, hplans, hsaves⟩ := h
  obtain ⟨rest, hrest⟩ := exists_plans hstrategy hlater
  exact ⟨_, _, hplans.append hrest, hsaves.append_of_error rest⟩

theorem mergeAndSave_eq (hsaver : m.saver? = some save) {target : Nat}
    {documents : MergedDocuments} (h : m.merge target = .ok documents) :
    m.mergeAndSave target = saveAll save target documents.entries >>= fun _ => pure documents := by
  simp only [mergeAndSave, saver, hsaver, h]
  rfl

section Configured

variable (hstrategy : m.strategy? = some s) (hsaver : m.saver? = some save)

include hstrategy hsaver

/-- Merging one version saves its documents. -/
theorem mergeAndSave_saves {target : Nat} (hpositive : 1 ≤ target) (state : σ) :
    ∃ documents answer state', m.merge target = .ok documents ∧
      m.SavesVersions s save [target] state answer state' ∧
      (m.mergeAndSave target).attempt state = (answer.map fun _ => documents, state') := by
  have hmerge := merge_eq_ok hstrategy hpositive
  obtain ⟨made, answer, state', hsaves, hrun⟩ := savesUntil_saveAll save target
    (m.heap.merged s m.root target).entries state
  refine ⟨_, answer, state', hmerge, ⟨_, made, plans_of_merge hstrategy hmerge, hsaves⟩, ?_⟩
  rw [mergeAndSave_eq hsaver hmerge, Effect.attempt_bind_pure, hrun]

/-- One version after another is saved, up to the first that fails. -/
theorem mergeFrom_saves (count : Nat) {version : Nat} (hpositive : 1 ≤ version) (state : σ) :
    ∃ answer state', m.SavesVersions s save (List.range' version count) state answer state' ∧
      (m.mergeFrom count version).attempt state = (answer, state') := by
  induction count generalizing version state with
  | zero => exact ⟨.ok (), state, ⟨[], [], plans_nil, .done state⟩, rfl⟩
  | succ count ih =>
    obtain ⟨documents, first, middle, _, hfirst, hrun⟩ :=
      mergeAndSave_saves hstrategy hsaver hpositive state
    have hversions : List.range' version (count + 1) =
        [version] ++ List.range' (version + 1) count := List.range'_succ ..
    rw [hversions, mergeFrom]
    cases first with
    | ok _ =>
      obtain ⟨answer, state', hrest, hrestRun⟩ := ih (Nat.le_add_left 1 version) middle
      refine ⟨answer, state', hfirst.append hrest, ?_⟩
      rw [Effect.attempt_bind_of_ok (Effect.attempt_eq_ok_iff.mp hrun)]
      exact hrestRun
    | error e =>
      have hlater : ∀ v ∈ List.range' (version + 1) count, 1 ≤ v := fun v hv => by
        have hbound := (List.mem_range'_1.mp hv).1
        omega
      refine ⟨.error e, middle, hfirst.append_of_error hstrategy hlater, ?_⟩
      exact Effect.attempt_bind_of_error (Effect.attempt_eq_error_iff.mp hrun)

theorem mergeAll_saves (latest : Nat) (state : σ) :
    ∃ answer state', m.SavesVersions s save (List.range' 1 latest) state answer state' ∧
      (m.mergeAll latest).attempt state = (answer, state') := by
  have hrun : m.mergeAll latest = m.mergeFrom latest 1 := by
    simp only [mergeAll, strategy, saver, hstrategy, hsaver]
    rfl
  rw [hrun]
  exact mergeFrom_saves hstrategy hsaver latest (Nat.le_refl 1) state

end Configured

theorem mergeAll_unconfigured (h : m.strategy? = none ∨ m.saver? = none) (latest : Nat)
    (state : σ) :
    ∃ detail, m.mergeAll latest state = .error (.mergeConfiguration detail) state := by
  cases hstrategy : m.strategy? with
  | none =>
    simp only [mergeAll, strategy, hstrategy]
    exact ⟨_, rfl⟩
  | some s =>
    have hsaver : m.saver? = none := h.resolve_left (by simp [hstrategy])
    simp only [mergeAll, strategy, saver, hstrategy, hsaver]
    exact ⟨_, rfl⟩

/-- Nothing is saved of a version that cannot be merged. -/
theorem mergeAndSave_of_error {target : Nat} {e : Error} (h : m.merge target = .error e)
    (state : σ) : ∃ e', m.mergeAndSave target state = .error e' state ∧
      (m.saver?.isSome → e' = e) := by
  cases hsaver : m.saver? with
  | none =>
    simp only [mergeAndSave, saver, hsaver]
    exact ⟨_, rfl, nofun⟩
  | some save =>
    simp only [mergeAndSave, saver, hsaver, h]
    exact ⟨e, rfl, fun _ => rfl⟩

/-- Merging all versions up to the latest saves their documents one after another, version by
version and bucket by bucket, each as merging its version gives it. The first that cannot be saved
ends the run with its error, and nothing is saved after it. Merging one version does so for that
version. A run without a strategy or a saver, and one of a version that cannot be merged, saves
nothing. -/
theorem saves_up_to_failure (m : Merger σ) (state : σ) :
    (m.strategy? = none ∨ m.saver? = none → ∀ latest,
      ∃ detail, m.mergeAll latest state = .error (.mergeConfiguration detail) state) ∧
    (∀ target e, m.merge target = .error e → ∃ e', m.mergeAndSave target state = .error e' state ∧
      (m.saver?.isSome → e' = e)) ∧
    ∀ s save, m.strategy? = some s → m.saver? = some save →
      (∀ latest, ∃ planned made answer state',
        m.Plans s (List.range' 1 latest) planned ∧ made <+: planned ∧
        SavesUntil save planned made state answer state' ∧
        (m.mergeAll latest).attempt state = (answer, state')) ∧
      ∀ target, 1 ≤ target → ∃ documents planned made answer state',
        m.merge target = .ok documents ∧ m.Plans s [target] planned ∧ made <+: planned ∧
        SavesUntil save planned made state answer state' ∧
        (m.mergeAndSave target).attempt state = (answer.map fun _ => documents, state') := by
  refine ⟨fun h latest => mergeAll_unconfigured h latest state,
    fun target e h => mergeAndSave_of_error h state, fun s save hstrategy hsaver => ⟨?_, ?_⟩⟩
  · intro latest
    obtain ⟨answer, state', ⟨planned, made, hplans, hsaves⟩, hrun⟩ :=
      mergeAll_saves hstrategy hsaver latest state
    exact ⟨planned, made, answer, state', hplans, hsaves.made_prefix, hsaves, hrun⟩
  · intro target hpositive
    obtain ⟨documents, answer, state', hmerge, ⟨planned, made, hplans, hsaves⟩, hrun⟩ :=
      mergeAndSave_saves hstrategy hsaver hpositive state
    exact ⟨documents, planned, made, answer, state', hmerge, hplans, hsaves.made_prefix, hsaves,
      hrun⟩

-- A saver that notes what it is called for and refuses some documents.
private def noting (refuses : Nat → String → Bool) : Saver (List (Nat × String)) :=
  fun version bucket _ => do
    modify (· ++ [(version, bucket)])
    if refuses version bucket then throw (.invalidArgument s!"cannot save v{version}/{bucket}")

-- A bucket that is listed twice, and a document that cannot be saved.
private def repeatedBucket : Merger (List (Nat × String)) where
  heap := twoVersions.heap
  root := twoVersions.root
  strategy? := some { MergeStrategy.byModifier with buckets := ["private", "public", "private"] }
  saver? := some (noting fun version bucket => version = 2 && bucket = "private")

example : (repeatedBucket.mergeAll 3).attempt [] =
    (.error (.invalidArgument "cannot save v2/private"),
      [(1, "private"), (1, "public"), (2, "private")]) := by
  rfl

end Merger
end ApiDocs
