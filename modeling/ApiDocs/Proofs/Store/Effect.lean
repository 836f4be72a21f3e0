import ApiDocs.Proofs.Effect
import ApiDocs.Store
/-!
# Effects on files

Reading leaves the tree as it is and depends on nothing but the texts that are read. A change that
succeeds is the change of the tree.
-/
namespace ApiDocs

open Effect (final outcome ReadOnly)

theorem ofFault_eq_ok_iff {α : Type} {result : Except Fault α} {a : α} :
    ofFault result = .ok a ↔ result = .ok a := by
  cases result with
  | ok b => simp [ofFault]
  | error fault => simp [ofFault]

namespace FileEffect

variable {t t' : FileTree}

theorem change_eq_ok_iff {act : FileTree → Except Fault Unit × FileTree} :
    change act t = .ok () t' ↔ act t = (.ok (), t') := by
  rw [change, Effect.bind_eq_ok_iff]
  constructor
  · rintro ⟨_, _, hget, h⟩
    obtain ⟨rfl, rfl⟩ := Effect.get_eq_ok_iff.mp hget
    obtain ⟨_, _, hset, h⟩ := Effect.bind_eq_ok_iff.mp h
    obtain rfl := Effect.set_eq_ok_iff.mp hset
    obtain ⟨hresult, rfl⟩ := Effect.lift_eq_ok_iff.mp h
    exact Prod.ext (ofFault_eq_ok_iff.mp hresult) rfl
  · intro h
    refine ⟨t, t, Effect.get_eq_ok_iff.mpr ⟨rfl, rfl⟩, ?_⟩
    rw [h]
    exact Effect.bind_eq_ok_iff.mpr ⟨⟨⟩, t', Effect.set_eq_ok_iff.mpr rfl, rfl⟩

theorem writeText_eq_ok_iff {path text : String} :
    writeText path text t = .ok () t' ↔ t.write path (.text text) = (.ok (), t') :=
  change_eq_ok_iff

theorem change_eq_error_iff {act : FileTree → Except Fault Unit × FileTree} {e : Error} :
    change act t = .error e t' ↔ ∃ fault, act t = (.error fault, t') ∧ e = .io fault.message := by
  have hchange : change act t = (liftM (ofFault (act t).1) : FileEffect Unit) (act t).2 := rfl
  rw [hchange, Effect.lift_eq_error_iff]
  obtain ⟨result, t₁⟩ := act t
  cases result with
  | ok _ => simp [ofFault]
  | error fault =>
    simp only [ofFault, Except.error.injEq, Prod.mk.injEq]
    constructor
    · rintro ⟨rfl, rfl⟩
      exact ⟨fault, ⟨rfl, rfl⟩, rfl⟩
    · rintro ⟨_, ⟨rfl, rfl⟩, rfl⟩
      exact ⟨rfl, rfl⟩

theorem read_eq {α : Type} (look : FileTree → Except Fault α) : read look t =
    match look t with
    | .ok a => .ok a t
    | .error fault => .error (.io fault.message) t := by
  have hread : read look t = (liftM (ofFault (look t)) : FileEffect α) t := rfl
  rw [hread]
  cases look t <;> rfl

theorem readOnly_read {α : Type} (look : FileTree → Except Fault α) : ReadOnly (read look) :=
  Effect.readOnly_get.bind fun t => Effect.readOnly_lift (ofFault (look t))

theorem final_change (act : FileTree → Except Fault Unit × FileTree) :
    final (change act t) = (act t).2 :=
  Effect.readOnly_lift (ofFault (act t).1) (act t).2

end FileEffect

namespace Store

variable {t t' : FileTree}

/-- One more file of which documents are added to a heap. -/
theorem addFiles_eq (heap : VersionHeap) (file : String) (files : List String) :
    addFiles heap (file :: files) t =
      match t.readText file with
      | .error fault => .error (.io fault.message) t
      | .ok text =>
        match Json.parse? text with
        | none => .error (corrupt file) t
        | some document =>
          if !document.isObject then addFiles heap files t
          else
            match VersionHeap.insertJson document heap with
            | .error _ _ => .error (corrupt file) t
            | .ok _ heap => addFiles heap files t := by
  rw [addFiles]
  simp only [Bind.bind, EStateM.bind, FileEffect.read_eq]
  cases t.readText file with
  | error fault => rfl
  | ok text =>
    dsimp only
    cases Json.parse? text with
    | none => rfl
    | some document =>
      dsimp only
      split
      · rfl
      · rw [Effect.attempt]
        cases VersionHeap.insertJson document heap <;> rfl

private theorem readOnly_addFiles (heap : VersionHeap) (files : List String) :
    ReadOnly (addFiles heap files) := by
  induction files generalizing heap with
  | nil => exact Effect.readOnly_pure heap
  | cons file files ih =>
    intro t
    rw [addFiles_eq]
    split
    · rfl
    split
    · rfl
    split
    · exact ih heap t
    split
    · rfl
    · exact ih _ t

theorem outcome_addFiles (heap : VersionHeap) {files : List String}
    (hread : ∀ file ∈ files, t'.readText file = t.readText file) :
    outcome (addFiles heap files t') = outcome (addFiles heap files t) := by
  induction files generalizing heap with
  | nil => rfl
  | cons file files ih =>
    have ih := fun heap => ih heap fun f hf => hread f (List.mem_cons_of_mem _ hf)
    rw [addFiles_eq, addFiles_eq, hread file List.mem_cons_self]
    split
    · rfl
    split
    · rfl
    split
    · exact ih heap
    split
    · rfl
    · exact ih _

theorem readOnly_loadHeap (s : Store) (reserved : List String) : ReadOnly (s.loadHeap reserved) :=
  Effect.readOnly_get.bind fun t => readOnly_addFiles {} (t.scan s.root reserved)

theorem readOnly_loadFile? (format : Format) (path : String) : ReadOnly (loadFile? format path) := by
  apply (FileEffect.readOnly_read _).bind
  intro text?
  cases text? with
  | none => exact Effect.readOnly_pure none
  | some text =>
    dsimp only
    split
    · exact Effect.readOnly_pure _
    · exact Effect.readOnly_throw _

theorem outcome_loadFile? (format : Format) (path : String) : outcome (loadFile? format path t) =
    match t.readText path with
    | .ok text =>
      match format.parse? text with
      | some value => .ok (some value)
      | none => .error (corrupt path)
    | .error .missing => .ok none
    | .error fault => .error (.io fault.message) := by
  rw [loadFile?]
  simp only [Bind.bind, EStateM.bind, FileEffect.readText?, FileEffect.read_eq]
  cases t.readText path with
  | ok text =>
    dsimp only
    cases format.parse? text <;> rfl
  | error fault => cases fault <;> rfl

theorem outcome_loadFile?_eq_some_iff {format : Format} {path : String} {document : Json} :
    outcome (loadFile? format path t) = .ok (some document) ↔
      ∃ text, t.readText path = .ok text ∧ format.parse? text = some document := by
  rw [outcome_loadFile?]
  cases t.readText path with
  | ok text => cases hparse : format.parse? text <;> simp [hparse]
  | error fault => cases fault <;> simp

theorem outcome_loadFile?_eq_none_iff {format : Format} {path : String} :
    outcome (loadFile? format path t) = .ok none ↔ t.readText path = .error .missing := by
  rw [outcome_loadFile?]
  cases t.readText path with
  | ok text => cases hparse : format.parse? text <;> simp [hparse]
  | error fault => cases fault <;> simp

end Store
end ApiDocs
