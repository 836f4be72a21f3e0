import ApiDocs.Document.Codec
import ApiDocs.Proofs.Files.Writes
import ApiDocs.Proofs.Store.Effect
import ApiDocs.Proofs.Store.Place
/-!
# Saving documents

Documents are saved one after another. The last one that is saved at a place stays there; where
none is saved, the file that was there before stays.
-/
namespace ApiDocs

open FilePath (parentName)

def PathDocument.text (d : PathDocument) : String :=
  (PathDocument.toJson d).pretty

namespace Store

variable {s : Store} {t t' : FileTree}

/-- Save documents by group, one after another. -/
def saveAll (s : Store) : List (String × PathDocument) → FileEffect Unit
  | [] => pure ()
  | (group, document) :: rest => do
    let _ ← s.saveDocument group (PathDocument.toJson document)
    s.saveAll rest

/-- The documents in whose place no later one is saved. -/
def standing (s : Store) : List (String × PathDocument) → List (String × PathDocument)
  | [] => []
  | e :: rest =>
    if rest.any fun later => s.documentPlace later.1 == s.documentPlace e.1 then standing s rest
    else e :: standing s rest

private theorem mem_standing_cons {e found : String × PathDocument}
    {rest : List (String × PathDocument)} : found ∈ s.standing (e :: rest) ↔
      (found = e ∧ ∀ later ∈ rest, s.documentPlace later.1 ≠ s.documentPlace e.1) ∨
        found ∈ s.standing rest := by
  rw [standing]
  split
  · next htaken =>
    obtain ⟨later, hlater, hsame⟩ := List.any_eq_true.mp htaken
    refine ⟨.inr, fun h => h.resolve_left ?_⟩
    exact fun hfree => hfree.2 later hlater (beq_iff_eq.mp hsame)
  · next htaken =>
    have hfree : ∀ later ∈ rest, s.documentPlace later.1 ≠ s.documentPlace e.1 :=
      fun later hlater hsame =>
        htaken (List.any_eq_true.mpr ⟨later, hlater, beq_iff_eq.mpr hsame⟩)
    rw [List.mem_cons, and_iff_left hfree]

theorem standing_subset (entries : List (String × PathDocument)) :
    s.standing entries ⊆ entries := by
  induction entries with
  | nil => exact List.Subset.refl []
  | cons e rest ih =>
    intro found hfound
    rcases mem_standing_cons.mp hfound with ⟨rfl, _⟩ | hmem
    · exact List.mem_cons_self
    · exact List.mem_cons_of_mem _ (ih hmem)

/-- A document stands that shares its place with no other group. -/
theorem mem_standing {entries : List (String × PathDocument)} {e : String × PathDocument}
    (hdistinct : (entries.map Prod.fst).Nodup) (he : e ∈ entries)
    (hplace : ∀ later ∈ entries, s.documentPlace later.1 = s.documentPlace e.1 → later.1 = e.1) :
    e ∈ s.standing entries := by
  induction entries with
  | nil => cases he
  | cons first rest ih =>
    rw [List.map_cons, List.nodup_cons] at hdistinct
    rw [mem_standing_cons]
    rcases List.mem_cons.mp he with rfl | hmem
    · refine .inl ⟨rfl, fun later hlater hsame => hdistinct.1 ?_⟩
      rw [← hplace later (List.mem_cons_of_mem _ hlater) hsame]
      exact List.mem_map_of_mem hlater
    · refine .inr (ih hdistinct.2 hmem fun later hlater => ?_)
      exact hplace later (List.mem_cons_of_mem _ hlater)

theorem saveDocument_eq_ok_iff {uri path : String} {value : Json} :
    s.saveDocument uri value t = .ok path t' ↔
      path = s.documentPath uri ∧ t.write path (.text value.pretty) = (.ok (), t') := by
  rw [saveDocument, Effect.bind_eq_ok_iff]
  constructor
  · rintro ⟨_, _, hwrite, hpath⟩
    obtain ⟨rfl, rfl⟩ := Effect.pure_eq_ok_iff.mp hpath
    exact ⟨rfl, FileEffect.writeText_eq_ok_iff.mp hwrite⟩
  · intro ⟨hpath, hwrite⟩
    rw [hpath] at hwrite ⊢
    exact ⟨(), t', FileEffect.writeText_eq_ok_iff.mpr hwrite, rfl⟩

private theorem saveAll_cons_eq_ok {group : String} {document : PathDocument}
    {rest : List (String × PathDocument)}
    (h : s.saveAll ((group, document) :: rest) t = .ok () t') :
    ∃ t₁, t.write (s.documentPath group) (.text document.text) = (.ok (), t₁) ∧
      s.saveAll rest t₁ = .ok () t' := by
  rw [saveAll, Effect.bind_eq_ok_iff] at h
  obtain ⟨path, t₁, hsave, hrest⟩ := h
  obtain ⟨hpath, hwrite⟩ := saveDocument_eq_ok_iff.mp hsave
  exact ⟨t₁, hpath ▸ hwrite, hrest⟩

/-- The files of documents. -/
def documentFiles (s : Store) (entries : List (String × PathDocument)) : List (String × Content) :=
  entries.map fun e => (s.documentPath e.1, .text e.2.text)

theorem writes_of_saveAll {entries : List (String × PathDocument)}
    (h : s.saveAll entries t = .ok () t') : FileTree.Writes (s.documentFiles entries) t t' := by
  induction entries generalizing t with
  | nil =>
    obtain ⟨_, rfl⟩ := Effect.pure_eq_ok_iff.mp h
    exact .done t
  | cons e rest ih =>
    obtain ⟨t₁, hwrite, hrest⟩ := saveAll_cons_eq_ok h
    exact .next hwrite (ih hrest)

/-- What saving documents does to the files below the start. -/
structure Saved (s : Store) (entries : List (String × PathDocument)) (d d' : Directory) : Prop where
  valid : ∀ e ∈ entries, FilePath.isValid (s.documentPath e.1)
  file_iff : ∀ names c, names.getLast? ≠ some parentName → (d'.HasFile names c ↔
    (∃ e ∈ s.standing entries, s.documentPlace e.1 = names ∧ c = .text e.2.text) ∨
      (∀ e ∈ entries, s.documentPlace e.1 ≠ names) ∧ d.HasFile names c)
  directory : ∀ names, d.HasDirectory names → d'.HasDirectory names
  tidy : ∀ base, d.Tidy base → d'.Tidy base

private theorem saved_nil (s : Store) (d : Directory) : s.Saved [] d d where
  valid := by simp
  file_iff := by simp [standing]
  directory _ h := h
  tidy _ h := h

private theorem Saved.cons {group : String} {document : PathDocument}
    {rest : List (String × PathDocument)} {a b c : Directory}
    (hwritten : FileTree.Written (s.documentPath group) (.text document.text) a b)
    (hrest : s.Saved rest b c) : s.Saved ((group, document) :: rest) a c where
  valid e he := by
    rcases List.mem_cons.mp he with rfl | hmem
    · exact hwritten.valid
    · exact hrest.valid e hmem
  file_iff names content hlast := by
    have hfile : b.HasFile names content ↔ if names = s.documentPlace group then
        content = .text document.text else a.HasFile names content :=
      hwritten.file_iff names content hlast
    rw [hrest.file_iff names content hlast, hfile]
    simp only [mem_standing_cons, or_and_right, exists_or, and_assoc, exists_eq_left,
      List.forall_mem_cons]
    generalize s.documentPlace group = written
    by_cases hsame : names = written
    · subst hsame
      simp only [if_true, ne_eq, not_true_eq_false, false_and, or_false, true_and]
      rw [or_comm]
    · have hsame' : ¬ written = names := fun he => hsame he.symm
      simp only [if_neg hsame, hsame', ne_eq, not_false_eq_true, true_and, false_and, and_false,
        false_or]
  directory names h := hrest.directory names (hwritten.directory names h)
  tidy base h := hrest.tidy base (hwritten.tidy base h)

theorem saved_of_saveAll {entries : List (String × PathDocument)}
    (h : s.saveAll entries t = .ok () t') : s.Saved entries t.root t'.root := by
  induction entries generalizing t with
  | nil =>
    obtain ⟨_, rfl⟩ := Effect.pure_eq_ok_iff.mp h
    exact saved_nil s t.root
  | cons e rest ih =>
    obtain ⟨t₁, hwrite, hrest⟩ := saveAll_cons_eq_ok h
    exact (ih hrest).cons (FileTree.written_of_write hwrite)

end Store
end ApiDocs
