import ApiDocs.Proofs.Files.Elsewhere
import ApiDocs.Proofs.Store.ReadBack
/-!
# Documents saved and loaded

A saved document is loaded as it was. Other documents are loaded as before; one that was missing
may be found or fail to be loaded only where the path of it is obstructed by what was saved.
-/
namespace ApiDocs.Store

open Effect (outcome)

variable {s : Store} {t t' : FileTree}

/-- A document that was saved is loaded under every spelling of its name. Any other is loaded as
before if it was there or could not be loaded; if it was missing, it is so unless something new
obstructs its path. -/
theorem loadDocument?_of_saveDocument (s : Store) (uri path : String) (value : Json)
    (t t' : FileTree) (hsound : t.isSound) (htextual : value.isTextual Json.maxLevels)
    (hsave : s.saveDocument uri value t = .ok path t') :
    (∀ uri', Text.trimSlashes uri' = Text.trimSlashes uri →
      s.loadDocument? uri' t' = .ok (some value) t') ∧
    (∀ other, s.documentPlace other ≠ s.documentPlace uri →
      outcome (s.loadDocument? other t) ≠ .ok none →
        outcome (s.loadDocument? other t') = outcome (s.loadDocument? other t)) ∧
    ∀ other, outcome (s.loadDocument? other t) = .ok none →
      t.root.Unobstructed t'.root [] (FilePath.parts (s.documentPath other)) →
        outcome (s.loadDocument? other t') = .ok none := by
  obtain ⟨hfile, hwrite⟩ := saveDocument_eq_ok_iff.mp hsave
  rw [hfile] at hwrite
  have htidy := FileTree.tidy_of_isSound hsound
  have hnamed := FileTree.filesNamed_of_isSound hsound
  refine ⟨?_, ?_, ?_⟩
  · intro uri' hslashes
    have hpath : s.documentPath uri' = s.documentPath uri := by
      rw [documentPath, hslashes, ← documentPath]
    have hlookup := FileTree.lookup_of_write hwrite htidy
    rw [← hpath] at hlookup
    exact loadDocument?_of_readText (FileTree.readText_eq_ok_iff.mpr hlookup)
      (Json.parse?_pretty htextual)
  · intro other hne hfound
    rw [loadDocument?, Ne, outcome_loadFile?_eq_none_iff] at hfound
    rw [loadDocument?, outcome_loadFile?, outcome_loadFile?,
      FileTree.readText_elsewhere hwrite hnamed hne hfound]
  · intro other hmissing hway
    rw [loadDocument?, outcome_loadFile?_eq_none_iff] at hmissing ⊢
    exact FileTree.readText_missing hwrite hmissing hway

theorem loadDocument?_in_new_directory :
    let s := ofRoot "docs"
    let value : Json := .obj ⟨[("\n\"", .arr [.number (.int (-1)), .str "\t"]), ("", .obj {})]⟩
    let t : FileTree := ⟨⟨[("docs", .directory ⟨[("b.json", .file (.text "[1]"))]⟩)]⟩⟩
    ∃ t', s.saveDocument "a/x" value t = .ok "docs/a/x.json" t' ∧
      s.loadDocument? "//a/x/" t' = .ok (some value) t' ∧
      outcome (s.loadDocument? "b" t') = outcome (s.loadDocument? "b" t) ∧
      outcome (s.loadDocument? "c" t') = .ok none := by
  intro s value t
  obtain ⟨path, t', hsave⟩ :=
    Effect.exists_of_succeeds (s.saveDocument "a/x" value) t (by decide +kernel)
  obtain ⟨hpath, hwrite⟩ := saveDocument_eq_ok_iff.mp hsave
  obtain rfl : path = "docs/a/x.json" := hpath.trans (by decide +kernel)
  obtain ⟨hsaved, hthere, hmissing⟩ := loadDocument?_of_saveDocument s "a/x" _ value t t'
    (by decide +kernel) (by decide +kernel) hsave
  refine ⟨t', hsave, hsaved "//a/x/" (by decide +kernel), ?_, ?_⟩
  · apply hthere "b" (by decide +kernel)
    rw [loadDocument?, Ne, outcome_loadFile?_eq_none_iff]
    decide +kernel
  · apply hmissing "c"
    · rw [loadDocument?, outcome_loadFile?_eq_none_iff]
      decide +kernel
    have hparts : FilePath.parts (s.documentPath "c") = ["docs", "c.json"] := by decide +kernel
    rw [hparts]
    constructor
    · intro _
      have hafter : t' = (t.write "docs/a/x.json" (.text value.pretty)).2 :=
        (congrArg Prod.snd hwrite).symm
      rw [hafter, ← Option.isNone_iff_eq_none]
      decide +kernel
    · -- the directory on the way was there
      intro front name rest hsplit hnone
      rcases front with _ | ⟨_, _ | ⟨_, front⟩⟩
      · cases hnone
      · cases hsplit
        cases hnone
      · simp at hsplit

/-- A document was missing, and is no longer after another one was saved elsewhere. -/
def Disturbs (s : Store) (t : FileTree) (uri : String) (value : Json) (other : String) : Prop :=
  ∃ t', s.saveDocument uri value t = .ok (s.documentPath uri) t' ∧
    s.documentPlace other ≠ s.documentPlace uri ∧ outcome (s.loadDocument? other t) = .ok none ∧
      outcome (s.loadDocument? other t') ≠ .ok none

private theorem disturbs_of_write {uri other : String} {value : Json}
    (hwrite : (t.write (s.documentPath uri) (.text value.pretty)).1 = .ok ())
    (hne : s.documentPlace other ≠ s.documentPlace uri)
    (hbefore : t.readText (s.documentPath other) = .error .missing)
    (hafter : (t.write (s.documentPath uri) (.text value.pretty)).2.readText
      (s.documentPath other) ≠ .error .missing) : s.Disturbs t uri value other := by
  refine ⟨_, saveDocument_eq_ok_iff.mpr ⟨rfl, FileTree.write_eq_of_fst hwrite⟩, hne, ?_⟩
  rw [loadDocument?, outcome_loadFile?_eq_none_iff, Ne, outcome_loadFile?_eq_none_iff]
  exact ⟨hbefore, hafter⟩

/-- The saved file on the way, a new directory in place of a file, and one that is left by `..`. -/
theorem disturbing_paths :
    let s := ofRoot "docs"
    let t : FileTree := ⟨⟨[("docs", .directory ⟨[("b.json", .file (.text "1"))]⟩)]⟩⟩
    s.Disturbs t "q" (.bool true) "q.json/z" ∧ s.Disturbs t "a.json/x" (.bool true) "a" ∧
      s.Disturbs t "a/x" (.bool true) "a/../b" := by
  intro s t
  refine ⟨disturbs_of_write ?_ ?_ ?_ ?_, disturbs_of_write ?_ ?_ ?_ ?_,
    disturbs_of_write ?_ ?_ ?_ ?_⟩
  all_goals decide +kernel

end ApiDocs.Store
