import ApiDocs.Proofs.Files.Sound
import ApiDocs.Proofs.Json.RoundTrip
import ApiDocs.Proofs.Store.Pages
import ApiDocs.Proofs.Text.Replace
/-!
# Published pages

The page of a merged document shows the document as it was saved, though it is made from what is
read back of it.
-/
namespace ApiDocs.Store

open Effect (outcome)

variable {s : Store} {t t' : FileTree} {version : Nat} {bucket : String}

theorem write_of_saver {document : Document} (h : s.saver version bucket document t = .ok () t') :
    t.write (s.mergedPath version bucket) (.text (s.format.print document.toJson)) =
      (.ok (), t') :=
  FileEffect.writeText_eq_ok_iff.mp h

theorem render_iff {template : String} {document : Json} {text : String} :
    Text.Replaces documentMarker.toList document.compress.toList template.toList text.toList ↔
      text = render template document :=
  Text.replaces_iff (by decide)

/-- A merged document that was saved as JSON is loaded as it was. -/
theorem outcome_loadMerged?_saved {document : Document} (hformat : s.format = .json)
    (hsound : t.isSound) (htextual : document.toJson.isTextual Json.maxLevels)
    (hsave : s.saver version bucket document t = .ok () t') :
    outcome (s.loadMerged? version bucket t') = .ok (some document.toJson) := by
  have hsaved := FileTree.lookup_of_write (write_of_saver hsave) (FileTree.tidy_of_isSound hsound)
  refine outcome_loadMerged?_eq_some_iff.mpr ⟨_, FileTree.readText_eq_ok_iff.mpr hsaved, ?_⟩
  rw [hformat]
  exact Json.parse?_pretty htextual

/-- The page of a document that was saved as JSON is the template with each marker replaced by the
compact text of the document. What is put in the place of a marker is not searched for more. -/
theorem publish_saved (s : Store) (version : Nat) (bucket template page : String)
    (document : Document) (t t₁ t₂ : FileTree) (hformat : s.format = .json) (hsound : t.isSound)
    (htextual : document.toJson.isTextual Json.maxLevels)
    (hsave : s.saver version bucket document t = .ok () t₁)
    (hpublish : s.publish version bucket template t₁ = .ok page t₂) :
    page = s.pagePath version bucket ∧
      t₂.readText page = .ok (render template document.toJson) ∧
      ∀ text : String, Text.Replaces documentMarker.toList document.toJson.compress.toList
        template.toList text.toList ↔ text = render template document.toJson := by
  have htidy := (FileTree.written_of_write (write_of_saver hsave)).tidy []
    (FileTree.tidy_of_isSound hsound)
  obtain ⟨rfl, loaded, hload, hpage⟩ := publish_eq_ok_iff.mp hpublish
  rw [outcome_loadMerged?_saved hformat hsound htextual hsave] at hload
  cases hload
  have hshown := FileTree.lookup_of_write hpage htidy
  exact ⟨rfl, FileTree.readText_eq_ok_iff.mpr hshown, fun _ => render_iff⟩

/-- A document with the marker in its title. -/
def markedDocument : Document :=
  { title := "%%SPECS%%", serverUrl := "/" : DocumentRoot }.document 1
    ⟨[("/v1/a", ({} : PathItem).set .get { summary := "a" })]⟩

private theorem render_overlapping (document : Json) :
    render "%%SPECS%%SPECS%%" document = document.compress ++ "SPECS%%" := by
  have hfirst : ∀ start rest, [] ++ documentMarker.toList ++ "SPECS%%".toList =
      start ++ documentMarker.toList ++ rest → ([] : List Char).length ≤ start.length :=
    fun _ _ _ => Nat.zero_le _
  have hreplaced : Text.Replaces documentMarker.toList document.compress.toList
      ([] ++ documentMarker.toList ++ "SPECS%%".toList)
      ([] ++ document.compress.toList ++ "SPECS%%".toList) := .next hfirst (.none (by decide))
  have htemplate : [] ++ documentMarker.toList ++ "SPECS%%".toList =
      "%%SPECS%%SPECS%%".toList := by decide
  rw [htemplate, List.nil_append, ← String.toList_append] at hreplaced
  exact (render_iff.mp hreplaced).symm

private def markedText : String :=
  "\x7b\"openapi\":\"3.0.0\",\"info\":\x7b\"title\":\"%%SPECS%%\",\"version\":\"1.0\"\x7d," ++
  "\"servers\":[\x7b\"url\":\"/\"\x7d],\"tags\":[],\"paths\":\x7b\"/v1/a\":\x7b\"get\":\x7b" ++
  "\"description\":\"\",\"parameters\":[],\"responses\":\x7b\x7d,\"summary\":\"a\",\"tags\":[]" ++
  "\x7d\x7d\x7d\x7d"

theorem publish_markedDocument :
    let s := ofRoot "docs"
    ∃ t₁ t₂, s.saver 1 "public" markedDocument {} = .ok () t₁ ∧
      s.publish 1 "public" "%%SPECS%%SPECS%%" t₁ = .ok "docs/build/v1-public.html" t₂ ∧
      t₂.readText "docs/build/v1-public.html" = .ok (markedText ++ "SPECS%%") := by
  intro s
  have htext : markedDocument.toJson.compress = markedText := by decide +kernel
  have hsound : ({} : FileTree).isSound := by decide +kernel
  have htextual : markedDocument.toJson.isTextual Json.maxLevels := by decide +kernel
  obtain ⟨⟨⟩, t₁, hsave⟩ :=
    Effect.exists_of_succeeds (s.saver 1 "public" markedDocument) {} (by decide +kernel)
  have hload := outcome_loadMerged?_saved rfl hsound htextual hsave
  let shown := render "%%SPECS%%SPECS%%" markedDocument.toJson
  have hpage : (t₁.write (s.pagePath 1 "public") (.text shown)).1 = .ok () := by
    have hafter : t₁ = (FileTree.write {} (s.mergedPath 1 "public")
        (.text markedDocument.toJson.pretty)).2 := (congrArg Prod.snd (write_of_saver hsave)).symm
    rw [hafter]
    decide +kernel
  have hpublish : s.publish 1 "public" "%%SPECS%%SPECS%%" t₁ = .ok (s.pagePath 1 "public")
      (t₁.write (s.pagePath 1 "public") (.text shown)).2 :=
    publish_eq_ok_iff.mpr ⟨rfl, _, hload, FileTree.write_eq_of_fst hpage⟩
  obtain ⟨_, hread, _⟩ := publish_saved s 1 "public" "%%SPECS%%SPECS%%" _ markedDocument {} t₁ _
    rfl hsound htextual hsave hpublish
  have hpath : s.pagePath 1 "public" = "docs/build/v1-public.html" := by decide +kernel
  rw [hpath] at hpublish hread
  rw [render_overlapping, htext] at hread
  exact ⟨t₁, _, hsave, hpublish, hread⟩

end ApiDocs.Store
