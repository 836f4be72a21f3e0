import ApiDocs.Proofs.Document.RoundTrip
import ApiDocs.Proofs.Files.Kept
import ApiDocs.Proofs.Files.Sound
import ApiDocs.Proofs.Json.RoundTrip
import ApiDocs.Proofs.Store.Save
import ApiDocs.Proofs.Table
/-!
# Reading back saved documents

Each of several documents that were saved is loaded again by its group, if no other one was saved
in its place. Numbers may be read back a little different, but every operation is found under its
path and its method.
-/
namespace ApiDocs

open Json (field? ofMap)

private theorem PathItem.distinct_members (p : PathItem) :
    OrderedMap.Distinct ⟨(Method.all.map fun m =>
      field? m.key Operation.toJson (p.get? m)).filterMap id⟩ := by
  have hkeys : ((Method.all.map fun m => field? m.key Operation.toJson (p.get? m)).filterMap
      id).map Prod.fst = Method.all.filterMap fun m => (p.get? m).map fun _ => m.key := by
    simp [List.filterMap_map, List.map_filterMap, field?, Function.comp_def]
  rw [OrderedMap.Distinct, OrderedMap.keys, hkeys]
  refine List.Nodup.filterMap ?_ (by decide)
  intro a b key ha hb
  obtain ⟨_, _, rfl⟩ := Option.map_eq_some_iff.mp ha
  obtain ⟨_, _, hkey⟩ := Option.map_eq_some_iff.mp hb
  exact Method.key_injective hkey.symm

theorem PathItem.get?_reread (p : PathItem) (m : Method) :
    (PathItem.toJson p).reread.get? m.key =
      (p.get? m).map fun operation => operation.toJson.reread := by
  have hget := PathItem.get?_toJson p m
  rw [PathItem.toJson, Json.ofFields, Json.get?] at hget
  rw [PathItem.toJson, Json.ofFields, Json.get?_reread p.distinct_members, hget, Option.map_map]
  rfl

/-- What is read back of a document has a member for an operation where the document has one. -/
theorem PathDocument.get?_reread {d : PathDocument} (h : d.Distinct) (path : String) (m : Method) :
    ((PathDocument.toJson d).reread.get? path).bind (fun item => item.get? m.key) =
      (Table.cell? d path m).map fun operation => operation.toJson.reread := by
  rw [PathDocument.toJson, ofMap, Json.get?_reread (h.mapValues PathItem.toJson),
    OrderedMap.get?_mapValues, Table.cell?]
  cases d.get? path with
  | none => rfl
  | some item => exact PathItem.get?_reread item m

namespace Store

variable {s : Store} {t t' : FileTree}

theorem loadDocument?_of_readText {group text : String} {value : Json}
    (h : t.readText (s.documentPath group) = .ok text) (hparse : Json.parse? text = some value) :
    s.loadDocument? group t = .ok (some value) t := by
  apply (readOnly_loadFile? _ _).eq_ok_iff.mpr
  rw [outcome_loadFile?, h]
  simp [Format.parse?, hparse]

/-- A saved document is loaded as its text is read. -/
theorem loadDocument?_of_saveAll {entries : List (String × PathDocument)} (hsound : t.isSound)
    (hsaved : s.saveAll entries t = .ok () t') (hdistinct : (entries.map Prod.fst).Nodup)
    (hplaces : ∀ a ∈ entries, ∀ b ∈ entries, s.documentPlace a.1 = s.documentPlace b.1 → a.1 = b.1)
    {e : String × PathDocument} (he : e ∈ entries)
    (hdepth : (PathDocument.toJson e.2).depth ≤ Json.maxLevels)
    (hfinite : (PathDocument.toJson e.2).IsFinite) :
    s.loadDocument? e.1 t' = .ok (some (PathDocument.toJson e.2).reread) t' := by
  have hfiles : FileTree.Agree (s.documentFiles entries) := by
    rintro _ ha _ hb hplace
    obtain ⟨x, hx, rfl⟩ := List.mem_map.mp ha
    obtain ⟨y, hy, rfl⟩ := List.mem_map.mp hb
    dsimp only at hplace ⊢
    rw [← documentPlace, ← documentPlace] at hplace
    rw [List.inj_on_of_nodup_map hdistinct hx hy (hplaces x hx y hy hplace)]
  have hmem : (s.documentPath e.1, Content.text e.2.text) ∈ s.documentFiles entries :=
    List.mem_map_of_mem he
  have hlookup := (writes_of_saveAll hsaved).lookup hfiles (FileTree.tidy_of_isSound hsound) hmem
  dsimp only at hlookup
  have hparse : Json.parse? e.2.text = some (PathDocument.toJson e.2).reread :=
    Json.parse?_pretty_reread hdepth hfinite
  exact loadDocument?_of_readText (FileTree.readText_eq_ok_iff.mpr hlookup) hparse

end Store
end ApiDocs
