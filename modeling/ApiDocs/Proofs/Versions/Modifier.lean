import ApiDocs.Proofs.Document.Build
import ApiDocs.Proofs.Versions.Documents
import ApiDocs.Proofs.Versions.Overlay
/-!
# From a modifier to a bucket

An operation carries the modifier of its request behind the tags that the request declares. Since
the last marked tag decides, no declared tag is taken for the modifier, and merged documents show
the declared tags again.
-/
namespace ApiDocs

namespace MergeStrategy

theorem speaksOfModifier_tag (m : Modifier) : SpeaksOfModifier m.tag := by
  unfold SpeaksOfModifier
  cases m <;> decide

theorem takeMarked?_concat (tags : List String) (m : Modifier) :
    takeMarked? (tags ++ [m.tag]) = some (m.tag, tags) :=
  takeMarked?_eq_some_iff.mpr ⟨tags, [], rfl, speaksOfModifier_tag m, by simp, by simp⟩

theorem bucketFor_tag (m : Modifier) : byModifier.bucketFor m.tag = bucketOf m := by
  cases m <;> rfl

end MergeStrategy

namespace Registry

variable {r : Registry} {request : Request} {response : Response} {method : Method}
  {o : Operation}

theorem tags_of_operation (h : r.operation request response method = .ok o) :
    o.tags = request.tags ++ [request.modifier.tag] := by
  obtain ⟨_, _, _, _, _, _, rfl⟩ := operation_eq_ok_iff.mp h
  rfl

/-- The bucket of an operation is that of its request's modifier. -/
theorem bucket?_operation (h : r.operation request response method = .ok o) :
    MergeStrategy.byModifier.bucket? o = MergeStrategy.bucketOf request.modifier := by
  rw [MergeStrategy.bucket?, tags_of_operation h, MergeStrategy.takeMarked?_concat,
    Option.bind_some, MergeStrategy.bucketFor_tag]

/-- What buckets show of an operation has the tags that its request declares. -/
theorem bare_operation (h : r.operation request response method = .ok o) :
    MergeStrategy.bare o = { o with tags := request.tags } := by
  rw [MergeStrategy.bare, tags_of_operation h, MergeStrategy.takeMarked?_concat]
  rfl

theorem takes_operation_iff (h : r.operation request response method = .ok o)
    {bucket : String} {shown : Operation} : MergeStrategy.byModifier.Takes bucket o shown ↔
      MergeStrategy.bucketOf request.modifier = some bucket ∧
        shown = { o with tags := request.tags } := by
  rw [MergeStrategy.takes_iff, MergeStrategy.takes, beq_iff_eq, bucket?_operation h,
    bare_operation h]

theorem assign?_operation (h : r.operation request response method = .ok o) (v : Nat)
    (path : String) (m : Method) : MergeStrategy.byModifier.assign? ⟨v, path, m, o⟩ =
      (MergeStrategy.bucketOf request.modifier).map fun bucket =>
        (bucket, ⟨v, path, m, { o with tags := request.tags }⟩) := by
  apply Option.ext
  rintro ⟨bucket, q⟩
  rw [MergeStrategy.assign?_eq_some_iff]
  simp only [takes_operation_iff h, Option.map_eq_some_iff, Prod.mk.injEq]
  constructor
  · rintro ⟨shown, ⟨hbucket, rfl⟩, rfl⟩
    exact ⟨bucket, hbucket, rfl, rfl⟩
  · rintro ⟨_, hbucket, rfl, rfl⟩
    exact ⟨_, ⟨hbucket, rfl⟩, rfl⟩

end Registry

namespace VersionHeap

variable {h : VersionHeap} {s : MergeStrategy} {bucket : String} {target v : Nat} {path : String}
  {m : Method} {o : Operation}

/-- A later version up to the target at which a bucket takes the operation of a path. -/
def Overwrites (h : VersionHeap) (s : MergeStrategy) (bucket : String) (target version : Nat)
    (path : String) (m : Method) : Prop :=
  ∃ w shown, version < w ∧ w ≤ target ∧ h.Shows s bucket w path m shown

/-- What a document lists under the path of a version was held under a path that is the same but
for leading slashes. -/
theorem shows_of_cell?_paths (hw : h.WellFormed)
    (ho : Table.cell? (h.layer s bucket target).paths (Path.ofVersion v path) m = some o) :
    ∃ q, Text.trimLeftSlashes q = Text.trimLeftSlashes path ∧ h.Shows s bucket v q m o := by
  obtain ⟨q, w, hkey, hshows⟩ := shows_of_listed hw ho
  obtain ⟨rfl, htrim⟩ := Path.ofVersion_inj.mp hkey
  exact ⟨q, htrim, hshows⟩

/-- An operation that is taken stays in the layer until a later version overwrites it. -/
theorem cell?_layer_of_shows (hw : h.WellFormed) (ht : v ≤ target)
    (hshows : h.Shows s bucket v path m o) (hlast : ¬ h.Overwrites s bucket target v path m) :
    Table.cell? (h.layer s bucket target) path m = some (v, o) := by
  apply (cell?_layer_eq_some_iff hw).mpr
  refine ⟨⟨⟨ht, o, hshows⟩, ?_⟩, hshows⟩
  intro w ⟨hle, shown, hshown⟩
  apply Nat.le_of_not_lt
  intro hlt
  exact hlast ⟨w, shown, hlt, hle, hshown⟩

end VersionHeap

namespace Merger

variable {σ : Type}

/-- The modifier of a request decides the bucket of its operation, and what that bucket shows of
the operation has the declared tags. Another operation stands in its place only when it was held
under a path that differs in leading slashes. -/
theorem modifier_decides_bucket {r : Registry} {request : Request} {response : Response}
    {method : Method} {o : Operation} (hop : r.operation request response method = .ok o)
    (m : Merger σ) (hstrategy : m.strategy? = some .byModifier) (hw : m.heap.WellFormed)
    {v target : Nat} (hv : 1 ≤ v) (ht : v ≤ target) (path : String) (n : Method)
    (hheld : m.heap.operation? v path n = some o ∨
      ∃ h : VersionHeap, h.WellFormed ∧ h.ReceivesJson m.heap v path n o.toJson) :
    ((∃ q, MergeStrategy.byModifier.assign? ⟨v, path, n, o⟩ = some ("public", q)) ↔
      request.modifier = .public) ∧
    ((∃ q, MergeStrategy.byModifier.assign? ⟨v, path, n, o⟩ = some ("private", q)) ↔
      request.modifier = .private) ∧
    (MergeStrategy.byModifier.assign? ⟨v, path, n, o⟩ = none ↔ request.modifier = .skip) ∧
    ∃ documents, m.merge target = .ok documents ∧
      ∀ bucket d, documents.get? bucket = some d →
        (∀ shown, Table.cell? d.paths (Path.ofVersion v path) n = some shown →
          (MergeStrategy.bucketOf request.modifier = some bucket ∧
            shown = { o with tags := request.tags }) ∨
          ∃ q, q ≠ path ∧ Text.trimLeftSlashes q = Text.trimLeftSlashes path ∧
            m.heap.Shows .byModifier bucket v q n shown) ∧
        (MergeStrategy.bucketOf request.modifier = some bucket →
          ¬ m.heap.Overwrites .byModifier bucket target v path n →
          (∀ q, m.heap.Stores q → Text.trimLeftSlashes q = Text.trimLeftSlashes path → q = path) →
          Table.cell? d.paths (Path.ofVersion v path) n =
            some { o with tags := request.tags }) := by
  have hholds : m.heap.operation? v path n = some o := by
    rcases hheld with hheld | ⟨h, hwell, hreceives⟩
    · exact hheld
    · exact (hwell.receivesJson hreceives).2
  simp only [Registry.assign?_operation hop, Option.map_eq_some_iff, Option.map_eq_none_iff,
    Prod.mk.injEq]
  refine ⟨?_, ?_, ?_, _, merge_eq_ok hstrategy (Nat.le_trans hv ht), ?_⟩
  · cases request.modifier <;> simp [MergeStrategy.bucketOf]
  · cases request.modifier <;> simp [MergeStrategy.bucketOf]
  · cases request.modifier <;> simp [MergeStrategy.bucketOf]
  intro bucket d hd
  have hbucket := VersionHeap.mem_keys_merged.mp (OrderedMap.mem_keys_of_get? hd)
  rw [VersionHeap.get?_merged _ _ _ hbucket] at hd
  obtain rfl := Option.some.inj hd
  constructor
  · intro shown hshown
    obtain ⟨q, htrim, hq⟩ := VersionHeap.shows_of_cell?_paths hw hshown
    by_cases hpath : q = path
    · subst hpath
      obtain ⟨op, hheldOp, htakes⟩ := hq
      obtain rfl := Option.some.inj (hholds.symm.trans hheldOp)
      exact .inl ((Registry.takes_operation_iff hop).mp htakes)
    · exact .inr ⟨q, hpath, htrim, hq⟩
  · intro hmodifier hlast hunique
    have hshows : m.heap.Shows .byModifier bucket v path n { o with tags := request.tags } :=
      ⟨o, hholds, (Registry.takes_operation_iff hop).mpr ⟨hmodifier, rfl⟩⟩
    have hcell := VersionHeap.cell?_layer_of_shows hw ht hshows hlast
    apply VersionHeap.cell?_paths_of_unique hcell
    intro q o' hq htrim
    exact hunique q ((VersionHeap.cell?_layer hw hq).2.stores hw) htrim

/-- A public request that declares the tag of another modifier. -/
def guardedRequest : Request :=
  { name := "List", tags := ["modifier.private", "items"] }

def guardedOperation : Operation :=
  { responses := ⟨[("200", { content := contentOf (.object {}) })]⟩
    tags := ["modifier.private", "items", "modifier.public"] }

def guarded : Merger Unit where
  heap := ({} : VersionHeap).insert 2 "users" { get := some guardedOperation }
  root := ⟨"API", "https://localhost/api", []⟩
  strategy? := some .byModifier

theorem guarded_published :
    Registry.operation {} guardedRequest { name := "Listed" } .get = .ok guardedOperation ∧
    guarded.heap.WellFormed ∧ guarded.heap.operation? 2 "users" .get = some guardedOperation ∧
    ∃ documents d, guarded.merge 2 = .ok documents ∧ documents.get? "public" = some d ∧
      Table.cell? d.paths (Path.ofVersion 2 "users") .get =
        some { guardedOperation with tags := ["modifier.private", "items"] } := by
  have hop : Registry.operation {} guardedRequest { name := "Listed" } .get =
      .ok guardedOperation := rfl
  have hw : guarded.heap.WellFormed := VersionHeap.wellFormed_empty.insert _ _ _
  have hheld : guarded.heap.operation? 2 "users" .get = some guardedOperation := rfl
  obtain ⟨_, _, _, documents, hmerge, hdocuments⟩ := modifier_decides_bucket hop guarded rfl hw
    (by decide : 1 ≤ 2) (by decide : 2 ≤ 2) "users" .get (.inl hheld)
  have hmerged : documents = guarded.heap.merged .byModifier guarded.root 2 :=
    Except.ok.inj (hmerge.symm.trans (merge_eq_ok rfl (by decide)))
  have hpublic := guarded.heap.get?_merged guarded.root 2
    (by decide : "public" ∈ MergeStrategy.byModifier.buckets)
  rw [← hmerged] at hpublic
  refine ⟨hop, hw, hheld, documents, _, hmerge, hpublic, ?_⟩
  apply (hdocuments "public" _ hpublic).2 rfl
  · rintro ⟨w, _, hlt, hle, _⟩
    omega
  · rintro q ⟨e, he, hq⟩ _
    rw [List.mem_singleton.mp he] at hq
    exact List.mem_singleton.mp hq

end Merger
end ApiDocs
