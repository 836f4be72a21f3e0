import ApiDocs.Command.Run
import ApiDocs.Proofs.Document.Build
import ApiDocs.Proofs.Route.VersionPath
import ApiDocs.Proofs.Store.Load
/-!
# Storing the documents of routes

The documents of routes that were saved below an empty root are loaded again, but for those that a
scan does not list and those in whose place a later document was saved. No operation is lost when
all groups are plain: the groups of routes with a version are never stored among the pages.
-/
namespace ApiDocs.Store

/-- A route for GET with empty contracts. -/
def bareRoute (uri : String) : Route where
  uri
  method := .get
  request? := some { name := "List" }
  response? := some { name := "Listed" }

/-- The document of that route alone. -/
def bareDocument (path : String) : PathDocument :=
  ⟨[(path, ({} : PathItem).set .get {
    responses := ⟨[("200", { content := contentOf (.object {}) })]⟩
    tags := [Modifier.public.tag] })]⟩

/-- A tree with nothing but the empty root of a store. -/
def bareTree : FileTree :=
  ⟨⟨[("docs", .directory {})]⟩⟩

private theorem head?_group {r : Registry} {routes : List Route}
    {documents : OrderedMap PathDocument} (h : r.pathDocuments routes = .ok documents)
    {e : String × PathDocument} (he : e ∈ documents.entries) {v : Nat} {p : String} {m : Method}
    (hdefines : e.2.Defines v p m) : e.1.toList.head? = some 'v' := by
  obtain ⟨entry, hentry, hsplit, _⟩ := hdefines
  obtain ⟨route, hgroup, hpath⟩ := Registry.route_of_mem_pathDocuments h he
    (List.mem_map_of_mem hentry)
  rw [← hpath] at hsplit
  rw [← hgroup]
  exact Path.head?_groupKey hsplit

private theorem isSome_operation?_iff (documents : List PathDocument) (v : Nat) (p : String)
    (m : Method) : ((VersionHeap.insertDocuments {} documents).operation? v p m).isSome ↔
      ∃ d ∈ documents, d.Defines v p m := by
  rw [VersionHeap.wellFormed_empty.isSome_operation?_insertDocuments]
  exact or_iff_right nofun

/-- What is loaded after the documents of routes were saved holds an operation exactly where the
documents that are kept define one. When all groups are plain, but for the one without a name,
that is where any of the documents does. -/
theorem loadHeap_saved_routes {r : Registry} {routes : List Route}
    {documents : OrderedMap PathDocument} {s : Store} {t t' : FileTree}
    {entries : List (String × PathDocument)} (hdocuments : r.pathDocuments routes = .ok documents)
    (horder : entries.Perm documents.entries) (hempty : t.lookup s.root = .ok (.directory {}))
    (hsaved : s.saveAll entries t = .ok () t') (htextual : ∀ d ∈ documents.values, d.isTextual) :
    ∃ heap, s.loadHeap Command.reservedNames t' = .ok heap t' ∧
      (∀ v p m, (heap.operation? v p m).isSome ↔ ((VersionHeap.insertDocuments {}
        (s.kept Command.reservedNames entries)).operation? v p m).isSome) ∧
      ((∀ group ∈ documents.keys, group = "" ∨ Plain Command.reservedNames group) →
        ∀ v p m, (heap.operation? v p m).isSome ↔
          ((VersionHeap.insertDocuments {} documents.values).operation? v p m).isSome) := by
  have hleads := FileTree.leadsTo_of_lookup hempty
  have htextual' : ∀ e ∈ entries, e.2.isTextual := fun e he =>
    htextual e.2 (List.mem_map_of_mem (horder.mem_iff.mp he))
  obtain ⟨loaded, hload, hloaded⟩ := loadHeap_of_saved hleads (saved_of_saveAll hsaved)
    Command.reservedNames htextual'
  refine ⟨_, hload, fun v p m => ?_, fun hplain v p m => ?_⟩
  · rw [isSome_operation?_iff, isSome_operation?_iff]
    simp only [hloaded]
  rw [isSome_operation?_iff, isSome_operation?_iff]
  constructor
  · rintro ⟨d, hd, hdefines⟩
    obtain ⟨e, he, _, rfl⟩ := mem_kept.mp ((hloaded d).mp hd)
    have hmem := horder.mem_iff.mp (standing_subset entries he)
    exact ⟨e.2, List.mem_map_of_mem hmem, hdefines⟩
  · rintro ⟨d, hd, hdefines⟩
    obtain ⟨e, he, rfl⟩ := List.mem_map.mp hd
    have hdistinct : (entries.map Prod.fst).Nodup :=
      (horder.map Prod.fst).nodup_iff.mpr (Registry.distinct_pathDocuments hdocuments)
    have hplain' : ∀ e ∈ entries, e.1 = "" ∨ Plain Command.reservedNames e.1 := fun e he =>
      hplain e.1 (List.mem_map_of_mem (horder.mem_iff.mp he))
    have hkept := mem_kept_of_plain hleads.nonempty hdistinct hplain' (horder.mem_iff.mpr he)
      (head?_group hdocuments he hdefines)
    exact ⟨e.2, (hloaded e.2).mpr hkept, hdefines⟩

/-- Two versions of one path are stored below their versions and both loaded. -/
theorem twoVersions_loaded : ∃ t' heap,
    (ofRoot "docs").saveAll [("v2/users", bareDocument "/api/v2/users"),
      ("v1/users", bareDocument "/api/v1/users")] bareTree = .ok () t' ∧
    (ofRoot "docs").loadHeap Command.reservedNames t' = .ok heap t' ∧
    (heap.operation? 1 "users" .get).isSome ∧ (heap.operation? 2 "users" .get).isSome := by
  have hdocuments : Registry.pathDocuments {} [bareRoute "api/v1/users", bareRoute "api/v2/users"] =
      .ok ⟨[("v1/users", bareDocument "/api/v1/users"),
        ("v2/users", bareDocument "/api/v2/users")]⟩ := rfl
  obtain ⟨_, t', hsaved⟩ := Effect.exists_of_succeeds
    ((ofRoot "docs").saveAll [("v2/users", bareDocument "/api/v2/users"),
      ("v1/users", bareDocument "/api/v1/users")]) bareTree (by decide +kernel)
  obtain ⟨heap, hload, _, hplain⟩ := loadHeap_saved_routes hdocuments (.swap _ _ []) rfl hsaved
    (by decide +kernel)
  have hkept := hplain (by decide +kernel)
  refine ⟨t', heap, hsaved, hload, (hkept 1 "users" .get).mpr ?_, (hkept 2 "users" .get).mpr ?_⟩
  · decide +kernel
  · decide +kernel

/-- A group that is named as a file of merged documents is saved and not loaded. -/
theorem reservedGroup_lost : ∃ documents t' heap,
    Registry.pathDocuments {} [bareRoute "api/v1/public"] = .ok documents ∧
    bareTree.lookup (ofRoot "docs").root = .ok (.directory {}) ∧
    (∀ d ∈ documents.values, d.isTextual) ∧
    (ofRoot "docs").saveAll documents.entries bareTree = .ok () t' ∧
    (ofRoot "docs").loadHeap Command.reservedNames t' = .ok heap t' ∧
    heap.operation? 1 "public" .get = none ∧
    ((VersionHeap.insertDocuments {} documents.values).operation? 1 "public" .get).isSome := by
  obtain ⟨_, t', hsaved⟩ := Effect.exists_of_succeeds
    ((ofRoot "docs").saveAll [("v1/public", bareDocument "/api/v1/public")]) bareTree
    (by decide +kernel)
  have hempty : bareTree.lookup (ofRoot "docs").root = .ok (.directory {}) := rfl
  have htextual : ∀ d ∈ [bareDocument "/api/v1/public"], d.isTextual := by decide +kernel
  obtain ⟨loaded, hload, hloaded⟩ := loadHeap_of_saved (FileTree.leadsTo_of_lookup hempty)
    (saved_of_saveAll hsaved) Command.reservedNames (by decide +kernel)
  have hkept : (ofRoot "docs").kept Command.reservedNames
      [("v1/public", bareDocument "/api/v1/public")] = [] :=
    List.isEmpty_iff.mp (by decide +kernel)
  have hnone : loaded = [] := List.eq_nil_iff_forall_not_mem.mpr fun d hd => by
    have hmem := (hloaded d).mp hd
    rw [hkept] at hmem
    cases hmem
  subst hnone
  exact ⟨⟨[("v1/public", bareDocument "/api/v1/public")]⟩, t', _, rfl, hempty, htextual, hsaved,
    hload, rfl, by decide +kernel⟩

end ApiDocs.Store
