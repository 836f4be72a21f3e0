import ApiDocs.Proofs.Route.VersionPath
import ApiDocs.Proofs.Versions.History
import ApiDocs.Proofs.Versions.Overlay
/-!
# Splitting what merging lists

A path names a version in one way only, so splitting it undoes the listing: the keys of a merged
document lead back to the versions and the paths in the heap.
-/
namespace ApiDocs

namespace Path

/-- What may follow a version: some text in one line. -/
def IsRest (rest : String) : Prop :=
  rest ≠ "" ∧ '\n' ∉ rest.toList

/-- The decimal digits of a version, perhaps with zeros in front. A version has 32 bits. -/
structure IsVersion (digits : List Char) (version : Nat) : Prop where
  ne_nil : digits ≠ []
  decimal : ∀ c ∈ digits, '0' ≤ c ∧ c ≤ '9'
  value : Nat.ofDigitChars 10 digits 0 = version
  positive : 1 ≤ version
  le_max : version ≤ 4294967295

/-- The paths that name a version: perhaps a slash, perhaps `api/`, then `v`, the digits of the
version, a slash and the rest. -/
inductive Names : String → Nat → String → Prop
  | intro {lead api rest : String} {digits : List Char} {version : Nat}
      (hlead : lead = "" ∨ lead = "/") (hapi : api = "" ∨ api = "api/")
      (hversion : IsVersion digits version) (hrest : IsRest rest) :
      Names (lead ++ api ++ "v" ++ String.ofList digits ++ "/" ++ rest) version rest

variable {path rest : String} {version : Nat}

theorem isVersion_iff {digits : List Char} : IsVersion digits version ↔
    (∀ c ∈ digits, c.isDigit = true) ∧ version? digits = some version := by
  have hdecimal : ∀ c : Char, c.isDigit = true ↔ '0' ≤ c ∧ c ≤ '9' := by
    intro c
    simp [Char.isDigit, Char.le_def]
  rw [version?_eq_some_iff, digitsValue_eq]
  simp only [hdecimal]
  constructor
  · intro h
    exact ⟨h.decimal, h.ne_nil, h.value, h.positive, h.le_max⟩
  · intro ⟨hdigits, hne, hvalue, hpos, hmax⟩
    exact ⟨hne, hdigits, hvalue, hpos, hmax⟩

theorem isVersion_toDigits (hpos : 1 ≤ version) (hmax : version ≤ 4294967295) :
    IsVersion (Nat.toDigits 10 version) version := by
  apply isVersion_iff.mpr
  refine ⟨Text.isDigit_of_mem_toDigits, version?_eq_some_iff.mpr ?_⟩
  rw [digitsValue_eq, Nat.ofDigitChars_ten_toDigits]
  exact ⟨Nat.toDigits_ne_nil, rfl, hpos, hmax⟩

theorem splitVersion_iff_names : splitVersion path = some (version, rest) ↔
    Names path version rest := by
  rw [splitVersion_eq_some_iff]
  constructor
  · intro ⟨lead, api, digits, h⟩
    have htext : path = String.ofList lead ++ String.ofList api ++ "v" ++ String.ofList digits ++
        "/" ++ rest := by
      apply String.toList_inj.mp
      simp [h.text_eq]
    rw [htext]
    apply Names.intro
    · exact h.lead_eq.imp (congrArg String.ofList) (congrArg String.ofList)
    · exact h.api_eq.imp (congrArg String.ofList) (congrArg String.ofList)
    · exact isVersion_iff.mpr ⟨h.isDigit, h.value⟩
    · exact ⟨by simpa using h.ne_nil, h.line⟩
  · intro h
    cases h with
    | @intro lead api _ digits _ hlead hapi hversion hrest =>
      obtain ⟨hdigits, hvalue⟩ := isVersion_iff.mp hversion
      refine ⟨lead.toList, api.toList, digits, ?_, ?_, ?_, hdigits, hvalue, ?_, hrest.2⟩
      · simp
      · exact hlead.imp (congrArg String.toList) (congrArg String.toList)
      · exact hapi.imp (congrArg String.toList) (congrArg String.toList)
      · simpa using hrest.1

theorem names_numeral (hpos : 1 ≤ version) (hmax : version ≤ 4294967295) (hrest : IsRest rest)
    {api : String} (hapi : api = "" ∨ api = "api/") :
    Names ("/" ++ api ++ "v" ++ version.repr ++ "/" ++ rest) version rest :=
  .intro (.inr rfl) hapi (isVersion_toDigits hpos hmax) hrest

/-- A listed path splits into the version and the path that it lists. -/
theorem splitVersion_ofVersion (hpos : 1 ≤ version) (hmax : version ≤ 4294967295)
    (hrest : IsRest path) (hhead : path.toList.head? ≠ some '/') :
    splitVersion (ofVersion version path) = some (version, path) := by
  have hlisted : ofVersion version path = "/" ++ "" ++ "v" ++ version.repr ++ "/" ++ path := by
    apply String.toList_inj.mp
    rw [toList_ofVersion, Text.trimLeftSlashes_of_head hhead]
    simp
  rw [splitVersion_iff_names, hlisted]
  exact names_numeral hpos hmax hrest (.inl rfl)

end Path

namespace VersionHeap

/-- Documents list nothing in a heap but what their keys split into. -/
theorem names_of_lists {documents : List PathDocument} {version : Nat} {path : String}
    (h : (({} : VersionHeap).insertDocuments documents).Lists version path) :
    ∃ key, Path.Names key version path := by
  rw [insertDocuments_eq, lists_of_items] at h
  obtain ⟨e, he, rfl, rfl⟩ := h
  simp only [List.mem_flatMap, itemsOf, List.mem_filterMap, PlacedItem.ofEntry?,
    Option.map_eq_some_iff] at he
  obtain ⟨_, _, ⟨key, _⟩, _, place, hplace, rfl⟩ := he
  exact ⟨key, Path.splitVersion_iff_names.mp hplace⟩

theorem splitVersion_of_lists {documents : List PathDocument} {version : Nat} {path : String}
    (h : (({} : VersionHeap).insertDocuments documents).Lists version path)
    (hhead : path.toList.head? ≠ some '/') :
    Path.splitVersion (Path.ofVersion version path) = some (version, path) := by
  obtain ⟨key, hnames⟩ := names_of_lists h
  cases hnames with
  | intro _ _ hversion hrest =>
    exact Path.splitVersion_ofVersion hversion.positive hversion.le_max hrest hhead

theorem Shows.lists {h : VersionHeap} {s : MergeStrategy} {bucket : String} {v : Nat}
    {path : String} {m : Method} {o : Operation} (ho : h.Shows s bucket v path m o) :
    h.Lists v path := by
  obtain ⟨_, hop, _⟩ := ho
  exact lists_of_operation? hop

end VersionHeap

/-- Splitting takes apart the paths that name a version and no others, each in one way. So it
undoes the listing of paths, and the keys of merged documents lead back to what the heap holds. -/
theorem Path.splitVersion_exact :
    (∀ path version rest, splitVersion path = some (version, rest) ↔ Names path version rest) ∧
    (∀ path v w p q, Names path v p → Names path w q → v = w ∧ p = q) ∧
    (∀ version rest, 1 ≤ version → version ≤ 4294967295 → IsRest rest →
      splitVersion s!"/v{version}/{rest}" = some (version, rest) ∧
        splitVersion s!"/api/v{version}/{rest}" = some (version, rest)) ∧
    ∀ (σ : Type) (m : Merger σ) s documents target, m.strategy? = some s → 1 ≤ target →
      m.heap = ({} : VersionHeap).insertDocuments documents →
      (∀ path, m.heap.Stores path → path.toList.head? ≠ some '/') →
      ∃ merged, m.merge target = .ok merged ∧
        ∀ bucket d, merged.get? bucket = some d → ∀ key ∈ d.paths.keys,
          ∃ version path, splitVersion key = some (version, path) ∧
            (∃ method o, Table.cell? d.paths key method = some o) ∧
            ∀ method o, Table.cell? d.paths key method = some o →
              m.heap.Shows s bucket version path method o := by
  refine ⟨fun _ _ _ => splitVersion_iff_names, ?_, ?_, ?_⟩
  · intro path v w p q hv hw
    have hsplit := (splitVersion_iff_names.mpr hv).symm.trans (splitVersion_iff_names.mpr hw)
    simpa using hsplit
  · intro version rest hpos hmax hrest
    have hplain : s!"/v{version}/{rest}" = "/" ++ "" ++ "v" ++ version.repr ++ "/" ++ rest := by
      change "/v" ++ version.repr ++ "/" ++ rest = _
      apply String.toList_inj.mp
      simp
    have hapi : s!"/api/v{version}/{rest}" =
        "/" ++ "api/" ++ "v" ++ version.repr ++ "/" ++ rest := by
      change "/api/v" ++ version.repr ++ "/" ++ rest = _
      apply String.toList_inj.mp
      simp
    rw [splitVersion_iff_names, splitVersion_iff_names, hplain, hapi]
    exact ⟨names_numeral hpos hmax hrest (.inl rfl), names_numeral hpos hmax hrest (.inr rfl)⟩
  · intro σ m s documents target hstrategy ht hheap hslash
    have hw : m.heap.WellFormed := by
      rw [hheap]
      exact VersionHeap.wellFormed_empty.insertDocuments documents
    refine ⟨_, Merger.merge_eq_ok hstrategy ht, fun bucket d hd key hkey => ?_⟩
    obtain ⟨_, rfl⟩ := VersionHeap.of_get?_merged hd
    obtain ⟨n, o, ho⟩ := VersionHeap.filled_paths.mem_keys_iff.mp hkey
    have hsplit : ∀ v p method o, m.heap.Shows s bucket v p method o →
        splitVersion (ofVersion v p) = some (v, p) := by
      intro v p method o hshows
      have hlists := hshows.lists
      rw [hheap] at hlists
      exact VersionHeap.splitVersion_of_lists hlists (hslash p (hshows.stores hw))
    obtain ⟨path, version, rfl, hshows⟩ := VersionHeap.shows_of_listed hw ho
    refine ⟨version, path, hsplit _ _ _ _ hshows, ⟨n, o, ho⟩, ?_⟩
    intro method o' ho'
    obtain ⟨q, w, hlisted, hshows'⟩ := VersionHeap.shows_of_listed hw ho'
    -- the key splits in one way only
    have hplace := (hsplit _ _ _ _ hshows').symm.trans (hlisted ▸ hsplit _ _ _ _ hshows)
    cases hplace
    exact hshows'

/-- A heap that was filled from one document. -/
def Merger.oneDocument : Merger Unit where
  heap := ({} : VersionHeap).insertDocuments
    [⟨[("/api/v02/x", { get := some { tags := ["modifier.public"] } }), ("/health", {})]⟩]
  root := ⟨"API", "https://localhost/api", []⟩
  strategy? := some .byModifier

theorem Path.oneDocument_keys_split :
    (∀ path, Merger.oneDocument.heap.Stores path → path.toList.head? ≠ some '/') ∧
      ∃ merged, Merger.oneDocument.merge 2 = .ok merged ∧
        ∀ bucket d, merged.get? bucket = some d → ∀ key ∈ d.paths.keys,
          ∃ version path, splitVersion key = some (version, path) ∧
            (∃ method o, Table.cell? d.paths key method = some o) ∧
            ∀ method o, Table.cell? d.paths key method = some o →
              Merger.oneDocument.heap.Shows .byModifier bucket version path method o := by
  have hheap : Merger.oneDocument.heap.versions.flatMap (fun e => e.2.keys) = ["x"] := by
    decide +kernel
  have hslash : ∀ path, Merger.oneDocument.heap.Stores path → path.toList.head? ≠ some '/' := by
    intro path ⟨e, he, hp⟩
    have hmem : path ∈ Merger.oneDocument.heap.versions.flatMap fun e => e.2.keys :=
      List.mem_flatMap.mpr ⟨e, he, hp⟩
    rw [hheap, List.mem_singleton] at hmem
    rw [hmem]
    decide
  exact ⟨hslash, splitVersion_exact.2.2.2 Unit Merger.oneDocument .byModifier _ 2 rfl (by decide)
    rfl hslash⟩

end ApiDocs
