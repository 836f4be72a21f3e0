import ApiDocs.Proofs.Table
import ApiDocs.Versions.Merge
/-!
# Heaps of versions

A heap that was filled by insertions lists its versions in strictly ascending order and each path
of a version once. In such a heap the operation under a version, a path and a method is the last
one that was inserted there, and reading all operations up to a version meets each of them once.
-/
namespace ApiDocs

namespace VersionHeap

/-- Versions ascend, and no path is listed twice under a version. -/
structure WellFormed (h : VersionHeap) : Prop where
  ascending : h.versionList.Pairwise (· < ·)
  distinct : ∀ e ∈ h.versions, e.2.Distinct

/-- Some version holds a path. -/
def Stores (h : VersionHeap) (path : String) : Prop :=
  ∃ e ∈ h.versions, path ∈ e.2.keys

private theorem find?_eq_some_iff {versions : List (Nat × PathDocument)}
    (ha : (versions.map Prod.fst).Pairwise (· < ·)) {v : Nat} {paths : PathDocument} :
    (versions.find? fun e => e.1 == v).map Prod.snd = some paths ↔ (v, paths) ∈ versions := by
  induction versions with
  | nil => simp
  | cons e rest ih =>
    obtain ⟨u, present⟩ := e
    simp only [List.map_cons, List.pairwise_cons] at ha
    by_cases hu : u = v
    · subst hu
      have hout : (u, paths) ∉ rest := fun hmem =>
        Nat.lt_irrefl u (ha.1 u (List.mem_map_of_mem (f := Prod.fst) hmem))
      simp [hout, eq_comm]
    · have hbeq : (u == v) = false := by simpa using hu
      rw [List.find?_cons, hbeq, ih ha.2]
      simp [Ne.symm hu]

theorem WellFormed.paths?_eq_some_iff {h : VersionHeap} (hw : h.WellFormed) {v : Nat}
    {paths : PathDocument} : h.paths? v = some paths ↔ (v, paths) ∈ h.versions :=
  find?_eq_some_iff hw.ascending

theorem operation?_eq_some_iff {h : VersionHeap} {v : Nat} {path : String} {m : Method}
    {o : Operation} : h.operation? v path m = some o ↔
      ∃ paths item, h.paths? v = some paths ∧ paths.get? path = some item ∧
        item.get? m = some o := by
  simp [operation?, Option.bind_eq_some_iff]

theorem operation?_eq_cell? (h : VersionHeap) (version : Nat) (path : String) (m : Method) :
    h.operation? version path m = Table.cell? ((h.paths? version).getD {}) path m := by
  unfold operation? Table.cell?
  cases h.paths? version <;> rfl

/-- Reading up to a version meets exactly the operations of the versions so far. -/
theorem WellFormed.mem_placedUpTo {h : VersionHeap} (hw : h.WellFormed) {target : Nat}
    {p : Placed} : p ∈ h.placedUpTo target ↔
      p.version ≤ target ∧ h.operation? p.version p.path p.method = some p.operation := by
  rw [operation?_eq_some_iff]
  simp only [placedUpTo, placedIn, List.mem_flatMap, List.mem_filter, List.mem_map,
    decide_eq_true_eq]
  constructor
  · rintro ⟨⟨v, paths⟩, ⟨hmem, hle⟩, ⟨path, item⟩, hitem, ⟨m, o⟩, ho, rfl⟩
    exact ⟨hle, paths, item, hw.paths?_eq_some_iff.mpr hmem,
      (hw.distinct _ hmem).mem_entries_iff.mp hitem, ByMethod.mem_toList.mp ho⟩
  · rintro ⟨hle, paths, item, hpaths, hitem, ho⟩
    have hmem := hw.paths?_eq_some_iff.mp hpaths
    exact ⟨(p.version, paths), ⟨hmem, hle⟩, (p.path, item),
      (hw.distinct _ hmem).mem_entries_iff.mpr hitem, (p.method, p.operation),
      ByMethod.mem_toList.mpr ho, rfl⟩

private theorem version_of_mem_entries {v : Nat} {paths : PathDocument} {p : Placed}
    (h : p ∈ paths.entries.flatMap fun e => placedIn v e.1 e.2) : p.version = v := by
  simp only [placedIn, List.mem_flatMap, List.mem_map] at h
  obtain ⟨_, _, _, _, rfl⟩ := h
  rfl

theorem WellFormed.placedUpTo_ascending {h : VersionHeap} (hw : h.WellFormed) (target : Nat) :
    (h.placedUpTo target).Pairwise fun p q => p.version ≤ q.version := by
  have ha : (h.versions.filter fun e => e.1 ≤ target).Pairwise fun d e => d.1 < e.1 :=
    (List.pairwise_map.mp hw.ascending).filter _
  rw [placedUpTo, List.pairwise_flatMap]
  refine ⟨?_, ha.imp ?_⟩
  · intro e _
    apply List.pairwise_of_forall_mem_list
    intro p hp q hq
    exact Nat.le_of_eq ((version_of_mem_entries hp).trans (version_of_mem_entries hq).symm)
  · intro d e hlt p hp q hq
    rw [version_of_mem_entries hp, version_of_mem_entries hq]
    exact Nat.le_of_lt hlt

private theorem mem_updateIn {v w : Nat} {f : PathDocument → PathDocument}
    {versions : List (Nat × PathDocument)}
    (h : w ∈ (updateIn v f versions).map Prod.fst) : w = v ∨ w ∈ versions.map Prod.fst := by
  induction versions with
  | nil => simpa [updateIn] using h
  | cons e rest ih =>
    obtain ⟨u, paths⟩ := e
    by_cases hlt : v < u
    · simpa [updateIn, hlt] using h
    · by_cases heq : v = u
      · right
        simpa [updateIn, heq] using h
      · simp only [updateIn, hlt, heq, if_false, List.map_cons, List.mem_cons] at h ⊢
        rcases h with h | h
        · exact .inr (.inl h)
        · exact (ih h).imp id .inr

private theorem updateIn_ascending {v : Nat} {f : PathDocument → PathDocument}
    {versions : List (Nat × PathDocument)} (ha : (versions.map Prod.fst).Pairwise (· < ·)) :
    ((updateIn v f versions).map Prod.fst).Pairwise (· < ·) := by
  induction versions with
  | nil => simp [updateIn]
  | cons e rest ih =>
    obtain ⟨u, paths⟩ := e
    have hrest := List.pairwise_cons.mp ha
    by_cases hlt : v < u
    · simp only [updateIn, hlt, if_true, List.map_cons]
      refine List.pairwise_cons.mpr ⟨?_, ha⟩
      intro w hw
      rcases List.mem_cons.mp hw with rfl | hw
      · exact hlt
      · exact Nat.lt_trans hlt (hrest.1 w hw)
    · by_cases heq : v = u
      · simpa [updateIn, heq] using ha
      · simp only [updateIn, hlt, heq, if_false, List.map_cons]
        refine List.pairwise_cons.mpr ⟨?_, ih hrest.2⟩
        intro w hw
        rcases mem_updateIn hw with rfl | hw
        · omega
        · exact hrest.1 w hw

private theorem find?_updateIn {v : Nat} (f : PathDocument → PathDocument)
    {versions : List (Nat × PathDocument)} (ha : (versions.map Prod.fst).Pairwise (· < ·))
    (w : Nat) : ((updateIn v f versions).find? fun e => e.1 == w).map Prod.snd =
      if w = v then some (f (((versions.find? fun e => e.1 == v).map Prod.snd).getD {}))
      else (versions.find? fun e => e.1 == w).map Prod.snd := by
  induction versions with
  | nil => by_cases hw : w = v <;> simp [updateIn, hw, Ne.symm]
  | cons e rest ih =>
    obtain ⟨u, paths⟩ := e
    have hrest := List.pairwise_cons.mp ha
    by_cases hlt : v < u
    · have hu : ¬ u = v := by omega
      have hout : rest.find? (fun e => e.1 == v) = none := by
        rw [List.find?_eq_none]
        intro e he hv
        have hmem := hrest.1 e.1 (List.mem_map_of_mem (f := Prod.fst) he)
        have : e.1 = v := by simpa using hv
        omega
      by_cases hw : w = v
      · simp [updateIn, hlt, hw, hu, hout]
      · simp [updateIn, hlt, hw, Ne.symm hw]
    · by_cases heq : v = u
      · subst heq
        by_cases hw : w = v
        · simp [updateIn, hw]
        · simp [updateIn, hw, Ne.symm hw]
      · by_cases hwu : u = w
        · have hwv : ¬ w = v := fun he => heq (he ▸ hwu.symm)
          subst hwu
          simp [updateIn, hlt, heq, hwv]
        · simp [updateIn, hlt, heq, hwu, Ne.symm heq, ih hrest.2]

theorem wellFormed_empty : ({} : VersionHeap).WellFormed :=
  ⟨List.Pairwise.nil, by simp⟩

private theorem distinct_updateIn {v : Nat} {f : PathDocument → PathDocument}
    {versions : List (Nat × PathDocument)} (hf : ∀ paths : PathDocument, paths.Distinct →
      (f paths).Distinct) (hd : ∀ e ∈ versions, e.2.Distinct) :
    ∀ e ∈ updateIn v f versions, e.2.Distinct := by
  induction versions with
  | nil => simpa [updateIn] using hf {} OrderedMap.distinct_empty
  | cons e rest ih =>
    obtain ⟨u, paths⟩ := e
    have hpaths := hd (u, paths) (by simp)
    have hrest : ∀ e ∈ rest, e.2.Distinct := fun e he => hd e (List.mem_cons_of_mem _ he)
    by_cases hlt : v < u
    · simpa [updateIn, hlt] using ⟨hf {} OrderedMap.distinct_empty, hpaths, by simpa using hrest⟩
    · by_cases heq : v = u
      · simpa [updateIn, heq] using ⟨hf paths hpaths, by simpa using hrest⟩
      · simp only [updateIn, hlt, heq, if_false, List.mem_cons]
        rintro e (rfl | he)
        · exact hpaths
        · exact ih hrest e he

/-- Insertion keeps a heap well formed, so every heap that insertions build is. -/
theorem WellFormed.insert {h : VersionHeap} (hw : h.WellFormed) (version : Nat) (path : String)
    (item : PathItem) : (h.insert version path item).WellFormed where
  ascending := updateIn_ascending hw.ascending
  distinct := distinct_updateIn (fun _ hp => hp.upsert path _) hw.distinct

/-- An insertion changes the paths of its own version only. -/
theorem WellFormed.paths?_insert {h : VersionHeap} (hw : h.WellFormed) (version : Nat)
    (path : String) (item : PathItem) (v : Nat) : (h.insert version path item).paths? v =
      if v = version then some (((h.paths? version).getD {}).upsert path fun present =>
        (present.getD {}).overlay item.toList) else h.paths? v :=
  find?_updateIn _ hw.ascending v

/-- An insertion shows its own operations and hides no other. -/
theorem WellFormed.operation?_insert {h : VersionHeap} (hw : h.WellFormed) (version : Nat)
    (path : String) (item : PathItem) (v : Nat) (q : String) (m : Method) :
    (h.insert version path item).operation? v q m =
      if v = version ∧ q = path then (item.get? m).or (h.operation? v q m)
      else h.operation? v q m := by
  have hpaths := hw.paths?_insert version path item v
  by_cases hv : v = version
  · subst hv
    by_cases hq : q = path
    · subst hq
      cases hp : h.paths? v with
      | none => simp [operation?, hpaths, hp, OrderedMap.get?_upsert, ByMethod.get?_overlay]
      | some paths =>
        cases hi : paths.get? q <;>
          simp [operation?, hpaths, hp, OrderedMap.get?_upsert, ByMethod.get?_overlay, hi]
    · cases hp : h.paths? v with
      | none => simp [operation?, hpaths, hp, OrderedMap.get?_upsert, hq]
      | some paths => simp [operation?, hpaths, hp, OrderedMap.get?_upsert, hq]
  · simp [operation?, hpaths, hv]

end VersionHeap
end ApiDocs
