import ApiDocs.OrderedMap
import Mathlib.Data.List.Induction
/-!
# Laws of ordered maps

How look-up, keys and entries of a map speak of each other, and what the operations on whole maps
do to them.
-/
namespace ApiDocs.OrderedMap

variable {α β : Type}

theorem mem_entries_of_find? {key : String} {v : α} {entries : List (String × α)}
    (h : find? key entries = some v) : (key, v) ∈ entries := by
  induction entries with
  | nil => simp [find?] at h
  | cons e rest ih =>
    obtain ⟨k, w⟩ := e
    by_cases hk : k = key
    · have hv : w = v := by simpa [find?, hk] using h
      simp [hk, hv]
    · exact List.mem_cons_of_mem _ (ih (by simpa [find?, hk] using h))

private theorem find?_of_mem_entries {key : String} {v : α} {entries : List (String × α)}
    (hn : (entries.map Prod.fst).Nodup) (h : (key, v) ∈ entries) :
    find? key entries = some v := by
  induction entries with
  | nil => simp at h
  | cons e rest ih =>
    obtain ⟨k, w⟩ := e
    simp only [List.map_cons, List.nodup_cons] at hn
    rcases List.mem_cons.mp h with heq | hmem
    · obtain ⟨rfl, rfl⟩ := Prod.mk.injEq .. ▸ heq
      simp [find?]
    · have hne : ¬ k = key := fun he => hn.1 (he ▸ List.mem_map_of_mem (f := Prod.fst) hmem)
      simpa [find?, hne] using ih hn.2 hmem

/-- In a distinct map look-up finds exactly the entries. -/
theorem Distinct.mem_entries_iff {m : OrderedMap α} (h : m.Distinct) {key : String} {v : α} :
    (key, v) ∈ m.entries ↔ m.get? key = some v :=
  ⟨find?_of_mem_entries h, mem_entries_of_find?⟩

@[simp] theorem get?_empty (key : String) : ({} : OrderedMap α).get? key = none :=
  rfl

theorem distinct_empty : ({} : OrderedMap α).Distinct :=
  List.nodup_nil

theorem Distinct.insert {m : OrderedMap α} (h : m.Distinct) (key : String) (v : α) :
    (m.insert key v).Distinct :=
  h.upsert key fun _ => v

theorem keys_insert (m : OrderedMap α) (key : String) (v : α) :
    (m.insert key v).keys = if key ∈ m.keys then m.keys else m.keys ++ [key] :=
  keys_upsert m key fun _ => v

@[simp] theorem keys_mapValues (f : α → β) (m : OrderedMap α) :
    (m.mapValues f).keys = m.keys := by
  simp [mapValues, keys, Function.comp_def]

theorem Distinct.mapValues {m : OrderedMap α} (h : m.Distinct) (f : α → β) :
    (m.mapValues f).Distinct := by
  rw [Distinct, keys_mapValues]
  exact h

private theorem find?_map (f : α → β) (key : String) (entries : List (String × α)) :
    find? key (entries.map fun e => (e.1, f e.2)) = (find? key entries).map f := by
  induction entries with
  | nil => rfl
  | cons e rest ih =>
    obtain ⟨k, v⟩ := e
    by_cases h : k = key
    · simp [find?, h]
    · simpa [find?, h] using ih

theorem get?_mapValues (f : α → β) (m : OrderedMap α) (key : String) :
    (m.mapValues f).get? key = (m.get? key).map f :=
  find?_map f key m.entries

/-- A map that is filled item by item lists the keys by their first occurrence. -/
theorem keys_foldl_upsert {ι : Type} (key : ι → String) (f : ι → Option α → α) (items : List ι) :
    (items.foldl (fun m x => m.upsert (key x) (f x)) ({} : OrderedMap α)).keys =
      (items.map key).eraseDups := by
  induction items using List.reverseRecOn with
  | nil => rfl
  | append_singleton front x ih =>
    rw [List.foldl_append, List.foldl_cons, List.foldl_nil, keys_upsert, ih, List.map_append,
      List.eraseDups_append]
    generalize front.map key = keys
    by_cases h : key x ∈ keys <;> simp [List.removeAll, List.eraseDups_cons, h]

theorem keys_ofList (entries : List (String × α)) :
    (ofList entries).keys = (entries.map Prod.fst).eraseDups :=
  keys_foldl_upsert Prod.fst (fun e _ => e.2) entries

theorem distinct_ofList (entries : List (String × α)) : (ofList entries).Distinct :=
  List.foldlRecOn entries _ distinct_empty fun _ hm e _ => hm.insert e.1 e.2

theorem keys_foldl_insert (v : α) (keys : List String) :
    (keys.foldl (fun m key => m.insert key v) ({} : OrderedMap α)).keys = keys.eraseDups := by
  have h := keys_ofList (keys.map fun key => (key, v))
  rw [ofList, insertAll, List.foldl_map, List.map_map] at h
  exact h.trans (congrArg List.eraseDups (List.map_id keys))

theorem get?_foldl_insert (v : α) (keys : List String) (m : OrderedMap α) (key : String) :
    (keys.foldl (fun m key => m.insert key v) m).get? key =
      if key ∈ keys then some v else m.get? key := by
  induction keys generalizing m with
  | nil => simp
  | cons k keys ih =>
    rw [List.foldl_cons, ih, get?_insert]
    by_cases hk : key = k <;> by_cases hmem : key ∈ keys <;> simp [hk, hmem]

private theorem upsertIn_of_find? {key : String} {v : α} {f : Option α → α}
    {entries : List (String × α)} (h : find? key entries = some v) (hf : f (some v) = v) :
    upsertIn key f entries = entries := by
  induction entries with
  | nil => cases h
  | cons e rest ih =>
    obtain ⟨k, w⟩ := e
    by_cases hk : k = key
    · have hw : w = v := by simpa [find?, hk] using h
      rw [upsertIn, if_pos hk, hw, hf]
    · rw [upsertIn, if_neg hk, ih (by simpa [find?, hk] using h)]

/-- Writing what is there changes nothing. -/
theorem insert_of_get? {m : OrderedMap α} {key : String} {v : α} (h : m.get? key = some v) :
    m.insert key v = m := by
  rw [insert, upsert, upsertIn_of_find? h rfl]

/-- A list that is made entry by entry is not changed by a write that changes no entry's part. -/
theorem flatMap_upsertIn (part : String × α → List β) (key : String) (f : Option α → α)
    (entries : List (String × α))
    (h : part (key, f (find? key entries)) =
      ((find? key entries).map fun v => part (key, v)).getD []) :
    (upsertIn key f entries).flatMap part = entries.flatMap part := by
  induction entries with
  | nil => simpa [upsertIn, find?] using h
  | cons e rest ih =>
    obtain ⟨k, v⟩ := e
    by_cases hk : k = key
    · subst hk
      have hpart : part (k, f (some v)) = part (k, v) := by simpa [find?] using h
      simp [upsertIn, hpart]
    · have hrest := ih (by simpa [find?, hk] using h)
      simp [upsertIn, hk, hrest]

private theorem upsertIn_of_notMem {key : String} (f : Option α → α)
    {entries : List (String × α)} (h : key ∉ entries.map Prod.fst) :
    upsertIn key f entries = entries ++ [(key, f none)] := by
  induction entries with
  | nil => rfl
  | cons e rest ih =>
    obtain ⟨k, v⟩ := e
    simp only [List.map_cons, List.mem_cons, not_or] at h
    have hk : ¬ k = key := fun he => h.1 he.symm
    simp [upsertIn, hk, ih h.2]

private theorem insertAll_of_nodup (m : OrderedMap α) (entries : List (String × α))
    (h : (m.keys ++ entries.map Prod.fst).Nodup) :
    m.insertAll entries = ⟨m.entries ++ entries⟩ := by
  induction entries generalizing m with
  | nil => simp [insertAll]
  | cons e rest ih =>
    have hfresh : e.1 ∉ m.keys := by
      intro hmem
      exact (List.nodup_append.mp h).2.2 _ hmem _ (by simp) rfl
    have hinsert : m.insert e.1 e.2 = ⟨m.entries ++ [e]⟩ := by
      simp only [insert, upsert, upsertIn_of_notMem _ hfresh]
    change (m.insert e.1 e.2).insertAll rest = _
    rw [hinsert, ih]
    · simp
    · simpa [keys] using h

/-- Entries of different keys are the map that they build. -/
theorem Distinct.ofList_entries {m : OrderedMap α} (h : m.Distinct) : ofList m.entries = m := by
  rw [ofList, insertAll_of_nodup]
  · simp
  · exact h

private theorem forall_mem_upsertIn {P : α → Prop} {key : String} {v : α} (hv : P v)
    {entries : List (String × α)} (h : ∀ e ∈ entries, P e.2) :
    ∀ e ∈ upsertIn key (fun _ => v) entries, P e.2 := by
  induction entries with
  | nil => exact List.forall_mem_singleton.mpr hv
  | cons e rest ih =>
    obtain ⟨k, w⟩ := e
    obtain ⟨hw, hrest⟩ := List.forall_mem_cons.mp h
    rw [upsertIn]
    split
    · exact List.forall_mem_cons.mpr ⟨hv, hrest⟩
    · exact List.forall_mem_cons.mpr ⟨hw, ih hrest⟩

theorem forall_mem_insert {P : α → Prop} {m : OrderedMap α} {v : α} (hv : P v)
    (h : ∀ e ∈ m.entries, P e.2) (key : String) : ∀ e ∈ (m.insert key v).entries, P e.2 :=
  forall_mem_upsertIn hv h

/-- A map that entries build has no values but theirs. -/
theorem forall_mem_ofList {P : α → Prop} {entries : List (String × α)} (h : ∀ e ∈ entries, P e.2) :
    ∀ e ∈ (ofList entries).entries, P e.2 := by
  have hall : ∀ m : OrderedMap α, (∀ e ∈ m.entries, P e.2) →
      ∀ e ∈ (m.insertAll entries).entries, P e.2 := by
    induction entries with
    | nil => exact fun m hm => hm
    | cons e rest ih =>
      obtain ⟨he, hrest⟩ := List.forall_mem_cons.mp h
      intro m hm
      exact ih hrest (m.insert e.1 e.2) (forall_mem_insert he hm e.1)
  exact hall {} (List.forall_mem_nil _)

private theorem find?_of_notMem {key : String} {entries : List (String × α)}
    (h : key ∉ entries.map Prod.fst) : find? key entries = none := by
  rw [Option.eq_none_iff_forall_ne_some]
  intro v hv
  exact h (mem_keys_of_find? hv)

private theorem exists_find?_of_mem {key : String} {entries : List (String × α)}
    (h : key ∈ entries.map Prod.fst) : ∃ v, find? key entries = some v := by
  induction entries with
  | nil => simp at h
  | cons e rest ih =>
    obtain ⟨k, v⟩ := e
    by_cases hk : k = key
    · exact ⟨v, by simp [find?, hk]⟩
    · simpa [find?, hk] using ih (by simpa [Ne.symm hk] using h)

/-- The keys of a map are those that look-up finds. -/
theorem mem_keys_iff {m : OrderedMap α} {key : String} :
    key ∈ m.keys ↔ ∃ v, m.get? key = some v :=
  ⟨exists_find?_of_mem, fun ⟨_, hv⟩ => mem_keys_of_get? hv⟩

private theorem get?_insertAll_of_nodup {entries : List (String × α)}
    (h : (entries.map Prod.fst).Nodup) (base : OrderedMap α) (key : String) :
    (base.insertAll entries).get? key = (find? key entries).or (base.get? key) := by
  induction entries generalizing base with
  | nil => rfl
  | cons e rest ih =>
    obtain ⟨k, v⟩ := e
    obtain ⟨hk, hrest⟩ := List.nodup_cons.mp h
    change ((base.insert k v).insertAll rest).get? key = _
    rw [ih hrest, get?_insert, find?]
    by_cases hkey : k = key
    · subst hkey
      simp [find?_of_notMem hk]
    · simp [hkey, Ne.symm hkey]

/-- What a distinct map says of a key goes before what was there. -/
theorem Distinct.get?_insertAll {m : OrderedMap α} (h : m.Distinct) (base : OrderedMap α)
    (key : String) : (base.insertAll m.entries).get? key = (m.get? key).or (base.get? key) :=
  get?_insertAll_of_nodup h base key

theorem insertAll_append (m : OrderedMap α) (front back : List (String × α)) :
    m.insertAll (front ++ back) = (m.insertAll front).insertAll back :=
  List.foldl_append

/-- A map that entries build has under a key what the last of them with this key says. -/
theorem get?_ofList_eq_some_iff {entries : List (String × α)} {key : String} {v : α} :
    (ofList entries).get? key = some v ↔
      ∃ front back, entries = front ++ (key, v) :: back ∧ key ∉ back.map Prod.fst := by
  induction entries using List.reverseRecOn with
  | nil => simp [ofList, insertAll]
  | append_singleton entries e ih =>
    have hlast : ofList (entries ++ [e]) = (ofList entries).insert e.1 e.2 :=
      insertAll_append {} entries [e]
    rw [hlast, get?_insert]
    constructor
    · intro h
      split at h
      · next hkey =>
        cases h
        exact ⟨entries, [], by rw [hkey], by simp⟩
      · next hkey =>
        obtain ⟨front, back, rfl, hback⟩ := ih.mp h
        exact ⟨front, back ++ [e], by simp, by simpa [hkey] using hback⟩
    · intro ⟨front, back, hsplit, hback⟩
      rcases List.eq_nil_or_concat back with rfl | ⟨back, other, rfl⟩
      · obtain ⟨-, rfl⟩ := List.append_singleton_inj.mp hsplit
        rw [if_pos rfl]
      · rw [List.concat_eq_append, ← List.cons_append, ← List.append_assoc] at hsplit
        obtain ⟨hentries, rfl⟩ := List.append_singleton_inj.mp hsplit
        rw [List.concat_eq_append, List.map_append, List.mem_append, not_or] at hback
        rw [if_neg (by simpa using hback.2)]
        exact ih.mpr ⟨front, back, hentries, hback.1⟩

/-- Of maps that are written one after another, the last one that has a key decides on it. -/
theorem get?_insertAll_flatMap {maps : List (OrderedMap α)} (h : ∀ m ∈ maps, m.Distinct)
    (base : OrderedMap α) (key : String) :
    (base.insertAll (maps.flatMap entries)).get? key =
      (maps.reverse.findSome? fun m => m.get? key).or (base.get? key) := by
  induction maps generalizing base with
  | nil => rfl
  | cons m maps ih =>
    obtain ⟨hm, hmaps⟩ := List.forall_mem_cons.mp h
    rw [List.flatMap_cons, insertAll_append, ih hmaps, hm.get?_insertAll, List.reverse_cons,
      List.findSome?_append, Option.or_assoc]
    simp

theorem keys_filterKeys (keep : String → Bool) (m : OrderedMap α) :
    (m.filterKeys keep).keys = m.keys.filter keep := by
  rw [filterKeys, keys, keys, List.filter_map]
  rfl

theorem filterKeys_congr {keep keep' : String → Bool} {m : OrderedMap α}
    (h : ∀ key ∈ m.keys, keep key = keep' key) : m.filterKeys keep = m.filterKeys keep' := by
  rw [filterKeys, filterKeys, List.filter_congr]
  exact fun e he => h e.1 (List.mem_map_of_mem he)

private theorem find?_filter {keep : String → Bool} {key : String} (h : keep key = true)
    (entries : List (String × α)) :
    find? key (entries.filter fun e => keep e.1) = find? key entries := by
  induction entries with
  | nil => rfl
  | cons e rest ih =>
    obtain ⟨k, v⟩ := e
    by_cases hk : k = key
    · subst hk
      simp [h, find?]
    · by_cases hkeep : keep k = true
      · simp [hkeep, find?, hk, ih]
      · simp [hkeep, find?, hk, ih]

theorem get?_filterKeys {keep : String → Bool} {key : String} (h : keep key = true)
    (m : OrderedMap α) : (m.filterKeys keep).get? key = m.get? key :=
  find?_filter h m.entries

theorem get?_filterKeys_of_not {keep : String → Bool} {key : String} (h : keep key = false)
    (m : OrderedMap α) : (m.filterKeys keep).get? key = none := by
  rw [Option.eq_none_iff_forall_ne_some]
  intro v hv
  have hmem := mem_keys_of_get? hv
  rw [keys_filterKeys, List.mem_filter, h] at hmem
  cases hmem.2

/-- Erasing keys one after another, some of them more than once, keeps all the others. -/
theorem foldl_erase (m : OrderedMap α) (keys : List String) :
    keys.foldl erase m = m.filterKeys fun key => key ∉ keys := by
  induction keys generalizing m with
  | nil =>
    have hall : m.entries.filter (fun _ => true) = m.entries := List.filter_eq_self.mpr (by simp)
    simp [filterKeys, hall]
  | cons key keys ih =>
    rw [List.foldl_cons, ih, erase, filterKeys, filterKeys, List.filter_filter]
    simp [not_or, Bool.and_comm]

end ApiDocs.OrderedMap
