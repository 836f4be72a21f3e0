import ApiDocs.Proofs.OrderedMap
import ApiDocs.Route.Method
import Mathlib.Data.List.Nodup
/-!
# Tables by path and method

Layers, path documents and the versions of a heap are tables with a cell for each path and
method. They are filled by writing one cell after another, so a cell shows the last value that
was written to it.
-/
namespace ApiDocs

theorem Method.mem_all (m : Method) : m ∈ Method.all := by
  cases m <;> simp [Method.all]

theorem Method.ofKey?_key (m : Method) : ofKey? m.key = some m := by
  cases m <;> rfl

theorem Method.key_injective : Function.Injective key := by
  intro a b h
  have hkey := congrArg ofKey? h
  rw [ofKey?_key, ofKey?_key] at hkey
  exact Option.some.inj hkey

namespace ByMethod

variable {α : Type}

@[simp] theorem get?_empty (m : Method) : ({} : ByMethod α).get? m = none := by
  cases m <;> rfl

theorem get?_set (t : ByMethod α) (method m : Method) (v : α) :
    (t.set method v).get? m = if m = method then some v else t.get? m := by
  cases method <;> cases m <;> rfl

theorem mem_toList {t : ByMethod α} {m : Method} {v : α} :
    (m, v) ∈ t.toList ↔ t.get? m = some v := by
  simp only [toList, List.mem_filterMap, Option.map_eq_some_iff, Prod.mk.injEq]
  constructor
  · rintro ⟨_, _, _, h, rfl, rfl⟩
    exact h
  · intro h
    exact ⟨m, m.mem_all, v, h, rfl, rfl⟩

private theorem get?_overlay_list (t : ByMethod α) (values : List (Method × α)) (m : Method) :
    (t.overlay values).get? m =
      (((values.filter fun e => e.1 = m).getLast?).map Prod.snd).or (t.get? m) := by
  induction values using List.reverseRecOn with
  | nil => simp [overlay]
  | append_singleton front e ih =>
    have hstep : t.overlay (front ++ [e]) = (t.overlay front).set e.1 e.2 := by
      simp [overlay]
    rw [hstep, get?_set, ih, List.filter_append]
    by_cases he : e.1 = m
    · simp [he]
    · simp [he, Ne.symm he]

private theorem getLast?_filter_toList (t : ByMethod α) (m : Method) :
    ((t.toList.filter fun e => e.1 = m).getLast?).map Prod.snd = t.get? m := by
  cases hlast : (t.toList.filter fun e => e.1 = m).getLast? with
  | none =>
    have hnil := List.getLast?_eq_none_iff.mp hlast
    cases hv : t.get? m with
    | none => rfl
    | some v =>
      have hmem : (m, v) ∈ t.toList.filter fun e => e.1 = m := by simp [mem_toList.mpr hv]
      simp [hnil] at hmem
  | some e =>
    obtain ⟨n, v⟩ := e
    have hmem := List.mem_filter.mp (List.mem_of_getLast? hlast)
    have hn : n = m := by simpa using hmem.2
    exact (hn ▸ mem_toList.mp hmem.1).symm

/-- A table is told by its values. -/
theorem ext_get? {t t' : ByMethod α} (h : ∀ m, t.get? m = t'.get? m) : t = t' := by
  cases t
  cases t'
  simp only [mk.injEq]
  exact ⟨h .get, h .post, h .put, h .delete, h .patch, h .options, h .head⟩

theorem get?_overlay (t values : ByMethod α) (m : Method) :
    (t.overlay values.toList).get? m = (values.get? m).or (t.get? m) := by
  rw [get?_overlay_list, getLast?_filter_toList]

end ByMethod

/-- Values by path and method. -/
abbrev Table (α : Type) := OrderedMap (ByMethod α)

namespace Table

variable {α : Type}

def cell? (t : Table α) (path : String) (m : Method) : Option α :=
  (t.get? path).bind fun item => item.get? m

/-- Write the value at a path and a method. -/
def write (t : Table α) (path : String) (m : Method) (v : α) : Table α :=
  t.upsert path fun present => (present.getD {}).set m v

/-- No path is listed without a value. -/
def Filled (t : Table α) : Prop :=
  ∀ path item, t.get? path = some item → ∃ m v, item.get? m = some v

@[simp] theorem cell?_empty (path : String) (m : Method) : cell? ({} : Table α) path m = none :=
  rfl

theorem cell?_write (t : Table α) (path q : String) (m n : Method) (v : α) :
    (t.write path m v).cell? q n = if q = path ∧ n = m then some v else t.cell? q n := by
  unfold write cell?
  rw [OrderedMap.get?_upsert]
  by_cases hq : q = path
  · subst hq
    cases h : t.get? q <;> simp [ByMethod.get?_set]
  · simp [hq]

theorem filled_empty : Filled ({} : Table α) := by
  intro path item h
  simp at h

theorem Filled.write {t : Table α} (h : t.Filled) (path : String) (m : Method) (v : α) :
    (t.write path m v).Filled := by
  intro q item hitem
  unfold Table.write at hitem
  rw [OrderedMap.get?_upsert] at hitem
  split at hitem
  · have heq := Option.some.inj hitem
    exact ⟨m, v, by rw [← heq, ByMethod.get?_set, if_pos rfl]⟩
  · exact h q item hitem

theorem Filled.mem_keys_iff {t : Table α} (h : t.Filled) {path : String} :
    path ∈ t.keys ↔ ∃ m v, t.cell? path m = some v := by
  simp only [OrderedMap.mem_keys_iff, cell?, Option.bind_eq_some_iff]
  constructor
  · intro ⟨item, hitem⟩
    obtain ⟨m, v, hv⟩ := h path item hitem
    exact ⟨m, v, item, hitem, hv⟩
  · intro ⟨_, _, item, hitem, _⟩
    exact ⟨item, hitem⟩

/-- Tables with the same paths and the same cells differ at most in the order of their paths. -/
theorem perm_entries {t t' : Table α} (ht : t.Distinct) (ht' : t'.Distinct)
    (hkeys : ∀ path, path ∈ t.keys ↔ path ∈ t'.keys)
    (hcell : ∀ path m, t.cell? path m = t'.cell? path m) : t.entries.Perm t'.entries := by
  have hget : ∀ path item, t.get? path = some item ↔ t'.get? path = some item := by
    intro path item
    have hitems : ∀ item item', t.get? path = some item → t'.get? path = some item' →
        item = item' := by
      intro item item' hitem hitem'
      apply ByMethod.ext_get?
      intro m
      simpa [cell?, hitem, hitem'] using hcell path m
    have hpath := hkeys path
    simp only [OrderedMap.mem_keys_iff] at hpath
    constructor
    · intro hitem
      obtain ⟨item', hitem'⟩ := hpath.mp ⟨item, hitem⟩
      rwa [hitems item item' hitem hitem']
    · intro hitem
      obtain ⟨item', hitem'⟩ := hpath.mpr ⟨item, hitem⟩
      rwa [← hitems item' item hitem' hitem]
  apply (List.perm_ext_iff_of_nodup (List.Nodup.of_map _ ht) (List.Nodup.of_map _ ht')).mpr
  intro e
  rw [ht.mem_entries_iff, ht'.mem_entries_iff, hget]

section Writes

variable {β : Type} (path : β → String) (method : β → Method) (value : β → α)

/-- Write a value for each item of a list, first to last. -/
def writeAll (t : Table α) (items : List β) : Table α :=
  items.foldl (fun t x => t.write (path x) (method x) (value x)) t

/-- After many writes a cell shows the last one that went there. -/
theorem cell?_writeAll (t : Table α) (items : List β) (q : String) (n : Method) :
    (writeAll path method value t items).cell? q n =
      (((items.filter fun x => path x = q ∧ method x = n).getLast?).map value).or
        (t.cell? q n) := by
  induction items using List.reverseRecOn with
  | nil => simp [writeAll]
  | append_singleton front x ih =>
    have hstep : writeAll path method value t (front ++ [x]) =
        (writeAll path method value t front).write (path x) (method x) (value x) := by
      simp [writeAll]
    rw [hstep, cell?_write, ih, List.filter_append]
    by_cases hx : path x = q ∧ method x = n
    · simp [hx]
    · have hx' : ¬ (q = path x ∧ n = method x) := fun h => hx ⟨h.1.symm, h.2.symm⟩
      simp [hx, hx']

/-- What is written later hides what was written before. -/
theorem cell?_writeAll_append (front back : List β) (q : String) (n : Method) :
    (writeAll path method value {} (front ++ back)).cell? q n =
      ((writeAll path method value {} back).cell? q n).or
        ((writeAll path method value {} front).cell? q n) := by
  simp only [cell?_writeAll, cell?_empty, Option.or_none, List.filter_append,
    List.getLast?_append, Option.map_or]

/-- What a cell shows was written to it. -/
theorem exists_of_cell?_writeAll {items : List β} {q : String} {n : Method} {v : α}
    (h : cell? (writeAll path method value {} items) q n = some v) :
    ∃ x ∈ items, path x = q ∧ method x = n ∧ value x = v := by
  rw [cell?_writeAll] at h
  simp only [cell?_empty, Option.or_none, Option.map_eq_some_iff] at h
  obtain ⟨x, hlast, rfl⟩ := h
  obtain ⟨hmem, hat⟩ := List.mem_filter.mp (List.mem_of_getLast? hlast)
  obtain ⟨hpath, hmethod⟩ : path x = q ∧ method x = n := by simpa using hat
  exact ⟨x, hmem, hpath, hmethod, rfl⟩

/-- When the values written to a cell agree, the cell shows exactly what was written. -/
theorem cell?_writeAll_eq_some_iff {items : List β} {q : String} {n : Method}
    (hagree : ∀ x ∈ items, ∀ y ∈ items, path x = q ∧ method x = n → path y = q ∧ method y = n →
      value x = value y) {v : α} :
    cell? (writeAll path method value {} items) q n = some v ↔
      ∃ x ∈ items, path x = q ∧ method x = n ∧ value x = v := by
  constructor
  · exact exists_of_cell?_writeAll path method value
  · rintro ⟨x, hx, hpath, hmethod, rfl⟩
    have hmem : x ∈ items.filter fun y => path y = q ∧ method y = n :=
      List.mem_filter.mpr ⟨hx, by simp [hpath, hmethod]⟩
    have hne : (items.filter fun y => path y = q ∧ method y = n) ≠ [] :=
      List.ne_nil_of_mem hmem
    rw [cell?_writeAll, List.getLast?_eq_some_getLast hne, Option.map_some, Option.some_or]
    obtain ⟨hlast, hat⟩ := List.mem_filter.mp (List.getLast_mem hne)
    rw [hagree _ hlast x hx (of_decide_eq_true hat) ⟨hpath, hmethod⟩]

theorem mem_keys_writeAll {t : Table α} {items : List β} {q : String} :
    q ∈ (writeAll path method value t items).keys ↔ q ∈ t.keys ∨ ∃ x ∈ items, path x = q := by
  induction items generalizing t with
  | nil => simp [writeAll]
  | cons x items ih =>
    have hwrite : q ∈ (t.write (path x) (method x) (value x)).keys ↔ q ∈ t.keys ∨ path x = q := by
      rw [write, OrderedMap.keys_upsert]
      split
      · next hpresent =>
        exact ⟨.inl, fun h => h.elim id fun hx => hx ▸ hpresent⟩
      · simp [eq_comm]
    have hstep : writeAll path method value t (x :: items) =
        writeAll path method value (t.write (path x) (method x) (value x)) items := rfl
    rw [hstep, ih, hwrite, or_assoc]
    simp

/-- A table lists its paths by the first item that was written to each. -/
theorem keys_writeAll (items : List β) :
    (writeAll path method value {} items).keys = (items.map path).eraseDups :=
  OrderedMap.keys_foldl_upsert path
    (fun x (present : Option (ByMethod α)) => (present.getD {}).set (method x) (value x)) items

theorem writeAll_filled {t : Table α} (h : t.Filled) (items : List β) :
    (writeAll path method value t items).Filled := by
  induction items generalizing t with
  | nil => exact h
  | cons x items ih => exact ih (h.write (path x) (method x) (value x))

theorem writeAll_distinct {t : Table α} (h : t.Distinct) (items : List β) :
    (writeAll path method value t items).Distinct := by
  induction items generalizing t with
  | nil => exact h
  | cons x items ih => exact ih (h.upsert (path x) _)

end Writes
end Table
end ApiDocs
