import ApiDocs.Files.Tree
import ApiDocs.Proofs.OrderedMap
/-!
# Entries below a directory

Names are followed one after another, so what is found below an entry is found from further up.
Putting an entry at a place leaves everything that is neither on the way nor below as it was.
-/
namespace ApiDocs

/-- The entry below an entry, by plain names. -/
def Entry.descend (e : Entry) : List String → Option Entry
  | [] => some e
  | name :: rest =>
    match e with
    | .file _ => none
    | .directory d => Directory.find? d (name :: rest)

namespace Directory

theorem find?_nil (d : Directory) : d.find? [] = some (.directory d) :=
  rfl

theorem find?_cons (d : Directory) (name : String) (rest : List String) :
    d.find? (name :: rest) = (d.get? name).bind fun e => e.descend rest := by
  rw [find?]
  cases d.get? name with
  | none => rfl
  | some e =>
    cases e with
    | file content => cases rest <;> rfl
    | directory inner => cases rest <;> rfl

theorem descend_directory (d : Directory) (names : List String) :
    (Entry.directory d).descend names = d.find? names := by
  cases names <;> rfl

theorem descend_file (content : Content) {names : List String} (h : names ≠ []) :
    (Entry.file content).descend names = none := by
  cases names with
  | nil => exact absurd rfl h
  | cons name rest => rfl

theorem descend_append (e : Entry) (names rest : List String) :
    e.descend (names ++ rest) = (e.descend names).bind fun e => e.descend rest := by
  induction names generalizing e with
  | nil => rfl
  | cons name names ih =>
    cases e with
    | file content => rfl
    | directory d =>
      rw [descend_directory, descend_directory, List.cons_append, find?_cons, find?_cons]
      cases d.get? name with
      | none => rfl
      | some e => exact ih e

theorem find?_append (d : Directory) (names rest : List String) :
    d.find? (names ++ rest) = (d.find? names).bind fun e => e.descend rest := by
  rw [← descend_directory, ← descend_directory, descend_append]

theorem find?_empty {names : List String} (h : names ≠ []) : find? {} names = none := by
  cases names with
  | nil => exact absurd rfl h
  | cons name rest => rfl

/-- What lies on the way to an entry is a directory. -/
theorem exists_directory_of_find? {d : Directory} {names rest : List String} {e : Entry}
    (hrest : rest ≠ []) (h : d.find? (names ++ rest) = some e) :
    ∃ inner, d.find? names = some (.directory inner) := by
  rw [find?_append] at h
  obtain ⟨e', he', hbelow⟩ := Option.bind_eq_some_iff.mp h
  cases e' with
  | file content =>
    rw [descend_file content hrest] at hbelow
    cases hbelow
  | directory inner => exact ⟨inner, he'⟩

theorem put_cons (entry : Entry) (d : Directory) (name : String) {rest : List String}
    (h : rest ≠ []) : put entry d (name :: rest) =
      d.insert name (.directory (put entry (ofEntry (d.get? name)) rest)) := by
  cases rest with
  | nil => exact absurd rfl h
  | cons next rest => rfl

theorem get?_put_cons (entry : Entry) (d : Directory) (name : String) (rest : List String)
    (key : String) : (put entry d (name :: rest)).get? key =
      if key = name then
        some (if rest = [] then entry else .directory (put entry (ofEntry (d.get? name)) rest))
      else d.get? key := by
  cases rest with
  | nil => exact OrderedMap.get?_insert d name key entry
  | cons next rest => rw [put_cons entry d name (by simp), OrderedMap.get?_insert]; simp

/-- Putting what is there changes nothing. -/
theorem put_of_find? {entry : Entry} {d : Directory} {place : List String}
    (h : d.find? place = some entry) : put entry d place = d := by
  induction place generalizing d with
  | nil => rfl
  | cons name rest ih =>
    by_cases hrest : rest = []
    · rw [find?_cons, hrest, Option.bind_eq_some_iff] at h
      obtain ⟨e, he, hentry⟩ := h
      obtain rfl := Option.some.inj hentry
      rw [hrest]
      exact OrderedMap.insert_of_get? he
    · have hway : ∃ inner, d.find? [name] = some (.directory inner) :=
        exists_directory_of_find? hrest h
      obtain ⟨inner, hinner⟩ := hway
      rw [find?_cons, Option.bind_eq_some_iff] at hinner
      obtain ⟨e, he, hentry⟩ := hinner
      obtain rfl := Option.some.inj hentry
      rw [find?_cons, he, Option.bind_some, descend_directory] at h
      rw [put_cons entry d name hrest, he, ofEntry, ih h]
      exact OrderedMap.insert_of_get? he

/-- Below the place of an entry is what is below the entry. -/
theorem find?_put_below (entry : Entry) (d : Directory) {place : List String} (h : place ≠ [])
    (names : List String) : (put entry d place).find? (place ++ names) = entry.descend names := by
  induction place generalizing d with
  | nil => exact absurd rfl h
  | cons name rest ih =>
    rw [List.cons_append, find?_cons, get?_put_cons, if_pos rfl, Option.bind_some]
    by_cases hrest : rest = []
    · rw [if_pos hrest, hrest, List.nil_append]
    · rw [if_neg hrest, descend_directory]
      exact ih (ofEntry (d.get? name)) hrest

private theorem find?_ofEntry (d : Directory) (name : String) {names : List String}
    (h : names ≠ []) : (ofEntry (d.get? name)).find? names = d.find? (name :: names) := by
  rw [find?_cons]
  cases d.get? name with
  | none => exact find?_empty h
  | some e =>
    cases e with
    | file content => exact (find?_empty h).trans (descend_file content h).symm
    | directory inner => exact (descend_directory inner names).symm

/-- On the way to the place of an entry are directories. -/
theorem find?_put_above (entry : Entry) (d : Directory) (names : List String)
    {rest : List String} (h : rest ≠ []) : (put entry d (names ++ rest)).find? names =
      some (.directory (put entry (ofEntry (d.find? names)) rest)) := by
  induction names generalizing d with
  | nil => rfl
  | cons name names ih =>
    have hne : names ++ rest ≠ [] := by simp [h]
    rw [List.cons_append, find?_cons, get?_put_cons, if_pos rfl, if_neg hne, Option.bind_some,
      descend_directory, ih]
    by_cases hnames : names = []
    · subst hnames
      rw [find?_nil, find?_cons]
      cases d.get? name <;> rfl
    · rw [find?_ofEntry d name hnames]

/-- Elsewhere nothing changes. -/
theorem find?_put_elsewhere (entry : Entry) (d : Directory) {place names : List String}
    (habove : ¬ names <+: place) (hbelow : ¬ place <+: names) :
    (put entry d place).find? names = d.find? names := by
  induction place generalizing d names with
  | nil => exact absurd List.nil_prefix hbelow
  | cons name rest ih =>
    cases names with
    | nil => exact absurd List.nil_prefix habove
    | cons key names =>
      rw [find?_cons, find?_cons, get?_put_cons]
      by_cases hkey : key = name
      · subst hkey
        have habove' : ¬ names <+: rest := fun h => habove (List.cons_prefix_cons.mpr ⟨rfl, h⟩)
        have hbelow' : ¬ rest <+: names := fun h => hbelow (List.cons_prefix_cons.mpr ⟨rfl, h⟩)
        have hrest : rest ≠ [] := by
          rintro rfl
          exact hbelow' List.nil_prefix
        have hnames : names ≠ [] := by
          rintro rfl
          exact habove' List.nil_prefix
        rw [if_pos rfl, if_neg hrest, Option.bind_some, descend_directory, ih _ habove' hbelow',
          find?_ofEntry d key hnames, find?_cons]
      · rw [if_neg hkey]

/-- How a place stands to the one at which an entry is put. -/
inductive Position (target place : List String) : Prop where
  | same (h : place = target)
  | above (rest : List String) (h : place ++ rest = target) (hrest : rest ≠ [])
  | below (rest : List String) (h : target ++ rest = place) (hrest : rest ≠ [])
  | elsewhere (habove : ¬ place <+: target) (hbelow : ¬ target <+: place)

theorem position (target place : List String) : Position target place := by
  by_cases hsame : place = target
  · exact .same hsame
  by_cases habove : place <+: target
  · obtain ⟨rest, hrest⟩ := habove
    refine .above rest hrest fun hnil => hsame ?_
    rw [← hrest, hnil, List.append_nil]
  by_cases hbelow : target <+: place
  · obtain ⟨rest, hrest⟩ := hbelow
    refine .below rest hrest fun hnil => hsame ?_
    rw [← hrest, hnil, List.append_nil]
  · exact .elsewhere habove hbelow

end Directory

/-- What passes from a directory to its entries holds of everything below an entry. -/
theorem Entry.of_descend {P : List String → Entry → Prop}
    (hstep : ∀ names d, P names (.directory d) → ∀ e ∈ d.entries, P (names ++ [e.1]) e.2)
    {front names : List String} {e found : Entry} (h : P front e)
    (hfound : e.descend names = some found) : P (front ++ names) found := by
  induction names generalizing front e with
  | nil =>
    obtain rfl := Option.some.inj hfound
    rwa [List.append_nil]
  | cons name rest ih =>
    cases e with
    | file content => cases hfound
    | directory d =>
      rw [Directory.descend_directory, Directory.find?_cons, Option.bind_eq_some_iff] at hfound
      obtain ⟨next, hnext, hfound⟩ := hfound
      have hrest := ih (hstep front d h _ (OrderedMap.mem_entries_of_find? hnext)) hfound
      rwa [List.append_assoc] at hrest

end ApiDocs
