import ApiDocs.Proofs.Text.Search
/-!
# Replaced texts

A marker is replaced where it occurs first, and then in what follows the occurrence. What is put in
its place is not searched, so a value may hold the marker.
-/
namespace ApiDocs.Text

variable {marker value : List Char}

/-- A text with all occurrences of a marker replaced by a value, found from left to right: the
first of them starts no later than any other, and the search goes on behind it. -/
inductive Replaces (marker value : List Char) : List Char → List Char → Prop
  | none {text : List Char} (h : ¬ marker <:+: text) : Replaces marker value text text
  | next {front back result : List Char}
      (hfirst : ∀ start rest, front ++ marker ++ back = start ++ marker ++ rest →
        front.length ≤ start.length)
      (hrest : Replaces marker value back result) :
      Replaces marker value (front ++ marker ++ back) (front ++ value ++ result)

/-- A character at which no occurrence starts stays. -/
theorem Replaces.cons {c : Char} {text result : List Char} (h : Replaces marker value text result)
    (hstart : ¬ marker <+: c :: text) : Replaces marker value (c :: text) (c :: result) := by
  cases h with
  | none hnone =>
    refine .none fun hinfix => ?_
    exact (List.infix_cons_iff.mp hinfix).elim hstart hnone
  | @next front back result hfirst hrest =>
    have hlater : ∀ start rest, c :: front ++ marker ++ back = start ++ marker ++ rest →
        (c :: front).length ≤ start.length := by
      intro start rest hsplit
      cases start with
      | nil => exact absurd ⟨rest, hsplit.symm⟩ hstart
      | cons first start =>
        obtain ⟨_, htail⟩ := List.cons.inj hsplit
        exact Nat.succ_le_succ (hfirst start rest htail)
    exact .next hlater hrest

theorem Replaces.unique {text result result' : List Char} (h : Replaces marker value text result)
    (h' : Replaces marker value text result') : result = result' := by
  induction h generalizing result' with
  | none hnone =>
    cases h' with
    | none => rfl
    | @next front back => exact absurd ⟨front, back, rfl⟩ hnone
  | @next front back result hfirst hrest ih =>
    generalize htext : front ++ marker ++ back = text at h'
    cases h' with
    | none hnone => exact absurd ⟨front, back, htext⟩ hnone
    | @next front' back' result' hfirst' hrest' =>
      -- both occurrences are the first one
      have hlength := Nat.le_antisymm (hfirst front' back' htext) (hfirst' front back htext.symm)
      rw [List.append_assoc, List.append_assoc] at htext
      obtain ⟨rfl, hback⟩ := List.append_inj htext hlength
      rw [List.append_cancel_left_eq] at hback
      subst hback
      rw [ih hrest']

/-- The characters that are skipped are left out. -/
theorem replaceFrom_eq_drop (skip : Nat) (text : List Char) :
    replaceFrom marker value skip text = replaceFrom marker value 0 (text.drop skip) := by
  induction text generalizing skip with
  | nil => rw [List.drop_nil, replaceFrom, replaceFrom]
  | cons c text ih =>
    cases skip with
    | zero => rfl
    | succ skip => rw [replaceFrom, ih, List.drop_succ_cons]

theorem replaceFrom_append (hmarker : marker ≠ []) (rest : List Char) :
    replaceFrom marker value 0 (marker ++ rest) = value ++ replaceFrom marker value 0 rest := by
  obtain ⟨c, cs, rfl⟩ := List.exists_cons_of_ne_nil hmarker
  have hfound : stripStart? (c :: cs) (c :: (cs ++ rest)) = some rest :=
    stripStart?_eq_some_iff.mpr rfl
  rw [List.cons_append, replaceFrom, hfound]
  dsimp only
  rw [replaceFrom_eq_drop, List.length_cons, Nat.add_sub_cancel, List.drop_left]

theorem replaceFrom_cons {c : Char} {text : List Char} (hstart : ¬ marker <+: c :: text) :
    replaceFrom marker value 0 (c :: text) = c :: replaceFrom marker value 0 text := by
  have hnone : stripStart? marker (c :: text) = none := by
    rwa [← stripStart?_isSome_iff, Option.not_isSome_iff_eq_none] at hstart
  rw [replaceFrom, hnone]

theorem replaces_replaceFrom (hmarker : marker ≠ []) (text : List Char) :
    Replaces marker value text (replaceFrom marker value 0 text) := by
  induction hlength : text.length using Nat.strongRecOn generalizing text with
  | ind n ih =>
    cases text with
    | nil => exact .none fun hinfix => hmarker (List.infix_nil.mp hinfix)
    | cons c text =>
      by_cases hstart : marker <+: c :: text
      · obtain ⟨rest, hrest⟩ := hstart
        have hshorter : rest.length < n := by
          have hpositive := List.length_pos_iff.mpr hmarker
          rw [← hlength, ← hrest, List.length_append]
          omega
        have hfirst : ∀ start back, [] ++ marker ++ rest = start ++ marker ++ back →
            ([] : List Char).length ≤ start.length := fun _ _ _ => Nat.zero_le _
        rw [← hrest, replaceFrom_append hmarker]
        exact .next hfirst (ih _ hshorter rest rfl)
      · have hshorter : text.length < n := hlength ▸ Nat.lt_succ_self _
        rw [replaceFrom_cons hstart]
        exact (ih _ hshorter text rfl).cons hstart

/-- Replacing all occurrences is what the relation says, and nothing else is. -/
theorem replaces_iff {s marker value result : String} (hmarker : marker ≠ "") :
    Replaces marker.toList value.toList s.toList result.toList ↔
      result = replaceAll s marker value := by
  have hne : marker.toList ≠ [] := by simpa using hmarker
  have hreplaced : Replaces marker.toList value.toList s.toList
      (replaceFrom marker.toList value.toList 0 s.toList) := replaces_replaceFrom hne s.toList
  constructor
  · intro h
    rw [replaceAll, ← h.unique hreplaced, String.ofList_toList]
  · rintro rfl
    rwa [replaceAll, String.toList_ofList]

end ApiDocs.Text
