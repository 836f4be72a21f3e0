import ApiDocs.Route.Path
import Mathlib.Data.List.TakeWhile
/-!
# Placeholders of a path

The scan of a path goes on behind each placeholder that it finds. It misses no other one by that,
since no brace opens inside a placeholder. So the first name in the list of names that passes a
test is that of the leftmost placeholder whose name does.
-/
namespace ApiDocs.Path

/-- A text holds a placeholder: a name in braces, between what stands before and what follows. -/
structure HasPlaceholder (text before name after : List Char) : Prop where
  text_eq : text = before ++ '{' :: (name ++ '}' :: after)
  ne_nil : name ≠ []
  chars : ∀ c ∈ name, isNameChar c = true

variable {text before name after : List Char} {c : Char}

theorem placeholderAt?_eq_some_iff :
    placeholderAt? text = some name ↔ ∃ after, HasPlaceholder text [] name after := by
  constructor
  · intro h
    unfold placeholderAt? at h
    split at h
    · next rest =>
      dsimp only at h
      split at h
      · next after hclose =>
        split at h
        · cases h
        · next hne =>
          obtain rfl := Option.some.inj h
          refine ⟨after, ?_, by simpa using hne, fun c hc => List.mem_takeWhile_imp hc⟩
          rw [List.nil_append, ← hclose, List.takeWhile_append_dropWhile]
      · cases h
    · cases h
  · rintro ⟨after, rfl, hne, hchars⟩
    have hclose : isNameChar '}' = false := by decide
    have hname : (name ++ '}' :: after).takeWhile isNameChar = name := by
      simp [List.takeWhile_append_of_pos hchars, hclose]
    have hrest : (name ++ '}' :: after).dropWhile isNameChar = '}' :: after := by
      simp [List.dropWhile_append_of_pos hchars, hclose]
    simp [placeholderAt?, hname, hrest, hne]

/-- A text starts with at most one placeholder. -/
theorem HasPlaceholder.name_unique {name' after' : List Char}
    (h : HasPlaceholder text [] name after) (h' : HasPlaceholder text [] name' after') :
    name = name' :=
  Option.some.inj ((placeholderAt?_eq_some_iff.mpr ⟨after, h⟩).symm.trans
    (placeholderAt?_eq_some_iff.mpr ⟨after', h'⟩))

theorem hasPlaceholder_cons {rest : List Char} :
    HasPlaceholder (c :: rest) before name after ↔
      (before = [] ∧ HasPlaceholder (c :: rest) [] name after) ∨
        ∃ front, before = c :: front ∧ HasPlaceholder rest front name after := by
  constructor
  · intro ⟨htext, hne, hchars⟩
    cases before with
    | nil => exact .inl ⟨rfl, htext, hne, hchars⟩
    | cons d front =>
      obtain ⟨rfl, hrest⟩ := List.cons.inj htext
      exact .inr ⟨front, rfl, hrest, hne, hchars⟩
  · rintro (⟨rfl, h⟩ | ⟨front, rfl, htext, hne, hchars⟩)
    · exact h
    · exact ⟨by rw [htext, List.cons_append], hne, hchars⟩

private theorem placeholderNames_skip (skipped rest : List Char) :
    placeholderNames skipped.length (skipped ++ rest) = placeholderNames 0 rest := by
  induction skipped with
  | nil => rfl
  | cons c skipped ih => exact ih

private theorem placeholderNames_of_notMem {skipped : List Char} (h : '{' ∉ skipped)
    (rest : List Char) : placeholderNames 0 (skipped ++ rest) = placeholderNames 0 rest := by
  induction skipped with
  | nil => rfl
  | cons c skipped ih =>
    obtain ⟨hc, hskipped⟩ := not_or.mp (List.mem_cons.not.mp h)
    have hnone : placeholderAt? (c :: (skipped ++ rest)) = none := by
      unfold placeholderAt?
      split
      · next heq => exact absurd (List.cons.inj heq).1.symm hc
      · rfl
    rw [List.cons_append, placeholderNames, hnone]
    exact ih hskipped

/-- A placeholder at the start adds its name to those that the rest of the text holds. -/
theorem placeholderNames_cons (c : Char) (rest : List Char) :
    placeholderNames 0 (c :: rest) =
      (placeholderAt? (c :: rest)).toList.map String.ofList ++ placeholderNames 0 rest := by
  rw [placeholderNames]
  cases hat : placeholderAt? (c :: rest) with
  | none => rfl
  | some name =>
    obtain ⟨after, htext, _, hchars⟩ := placeholderAt?_eq_some_iff.mp hat
    obtain ⟨rfl, hrest⟩ := List.cons.inj htext
    have hsplit : rest = (name ++ ['}']) ++ after := by
      rw [hrest, List.append_assoc]
      rfl
    have hopen : '{' ∉ name ++ ['}'] := by
      intro hmem
      rcases List.mem_append.mp hmem with hmem | hmem
      · exact absurd (hchars _ hmem) (by decide)
      · exact absurd (List.mem_singleton.mp hmem) (by decide)
    have hskip := placeholderNames_skip (name ++ ['}']) after
    rw [List.length_append, List.length_singleton] at hskip
    dsimp only
    rw [hsplit, hskip, placeholderNames_of_notMem hopen]
    rfl

/-- The scan finds every placeholder and nothing else. -/
theorem mem_placeholderNames_iff {found : String} :
    found ∈ placeholderNames 0 text ↔
      ∃ before after, HasPlaceholder text before found.toList after := by
  induction text with
  | nil =>
    refine iff_of_false List.not_mem_nil ?_
    rintro ⟨before, after, htext, _, _⟩
    simp at htext
  | cons c rest ih =>
    have hstart : found ∈ (placeholderAt? (c :: rest)).toList.map String.ofList ↔
        ∃ after, HasPlaceholder (c :: rest) [] found.toList after := by
      rw [← placeholderAt?_eq_some_iff]
      simp [← String.toList_inj]
    rw [placeholderNames_cons, List.mem_append, hstart, ih]
    constructor
    · rintro (⟨after, h⟩ | ⟨front, after, h⟩)
      · exact ⟨[], after, h⟩
      · exact ⟨c :: front, after, hasPlaceholder_cons.mpr (.inr ⟨front, rfl, h⟩)⟩
    · intro ⟨before, after, h⟩
      rcases hasPlaceholder_cons.mp h with ⟨_, h⟩ | ⟨front, _, h⟩
      · exact .inl ⟨after, h⟩
      · exact .inr ⟨front, after, h⟩

section Search

variable (test : String → Bool)

/-- The leftmost placeholder of a text whose name passes a test. -/
def IsLeftmost (text name : List Char) : Prop :=
  ∃ before after, HasPlaceholder text before name after ∧ test (String.ofList name) = true ∧
    ∀ before' name' after', HasPlaceholder text before' name' after' →
      before'.length < before.length → test (String.ofList name') = false

variable {test}

private theorem isLeftmost_cons_of_test {rest : List Char}
    (h : HasPlaceholder (c :: rest) [] name after) (htest : test (String.ofList name) = true)
    {found : List Char} : IsLeftmost test (c :: rest) found ↔ name = found := by
  constructor
  · intro ⟨before, after', hfound, _, hleft⟩
    rcases hasPlaceholder_cons.mp hfound with ⟨rfl, hstart⟩ | ⟨front, rfl, _⟩
    · exact h.name_unique hstart
    · have hfalse := hleft [] name after h (by simp)
      rw [htest] at hfalse
      cases hfalse
  · rintro rfl
    exact ⟨[], after, h, htest, by simp⟩

private theorem isLeftmost_cons_of_not_test {rest : List Char}
    (h : ∀ name after, HasPlaceholder (c :: rest) [] name after →
      test (String.ofList name) = false)
    {found : List Char} : IsLeftmost test (c :: rest) found ↔ IsLeftmost test rest found := by
  constructor
  · intro ⟨before, after, hfound, htest, hleft⟩
    rcases hasPlaceholder_cons.mp hfound with ⟨rfl, hstart⟩ | ⟨front, rfl, hrest⟩
    · rw [h found after hstart] at htest
      cases htest
    · refine ⟨front, after, hrest, htest, fun before' name' after' hother hlt => ?_⟩
      exact hleft (c :: before') name' after'
        (hasPlaceholder_cons.mpr (.inr ⟨before', rfl, hother⟩)) (by simpa using hlt)
  · intro ⟨front, after, hfound, htest, hleft⟩
    refine ⟨c :: front, after, hasPlaceholder_cons.mpr (.inr ⟨front, rfl, hfound⟩), htest,
      fun before' name' after' hother hlt => ?_⟩
    rcases hasPlaceholder_cons.mp hother with ⟨rfl, hstart⟩ | ⟨front', rfl, hrest⟩
    · exact h name' after' hstart
    · exact hleft front' name' after' hrest (by simpa using hlt)

theorem find?_placeholderNames_eq_some_iff {found : String} :
    (placeholderNames 0 text).find? test = some found ↔ IsLeftmost test text found.toList := by
  induction text with
  | nil =>
    refine iff_of_false nofun ?_
    rintro ⟨before, after, ⟨htext, _, _⟩, _⟩
    simp at htext
  | cons c rest ih =>
    rw [placeholderNames_cons, List.find?_append]
    cases hat : placeholderAt? (c :: rest) with
    | none =>
      have hnone : ∀ name after, ¬ HasPlaceholder (c :: rest) [] name after := by
        intro name after h
        rw [placeholderAt?_eq_some_iff.mpr ⟨after, h⟩] at hat
        cases hat
      rw [isLeftmost_cons_of_not_test fun name after h => absurd h (hnone name after), ← ih]
      rfl
    | some name =>
      obtain ⟨after, hstart⟩ := placeholderAt?_eq_some_iff.mp hat
      cases htest : test (String.ofList name) with
      | true =>
        rw [isLeftmost_cons_of_test hstart htest]
        simp [htest, ← String.toList_inj]
      | false =>
        have hfails : ∀ name' after', HasPlaceholder (c :: rest) [] name' after' →
            test (String.ofList name') = false := by
          intro name' after' h
          rw [← hstart.name_unique h, htest]
        rw [isLeftmost_cons_of_not_test hfails, ← ih]
        simp [htest]

end Search

end ApiDocs.Path
