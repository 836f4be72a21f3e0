import ApiDocs.Text.Blank
import Mathlib.Data.List.DropRight
import Mathlib.Data.List.Induction
import Mathlib.Data.List.TakeWhile
/-!
# Trimming

Trimming keeps a text whose ends are not of the class that is trimmed, and leaves nothing of a text
that is all of the class.
-/
namespace ApiDocs.Text

variable {p : Char → Bool} {c : Char}

theorem dropRight_isPrefix (p : Char → Bool) (cs : List Char) : dropRight p cs <+: cs := by
  have h := List.reverse_prefix.mpr (List.dropWhile_suffix p (l := cs.reverse))
  rwa [List.reverse_reverse] at h

/-- What is dropped is all of the class. -/
theorem exists_dropRight_append (p : Char → Bool) (cs : List Char) :
    ∃ ending, cs = dropRight p cs ++ ending ∧ ∀ c ∈ ending, p c = true := by
  refine ⟨(cs.reverse.takeWhile p).reverse, ?_, ?_⟩
  · rw [dropRight, ← List.reverse_append, List.takeWhile_append_dropWhile, List.reverse_reverse]
  · intro c hc
    exact List.mem_takeWhile_imp (List.mem_reverse.mp hc)

theorem dropRight_append {ending : List Char} (h : ∀ c ∈ ending, p c = true) (cs : List Char) :
    dropRight p (cs ++ ending) = dropRight p cs := by
  have hreverse : ∀ c ∈ ending.reverse, p c = true := fun c hc => h c (List.mem_reverse.mp hc)
  rw [dropRight, List.reverse_append, List.dropWhile_append_of_pos hreverse, dropRight]

theorem dropRight_concat (h : p c = false) (cs : List Char) :
    dropRight p (cs ++ [c]) = cs ++ [c] := by
  have hc : ¬ p c = true := Bool.eq_false_iff.mp h
  rw [dropRight, List.reverse_concat, List.dropWhile_cons, if_neg hc, List.reverse_cons,
    List.reverse_reverse]

theorem dropRight_cons (h : p c = false) (cs : List Char) :
    dropRight p (c :: cs) = c :: dropRight p cs := by
  induction cs using List.reverseRecOn with
  | nil => exact dropRight_concat h []
  | append_singleton front last ih =>
    by_cases hlast : p last = true
    · have hending : ∀ c ∈ [last], p c = true := by simpa using hlast
      rw [← List.cons_append, dropRight_append hending, dropRight_append hending, ih]
    · have hlast' : p last = false := Bool.eq_false_iff.mpr hlast
      rw [← List.cons_append, dropRight_concat hlast', dropRight_concat hlast', List.cons_append]

theorem dropBoth_cons (h : p c = false) (cs : List Char) :
    dropBoth p (c :: cs) = c :: dropRight p cs := by
  have hc : ¬ p c = true := Bool.eq_false_iff.mp h
  rw [dropBoth, List.dropWhile_cons, if_neg hc, dropRight_cons h]

theorem head?_dropBoth (cs : List Char) (h : (dropBoth p cs).head? = some c) : p c = false := by
  obtain ⟨rest, hrest⟩ := dropRight_isPrefix p (cs.dropWhile p)
  have hhead := List.head?_dropWhile_not p cs
  cases hdrop : dropBoth p cs with
  | nil =>
    rw [hdrop] at h
    cases h
  | cons d ds =>
    rw [hdrop] at h
    rw [dropBoth] at hdrop
    rw [← hrest, hdrop, List.cons_append, List.head?_cons] at hhead
    cases h
    exact Bool.eq_false_iff.mpr (by simpa using hhead)

theorem dropBoth_eq_nil_iff {cs : List Char} : dropBoth p cs = [] ↔ ∀ c ∈ cs, p c = true := by
  have hright : dropBoth p cs = [] ↔ ∀ c ∈ cs.dropWhile p, p c = true := List.rdropWhile_eq_nil_iff
  rw [hright, ← List.dropWhile_eq_nil_iff, List.dropWhile_idempotent, List.dropWhile_eq_nil_iff]

/-- Nothing is left of a text exactly if it is all white space. -/
theorem trim_eq_empty_iff {s : String} : trim s = "" ↔ allBlank s = true := by
  rw [trim, trimWhere, allBlank, List.all_eq_true, ← dropBoth_eq_nil_iff]
  constructor
  · intro h
    simpa using congrArg String.toList h
  · intro h
    rw [h]

theorem getLast?_dropBoth (cs : List Char) (h : (dropBoth p cs).getLast? = some c) :
    p c = false := by
  rw [dropBoth, dropRight, List.getLast?_reverse] at h
  have hhead := List.head?_dropWhile_not p (cs.dropWhile p).reverse
  rw [h] at hhead
  simpa using hhead

/-- Where nothing is of the class, nothing is dropped. -/
theorem dropBoth_of_forall {cs : List Char} (h : ∀ c ∈ cs, p c = false) : dropBoth p cs = cs := by
  cases cs with
  | nil => rfl
  | cons c rest =>
    rw [dropBoth_cons (h c List.mem_cons_self)]
    rcases List.eq_nil_or_concat' rest with rfl | ⟨front, last, rfl⟩
    · rfl
    · rw [dropRight_concat (h last (by simp))]

theorem trim_of_forall {text : String} (h : ∀ c ∈ text.toList, isBlank c = false) :
    trim text = text := by
  rw [trim, trimWhere, dropBoth_of_forall h, String.ofList_toList]

theorem isBlank_of_isDigit (h : c.isDigit = true) : isBlank c = false := by
  have hrange : 48 ≤ c.toNat ∧ c.toNat ≤ 57 := by
    simpa [Char.isDigit, UInt32.le_iff_toNat_le] using h
  simp [isBlank, blankRanges]
  omega

/-- A text stands in another one with white space around it and none at its own ends. -/
structure Trims (text core : String) : Prop where
  around : ∃ before after, text.toList = before ++ core.toList ++ after ∧
    ∀ c ∈ before ++ after, isBlank c = true
  head : ∀ c, core.toList.head? = some c → isBlank c = false
  last : ∀ c, core.toList.getLast? = some c → isBlank c = false

theorem trims_trim (text : String) : Trims text (trim text) := by
  have hcore : (trim text).toList = dropBoth isBlank text.toList := String.toList_ofList
  obtain ⟨after, hafter, hblank⟩ :=
    exists_dropRight_append isBlank (text.toList.dropWhile isBlank)
  refine ⟨⟨text.toList.takeWhile isBlank, after, ?_, fun c hc => ?_⟩, ?_, ?_⟩
  · rw [hcore, dropBoth, List.append_assoc, ← hafter, List.takeWhile_append_dropWhile]
  · rcases List.mem_append.mp hc with hbefore | hend
    · exact List.mem_takeWhile_imp hbefore
    · exact hblank c hend
  · rw [hcore]
    exact fun c hc => head?_dropBoth _ hc
  · rw [hcore]
    exact fun c hc => getLast?_dropBoth _ hc

theorem trimLeftSlashes_idem (text : String) :
    trimLeftSlashes (trimLeftSlashes text) = trimLeftSlashes text := by
  rw [trimLeftSlashes, trimLeftSlashes, trimLeftWhere, trimLeftWhere, String.toList_ofList,
    List.dropWhile_idempotent]

theorem trimLeftSlashes_of_head {text : String} (h : text.toList.head? ≠ some '/') :
    trimLeftSlashes text = text := by
  apply String.toList_inj.mp
  rw [trimLeftSlashes, trimLeftWhere, String.toList_ofList]
  cases htext : text.toList with
  | nil => rfl
  | cons c cs =>
    have hc : c ≠ '/' := by simpa [htext] using h
    simp [hc]

end ApiDocs.Text
