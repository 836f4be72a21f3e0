/-!
# Searching and replacing text

Occurrences are found from left to right and do not overlap.
-/
namespace ApiDocs.Text

/-- The rest of `text` after `part`, when `text` starts with `part`. -/
def stripStart? : (part text : List Char) → Option (List Char)
  | [], text => some text
  | _ :: _, [] => none
  | p :: part, c :: text => if p = c then stripStart? part text else none

theorem stripStart?_eq_some_iff {part text rest : List Char} :
    stripStart? part text = some rest ↔ text = part ++ rest := by
  induction part generalizing text with
  | nil => simp [stripStart?]
  | cons p part ih =>
    cases text with
    | nil => simp [stripStart?]
    | cons c text =>
      by_cases h : p = c
      · simp [stripStart?, h, ih]
      · have h' : ¬ c = p := fun e => h e.symm
        simp [stripStart?, h, h']

/-- Whether `part` occurs somewhere in `text`. -/
def occursIn (part : List Char) : (text : List Char) → Bool
  | [] => part.isEmpty
  | c :: text => (stripStart? part (c :: text)).isSome || occursIn part text

/-- Whether the text `s` contains the text `part`. -/
def contains (s part : String) : Bool :=
  occursIn part.toList s.toList

/-- Whether the text `s` starts with the text `part`. -/
def startsWith (s part : String) : Bool :=
  (stripStart? part.toList s.toList).isSome

/-- Replace `marker` by `value`, skipping the first `skip` characters, which belong to an
occurrence already replaced. -/
def replaceFrom (marker value : List Char) : (skip : Nat) → (text : List Char) → List Char
  | _, [] => []
  | skip + 1, _ :: text => replaceFrom marker value skip text
  | 0, c :: text =>
    match stripStart? marker (c :: text) with
    | some _ => value ++ replaceFrom marker value (marker.length - 1) text
    | none => c :: replaceFrom marker value 0 text

/-- The text with every occurrence of a nonempty marker replaced by a value. -/
def replaceAll (s marker value : String) : String :=
  String.ofList (replaceFrom marker.toList value.toList 0 s.toList)

end ApiDocs.Text
