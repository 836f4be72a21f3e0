import ApiDocs.Text.Search
/-!
# Occurrences in texts

The search for a part of a text finds it exactly when the text has the part as an infix.
-/
namespace ApiDocs.Text

theorem stripStart?_isSome_iff {part text : List Char} :
    (stripStart? part text).isSome ↔ part <+: text := by
  rw [Option.isSome_iff_exists]
  simp only [stripStart?_eq_some_iff, eq_comm (a := text)]
  rfl

theorem occursIn_iff_infix {part text : List Char} : occursIn part text ↔ part <:+: text := by
  induction text with
  | nil => simp [occursIn]
  | cons c text ih =>
    rw [occursIn, Bool.or_eq_true, ih, stripStart?_isSome_iff, List.infix_cons_iff]

theorem contains_iff_infix {s part : String} :
    contains s part ↔ part.toList <:+: s.toList :=
  occursIn_iff_infix

end ApiDocs.Text
