import ApiDocs.Json.Printer
import ApiDocs.Json.Reader
import ApiDocs.Proofs.Text.Decimal
/-!
# Strings and integers in JSON text

What is written for a string or for an integer that is kept exactly is read back, whatever
follows it. Only a number has to know where it ends: no digit, point or exponent may follow.
-/
namespace ApiDocs.Json

private theorem hex4?_control : ∀ n < 0x20,
    hex4? '0' '0' (hexDigit (n / 16)) (hexDigit (n % 16)) = some n ∧
      ¬ isTrailingHalf n ∧ ¬ isLeadingHalf n := by
  decide

private theorem stringRest_plain {c : Char} {rest : List Char} (hquote : c ≠ '"')
    (hslash : c ≠ '\\') (hcontrol : ¬ c.toNat < 0x20) :
    stringRest (c :: rest) = (stringRest rest).map (prepend c) := by
  rw [stringRest.eq_def]
  split
  · simp_all
  · simp_all
  · simp_all
  · simp_all
  · next heq =>
    cases heq
    rw [if_neg]
    simp [hslash, Nat.not_lt.mp hcontrol]

private theorem stringRest_escapeChar (c : Char) (rest : List Char) :
    stringRest (escapeChar c ++ rest) = (stringRest rest).map (prepend c) := by
  unfold escapeChar
  split
  · subst_vars
    simp [stringRest, escapeLetter?]
  split
  · subst_vars
    simp [stringRest, escapeLetter?]
  split
  · subst_vars
    simp [stringRest, escapeLetter?]
  split
  · subst_vars
    simp [stringRest, escapeLetter?]
  split
  · subst_vars
    simp [stringRest, escapeLetter?]
  split
  · subst_vars
    simp [stringRest, escapeLetter?]
  split
  · subst_vars
    simp [stringRest, escapeLetter?]
  split
  · next h =>
    obtain ⟨hhex, htrailing, hleading⟩ := hex4?_control c.toNat h
    have hc : Char.ofNat c.toNat = c := Char.ofNat_toNat c
    simp [stringRest, hhex, htrailing, hleading, hc]
  · next hquote hslash _ _ _ _ _ hcontrol =>
    exact stringRest_plain hquote hslash hcontrol

theorem stringRest_quoted (cs rest : List Char) :
    stringRest (cs.flatMap escapeChar ++ '"' :: rest) = some (cs, rest) := by
  induction cs with
  | nil => simp [stringRest]
  | cons c cs ih =>
    rw [List.flatMap_cons, List.append_assoc, stringRest_escapeChar, ih]
    rfl

/-- A string is read back from its quotes. -/
theorem string?_quote (s : String) (rest : List Char) :
    string? (quote s ++ rest) = some (s, rest) := by
  have h := stringRest_quoted s.toList rest
  simp [quote, string?, h]

/-- What may follow a number: nothing that could belong to it. -/
def EndsNumber (rest : List Char) : Prop :=
  ∀ c ∈ rest.head?, ¬ c.isDigit ∧ c ≠ '.' ∧ c ≠ 'e' ∧ c ≠ 'E'

/-- What may follow the digits of a number. -/
def EndsDigits (rest : List Char) : Prop :=
  ∀ c ∈ rest.head?, ¬ c.isDigit

theorem EndsNumber.endsDigits {rest : List Char} (h : EndsNumber rest) : EndsDigits rest :=
  fun c hc => (h c hc).1

theorem endsDigits_cons {c : Char} {rest : List Char} (h : ¬ c.isDigit) :
    EndsDigits (c :: rest) := by
  intro c' hc'
  cases hc'
  exact h

/-- Digits are read as the number that they write. -/
theorem foldl_digitValue (n : Nat) (cs : List Char) :
    cs.foldl (fun n c => n * 10 + digitValue c) n = Nat.ofDigitChars 10 cs n := by
  have h : (fun n c => n * 10 + digitValue c) = fun n c => 10 * n + (c.toNat - '0'.toNat) := by
    funext n c
    rw [Nat.mul_comm, digitValue]
  rw [h]
  rfl

theorem natOfDigits_toDigits (n : Nat) : natOfDigits (Nat.toDigits 10 n) = n := by
  rw [natOfDigits, foldl_digitValue]
  exact Nat.ofDigitChars_ten_toDigits

/-- Digits that fit a word are all taken. -/
theorem takeDigits_eq (n : Nat) (cs : List Char) (h : Nat.ofDigitChars 10 cs n ≤ wordLimit) :
    takeDigits n cs = (Nat.ofDigitChars 10 cs n, cs.length) := by
  induction cs generalizing n with
  | nil => rfl
  | cons c cs ih =>
    have hnext : Nat.ofDigitChars 10 (c :: cs) n =
        Nat.ofDigitChars 10 cs (n * 10 + digitValue c) := by
      rw [Nat.ofDigitChars_cons, digitValue, Nat.mul_comm]
    have hgrows : n * 10 + digitValue c ≤ Nat.ofDigitChars 10 cs (n * 10 + digitValue c) := by
      rw [Nat.ofDigitChars_eq_ofDigitChars_zero]
      have hpow := Nat.le_mul_of_pos_left (n * 10 + digitValue c) (Nat.pow_pos (n := cs.length)
        (by decide : 0 < 10))
      omega
    rw [hnext] at h ⊢
    have hfits := Nat.le_trans hgrows h
    simp only [takeDigits, hfits, if_true, ih _ h, List.length_cons]

section Parts

variable {digits rest : List Char}

theorem digits1?_digits (hne : digits ≠ []) (hdigits : ∀ c ∈ digits, c.isDigit)
    (hrest : EndsDigits rest) : digits1? (digits ++ rest) = some (digits, rest) := by
  have hstop : rest.takeWhile Char.isDigit = [] ∧ rest.dropWhile Char.isDigit = rest := by
    cases rest with
    | nil => exact ⟨rfl, rfl⟩
    | cons c rest =>
      have hc := hrest c rfl
      simp [hc]
  have htake : (digits ++ rest).takeWhile Char.isDigit = digits := by
    rw [List.takeWhile_append_of_pos hdigits, hstop.1, List.append_nil]
  have hdrop : (digits ++ rest).dropWhile Char.isDigit = rest := by
    rw [List.dropWhile_append_of_pos hdigits, hstop.2]
  simp [digits1?, htake, hdrop, hne]

theorem whole?_zero (hrest : EndsDigits rest) : whole? ('0' :: rest) = some (['0'], rest) := by
  have hhead : rest.head?.any Char.isDigit = false := by
    cases rest with
    | nil => rfl
    | cons c rest => simpa using hrest c rfl
  simp [whole?, hhead]

theorem whole?_digits (hne : digits ≠ []) (hhead : digits.head? ≠ some '0')
    (hdigits : ∀ c ∈ digits, c.isDigit) (hrest : EndsDigits rest) :
    whole? (digits ++ rest) = some (digits, rest) := by
  have hread := digits1?_digits hne hdigits hrest
  obtain ⟨d, ds, rfl⟩ := List.exists_cons_of_ne_nil hne
  rw [List.cons_append] at hread ⊢
  rw [whole?.eq_def]
  split
  · simp_all
  · exact hread

theorem fraction?_of_ne (hrest : rest.head? ≠ some '.') : fraction? rest = some (none, rest) := by
  cases rest with
  | nil => rfl
  | cons c rest =>
    have hc : c ≠ '.' := by simpa using hrest
    simp [fraction?, hc]

theorem fraction?_digits (hne : digits ≠ []) (hdigits : ∀ c ∈ digits, c.isDigit)
    (hrest : EndsDigits rest) : fraction? ('.' :: (digits ++ rest)) = some (some digits, rest) := by
  rw [fraction?, digits1?_digits hne hdigits hrest]
  rfl

theorem EndsNumber.fraction?_eq (h : EndsNumber rest) : fraction? rest = some (none, rest) := by
  apply fraction?_of_ne
  intro hhead
  exact (h '.' hhead).2.1 rfl

theorem EndsNumber.exponent?_eq (h : EndsNumber rest) : exponent? rest = some (none, rest) := by
  cases rest with
  | nil => rfl
  | cons c rest =>
    have hc := (h c rfl).2.2
    simp [exponent?, hc]

/-- The sign of a number stands before digits. -/
theorem numberToken?_sign (negative : Bool) {d : Char} (hd : d.isDigit) :
    numberToken? ((if negative then ['-'] else []) ++ d :: rest) = unsigned? negative (d :: rest) := by
  cases negative with
  | true => rfl
  | false =>
    change numberToken? (d :: rest) = _
    rw [numberToken?.eq_def]
    split
    · next heq =>
      cases heq
      exact absurd hd (by decide)
    · rfl

end Parts

private theorem unsigned?_toDigits (negative : Bool) (n : Nat) {rest : List Char}
    (hrest : EndsNumber rest) :
    unsigned? negative (Nat.toDigits 10 n ++ rest) =
      some (⟨negative, Nat.toDigits 10 n, none, none⟩, rest) := by
  have hwhole : whole? (Nat.toDigits 10 n ++ rest) = some (Nat.toDigits 10 n, rest) := by
    by_cases hn : n = 0
    · rw [hn, Nat.toDigits_zero]
      exact whole?_zero hrest.endsDigits
    · exact whole?_digits Nat.toDigits_ne_nil (Text.head?_toDigits_ne (Nat.pos_of_ne_zero hn))
        Text.isDigit_of_mem_toDigits hrest.endsDigits
  simp [unsigned?, hwhole, hrest.fraction?_eq, hrest.exponent?_eq]

private theorem numberToken?_intText (n : Int) {rest : List Char} (hrest : EndsNumber rest) :
    numberToken? (intText n ++ rest) =
      some (⟨decide (n < 0), Nat.toDigits 10 n.natAbs, none, none⟩, rest) := by
  have htext : intText n =
      (if decide (n < 0) then ['-'] else []) ++ Nat.toDigits 10 n.natAbs := by
    unfold intText
    by_cases hn : n < 0 <;> simp [hn]
  obtain ⟨d, ds, hds⟩ := List.exists_cons_of_ne_nil
    (Nat.toDigits_ne_nil (b := 10) (n := n.natAbs))
  have hd : d.isDigit := Text.isDigit_of_mem_toDigits (n := n.natAbs) d (by simp [hds])
  have hunsigned := unsigned?_toDigits (decide (n < 0)) n.natAbs hrest
  rw [hds, List.cons_append] at hunsigned
  rw [htext, hds, List.append_assoc, List.cons_append, numberToken?_sign _ hd, hunsigned]

private theorem natAbs_le_wordLimit {n : Int} (hn : Number.isExact n) : n.natAbs ≤ wordLimit := by
  simp only [Number.isExact, Bool.and_eq_true, decide_eq_true_eq] at hn
  unfold wordLimit
  omega

private theorem number?_token {n : Int} (hn : Number.isExact n) :
    NumberToken.number? ⟨decide (n < 0), Nat.toDigits 10 n.natAbs, none, none⟩ =
      some (.int n) := by
  have hvalue : Nat.ofDigitChars 10 (Nat.toDigits 10 n.natAbs) 0 = n.natAbs :=
    Nat.ofDigitChars_ten_toDigits
  have htaken := takeDigits_eq 0 (Nat.toDigits 10 n.natAbs) (by
    rw [hvalue]
    exact natAbs_le_wordLimit hn)
  rw [hvalue] at htaken
  have hsign : (if decide (n < 0) then -(n.natAbs : Int) else n.natAbs) = n := by
    by_cases hneg : n < 0
    · rw [if_pos (decide_eq_true hneg)]
      omega
    · rw [if_neg (by simpa using hneg)]
      omega
  have hzero : (decide (n < 0) && n.natAbs == 0) = false := by
    simp only [Bool.and_eq_false_iff, decide_eq_false_iff_not, beq_eq_false_iff_ne]
    omega
  simp only [NumberToken.number?, NumberToken.integer?, htaken, hsign, hzero, hn,
    Option.isNone_none, BEq.rfl, Bool.not_false, Bool.and_self, if_true]

/-- An integer that is kept exactly is read back. -/
theorem number?_intText {n : Int} (hn : Number.isExact n) {rest : List Char}
    (hrest : EndsNumber rest) :
    number? (intText n ++ rest) = some (.number (.int n), rest) := by
  simp [number?, numberToken?_intText n hrest, number?_token hn]

end ApiDocs.Json
