import ApiDocs.Proofs.Text.Decimal
import ApiDocs.Proofs.Text.Search
import ApiDocs.Proofs.Text.Trim
import ApiDocs.Route.Path
/-!
# Paths with a version

A merged document lists an operation under its version and its path without leading slashes. The
decimal digits of the version end at the next slash, so both can be read off again. Routes whose
paths name a version are in groups that start with it. They belong to the version when their paths
are written as its numeral is, behind `api/`.
-/
namespace ApiDocs.Path

theorem slash_notMem_digits (n : Nat) : '/' ∉ Nat.toDigits 10 n :=
  Text.notMem_toDigits (by decide) n

theorem toList_ofVersion (version : Nat) (path : String) :
    (ofVersion version path).toList =
      '/' :: 'v' :: (Nat.toDigits 10 version ++ '/' :: (Text.trimLeftSlashes path).toList) := by
  change ("/v" ++ version.repr ++ "/" ++ Text.trimLeftSlashes path).toList = _
  simp

private theorem takeWhile_before_slash {front : List Char} (h : '/' ∉ front)
    (rest : List Char) :
    (front ++ '/' :: rest).takeWhile (· ≠ '/') = front := by
  rw [List.takeWhile_append_of_pos]
  · simp
  · intro c hc
    simpa using fun he : c = '/' => h (he ▸ hc)

/-- What stands before the first slash and what follows it are told by the whole. -/
theorem append_slash_inj {a b r s : List Char} (ha : '/' ∉ a) (hb : '/' ∉ b)
    (h : a ++ '/' :: r = b ++ '/' :: s) : a = b ∧ r = s := by
  have hab : a = b := by
    rw [← takeWhile_before_slash ha r, h, takeWhile_before_slash hb]
  subst hab
  exact ⟨rfl, by simpa using h⟩

/-- A listed path tells its version and the path up to leading slashes. -/
theorem ofVersion_inj {v w : Nat} {p q : String} :
    ofVersion v p = ofVersion w q ↔ v = w ∧ Text.trimLeftSlashes p = Text.trimLeftSlashes q := by
  constructor
  · intro h
    have hlist := congrArg String.toList h
    rw [toList_ofVersion, toList_ofVersion] at hlist
    obtain ⟨hdigits, hrest⟩ := append_slash_inj (slash_notMem_digits v) (slash_notMem_digits w)
      (by simpa only [List.cons.injEq, true_and] using hlist)
    exact ⟨Text.toDigits_injective hdigits, String.toList_inj.mp hrest⟩
  · rintro ⟨rfl, h⟩
    rw [ofVersion, ofVersion, h]

theorem toList_documented (uri : String) :
    (documented uri).toList = '/' :: uri.toList.dropWhile (· == '/') := by
  rw [documented, String.toList_append, Text.trimLeftSlashes, Text.trimLeftWhere,
    String.toList_ofList, String.toList_ofList]
  rfl

theorem digitsValue_eq (digits : List Char) :
    digitsValue digits = Nat.ofDigitChars 10 digits 0 := by
  have hstep : (fun n (c : Char) => n * 10 + (c.toNat - '0'.toNat)) =
      fun n c => 10 * n + (c.toNat - '0'.toNat) := by
    funext n c
    rw [Nat.mul_comm]
  rw [digitsValue, hstep]
  rfl

theorem version?_eq_some_iff {digits : List Char} {version : Nat} :
    version? digits = some version ↔
      digits ≠ [] ∧ digitsValue digits = version ∧ 1 ≤ version ∧ version ≤ maxVersion := by
  simp only [version?, Option.ite_none_left_eq_some, Bool.or_eq_true, List.isEmpty_iff,
    decide_eq_true_eq, Option.some.injEq, not_or]
  constructor
  · rintro ⟨⟨⟨hne, hzero⟩, hmax⟩, rfl⟩
    exact ⟨hne, rfl, Nat.one_le_iff_ne_zero.mpr hzero, Nat.not_lt.mp hmax⟩
  · rintro ⟨hne, rfl, hpos, hmax⟩
    exact ⟨⟨⟨hne, Nat.one_le_iff_ne_zero.mp hpos⟩, Nat.not_lt.mpr hmax⟩, rfl⟩

/-- How a path with a version is written: perhaps a slash, perhaps `api/`, then `v`, the digits of
the version, a slash, and a rest in one line. -/
structure Versioned (text lead api digits : List Char) (version : Nat) (rest : List Char) :
    Prop where
  text_eq : text = lead ++ (api ++ 'v' :: (digits ++ '/' :: rest))
  lead_eq : lead = [] ∨ lead = ['/']
  api_eq : api = [] ∨ api = apiSegment
  isDigit : ∀ c ∈ digits, c.isDigit = true
  value : version? digits = some version
  ne_nil : rest ≠ []
  line : '\n' ∉ rest

theorem versioned_toDigits {version : Nat} (hpos : 1 ≤ version) (hmax : version ≤ maxVersion)
    {lead api rest : List Char} (hlead : lead = [] ∨ lead = ['/'])
    (hapi : api = [] ∨ api = apiSegment) (hne : rest ≠ []) (hline : '\n' ∉ rest) :
    Versioned (lead ++ (api ++ 'v' :: (Nat.toDigits 10 version ++ '/' :: rest))) lead api
      (Nat.toDigits 10 version) version rest where
  text_eq := rfl
  lead_eq := hlead
  api_eq := hapi
  isDigit := Text.isDigit_of_mem_toDigits
  value := by
    refine version?_eq_some_iff.mpr ⟨Nat.toDigits_ne_nil, ?_, hpos, hmax⟩
    rw [digitsValue_eq, Nat.ofDigitChars_ten_toDigits]
  ne_nil := hne
  line := hline

section Splitting

variable {version : Nat} {path rest : String}

private theorem exists_strip (part text : List Char) :
    ∃ lead, (lead = [] ∨ lead = part) ∧ text = lead ++ (Text.stripStart? part text).getD text := by
  cases h : Text.stripStart? part text with
  | none => exact ⟨[], .inl rfl, rfl⟩
  | some after => exact ⟨part, .inr rfl, Text.stripStart?_eq_some_iff.mp h⟩

private theorem exists_versioned (h : splitVersion path = some (version, rest)) :
    ∃ lead api digits, Versioned path.toList lead api digits version rest.toList := by
  obtain ⟨lead, hlead, htext⟩ := exists_strip ['/'] path.toList
  obtain ⟨api, hapi, hafter⟩ :=
    exists_strip apiSegment ((Text.stripStart? ['/'] path.toList).getD path.toList)
  change _ = api ++ dropApi _ at hafter
  unfold splitVersion at h
  dsimp only at h
  split at h
  · next cs hcs =>
    split at h
    · next after hslash =>
      split at h
      · cases h
      · next hrest =>
        obtain ⟨v, hv, hpair⟩ := Option.map_eq_some_iff.mp h
        cases hpair
        rw [Bool.or_eq_true, not_or] at hrest
        obtain ⟨hne, hline⟩ := hrest
        refine ⟨lead, api, cs.takeWhile Char.isDigit, ?_, hlead, hapi,
          fun c hc => List.mem_takeWhile_imp hc, hv, ?_, ?_⟩
        · rw [htext, hafter, hcs, String.toList_ofList, ← hslash, List.takeWhile_append_dropWhile]
        · simpa using hne
        · simpa using hline
    · cases h
  · cases h

private theorem dropApi_append {api : List Char} (h : api = [] ∨ api = apiSegment)
    (cs : List Char) : dropApi (api ++ 'v' :: cs) = 'v' :: cs := by
  rcases h with rfl | rfl <;> rfl

theorem splitVersion_eq_some_iff : splitVersion path = some (version, rest) ↔
    ∃ lead api digits, Versioned path.toList lead api digits version rest.toList := by
  constructor
  · exact exists_versioned
  · rintro ⟨lead, api, digits, htext, hlead, hapi, hdigits, hversion, hne, hline⟩
    have hslash : Char.isDigit '/' = false := by decide
    have hdrop : (digits ++ '/' :: rest.toList).dropWhile Char.isDigit = '/' :: rest.toList := by
      simp [List.dropWhile_append_of_pos hdigits, hslash]
    have htake : (digits ++ '/' :: rest.toList).takeWhile Char.isDigit = digits := by
      simp [List.takeWhile_append_of_pos hdigits, hslash]
    have hstrip : (Text.stripStart? ['/'] path.toList).getD path.toList =
        api ++ 'v' :: (digits ++ '/' :: rest.toList) := by
      rw [htext]
      rcases hlead with rfl | rfl <;> rcases hapi with rfl | rfl <;> rfl
    simp [splitVersion, hstrip, dropApi_append hapi, hdrop, htake, hversion, hne, hline]

/-- Behind its one slash, the path of a route starts with the version or with `api/`. -/
theorem Versioned.of_documented {uri : String} {lead api digits rest : List Char}
    (h : Versioned (documented uri).toList lead api digits version rest) :
    uri.toList.dropWhile (· == '/') = api ++ 'v' :: (digits ++ '/' :: rest) := by
  have htext := h.text_eq
  rw [toList_documented] at htext
  rcases h.lead_eq with rfl | rfl
  · rcases h.api_eq with rfl | rfl <;> cases htext
  · exact (List.cons.inj htext).2

end Splitting

/-- The group of a route with a version starts where the version does. -/
theorem head?_groupKey {uri : String} {v : Nat} {p : String}
    (h : splitVersion (documented uri) = some (v, p)) : (groupKey uri).toList.head? = some 'v' := by
  obtain ⟨lead, api, digits, hversioned⟩ := splitVersion_eq_some_iff.mp h
  have hstart := hversioned.of_documented
  generalize digits ++ '/' :: p.toList = cs at hstart
  have hkept : dropParameters 0 ('v' :: cs) = 'v' :: dropParameters 0 cs := rfl
  have htrimmed : Text.dropBoth (· == '/') ('v' :: dropParameters 0 cs) =
      'v' :: Text.dropRight (· == '/') (dropParameters 0 cs) :=
    Text.dropBoth_cons (by decide) _
  rw [groupKey, hstart, dropApi_append hversioned.api_eq, String.toList_ofList, hkept, htrimmed,
    List.head?_cons]

theorem toList_versionMarker (version : Nat) : (versionMarker version).toList =
    apiSegment ++ 'v' :: (Nat.toDigits 10 version ++ ['/']) := by
  change ("api/v" ++ version.repr ++ "/").toList = _
  simp [apiSegment]

section Routes

variable {uri : String} {version v w : Nat}

theorem hasVersion_iff : hasVersion uri version = true ↔
    ∃ after, uri.toList.dropWhile (· == '/') ++ ['/'] =
      apiSegment ++ 'v' :: (Nat.toDigits 10 version ++ '/' :: after) := by
  rw [hasVersion, Text.startsWith, Option.isSome_iff_exists]
  simp only [Text.stripStart?_eq_some_iff, toList_versionMarker, String.toList_append,
    Text.trimLeftSlashes, Text.trimLeftWhere, String.toList_ofList]
  simp

private theorem toList_marked (version : Nat) (rest : String) :
    ("/" ++ versionMarker version ++ rest).toList =
      '/' :: (apiSegment ++ 'v' :: (Nat.toDigits 10 version ++ '/' :: rest.toList)) := by
  rw [String.toList_append, String.toList_append, toList_versionMarker]
  simp

/-- What follows the start of the paths of a version is its rest. -/
theorem splitVersion_versionMarker (hpos : 1 ≤ version) (hmax : version ≤ maxVersion)
    {rest : String} (hne : rest ≠ "") (hline : '\n' ∉ rest.toList) :
    splitVersion ("/" ++ versionMarker version ++ rest) = some (version, rest) := by
  have hne' : rest.toList ≠ [] := by simpa using hne
  refine splitVersion_eq_some_iff.mpr ⟨['/'], apiSegment, Nat.toDigits 10 version, ?_⟩
  rw [toList_marked]
  exact versioned_toDigits hpos hmax (.inr rfl) (.inr rfl) hne' hline

/-- A path that continues the start of the paths of a version belongs to it. -/
theorem hasVersion_of_documented {rest : String}
    (h : documented uri = "/" ++ versionMarker version ++ rest) :
    hasVersion uri version = true := by
  have htext := congrArg String.toList h
  rw [toList_documented, toList_marked] at htext
  exact hasVersion_iff.mpr ⟨rest.toList ++ ['/'], by simp [(List.cons.inj htext).2]⟩

/-- No path belongs to two versions. -/
theorem hasVersion_unique (hv : hasVersion uri v = true) (hw : hasVersion uri w = true) :
    v = w := by
  obtain ⟨_, hafter⟩ := hasVersion_iff.mp hv
  obtain ⟨_, hafter'⟩ := hasVersion_iff.mp hw
  have hdigits := List.append_cancel_left (hafter.symm.trans hafter')
  exact Text.toDigits_injective (append_slash_inj (slash_notMem_digits v) (slash_notMem_digits w)
    (List.cons.inj hdigits).2).1

/-- A path with a version belongs to the version when `api/` stands in front and the digits are
those that the version is written with. -/
theorem Versioned.hasVersion_iff {lead api digits rest : List Char}
    (h : Versioned (documented uri).toList lead api digits version rest) :
    hasVersion uri w = true ↔ api = apiSegment ∧ digits = Nat.toDigits 10 w := by
  have hslash : '/' ∉ digits := fun hmem => absurd (h.isDigit _ hmem) (by decide)
  rw [Path.hasVersion_iff, h.of_documented]
  constructor
  · intro ⟨after, hafter⟩
    rcases h.api_eq with rfl | rfl
    · cases hafter
    · have hdigits : digits ++ '/' :: (rest ++ ['/']) = Nat.toDigits 10 w ++ '/' :: after := by
        simpa [apiSegment] using hafter
      exact ⟨rfl, (append_slash_inj hslash (slash_notMem_digits w) hdigits).1⟩
  · rintro ⟨rfl, rfl⟩
    exact ⟨rest ++ ['/'], by simp⟩

/-- A version is written as its numeral unless zeros lead. -/
theorem Versioned.digits_eq_iff {text lead api digits rest : List Char}
    (h : Versioned text lead api digits version rest) :
    digits = Nat.toDigits 10 version ↔ digits.head? ≠ some '0' := by
  obtain ⟨hne, hvalue, hpos, _⟩ := version?_eq_some_iff.mp h.value
  rw [digitsValue_eq] at hvalue
  constructor
  · rintro rfl
    exact Text.head?_toDigits_ne hpos
  · intro hhead
    rw [← hvalue, Text.toDigits_ofDigitChars h.isDigit hne hhead]

/-- Which paths that split into a version and a rest belong to the version. -/
theorem hasVersion_iff_of_splitVersion {rest : String}
    (h : splitVersion (documented uri) = some (version, rest)) :
    hasVersion uri w = true ↔ w = version ∧
      Text.startsWith (documented uri) "/api/" = true ∧
        Text.startsWith (documented uri) "/api/v0" = false := by
  obtain ⟨lead, api, digits, hversioned⟩ := splitVersion_eq_some_iff.mp h
  have hpath : (documented uri).toList = '/' :: (api ++ 'v' :: (digits ++ '/' :: rest.toList)) := by
    rw [toList_documented, hversioned.of_documented]
  obtain ⟨hne, hvalue, _⟩ := version?_eq_some_iff.mp hversioned.value
  obtain ⟨d, ds, rfl⟩ := List.exists_cons_of_ne_nil hne
  rw [hversioned.hasVersion_iff, Text.startsWith, Text.startsWith, hpath]
  rcases hversioned.api_eq with rfl | rfl
  · have hapi : (Text.stripStart? "/api/".toList
        ('/' :: ([] ++ 'v' :: (d :: ds ++ '/' :: rest.toList)))).isSome = false := rfl
    rw [hapi]
    simp [apiSegment]
  · have hapi : (Text.stripStart? "/api/".toList
        ('/' :: (apiSegment ++ 'v' :: (d :: ds ++ '/' :: rest.toList)))).isSome = true := rfl
    have hzero : (Text.stripStart? "/api/v0".toList
        ('/' :: (apiSegment ++ 'v' :: (d :: ds ++ '/' :: rest.toList)))).isSome = false ↔
          d ≠ '0' := by
      change (if '0' = d then some (ds ++ '/' :: rest.toList) else none).isSome = false ↔ d ≠ '0'
      simpa using not_congr eq_comm
    have hnumeral : d :: ds = Nat.toDigits 10 version ↔ d ≠ '0' := by
      rw [hversioned.digits_eq_iff, List.head?_cons, ne_eq, Option.some.injEq]
    rw [hapi, hzero, ← hnumeral]
    constructor
    · rintro ⟨_, hdigits⟩
      obtain rfl : w = version := by
        rw [← hvalue, digitsValue_eq, hdigits, Nat.ofDigitChars_ten_toDigits]
      exact ⟨rfl, rfl, hdigits⟩
    · rintro ⟨rfl, _, hdigits⟩
      exact ⟨rfl, hdigits⟩

end Routes

end ApiDocs.Path
