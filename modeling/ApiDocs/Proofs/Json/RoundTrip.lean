import ApiDocs.Proofs.Json.Number
import ApiDocs.Proofs.OrderedMap
/-!
# Reading back the text of a value

The indented text of a value is read as long as the value does not nest deeper than the reader goes
and its numbers are such as a text can give. It is read as the value itself if it holds no doubles,
which may change a little, and no key twice in an object.
-/
namespace ApiDocs.Json

/-- All numbers of a value are such as a text can give. -/
inductive IsFinite : Json → Prop where
  | null : IsFinite .null
  | bool (b : Bool) : IsFinite (.bool b)
  | number {n : Number} (h : n.IsFinite) : IsFinite (.number n)
  | str (s : String) : IsFinite (.str s)
  | arr {items : List Json} (h : ∀ v ∈ items, IsFinite v) : IsFinite (.arr items)
  | obj {members : OrderedMap Json} (h : ∀ m ∈ members.entries, IsFinite m.2) :
      IsFinite (.obj members)

mutual
/-- How many levels of arrays and objects a value has. -/
def depth : Json → Nat
  | .arr items => depthOf items + 1
  | .obj ⟨members⟩ => depthIn members + 1
  | _ => 0
def depthOf : List Json → Nat
  | [] => 0
  | v :: vs => max v.depth (depthOf vs)
def depthIn : List (String × Json) → Nat
  | [] => 0
  | (_, v) :: ms => max v.depth (depthIn ms)
end

mutual
/-- The value that the text of a value is read as. -/
def reread : Json → Json
  | .null => .null
  | .bool b => .bool b
  | .number n => .number n.reread
  | .str s => .str s
  | .arr items => .arr (rereadItems items)
  | .obj ⟨members⟩ => .obj (OrderedMap.ofList (rereadMembers members))
def rereadItems : List Json → List Json
  | [] => []
  | v :: vs => v.reread :: rereadItems vs
def rereadMembers : List (String × Json) → List (String × Json)
  | [] => []
  | (k, v) :: ms => (k, v.reread) :: rereadMembers ms
end

mutual
/-- Whether a value nests at most so deep, holds no numbers but integers that are kept exactly,
and has no key twice in an object. -/
def isTextual : (levels : Nat) → Json → Bool
  | _, .null => true
  | _, .bool _ => true
  | _, .number (.int n) => Number.isExact n
  | _, .number (.double _) => false
  | _, .str _ => true
  | 0, .arr _ => false
  | levels + 1, .arr items => areTextual levels items
  | 0, .obj _ => false
  | levels + 1, .obj members =>
    decide members.keys.Nodup && membersAreTextual levels members.entries
def areTextual : (levels : Nat) → List Json → Bool
  | _, [] => true
  | levels, v :: vs => isTextual levels v && areTextual levels vs
def membersAreTextual : (levels : Nat) → List (String × Json) → Bool
  | _, [] => true
  | levels, (_, v) :: ms => isTextual levels v && membersAreTextual levels ms
end

private theorem endsNumber_cons {c : Char} {rest : List Char}
    (h : ¬ c.isDigit ∧ c ≠ '.' ∧ c ≠ 'e' ∧ c ≠ 'E') : EndsNumber (c :: rest) := by
  intro c' hc'
  cases hc'
  exact h

private theorem skipSpace_append {lead rest : List Char} (h : ∀ c ∈ lead, isSpace c) :
    skipSpace (lead ++ rest) = skipSpace rest := by
  simp only [skipSpace, List.dropWhile_append_of_pos h]

private theorem skipSpace_cons {c : Char} {rest : List Char} (h : ¬ isSpace c) :
    skipSpace (c :: rest) = c :: rest := by
  simp [skipSpace, h]

private theorem newline_isSpace (level : Nat) : ∀ c ∈ newline level, isSpace c := by
  simp [newline, isSpace]

private def Starts (cs : List Char) : Prop :=
  ∃ c, cs.head? = some c ∧ ¬ isSpace c ∧ c ≠ ']'

private theorem starts_number (n : Number) : Starts (numberText n) := by
  obtain ⟨c, cs, htext, hhead⟩ := exists_cons_numberText n
  rw [htext]
  refine ⟨c, rfl, ?_⟩
  rcases hhead with rfl | hdigit
  · decide
  · constructor
    · intro hspace
      simp only [isSpace, Bool.or_eq_true, beq_iff_eq] at hspace
      rcases hspace with ((rfl | rfl) | rfl) | rfl <;> exact absurd hdigit (by decide)
    · rintro rfl
      exact absurd hdigit (by decide)

private theorem starts_indented (level : Nat) (v : Json) : Starts (indented level v) := by
  cases v with
  | null => exact ⟨'n', rfl, by decide, by decide⟩
  | bool b => cases b <;> exact ⟨_, rfl, by decide, by decide⟩
  | number n => exact starts_number n
  | str s => exact ⟨'"', rfl, by decide, by decide⟩
  | arr items =>
    refine ⟨'[', ?_, by decide, by decide⟩
    cases items <;> simp [indented]
  | obj members =>
    refine ⟨'\x7b', ?_, by decide, by decide⟩
    obtain ⟨_ | ⟨⟨k, v⟩, ms⟩⟩ := members <;> simp [indented]

private theorem skipSpace_of_starts {cs rest : List Char} (h : Starts cs) :
    skipSpace (cs ++ rest) = cs ++ rest := by
  obtain ⟨c, hhead, hspace, _⟩ := h
  obtain ⟨cs, rfl⟩ := List.head?_eq_some_iff.mp hhead
  exact skipSpace_cons hspace

private theorem value?_append {levels : Nat} {lead rest : List Char}
    (h : ∀ c ∈ lead, isSpace c) : value? levels (lead ++ rest) = value? levels rest := by
  rw [value?.eq_def, value?.eq_def levels rest]
  simp only [skipSpace_append h]

private theorem value?_number {levels : Nat} {n : Number} (h : n.IsFinite) {rest : List Char}
    (hrest : EndsNumber rest) :
    value? levels (numberText n ++ rest) = some (.number n.reread, rest) := by
  have hnumber := number?_numberText h hrest
  have hskip : skipSpace (numberText n ++ rest) = numberText n ++ rest :=
    skipSpace_of_starts (starts_number n)
  obtain ⟨c, cs, htext, hhead⟩ := exists_cons_numberText n
  rw [htext, List.cons_append] at hnumber hskip ⊢
  rw [value?.eq_def]
  simp only [hskip]
  have hne : ∀ letter : Char, ¬ letter.isDigit → letter ≠ '-' → c ≠ letter := by
    rintro letter hdigit hminus rfl
    exact hhead.elim hminus hdigit
  split
  · next heq => exact absurd (List.cons.inj heq).1 (hne 'n' (by decide) (by decide))
  · next heq => exact absurd (List.cons.inj heq).1 (hne 't' (by decide) (by decide))
  · next heq => exact absurd (List.cons.inj heq).1 (hne 'f' (by decide) (by decide))
  · next heq => exact absurd (List.cons.inj heq).1 (hne '"' (by decide) (by decide))
  · next heq => exact absurd (List.cons.inj heq).1 (hne '[' (by decide) (by decide))
  · next heq => exact absurd (List.cons.inj heq).1 (hne '\x7b' (by decide) (by decide))
  · exact hnumber

private theorem items?_indented (level outer : Nat) {levels : Nat} {vs : List Json}
    (hvs : ∀ v ∈ vs, ∀ rest, EndsNumber rest →
      value? levels (indented level v ++ rest) = some (v.reread, rest))
    {first : Json} {text : List Char}
    (hfirst : ∀ rest, EndsNumber rest → value? levels (text ++ rest) = some (first, rest))
    {bound : Nat} (hbound : vs.length < bound) (rest : List Char) :
    items? (value? levels) bound
        (text ++ (indentedItems level vs ++ (newline outer ++ ']' :: rest))) =
      some (first :: rereadItems vs, rest) := by
  induction vs generalizing first text bound with
  | nil =>
    obtain ⟨bound, rfl⟩ : ∃ b, bound = b + 1 := ⟨bound - 1, by omega⟩
    have hread := hfirst (newline outer ++ ']' :: rest) (endsNumber_cons (by decide))
    simp only [items?, indentedItems, List.nil_append, hread, Option.bind_eq_bind,
      Option.bind_some, skipSpace_append (newline_isSpace outer)]
    rw [skipSpace_cons (by decide)]
    rfl
  | cons v vs ih =>
    obtain ⟨bound, rfl⟩ : ∃ b, bound = b + 1 := ⟨bound - 1, by omega⟩
    have hread := hfirst (',' :: (newline level ++ indented level v ++
      (indentedItems level vs ++ (newline outer ++ ']' :: rest)))) (endsNumber_cons (by decide))
    have hv : ∀ rest, EndsNumber rest →
        value? levels (newline level ++ indented level v ++ rest) = some (v.reread, rest) := by
      intro rest hrest
      rw [List.append_assoc, value?_append (newline_isSpace level)]
      exact hvs v List.mem_cons_self rest hrest
    have hitems := ih (fun v hv => hvs v (List.mem_cons_of_mem _ hv)) hv
      (Nat.lt_of_succ_lt_succ hbound)
    have htext : indentedItems level (v :: vs) ++ (newline outer ++ ']' :: rest) =
        ',' :: (newline level ++ indented level v ++
          (indentedItems level vs ++ (newline outer ++ ']' :: rest))) := by
      simp [indentedItems]
    rw [htext]
    simp only [items?, hread, Option.bind_eq_bind, Option.bind_some]
    rw [skipSpace_cons (by decide)]
    simp only [hitems, Option.bind_some]
    rfl

private theorem string?_key {lead : List Char} (hlead : ∀ c ∈ lead, isSpace c) (key : String)
    (rest : List Char) :
    string? (skipSpace (lead ++ (quote key ++ rest))) = some (key, rest) := by
  rw [skipSpace_append hlead, ← string?_quote key rest]
  rfl

private theorem value?_space (levels : Nat) (rest : List Char) :
    value? levels (' ' :: rest) = value? levels rest := by
  have hspace : ∀ c ∈ [' '], isSpace c := by
    intro c hc
    rw [List.mem_singleton.mp hc]
    rfl
  exact value?_append hspace

private theorem members?_indented (level outer : Nat) {levels : Nat} {ms : List (String × Json)}
    (hms : ∀ m ∈ ms, ∀ rest, EndsNumber rest →
      value? levels (indented level m.2 ++ rest) = some (m.2.reread, rest))
    (key : String) {first : Json} (lead : List Char) {text : List Char}
    (hlead : ∀ c ∈ lead, isSpace c)
    (hfirst : ∀ rest, EndsNumber rest → value? levels (text ++ rest) = some (first, rest))
    {bound : Nat} (hbound : ms.length < bound) (rest : List Char) :
    members? (fun _ => value? levels) bound (lead ++ (quote key ++ ':' :: ' ' :: (text ++
        (indentedMembers level ms ++ (newline outer ++ '}' :: rest))))) =
      some ((key, first) :: rereadMembers ms, rest) := by
  induction ms generalizing key first lead text bound with
  | nil =>
    obtain ⟨bound, rfl⟩ : ∃ b, bound = b + 1 := ⟨bound - 1, by omega⟩
    have hread := hfirst (newline outer ++ '}' :: rest) (endsNumber_cons (by decide))
    simp only [members?, indentedMembers, List.nil_append, string?_key hlead, Option.bind_eq_bind,
      Option.bind_some]
    rw [skipSpace_cons (by decide)]
    simp only [value?_space, hread, Option.bind_some, skipSpace_append (newline_isSpace outer)]
    rw [skipSpace_cons (by decide)]
    rfl
  | cons m ms ih =>
    obtain ⟨k, v⟩ := m
    obtain ⟨bound, rfl⟩ : ∃ b, bound = b + 1 := ⟨bound - 1, by omega⟩
    have hread := hfirst (',' :: (newline level ++ (quote k ++ ':' :: ' ' :: (indented level v ++
      (indentedMembers level ms ++ (newline outer ++ '}' :: rest)))))) (endsNumber_cons (by decide))
    have hmembers := ih (fun m hm => hms m (List.mem_cons_of_mem _ hm)) k (newline level)
      (newline_isSpace level)
      (hms (k, v) List.mem_cons_self) (Nat.lt_of_succ_lt_succ hbound)
    have htext : indentedMembers level ((k, v) :: ms) ++ (newline outer ++ '}' :: rest) =
        ',' :: (newline level ++ (quote k ++ ':' :: ' ' :: (indented level v ++
          (indentedMembers level ms ++ (newline outer ++ '}' :: rest))))) := by
      simp [indentedMembers]
    rw [htext]
    simp only [members?, string?_key hlead, Option.bind_eq_bind, Option.bind_some]
    rw [skipSpace_cons (by decide)]
    simp only [value?_space, hread, Option.bind_some]
    rw [skipSpace_cons (by decide)]
    simp only [hmembers, Option.bind_some]
    rfl

private theorem value?_array {levels : Nat} {lead text rest tail : List Char}
    {items : List Json} (hlead : ∀ c ∈ lead, isSpace c) (hstarts : Starts text)
    (hitems : items? (value? levels) (text ++ rest).length (text ++ rest) = some (items, tail)) :
    value? (levels + 1) ('[' :: (lead ++ (text ++ rest))) = some (.arr items, tail) := by
  rw [value?.eq_def]
  simp only [skipSpace_cons (c := '[') (by decide), skipSpace_append hlead,
    skipSpace_of_starts hstarts]
  obtain ⟨c, hhead, _, hend⟩ := hstarts
  obtain ⟨text, rfl⟩ := List.head?_eq_some_iff.mp hhead
  split
  · next heq => exact absurd (List.cons.inj heq).1 hend
  · rw [hitems]
    rfl

private theorem value?_object {levels : Nat} {lead rest tail : List Char} {key : String}
    {entries : List (String × Json)} (hlead : ∀ c ∈ lead, isSpace c)
    (hmembers : members? (fun _ => value? levels) (quote key ++ rest).length (quote key ++ rest) =
      some (entries, tail)) :
    value? (levels + 1) ('\x7b' :: (lead ++ (quote key ++ rest))) =
      some (.obj (OrderedMap.ofList entries), tail) := by
  have hquote : skipSpace (quote key ++ rest) = quote key ++ rest := skipSpace_cons (by decide)
  rw [value?.eq_def]
  simp only [skipSpace_cons (c := '\x7b') (by decide), skipSpace_append hlead, hquote]
  split
  · next heq => exact absurd (List.cons.inj heq).1 (by decide)
  · rw [hmembers]
    rfl

private theorem length_le_indentedItems (level : Nat) (vs : List Json) :
    vs.length ≤ (indentedItems level vs).length := by
  induction vs with
  | nil => exact Nat.le_refl _
  | cons v vs ih =>
    simp only [indentedItems, List.cons_append, List.length_cons, List.length_append]
    omega

private theorem length_le_indentedMembers (level : Nat) (ms : List (String × Json)) :
    ms.length ≤ (indentedMembers level ms).length := by
  induction ms with
  | nil => exact Nat.le_refl _
  | cons m ms ih =>
    simp only [indentedMembers, List.cons_append, List.length_cons, List.length_append]
    omega

mutual
/-- The indented text of a value is read, whatever follows it. -/
theorem value?_indented : ∀ (v : Json) (level levels : Nat) (rest : List Char),
    v.depth ≤ levels → v.IsFinite → EndsNumber rest →
    value? levels (indented level v ++ rest) = some (v.reread, rest)
  | .null, _, _, _, _, _, _ => by
    simp [indented, nullText, value?, reread, skipSpace_cons (c := 'n') (by decide)]
  | .bool true, _, _, _, _, _, _ => by
    simp [indented, boolText, trueText, value?, reread, skipSpace_cons (c := 't') (by decide)]
  | .bool false, _, _, _, _, _, _ => by
    simp [indented, boolText, falseText, value?, reread, skipSpace_cons (c := 'f') (by decide)]
  | .number n, _, _, rest, _, .number hn, hrest => by
    rw [indented, reread]
    exact value?_number hn hrest
  | .str s, _, _, rest, _, _, _ => by
    have hread : string? ('"' :: (s.toList.flatMap escapeChar ++ ['"'] ++ rest)) =
        some (s, rest) := string?_quote s rest
    simp only [indented, quote, List.cons_append, value?, skipSpace_cons (c := '"') (by decide),
      hread, Option.map_some, reread]
  | .arr [], _, levels, _, hdepth, _, _ => by
    obtain ⟨inner, rfl⟩ := Nat.exists_eq_add_of_le' (Nat.le_trans (Nat.le_add_left 1 _) hdepth)
    simp [indented, value?, reread, rereadItems, skipSpace_cons (c := '[') (by decide),
      skipSpace_cons (c := ']') (by decide)]
  | .arr (v :: vs), level, levels, rest, hdepth, .arr hitems, _ => by
    obtain ⟨inner, rfl⟩ := Nat.exists_eq_add_of_le' (Nat.le_trans (Nat.le_add_left 1 _) hdepth)
    rw [depth, depthOf, Nat.add_le_add_iff_right, Nat.max_le] at hdepth
    obtain ⟨hv, hvs⟩ := List.forall_mem_cons.mp hitems
    have hfirst : ∀ rest, EndsNumber rest →
        value? inner (indented (level + 1) v ++ rest) = some (v.reread, rest) :=
      fun rest => value?_indented v (level + 1) inner rest hdepth.1 hv
    have hlength := length_le_indentedItems (level + 1) vs
    have hread := value?_array (newline_isSpace (level + 1)) (starts_indented (level + 1) v)
      (items?_indented (level + 1) level (values?_indented vs (level + 1) inner hdepth.2 hvs) hfirst
        (by simp only [List.length_append, List.length_cons]; omega) rest)
    rw [reread, rereadItems, ← hread]
    simp [indented]
  | .obj ⟨[]⟩, _, levels, _, hdepth, _, _ => by
    obtain ⟨inner, rfl⟩ := Nat.exists_eq_add_of_le' (Nat.le_trans (Nat.le_add_left 1 _) hdepth)
    simp [indented, value?, reread, rereadMembers, OrderedMap.ofList, OrderedMap.insertAll,
      skipSpace_cons (c := '\x7b') (by decide), skipSpace_cons (c := '}') (by decide)]
  | .obj ⟨(k, v) :: ms⟩, level, levels, rest, hdepth, .obj hmembers, _ => by
    obtain ⟨inner, rfl⟩ := Nat.exists_eq_add_of_le' (Nat.le_trans (Nat.le_add_left 1 _) hdepth)
    rw [depth, depthIn, Nat.add_le_add_iff_right, Nat.max_le] at hdepth
    obtain ⟨hv, hms⟩ := List.forall_mem_cons.mp hmembers
    have hfirst : ∀ rest, EndsNumber rest →
        value? inner (indented (level + 1) v ++ rest) = some (v.reread, rest) :=
      fun rest => value?_indented v (level + 1) inner rest hdepth.1 hv
    have hlength := length_le_indentedMembers (level + 1) ms
    have hread := value?_object (newline_isSpace (level + 1))
      (members?_indented (level + 1) level
        (memberValues?_indented ms (level + 1) inner hdepth.2 hms) k [] (by simp) hfirst
        (by simp only [List.length_append, List.length_cons]; omega) rest)
    rw [reread, rereadMembers, ← hread]
    simp [indented]
theorem values?_indented : ∀ (vs : List Json) (level levels : Nat), depthOf vs ≤ levels →
    (∀ v ∈ vs, v.IsFinite) → ∀ v ∈ vs, ∀ rest, EndsNumber rest →
    value? levels (indented level v ++ rest) = some (v.reread, rest)
  | [], _, _, _, _, _, hv => by cases hv
  | v :: vs, level, levels, hdepth, hfinite, v', hv' => by
    rw [depthOf, Nat.max_le] at hdepth
    obtain ⟨hv, hvs⟩ := List.forall_mem_cons.mp hfinite
    rcases List.mem_cons.mp hv' with heq | hmem
    · rw [heq]
      exact fun rest => value?_indented v level levels rest hdepth.1 hv
    · exact values?_indented vs level levels hdepth.2 hvs v' hmem
theorem memberValues?_indented : ∀ (ms : List (String × Json)) (level levels : Nat),
    depthIn ms ≤ levels → (∀ m ∈ ms, m.2.IsFinite) → ∀ m ∈ ms, ∀ rest, EndsNumber rest →
    value? levels (indented level m.2 ++ rest) = some (m.2.reread, rest)
  | [], _, _, _, _, _, hm => by cases hm
  | (k, v) :: ms, level, levels, hdepth, hfinite, m, hm => by
    rw [depthIn, Nat.max_le] at hdepth
    obtain ⟨hv, hms⟩ := List.forall_mem_cons.mp hfinite
    rcases List.mem_cons.mp hm with heq | hmem
    · rw [heq]
      exact fun rest => value?_indented v level levels rest hdepth.1 hv
    · exact memberValues?_indented ms level levels hdepth.2 hms m hmem
end

/-- The indented text of a value that nests no deeper than the reader goes is read. -/
theorem parse?_pretty_reread {v : Json} (hdepth : v.depth ≤ maxLevels) (h : v.IsFinite) :
    parse? (pretty v) = some v.reread := by
  have hread := value?_indented v 0 maxLevels [] hdepth h (by simp [EndsNumber])
  rw [List.append_nil] at hread
  unfold parse? pretty
  rw [String.toList_ofList, hread]
  rfl

private theorem rereadMembers_eq (ms : List (String × Json)) :
    rereadMembers ms = ms.map fun m => (m.1, m.2.reread) := by
  induction ms with
  | nil => rw [rereadMembers, List.map_nil]
  | cons m ms ih => rw [rereadMembers, ih, List.map_cons]

/-- A member of an object without equal keys is read back under its key. -/
theorem get?_reread {members : OrderedMap Json} (h : members.Distinct) (key : String) :
    (Json.obj members).reread.get? key = (members.get? key).map reread := by
  have hreread : (Json.obj members).reread = .obj (members.mapValues reread) := by
    rw [reread, rereadMembers_eq]
    exact congrArg Json.obj (h.mapValues reread).ofList_entries
  rw [hreread, get?, OrderedMap.get?_mapValues]

mutual
/-- Nothing changes in a value without doubles and repeated keys. -/
theorem reread_of_isTextual : ∀ (v : Json) (levels : Nat), isTextual levels v →
    v.depth ≤ levels ∧ v.IsFinite ∧ v.reread = v
  | .null, _, _ => ⟨Nat.zero_le _, .null, by rw [reread]⟩
  | .bool b, _, _ => ⟨Nat.zero_le _, .bool b, by rw [reread]⟩
  | .str s, _, _ => ⟨Nat.zero_le _, .str s, by rw [reread]⟩
  | .number (.int n), _, h => ⟨Nat.zero_le _, .number h, by rw [reread, Number.reread]⟩
  | .number (.double _), _, h => by simp [isTextual] at h
  | .arr items, 0, h => by simp [isTextual] at h
  | .arr items, levels + 1, h => by
    obtain ⟨hdepth, hfinite, hsame⟩ := rereadItems_of_areTextual items levels h
    exact ⟨Nat.succ_le_succ hdepth, .arr hfinite, by rw [reread, hsame]⟩
  | .obj members, 0, h => by simp [isTextual] at h
  | .obj ⟨ms⟩, levels + 1, h => by
    simp only [isTextual, Bool.and_eq_true, decide_eq_true_eq] at h
    obtain ⟨hdepth, hfinite, hsame⟩ := rereadMembers_of_areTextual ms levels h.2
    have hdistinct : (OrderedMap.mk ms).Distinct := h.1
    exact ⟨Nat.succ_le_succ hdepth, .obj hfinite, by rw [reread, hsame, hdistinct.ofList_entries]⟩
theorem rereadItems_of_areTextual : ∀ (vs : List Json) (levels : Nat), areTextual levels vs →
    depthOf vs ≤ levels ∧ (∀ v ∈ vs, v.IsFinite) ∧ rereadItems vs = vs
  | [], _, _ => ⟨Nat.zero_le _, List.forall_mem_nil _, by rw [rereadItems]⟩
  | v :: vs, levels, h => by
    simp only [areTextual, Bool.and_eq_true] at h
    obtain ⟨hdepth, hfinite, hsame⟩ := reread_of_isTextual v levels h.1
    obtain ⟨hdepths, hfinites, hsames⟩ := rereadItems_of_areTextual vs levels h.2
    exact ⟨Nat.max_le.mpr ⟨hdepth, hdepths⟩, List.forall_mem_cons.mpr ⟨hfinite, hfinites⟩,
      by rw [rereadItems, hsame, hsames]⟩
theorem rereadMembers_of_areTextual : ∀ (ms : List (String × Json)) (levels : Nat),
    membersAreTextual levels ms →
    depthIn ms ≤ levels ∧ (∀ m ∈ ms, m.2.IsFinite) ∧ rereadMembers ms = ms
  | [], _, _ => ⟨Nat.zero_le _, List.forall_mem_nil _, by rw [rereadMembers]⟩
  | (k, v) :: ms, levels, h => by
    simp only [membersAreTextual, Bool.and_eq_true] at h
    obtain ⟨hdepth, hfinite, hsame⟩ := reread_of_isTextual v levels h.1
    obtain ⟨hdepths, hfinites, hsames⟩ := rereadMembers_of_areTextual ms levels h.2
    exact ⟨Nat.max_le.mpr ⟨hdepth, hdepths⟩, List.forall_mem_cons.mpr ⟨hfinite, hfinites⟩,
      by rw [rereadMembers, hsame, hsames]⟩
end

/-- The indented text of a value without doubles is read back. -/
theorem parse?_pretty {v : Json} (h : isTextual maxLevels v) : parse? (pretty v) = some v := by
  obtain ⟨hdepth, hfinite, hsame⟩ := reread_of_isTextual v maxLevels h
  rw [parse?_pretty_reread hdepth hfinite, hsame]

end ApiDocs.Json
