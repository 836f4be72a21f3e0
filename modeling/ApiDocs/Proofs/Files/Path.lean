import ApiDocs.Files.Path
import Mathlib.Algebra.GroupWithZero.Nat
import Mathlib.Data.List.Basic
import Mathlib.Data.List.TakeWhile
/-!
# The parts of a path

Joining paths joins their parts, and the parent of a path has all of its parts but the last. Where
parts lead is told step by step; what is left of them on the way are some of the parts in order.
-/
namespace ApiDocs.FilePath

theorem cut_eq_splitOn (separator : Char) (cs : List Char) :
    cut separator cs = cs.splitOn separator := by
  induction cs with
  | nil => rfl
  | cons c cs ih =>
    rw [cut, ih, List.splitOn_cons_eq_if_modifyHead]
    by_cases hc : c = separator
    · simp [hc]
    · rw [if_neg hc, if_neg (by simpa using hc)]
      cases h : cs.splitOn separator with
      | nil => exact absurd h (List.splitOn_ne_nil separator cs)
      | cons word words => rfl

theorem cut_ne_nil (separator : Char) (cs : List Char) : cut separator cs ≠ [] := by
  rw [cut_eq_splitOn]
  exact List.splitOn_ne_nil separator cs

theorem cut_append (separator : Char) (front back : List Char) :
    cut separator (front ++ separator :: back) = cut separator front ++ cut separator back := by
  rw [cut_eq_splitOn, cut_eq_splitOn, cut_eq_splitOn, List.splitOn_append_cons_self]

theorem cut_of_notMem {separator : Char} {cs : List Char} (h : separator ∉ cs) :
    cut separator cs = [cs] := by
  rw [cut_eq_splitOn, List.splitOn_eq_singleton h]

theorem cut_inj {separator : Char} {cs cs' : List Char}
    (h : cut separator cs = cut separator cs') : cs = cs' := by
  rw [cut_eq_splitOn, cut_eq_splitOn] at h
  have hglued := congrArg (List.intercalate [separator]) h
  rwa [List.intercalate_splitOn, List.intercalate_splitOn] at hglued

theorem cut_of_head {separator c : Char} {cs : List Char} (hhead : cs.head? = some c)
    (hc : c ≠ separator) : ∃ word words, cut separator cs = (c :: word) :: words := by
  obtain ⟨rest, rfl⟩ := List.head?_eq_some_iff.mp hhead
  obtain ⟨word, words, hcut⟩ := List.exists_cons_of_ne_nil (cut_ne_nil separator rest)
  refine ⟨word, words, ?_⟩
  rw [cut, if_neg hc, hcut]

/-- A text without separators lengthens the last piece. -/
theorem cut_append_of_notMem {separator : Char} {back : List Char} (h : separator ∉ back)
    (cs : List Char) : ∃ front last, cut separator cs = front ++ [last] ∧
      cut separator (cs ++ back) = front ++ [last ++ back] := by
  induction cs with
  | nil => exact ⟨[], [], rfl, cut_of_notMem h⟩
  | cons c cs ih =>
    obtain ⟨front, last, hcut, happend⟩ := ih
    rw [List.cons_append, cut, cut, hcut, happend]
    by_cases hc : c = separator
    · rw [if_pos hc, if_pos hc]
      exact ⟨[] :: front, last, rfl, rfl⟩
    · rw [if_neg hc, if_neg hc]
      cases front with
      | nil => exact ⟨[], c :: last, rfl, rfl⟩
      | cons word words => exact ⟨(c :: word) :: words, last, rfl, rfl⟩

theorem notMem_of_mem_cut {separator : Char} {cs piece : List Char}
    (h : piece ∈ cut separator cs) : separator ∉ piece := by
  induction cs generalizing piece with
  | nil =>
    rw [List.mem_singleton.mp h]
    simp
  | cons c cs ih =>
    rw [cut] at h
    split at h
    · rcases List.mem_cons.mp h with rfl | h
      · simp
      · exact ih h
    · next hc =>
      cases hcut : cut separator cs with
      | nil => exact absurd hcut (cut_ne_nil separator cs)
      | cons word words =>
        rw [hcut] at h ih
        rcases List.mem_cons.mp h with rfl | h
        · simp [Ne.symm hc, ih List.mem_cons_self]
        · exact ih (List.mem_cons_of_mem _ h)

private theorem mem_of_mem_cut {separator : Char} {cs piece : List Char}
    (h : piece ∈ cut separator cs) {c : Char} (hc : c ∈ piece) : c ∈ cs := by
  induction cs generalizing piece with
  | nil => rwa [List.mem_singleton.mp h] at hc
  | cons d cs ih =>
    rw [cut] at h
    split at h
    · rcases List.mem_cons.mp h with rfl | h
      · simp at hc
      · exact List.mem_cons_of_mem _ (ih h hc)
    · cases hcut : cut separator cs with
      | nil => exact absurd hcut (cut_ne_nil separator cs)
      | cons word words =>
        rw [hcut] at h ih
        rcases List.mem_cons.mp h with rfl | h
        · rcases List.mem_cons.mp hc with rfl | hc
          · exact List.mem_cons_self
          · exact List.mem_cons_of_mem _ (ih List.mem_cons_self hc)
        · exact List.mem_cons_of_mem _ (ih (List.mem_cons_of_mem _ h) hc)

/-- The names of the pieces that do not stay in place. -/
def names (pieces : List (List Char)) : List String :=
  (pieces.filter fun piece => !staysInPlace piece).map String.ofList

theorem names_append (front back : List (List Char)) :
    names (front ++ back) = names front ++ names back := by
  simp [names]

/-- A name of an entry of a directory. -/
structure IsName (name : String) : Prop where
  moves : ¬ staysInPlace name.toList
  noSlash : '/' ∉ name.toList

theorem isName_of_mem_names {cs : List Char} {name : String} (h : name ∈ names (cut '/' cs)) :
    IsName name := by
  simp only [names, List.mem_map, List.mem_filter, Bool.not_eq_true'] at h
  obtain ⟨piece, ⟨hmem, hmoves⟩, rfl⟩ := h
  refine ⟨?_, ?_⟩
  · simp [hmoves]
  · simpa using notMem_of_mem_cut hmem

theorem IsName.names_cut {name : String} (h : IsName name) :
    names (cut '/' name.toList) = [name] := by
  have hmoves := h.moves
  rw [cut_of_notMem h.noSlash]
  simp [names, hmoves]

/-- The root's name, if a path starts there. -/
def start (path : String) : List String :=
  if path.toList.head? = some '/' then [rootName] else []

theorem parts_eq (path : String) : parts path = start path ++ names (cut '/' path.toList) := by
  unfold parts start
  split <;> rfl

/-- The slash that joining puts after a path, if there is none. -/
def gap (base : String) : List Char :=
  if base.toList.getLast? = some '/' then [] else ['/']

theorem toList_join {base rest : String} (hbase : base ≠ "")
    (hrest : rest.toList.head? ≠ some '/') :
    (join base rest).toList = base.toList ++ (gap base ++ rest.toList) := by
  have hlast : base.toList.getLast? ≠ none := by
    simpa using hbase
  unfold join gap
  split
  · next heq => simp [heq] at hrest
  · next heq _ => exact absurd heq hlast
  · next heq _ => simp [heq]
  · next c hc heq _ =>
    have hne : base.toList.getLast? ≠ some '/' := by
      rw [heq]
      exact fun he => hc (Option.some.inj he)
    simp [hne]

theorem cut_join {base rest : String} (hbase : base ≠ "") (hrest : rest.toList.head? ≠ some '/') :
    ∃ front, cut '/' (join base rest).toList = front ++ cut '/' rest.toList ∧
      names front = names (cut '/' base.toList) := by
  rw [toList_join hbase hrest]
  unfold gap
  by_cases hlast : base.toList.getLast? = some '/'
  · obtain ⟨front, hfront⟩ := List.getLast?_eq_some_iff.mp hlast
    refine ⟨cut '/' front, ?_, ?_⟩
    · rw [if_pos hlast, hfront, List.nil_append, List.append_assoc, List.singleton_append,
        cut_append]
    · rw [hfront, cut_append, names_append]
      simp [names, cut, staysInPlace]
  · refine ⟨cut '/' base.toList, ?_, rfl⟩
    rw [if_neg hlast, List.singleton_append, cut_append]

theorem parts_join {base rest : String} (hbase : base ≠ "")
    (hrest : rest.toList.head? ≠ some '/') :
    parts (join base rest) = parts base ++ names (cut '/' rest.toList) := by
  obtain ⟨front, hcut, hnames⟩ := cut_join hbase hrest
  have hstart : start (join base rest) = start base := by
    unfold start
    rw [toList_join hbase hrest, List.head?_append_of_ne_nil]
    simpa using hbase
  rw [parts_eq, parts_eq, hstart, hcut, names_append, hnames, List.append_assoc]

theorem IsName.head?_ne {name : String} (h : IsName name) : name.toList.head? ≠ some '/' :=
  fun hhead => h.noSlash (List.mem_of_head? hhead)

theorem IsName.ne_empty {name : String} (h : IsName name) : name ≠ "" := by
  rintro rfl
  exact h.moves (by decide)

theorem parts_join_name (base : String) {name : String} (hname : IsName name) :
    parts (join base name) = parts base ++ [name] := by
  by_cases hbase : base = ""
  · have hjoin : join base name = name := by
      unfold join
      rw [hbase]
      split <;> first | rfl | contradiction
    rw [hjoin, hbase, parts_eq, start, if_neg hname.head?_ne, hname.names_cut]
    rfl
  · rw [parts_join hbase hname.head?_ne, hname.names_cut]

/-- A name that is joined to a path is the name of the whole. -/
theorem name?_join (base : String) {name : String} (hname : IsName name) :
    name? (join base name) = some name := by
  rw [name?, parts_join_name base hname, List.getLast?_concat]

theorem resolve_append (reached front back : List String) :
    resolve reached (front ++ back) = resolve (resolve reached front) back := by
  induction front generalizing reached with
  | nil => rfl
  | cons part front ih =>
    rw [List.cons_append, resolve, resolve]
    split
    · exact ih (above reached)
    · exact ih (reached ++ [part])

theorem resolve_of_notMem {reached parts : List String} (h : parentName ∉ parts) :
    resolve reached parts = reached ++ parts := by
  induction parts generalizing reached with
  | nil => simp [resolve]
  | cons part parts ih =>
    simp only [List.mem_cons, not_or] at h
    rw [resolve, if_neg (Ne.symm h.1), ih h.2]
    simp

private theorem above_cases (names : List String) :
    above names = names ++ [parentName] ∨ ∃ m, above names = names.take m := by
  unfold above
  split
  · next h =>
    rw [List.getLast?_eq_none_iff.mp h]
    exact .inl rfl
  · split
    · exact .inl rfl
    · split
      · exact .inr ⟨names.length, by simp⟩
      · exact .inr ⟨names.length - 1, List.dropLast_eq_take⟩

private theorem take_concat_append (reached : List String) (part : String) (m : Nat)
    {kept rest : List String} (h : kept.Sublist rest) :
    ∃ m' kept', (reached ++ [part]).take m ++ kept = reached.take m' ++ kept' ∧
      kept'.Sublist (part :: rest) := by
  by_cases hm : m ≤ reached.length
  · exact ⟨m, kept, by rw [List.take_append_of_le_length hm], h.cons part⟩
  · refine ⟨reached.length, part :: kept, ?_, h.cons_cons part⟩
    have hlength : (reached ++ [part]).length ≤ m := by
      rw [List.length_append, List.length_singleton]
      omega
    rw [List.take_of_length_le hlength, List.take_length, List.append_assoc,
      List.singleton_append]

/-- Following parts keeps the front of the place reached, and some of the parts. -/
theorem resolve_eq_take_append (reached parts : List String) :
    ∃ m kept, resolve reached parts = reached.take m ++ kept ∧ kept.Sublist parts := by
  induction parts generalizing reached with
  | nil => exact ⟨reached.length, [], by simp [resolve], List.Sublist.refl []⟩
  | cons part rest ih =>
    rw [resolve]
    split
    · next hpart =>
      obtain ⟨m, kept, heq, hkept⟩ := ih (above reached)
      rw [heq]
      rcases above_cases reached with habove | ⟨k, habove⟩
      · rw [habove, hpart]
        exact take_concat_append reached parentName m hkept
      · rw [habove, List.take_take]
        exact ⟨min m k, kept, rfl, hkept.cons part⟩
    · obtain ⟨m, kept, heq, hkept⟩ := ih (reached ++ [part])
      rw [heq]
      exact take_concat_append reached part m hkept

/-- What parts lead to below the place where they start is made of some of them. -/
theorem sublist_of_resolve_eq {base parts below : List String}
    (h : resolve base parts = base ++ below) : below.Sublist parts := by
  obtain ⟨m, kept, heq, hkept⟩ := resolve_eq_take_append base parts
  rw [heq] at h
  have hsuffix : below <:+ kept := by
    refine List.suffix_of_suffix_length_le ⟨base, rfl⟩ (h ▸ ⟨base.take m, rfl⟩) ?_
    have hlength := congrArg List.length h
    simp only [List.length_append, List.length_take] at hlength
    omega
  exact hsuffix.sublist.trans hkept

/-- Parts that only lead on: no `..` undoes one before it. -/
def Forward (parts : List String) : Prop :=
  resolve [] parts = parts

instance (parts : List String) : Decidable (Forward parts) :=
  inferInstanceAs (Decidable (_ = _))

theorem Forward.of_before {front parts : List String} (h : Forward parts) (hway : front <+: parts) :
    Forward front := by
  obtain ⟨back, rfl⟩ := hway
  rw [Forward, resolve_append] at h
  obtain ⟨m, kept, hfront, hkept⟩ := resolve_eq_take_append [] front
  obtain ⟨n, rest, hback, hrest⟩ := resolve_eq_take_append (resolve [] front) back
  rw [List.take_nil, List.nil_append] at hfront
  -- The rest adds at most its own length, so the front has lost nothing.
  have hlength : front.length ≤ (resolve [] front).length := by
    have htotal := congrArg List.length (hback.symm.trans h)
    have hle := hrest.length_le
    simp only [List.length_append, List.length_take] at htotal
    omega
  rw [hfront] at hlength
  rw [Forward, hfront]
  exact hkept.eq_of_length_le hlength

theorem Forward.concat {parts : List String} (h : Forward parts) {name : String}
    (hname : name ≠ parentName) : Forward (parts ++ [name]) := by
  rw [Forward, resolve_append, h, resolve, if_neg hname, resolve]

private theorem prefix_above {names reached : List String} (hlast : names.getLast? = some parentName)
    (h : names <+: reached) : names <+: above reached := by
  unfold above
  split
  · next hnone =>
    rw [List.getLast?_eq_none_iff.mp hnone, List.prefix_nil] at h
    simp [h] at hlast
  next name hname =>
  split
  · exact h.trans (List.prefix_append _ _)
  next hparent =>
  split
  · exact h
  · obtain ⟨front, rfl⟩ := List.getLast?_eq_some_iff.mp hname
    rw [List.dropLast_concat]
    apply (List.prefix_concat_iff.mp h).resolve_left
    rintro rfl
    rw [hname] at hlast
    exact hparent (Option.some.inj hlast)

/-- No part leads back from above the start. -/
theorem prefix_resolve {names reached : List String} (hlast : names.getLast? = some parentName)
    (h : names <+: reached) (parts : List String) : names <+: resolve reached parts := by
  induction parts generalizing reached with
  | nil => exact h
  | cons part rest ih =>
    rw [resolve]
    split
    · exact ih (prefix_above hlast h)
    · exact ih (h.trans (List.prefix_append _ _))

private theorem head?_eq_slash_iff {cs : List Char} :
    cs.head? = some '/' ↔ ∃ rest, rest ≠ [] ∧ cut '/' cs = [] :: rest := by
  cases cs with
  | nil => simp [cut]
  | cons c cs =>
    rw [cut]
    by_cases hc : c = '/'
    · rw [if_pos hc]
      exact ⟨fun _ => ⟨_, cut_ne_nil '/' cs, rfl⟩, fun _ => by rw [hc]; rfl⟩
    · rw [if_neg hc]
      cases cut '/' cs <;> simp [hc]

private def trimmed (pieces : List (List Char)) : List (List Char) :=
  (pieces.reverse.dropWhile staysInPlace).reverse

private theorem names_trimmed (pieces : List (List Char)) :
    names (trimmed pieces) = names pieces := by
  have hall : (pieces.reverse.takeWhile staysInPlace).filter (fun piece => !staysInPlace piece) =
      [] := by
    rw [List.filter_eq_nil_iff]
    intro piece hpiece
    simp [List.mem_takeWhile_imp hpiece]
  have hsplit : pieces.reverse.filter (fun piece => !staysInPlace piece) =
      (pieces.reverse.dropWhile staysInPlace).filter fun piece => !staysInPlace piece := by
    rw [← List.takeWhile_append_dropWhile (p := staysInPlace) (l := pieces.reverse),
      List.filter_append, hall]
    simp
  unfold names trimmed
  rw [List.filter_reverse, ← hsplit, ← List.filter_reverse, List.reverse_reverse]

private theorem trimmed_prefix (pieces : List (List Char)) : trimmed pieces <+: pieces := by
  have h := List.reverse_prefix.mpr (List.dropWhile_suffix staysInPlace (l := pieces.reverse))
  rwa [List.reverse_reverse] at h

private theorem exists_last_trimmed {pieces : List (List Char)} (h : trimmed pieces ≠ []) :
    ∃ front last, trimmed pieces = front ++ [last] ∧ staysInPlace last = false := by
  unfold trimmed at h ⊢
  have hmoves := List.head?_dropWhile_not staysInPlace pieces.reverse
  cases hd : pieces.reverse.dropWhile staysInPlace with
  | nil => simp [hd] at h
  | cons last rest =>
    rw [hd] at hmoves
    exact ⟨rest.reverse, last, by simp, hmoves⟩

private theorem parent_eq {path : String} {front : List (List Char)} {last : List Char}
    (hcut : cut '/' path.toList = front ++ [last]) (hlast : staysInPlace last = false) :
    parent path = if (glue (trimmed front)).isEmpty && path.toList.head? = some '/' then "/"
      else glue (trimmed front) := by
  simp [parent, hcut, hlast, trimmed]

private theorem start_eq_nil {path : String} (h : path.toList.head? ≠ some '/') :
    start path = [] :=
  if_neg h

private theorem parent_of_trimmed_nil {path : String} {front : List (List Char)}
    {last : List Char} (hcut : cut '/' path.toList = front ++ [last])
    (hlast : staysInPlace last = false) (htrim : trimmed front = []) :
    parts (parent path) = start path ++ names front ∧ endsInPlace (parent path) = false := by
  have hnames : names front = [] := by
    rw [← names_trimmed, htrim]
    rfl
  have hglue : glue (trimmed front) = "" := by
    rw [htrim]
    rfl
  rw [parent_eq hcut hlast, hglue, hnames]
  by_cases hstart : path.toList.head? = some '/'
  · rw [if_pos (by simp [hstart]), start, if_pos hstart]
    exact ⟨by decide, by decide⟩
  · rw [if_neg (by simp [hstart]), start_eq_nil hstart]
    exact ⟨by decide, by decide⟩

private theorem parent_of_trimmed {path : String} {front : List (List Char)}
    {last : List Char} (hcut : cut '/' path.toList = front ++ [last])
    (hlast : staysInPlace last = false) (htrim : trimmed front ≠ []) :
    parts (parent path) = start path ++ names front ∧ endsInPlace (parent path) = false := by
  rw [parent_eq hcut hlast, ← names_trimmed]
  obtain ⟨tail, htail⟩ := trimmed_prefix front
  obtain ⟨inner, name, hname, hmoves⟩ := exists_last_trimmed htrim
  generalize trimmed front = pieces at *
  subst htail
  have hslash : ∀ piece ∈ pieces, '/' ∉ piece := by
    intro piece hpiece
    have hmem : piece ∈ cut '/' path.toList := by
      rw [hcut]
      simp [hpiece]
    exact notMem_of_mem_cut hmem
  have hglue : cut '/' (glue pieces).toList = pieces := by
    rw [glue, String.toList_ofList, cut_eq_splitOn, List.splitOn_intercalate '/' hslash htrim]
  have hnotNil : pieces ≠ [[]] := by
    intro hnil
    have hlastName := congrArg List.getLast? (hname.symm.trans hnil)
    rw [List.getLast?_concat] at hlastName
    obtain rfl : name = [] := Option.some.inj hlastName
    exact absurd hmoves (by decide)
  have hempty : (glue pieces).isEmpty = false := by
    rw [Bool.eq_false_iff]
    intro hempty
    rw [String.isEmpty_iff.mp hempty] at hglue
    exact hnotNil hglue.symm
  have hstart : start (glue pieces) = start path := by
    have hiff : (glue pieces).toList.head? = some '/' ↔ path.toList.head? = some '/' := by
      rw [head?_eq_slash_iff, head?_eq_slash_iff, hglue, hcut]
      constructor
      · rintro ⟨rest, _, rfl⟩
        exact ⟨rest ++ tail ++ [last], by simp, by simp⟩
      · rintro ⟨rest, _, hrest⟩
        cases pieces with
        | nil => exact absurd rfl htrim
        | cons piece pieces =>
          obtain rfl : piece = [] := (List.cons.inj hrest).1
          exact ⟨pieces, fun hnil => hnotNil (by rw [hnil]), rfl⟩
    simp only [start, hiff]
  rw [hempty, if_neg (by simp), parts_eq, hglue, hstart]
  refine ⟨rfl, ?_⟩
  have hname' : name.isEmpty = false ∧ name ≠ ['.'] := by
    simpa [staysInPlace] using hmoves
  rw [endsInPlace, hglue, hname]
  simp [hname']

/-- A path that leads to a file ends in its name, and its parent has the parts before. -/
theorem parts_parent {path name : String} (hname : name? path = some name)
    (hfile : demandsDirectory path = false) :
    parts path = parts (parent path) ++ [name] ∧ endsInPlace (parent path) = false := by
  obtain ⟨front, last, hcut⟩ :=
    (List.eq_nil_or_concat' _).resolve_left (cut_ne_nil '/' path.toList)
  have hlast : staysInPlace last = false := by
    simpa [demandsDirectory, hcut] using hfile
  have hparts : parts path = start path ++ names front ++ [String.ofList last] := by
    rw [parts_eq, hcut, names_append, ← List.append_assoc]
    simp [names, hlast]
  have hlastName : String.ofList last = name := by
    rw [name?, hparts, List.getLast?_concat] at hname
    exact Option.some.inj hname
  have hparent : parts (parent path) = start path ++ names front ∧
      endsInPlace (parent path) = false := by
    by_cases htrim : trimmed front = []
    · exact parent_of_trimmed_nil hcut hlast htrim
    · exact parent_of_trimmed hcut hlast htrim
  rw [hparts, hparent.1, hlastName]
  exact ⟨rfl, hparent.2⟩

/-- The path of what names lead to from a path. -/
def joinAll (base : String) (names : List String) : String :=
  names.foldl join base

theorem joinAll_cons (base name : String) (rest : List String) :
    joinAll base (name :: rest) = joinAll (join base name) rest :=
  rfl

theorem joinAll_concat (base name : String) (front : List String) :
    joinAll base (front ++ [name]) = join (joinAll base front) name :=
  List.foldl_concat ..

theorem join_ne_empty {base name : String} (hbase : base ≠ "") (hname : IsName name) :
    join base name ≠ "" := by
  intro h
  have hlist := toList_join hbase hname.head?_ne
  rw [h] at hlist
  simp [hbase] at hlist

theorem joinAll_ne_empty {base : String} (hbase : base ≠ "") {names : List String}
    (hnames : ∀ name ∈ names, IsName name) : joinAll base names ≠ "" := by
  induction names generalizing base with
  | nil => exact hbase
  | cons name rest ih =>
    exact ih (join_ne_empty hbase (hnames name List.mem_cons_self)) fun n hn =>
      hnames n (List.mem_cons_of_mem _ hn)

theorem parts_joinAll {base : String} (hbase : base ≠ "") {names : List String}
    (hnames : ∀ name ∈ names, IsName name) : parts (joinAll base names) = parts base ++ names := by
  induction names generalizing base with
  | nil => simp [joinAll]
  | cons name rest ih =>
    have hname := hnames name List.mem_cons_self
    rw [joinAll_cons, ih (join_ne_empty hbase hname) fun n hn => hnames n (List.mem_cons_of_mem _ hn),
      parts_join_name base hname, List.append_assoc]
    rfl

theorem demandsDirectory_join {base name : String} (hbase : base ≠ "") (hname : IsName name) :
    demandsDirectory (join base name) = false := by
  obtain ⟨front, hcut, _⟩ := cut_join hbase hname.head?_ne
  have hmoves := hname.moves
  rw [demandsDirectory, hcut, cut_of_notMem hname.noSlash, List.getLast?_concat]
  simpa using hmoves

theorem size_join {base rest : String} (hbase : base ≠ "")
    (hrest : rest.toList.head? ≠ some '/') : (join base rest).utf8ByteSize =
      base.utf8ByteSize + (gap base).length + rest.utf8ByteSize := by
  have h : join base rest = base ++ (String.ofList (gap base) ++ rest) := by
    rw [← String.toList_inj, toList_join hbase hrest]
    simp
  have hgap : (String.ofList (gap base)).utf8ByteSize = (gap base).length := by
    unfold gap
    split <;> decide
  rw [h, String.utf8ByteSize_append, String.utf8ByteSize_append, hgap, Nat.add_assoc]

/-- The bytes of names with a slash after each. -/
def room (names : List String) : Nat :=
  (names.map fun name => name.utf8ByteSize + 1).sum

private theorem sum_cut (cs : List Char) :
    ((cut '/' cs).map fun piece => (String.ofList piece).utf8ByteSize + 1).sum =
      (String.ofList cs).utf8ByteSize + 1 := by
  induction cs with
  | nil => decide
  | cons c cs ih =>
    rw [cut, String.ofList_cons, String.utf8ByteSize_append, String.utf8ByteSize_singleton]
    by_cases hc : c = '/'
    · have hslash : '/'.utf8Size = 1 := by decide
      have hnil : (String.ofList []).utf8ByteSize = 0 := by decide
      rw [if_pos hc, List.map_cons, List.sum_cons, ih, hc, hslash, hnil]
      omega
    · rw [if_neg hc]
      cases hcut : cut '/' cs with
      | nil => exact absurd hcut (cut_ne_nil '/' cs)
      | cons word words =>
        rw [hcut] at ih
        simp only [List.map_cons, List.sum_cons, String.ofList_cons, String.utf8ByteSize_append,
          String.utf8ByteSize_singleton] at ih ⊢
        omega

private theorem room_names_cut_le (text : String) :
    room (names (cut '/' text.toList)) ≤ text.utf8ByteSize + 1 := by
  have hpieces : ∀ pieces, room (names pieces) ≤
      (pieces.map fun piece => (String.ofList piece).utf8ByteSize + 1).sum := by
    intro pieces
    induction pieces with
    | nil => exact Nat.le_refl 0
    | cons piece rest ih =>
      by_cases hstays : staysInPlace piece
      · have hnames : names (piece :: rest) = names rest := by simp [names, hstays]
        rw [hnames, List.map_cons, List.sum_cons]
        omega
      · have hnames : names (piece :: rest) = String.ofList piece :: names rest := by
          simp [names, hstays]
        rw [hnames, List.map_cons, List.sum_cons]
        change _ + 1 + room (names rest) ≤ _
        omega
  have hcut := hpieces (cut '/' text.toList)
  rw [sum_cut, String.ofList_toList] at hcut
  exact hcut

private theorem room_le_of_sublist {front back : List String} (h : front.Sublist back) :
    room front ≤ room back := by
  induction h with
  | slnil => exact Nat.le_refl 0
  | cons name _ ih =>
    simp only [room, List.map_cons, List.sum_cons] at ih ⊢
    omega
  | cons_cons name _ ih =>
    simp only [room, List.map_cons, List.sum_cons] at ih ⊢
    omega

private theorem gap_join {base name : String} (hbase : base ≠ "") (hname : IsName name) :
    gap (join base name) = ['/'] := by
  have hne : name.toList ≠ [] := by
    simpa using hname.ne_empty
  have hlast : (join base name).toList.getLast? = name.toList.getLast? := by
    rw [toList_join hbase hname.head?_ne, ← List.append_assoc, List.getLast?_append_of_ne_nil _ hne]
  unfold gap
  rw [if_neg]
  rw [hlast]
  exact fun h => hname.noSlash (List.mem_of_getLast? h)

private theorem size_joinAll_le {base : String} (hbase : base ≠ "") {names : List String}
    (hnames : ∀ name ∈ names, IsName name) (hne : names ≠ []) :
    (joinAll base names).utf8ByteSize + 1 ≤
      base.utf8ByteSize + (gap base).length + room names := by
  induction names generalizing base with
  | nil => exact absurd rfl hne
  | cons name rest ih =>
    have hname := hnames name List.mem_cons_self
    have hsize := size_join hbase hname.head?_ne
    have hroom : room (name :: rest) = name.utf8ByteSize + 1 + room rest := by
      simp [room]
    rw [joinAll_cons, hroom]
    by_cases hrest : rest = []
    · subst hrest
      change (join base name).utf8ByteSize + 1 ≤ _
      omega
    · have hle := ih (join_ne_empty hbase hname) (fun n hn => hnames n (List.mem_cons_of_mem _ hn))
        hrest
      rw [gap_join hbase hname, List.length_singleton] at hle
      omega

private theorem mem_joinAll {base : String} (hbase : base ≠ "") {names : List String}
    (hnames : ∀ name ∈ names, IsName name) {c : Char} (hc : c ∈ (joinAll base names).toList) :
    c ∈ base.toList ∨ c = '/' ∨ ∃ name ∈ names, c ∈ name.toList := by
  induction names generalizing base with
  | nil => exact .inl hc
  | cons name rest ih =>
    have hname := hnames name List.mem_cons_self
    have hgap : c ∈ gap base → c = '/' := by
      unfold gap
      split <;> simp
    rcases ih (join_ne_empty hbase hname) (fun n hn => hnames n (List.mem_cons_of_mem _ hn)) hc with
      hmem | hslash | ⟨n, hn, hmem⟩
    · rw [toList_join hbase hname.head?_ne] at hmem
      rcases List.mem_append.mp hmem with hmem | hmem
      · exact .inl hmem
      · rcases List.mem_append.mp hmem with hmem | hmem
        · exact .inr (.inl (hgap hmem))
        · exact .inr (.inr ⟨name, List.mem_cons_self, hmem⟩)
    · exact .inr (.inl hslash)
    · exact .inr (.inr ⟨n, List.mem_cons_of_mem _ hn, hmem⟩)

private theorem mem_of_mem_names {cs : List Char} {name : String}
    (hname : name ∈ names (cut '/' cs)) {c : Char} (hc : c ∈ name.toList) : c ∈ cs := by
  simp only [names, List.mem_map, List.mem_filter] at hname
  obtain ⟨piece, ⟨hpiece, _⟩, rfl⟩ := hname
  rw [String.toList_ofList] at hc
  exact mem_of_mem_cut hpiece hc

/-- A path that names some of the parts of a valid path in order is valid too. -/
theorem isValid_joinAll {base rest : String} (hbase : base ≠ "")
    (hrest : rest.toList.head? ≠ some '/') (hvalid : isValid (join base rest)) {below : List String}
    (hbelow : below.Sublist (names (cut '/' rest.toList))) (hne : below ≠ []) :
    isValid (joinAll base below) := by
  have hnames : ∀ name ∈ below, IsName name := fun name hname =>
    isName_of_mem_names (hbelow.subset hname)
  have hsize := size_joinAll_le hbase hnames hne
  have hroom := Nat.le_trans (room_le_of_sublist hbelow) (room_names_cut_le rest)
  simp only [isValid, hasNul, isLong, Bool.and_eq_true, Bool.not_eq_true', decide_eq_false_iff_not,
    size_join hbase hrest, toList_join hbase hrest, List.mem_append, not_or] at hvalid ⊢
  refine ⟨?_, by omega⟩
  intro hnul
  rcases mem_joinAll hbase hnames hnul with hmem | hslash | ⟨name, hname, hmem⟩
  · exact hvalid.1.1 hmem
  · exact absurd hslash (by decide)
  · exact hvalid.1.2.2 (mem_of_mem_names (hbelow.subset hname) hmem)

theorem isLong_of_isValid {path : String} (h : isValid path) : isLong path = false := by
  rw [isValid, Bool.and_eq_true, Bool.not_eq_true' (isLong path)] at h
  exact h.2

end ApiDocs.FilePath
