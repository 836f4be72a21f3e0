import ApiDocs.Proofs.Route.Placeholders
import ApiDocs.Proofs.Route.VersionPath
/-!
# The group of a path, segment by segment

A path between slashes is a list of segments, some of which are placeholders. Its group drops a
placeholder of word characters together with the slash before it, so a placeholder in front stays,
and so does one whose name holds a hyphen.
-/
namespace ApiDocs.Path

/-- A segment of a path: a text, or a placeholder that may be marked optional. -/
inductive Segment where
  | text (chars : List Char)
  | placeholder (name : List Char) (optional : Bool)
deriving DecidableEq

namespace Segment

def chars : Segment → List Char
  | .text chars => chars
  | .placeholder name optional => '{' :: (name ++ (if optional then ['?', '}'] else ['}']))

/-- A text that is not empty and holds no brace and no slash, or a placeholder of word characters
and hyphens. -/
def IsProper : Segment → Prop
  | .text chars => chars ≠ [] ∧ ∀ c ∈ chars, c ≠ '/' ∧ c ≠ '{' ∧ c ≠ '}'
  | .placeholder name optional =>
    (name ≠ [] ∨ optional = true) ∧ ∀ c ∈ name, Text.isWord c = true ∨ c = '-'

instance : DecidablePred IsProper
  | .text chars => @instDecidableAnd _ _ inferInstance (List.decidableBAll _ chars)
  | .placeholder name _ => @instDecidableAnd _ _ inferInstance (List.decidableBAll _ name)

def isText : Segment → Bool
  | .text _ => true
  | .placeholder _ _ => false

/-- Whether a segment is a placeholder of word characters only. -/
def isPlain : Segment → Bool
  | .text _ => false
  | .placeholder name _ => name.all Text.isWord

/-- Segments with a slash between each two of them. -/
def join (segments : List Segment) : List Char :=
  ['/'].intercalate (segments.map chars)

/-- What a group keeps of segments: the first one, and of the others those that are no placeholders
of word characters. -/
def kept : List Segment → List Segment
  | [] => []
  | first :: rest => first :: rest.filter fun s => !s.isPlain

/-- The segments without a leading `api` that another one follows. -/
def withoutApi : List Segment → List Segment
  | first :: next :: rest =>
    if first = .text ['a', 'p', 'i'] then next :: rest else first :: next :: rest
  | segments => segments

variable {s : Segment} {segments : List Segment}

theorem join_cons (s : Segment) (rest : List Segment) :
    join (s :: rest) = s.chars ++ rest.flatMap fun next => '/' :: next.chars := by
  induction rest generalizing s with
  | nil => simp [join]
  | cons next rest ih =>
    have hjoin : join (s :: next :: rest) = s.chars ++ ['/'] ++ join (next :: rest) :=
      List.intercalate_cons_cons
    rw [hjoin, ih, List.flatMap_cons, List.append_assoc]
    rfl

theorem IsProper.slash_notMem (h : s.IsProper) : '/' ∉ s.chars := by
  intro hmem
  cases s with
  | text chars => exact (h.2 _ hmem).1 rfl
  | placeholder name optional =>
    have hname : '/' ∈ name := by
      cases optional <;> simpa [chars] using hmem
    exact absurd (h.2 _ hname) (by decide)

theorem IsProper.chars_ne_nil (h : s.IsProper) : s.chars ≠ [] := by
  cases s with
  | text chars => exact h.1
  | placeholder name optional => exact List.cons_ne_nil _ _

/-- The check of a path recognises the placeholders and no other segments. -/
theorem IsProper.placeholderAt?_chars (h : s.IsProper) (rest : List Char) :
    (placeholderAt? (s.chars ++ rest)).isSome = !s.isText := by
  cases s with
  | text chars =>
    obtain ⟨hne, hchars⟩ := h
    obtain ⟨c, chars, rfl⟩ := List.exists_cons_of_ne_nil hne
    have hbrace := (hchars c List.mem_cons_self).2.1
    simp [Segment.chars, isText, placeholderAt?, hbrace]
  | placeholder name optional =>
    obtain ⟨hne, hchars⟩ := h
    have hname : ∀ c ∈ name, isNameChar c = true := by
      intro c hc
      obtain hword | rfl := hchars c hc
      · simp [isNameChar, hword]
      · decide
    refine Option.isSome_iff_exists.mpr
      ⟨name ++ (if optional then ['?'] else []), placeholderAt?_eq_some_iff.mpr ⟨rest, ?_, ?_, ?_⟩⟩
    · cases optional <;> simp [Segment.chars]
    · cases optional <;> simp_all
    · intro c hc
      obtain hc | hc := List.mem_append.mp hc
      · exact hname c hc
      · cases optional with
        | false => cases hc
        | true =>
          obtain rfl := List.mem_singleton.mp hc
          decide

/-- Only placeholders hold braces. -/
theorem IsProper.brace_mem_iff (h : s.IsProper) : '{' ∈ s.chars ↔ s.isText = false := by
  cases s with
  | text chars =>
    have hbrace : '{' ∉ chars := fun hmem => (h.2 _ hmem).2.1 rfl
    simp [isText, Segment.chars, hbrace]
  | placeholder name optional => simp [isText, Segment.chars]

theorem brace_mem_join_iff (h : ∀ s ∈ segments, s.IsProper) :
    '{' ∈ join segments ↔ ∃ s ∈ segments, s.isText = false := by
  cases segments with
  | nil => simp [join]
  | cons first rest =>
    obtain ⟨hfirst, hrest⟩ := List.forall_mem_cons.mp h
    have hcons : (∃ s ∈ first :: rest, s.isText = false) ↔
        first.isText = false ∨ ∃ s ∈ rest, s.isText = false := by simp
    rw [join_cons, List.mem_append, hfirst.brace_mem_iff, hcons, List.mem_flatMap]
    refine or_congr_right ?_
    refine exists_congr fun s => and_congr_right fun hs => ?_
    rw [← (hrest s hs).brace_mem_iff]
    simp

theorem kept_sublist : ∀ segments : List Segment, (kept segments).Sublist segments
  | [] => .slnil
  | first :: _ => List.filter_sublist.cons_cons first

/-- All placeholders are dropped exactly if none is kept. -/
theorem join_kept_eq_iff (h : ∀ s ∈ segments, s.IsProper) :
    join (kept segments) = join (segments.filter isText) ↔
      ∀ s ∈ kept segments, s.isText = true := by
  constructor
  · intro heq s hs
    by_contra hplaceholder
    have hkept : ∀ s ∈ kept segments, s.IsProper :=
      fun s hs => h s ((kept_sublist segments).subset hs)
    have hbrace : '{' ∈ join (kept segments) :=
      (brace_mem_join_iff hkept).mpr ⟨s, hs, Bool.eq_false_iff.mpr hplaceholder⟩
    rw [heq, brace_mem_join_iff fun s hs => h s (List.mem_filter.mp hs).1] at hbrace
    obtain ⟨s', hs', hfalse⟩ := hbrace
    rw [(List.mem_filter.mp hs').2] at hfalse
    cases hfalse
  · intro htext
    cases segments with
    | nil => rfl
    | cons first rest =>
      obtain ⟨hfirst, hrest⟩ := List.forall_mem_cons.mp htext
      rw [kept, List.filter_cons, if_pos hfirst]
      congr 2
      apply List.filter_congr
      intro s hs
      rw [Bool.eq_iff_iff]
      constructor
      · intro hplain
        exact hrest s (List.mem_filter.mpr ⟨hs, hplain⟩)
      · intro hs'
        cases s with
        | text _ => rfl
        | placeholder _ _ => cases hs'

end Segment
open Segment

private theorem dropParameters_skip (skipped rest : List Char) :
    dropParameters skipped.length (skipped ++ rest) = dropParameters 0 rest := by
  induction skipped with
  | nil => rfl
  | cons c skipped ih => exact ih

private theorem parameterSegment?_of_ne {c : Char} (h : c ≠ '/') (rest : List Char) :
    parameterSegment? (c :: rest) = none := by
  unfold parameterSegment?
  split
  · next heq => exact absurd (List.cons.inj heq).1 h
  · rfl

private theorem dropParameters_of_notMem {front : List Char} (h : '/' ∉ front)
    (rest : List Char) : dropParameters 0 (front ++ rest) = front ++ dropParameters 0 rest := by
  induction front with
  | nil => rfl
  | cons c front ih =>
    obtain ⟨hc, hfront⟩ := not_or.mp (List.mem_cons.not.mp h)
    rw [List.cons_append, dropParameters, parameterSegment?_of_ne (Ne.symm hc)]
    dsimp only
    rw [ih hfront, List.cons_append]

private theorem dropParameters_slashes {slashes : List Char} (h : ∀ c ∈ slashes, c = '/') :
    dropParameters 0 slashes = slashes := by
  induction slashes with
  | nil => rfl
  | cons c slashes ih =>
    obtain ⟨rfl, hslashes⟩ := List.forall_mem_cons.mp h
    have hnone : parameterSegment? ('/' :: slashes) = none := by
      cases slashes with
      | nil => rfl
      | cons d rest =>
        obtain rfl := hslashes d List.mem_cons_self
        rfl
    rw [dropParameters, hnone]
    dsimp only
    rw [ih hslashes]

/-- Behind a slash, placeholders of word characters are parameters and no other segments are. -/
theorem parameterSegment?_chars {s : Segment} (h : s.IsProper) (rest : List Char) :
    parameterSegment? ('/' :: (s.chars ++ rest)) =
      if s.isPlain then some (s.chars.length + 1) else none := by
  cases s with
  | text chars =>
    obtain ⟨hne, hchars⟩ := h
    cases chars with
    | nil => exact absurd rfl hne
    | cons c chars =>
      unfold parameterSegment?
      split
      · next heq =>
        exact absurd (List.cons.inj (List.cons.inj heq).2).1 (hchars c List.mem_cons_self).2.1
      · rfl
  | placeholder name optional =>
    have hopen : parameterSegment? ('/' :: ((Segment.placeholder name optional).chars ++ rest)) =
        parameterSegment? ('/' :: '{' :: (name ++
          ((if optional then ['?', '}'] else ['}']) ++ rest))) := by
      simp [chars]
    rw [hopen, parameterSegment?, List.dropWhile_append]
    by_cases hplain : name.all Text.isWord = true
    · have hword := List.all_eq_true.mp hplain
      have hdrop : name.dropWhile Text.isWord = [] := List.dropWhile_eq_nil_iff.mpr hword
      have hmark : Text.isWord '?' = false := by decide
      have hclose : Text.isWord '}' = false := by decide
      rw [hdrop, List.takeWhile_append_of_pos hword]
      cases optional <;> simp [isPlain, chars, hplain, hmark, hclose]
    · -- the first character that is no word character is a hyphen, which closes no placeholder
      have hdrop : name.dropWhile Text.isWord ≠ [] := fun hnil =>
        hplain (List.all_eq_true.mpr (List.dropWhile_eq_nil_iff.mp hnil))
      obtain ⟨c, after, hcons⟩ := List.exists_cons_of_ne_nil hdrop
      have hhead := List.head?_dropWhile_not Text.isWord name
      rw [hcons, List.head?_cons] at hhead
      have hmem : c ∈ name :=
        (List.dropWhile_sublist Text.isWord).subset (hcons ▸ List.mem_cons_self)
      obtain rfl : c = '-' := (h.2 c hmem).resolve_left (by simp [hhead])
      rw [hcons]
      simp [isPlain, hplain]

theorem dropParameters_chars {s : Segment} (h : s.IsProper) (rest : List Char) :
    dropParameters 0 ('/' :: (s.chars ++ rest)) =
      (if s.isPlain then [] else '/' :: s.chars) ++ dropParameters 0 rest := by
  rw [dropParameters, parameterSegment?_chars h]
  cases s.isPlain with
  | true => exact dropParameters_skip s.chars rest
  | false =>
    simp only [Bool.false_eq_true, if_false]
    rw [dropParameters_of_notMem h.slash_notMem, List.cons_append]

theorem dropParameters_join {segments : List Segment} (h : ∀ s ∈ segments, s.IsProper)
    {slashes : List Char} (hslashes : ∀ c ∈ slashes, c = '/') :
    dropParameters 0 (join segments ++ slashes) = join (kept segments) ++ slashes := by
  have hrest : ∀ rest : List Segment, (∀ s ∈ rest, s.IsProper) →
      dropParameters 0 ((rest.flatMap fun s => '/' :: s.chars) ++ slashes) =
        ((rest.filter fun s => !s.isPlain).flatMap fun s => '/' :: s.chars) ++ slashes := by
    intro rest hproper
    induction rest with
    | nil => exact dropParameters_slashes hslashes
    | cons s rest ih =>
      obtain ⟨hs, hrest⟩ := List.forall_mem_cons.mp hproper
      rw [List.flatMap_cons, List.cons_append, List.cons_append, List.append_assoc,
        dropParameters_chars hs, ih hrest, List.filter_cons]
      cases s.isPlain <;> simp
  cases segments with
  | nil => exact dropParameters_slashes hslashes
  | cons first rest =>
    obtain ⟨hfirst, hproper⟩ := List.forall_mem_cons.mp h
    rw [join_cons, List.append_assoc, dropParameters_of_notMem hfirst.slash_notMem,
      hrest rest hproper, kept, join_cons, List.append_assoc]

private theorem exists_join_eq_concat {first : Segment} {rest : List Segment}
    (h : ∀ s ∈ first :: rest, s.IsProper) :
    ∃ front last, join (first :: rest) = front ++ [last] ∧ last ≠ '/' := by
  induction rest generalizing first with
  | nil =>
    have hproper := h first List.mem_cons_self
    obtain hnil | ⟨front, last, hlast⟩ := List.eq_nil_or_concat first.chars
    · exact absurd hnil hproper.chars_ne_nil
    · refine ⟨front, last, by simpa [join] using hlast, ?_⟩
      rintro rfl
      exact hproper.slash_notMem (by simp [hlast])
  | cons next rest ih =>
    obtain ⟨front, last, hlast, hne⟩ := ih fun s hs => h s (List.mem_cons_of_mem _ hs)
    refine ⟨first.chars ++ '/' :: front, last, ?_, hne⟩
    rw [join_cons, List.flatMap_cons, List.cons_append, ← join_cons, hlast, List.append_assoc,
      List.cons_append]

theorem dropBoth_join {segments : List Segment} (h : ∀ s ∈ segments, s.IsProper)
    {slashes : List Char} (hslashes : ∀ c ∈ slashes, c = '/') :
    Text.dropBoth (· == '/') (join segments ++ slashes) = join segments := by
  have hending : ∀ c ∈ slashes, (c == '/') = true := fun c hc => beq_iff_eq.mpr (hslashes c hc)
  cases segments with
  | nil => exact Text.dropBoth_eq_nil_iff.mpr hending
  | cons first rest =>
    obtain ⟨front, last, hlast, hne⟩ := exists_join_eq_concat h
    have hkept : (last == '/') = false := beq_eq_false_iff_ne.mpr hne
    have hright : Text.dropRight (· == '/') (join (first :: rest) ++ slashes) =
        join (first :: rest) := by
      rw [Text.dropRight_append hending, hlast]
      exact Text.dropRight_concat (p := (· == '/')) hkept front
    have hproper := h first List.mem_cons_self
    obtain ⟨c, cs, hcs⟩ := List.exists_cons_of_ne_nil hproper.chars_ne_nil
    have hc : ¬ (c == '/') = true := by
      rw [beq_iff_eq]
      rintro rfl
      exact hproper.slash_notMem (hcs ▸ List.mem_cons_self)
    have hleft : (join (first :: rest) ++ slashes).dropWhile (· == '/') =
        join (first :: rest) ++ slashes := by
      rw [join_cons, hcs, List.cons_append, List.cons_append, List.dropWhile_cons, if_neg hc]
    rw [Text.dropBoth, hleft, hright]

private theorem stripStart?_join {segments : List Segment} (h : ∀ s ∈ segments, s.IsProper)
    {slashes text : List Char} (hslashes : ∀ c ∈ slashes, c = '/')
    (hstrip : Text.stripStart? apiSegment (join segments ++ slashes) = some text) :
    ∃ rest ending, segments = .text ['a', 'p', 'i'] :: rest ∧ text = join rest ++ ending ∧
      ∀ c ∈ ending, c = '/' := by
  have hsplit : join segments ++ slashes = apiSegment ++ text :=
    Text.stripStart?_eq_some_iff.mp hstrip
  change _ = ['a', 'p', 'i'] ++ '/' :: text at hsplit
  cases segments with
  | nil =>
    have ha : 'a' ∈ slashes := by
      rw [show slashes = _ from hsplit]
      exact List.mem_cons_self
    exact absurd (hslashes 'a' ha) (by decide)
  | cons first rest =>
    have hproper := h first List.mem_cons_self
    -- the first slash of the text ends the first segment
    have hfirst : ∀ after, first.chars ++ '/' :: after = ['a', 'p', 'i'] ++ '/' :: text →
        first = .text ['a', 'p', 'i'] ∧ after = text := by
      intro after hafter
      obtain ⟨hchars, hrest⟩ := append_slash_inj hproper.slash_notMem (by decide) hafter
      refine ⟨?_, hrest⟩
      cases first with
      | text chars => rw [show chars = _ from hchars]
      | placeholder name optional => cases (List.cons.inj hchars).1
    rw [join_cons, List.append_assoc] at hsplit
    cases rest with
    | cons next rest =>
      obtain ⟨rfl, hrest⟩ := hfirst (join (next :: rest) ++ slashes) (by
        rw [← hsplit, join_cons, List.flatMap_cons, List.cons_append, List.cons_append])
      exact ⟨next :: rest, slashes, rfl, hrest.symm, hslashes⟩
    | nil =>
      cases slashes with
      | nil =>
        have hslash : '/' ∈ first.chars := by
          rw [show first.chars = _ by simpa using hsplit]
          simp
        exact absurd hslash hproper.slash_notMem
      | cons c slashes =>
        obtain ⟨rfl, hending⟩ := List.forall_mem_cons.mp hslashes
        obtain ⟨rfl, hrest⟩ := hfirst slashes hsplit
        exact ⟨[], slashes, rfl, hrest.symm, hending⟩

section Uri

variable {uri : String} {segments : List Segment}

private theorem dropApi_of_segments (h : ∀ s ∈ segments, s.IsProper)
    (huri : (Text.trimSlashes uri).toList = join segments) :
    ∃ ending, (∀ c ∈ ending, c = '/') ∧
      ((Text.startsWith (Text.trimLeftSlashes uri) "api/" = true ∧
          ∃ rest, segments = .text ['a', 'p', 'i'] :: rest ∧
            dropApi (uri.toList.dropWhile (· == '/')) = join rest ++ ending) ∨
        (Text.startsWith (Text.trimLeftSlashes uri) "api/" = false ∧
          withoutApi segments = segments ∧
            dropApi (uri.toList.dropWhile (· == '/')) = join segments ++ ending)) := by
  obtain ⟨ending, htext, hslash⟩ :=
    Text.exists_dropRight_append (· == '/') (uri.toList.dropWhile (· == '/'))
  have hending : ∀ c ∈ ending, c = '/' := fun c hc => beq_iff_eq.mp (hslash c hc)
  have hjoin : Text.dropRight (· == '/') (uri.toList.dropWhile (· == '/')) = join segments := by
    rw [← huri, Text.trimSlashes, Text.trimWhere, String.toList_ofList, Text.dropBoth]
  rw [hjoin] at htext
  have hstarts : Text.startsWith (Text.trimLeftSlashes uri) "api/" =
      (Text.stripStart? apiSegment (join segments ++ ending)).isSome := by
    rw [Text.startsWith, Text.trimLeftSlashes, Text.trimLeftWhere, String.toList_ofList,
      String.toList_ofList, htext]
    rfl
  rw [hstarts, htext, dropApi]
  cases hstrip : Text.stripStart? apiSegment (join segments ++ ending) with
  | some text =>
    obtain ⟨rest, ending', hsegments, rfl, hending'⟩ := stripStart?_join h hending hstrip
    exact ⟨ending', hending', .inl ⟨rfl, rest, hsegments, rfl⟩⟩
  | none =>
    refine ⟨ending, hending, .inr ⟨rfl, ?_, rfl⟩⟩
    cases segments with
    | nil => rfl
    | cons first rest =>
      cases rest with
      | nil => rfl
      | cons next rest =>
        refine if_neg ?_
        rintro rfl
        rw [join_cons, List.flatMap_cons, List.append_assoc, List.append_assoc] at hstrip
        cases hstrip

/-- The group of a path is made of the segments behind a leading `api/`: the first of them and the
others that are no placeholders of word characters. It holds no placeholder at all exactly if none
of those is one, except that nothing is left of `api/`. -/
theorem groupKey_of_segments (h : ∀ s ∈ segments, s.IsProper)
    (huri : (Text.trimSlashes uri).toList = join segments) :
    (groupKey uri).toList = join (kept
        (if Text.startsWith (Text.trimLeftSlashes uri) "api/" then segments.tail else segments)) ∧
      ((groupKey uri).toList = join ((withoutApi segments).filter isText) ↔
        (∀ s ∈ kept (withoutApi segments), s.isText = true) ∧
          (segments = [.text ['a', 'p', 'i']] →
            Text.startsWith (Text.trimLeftSlashes uri) "api/" = false)) := by
  obtain ⟨ending, hending, hpath⟩ := dropApi_of_segments h huri
  have hgroup : ∀ rest, (∀ s ∈ rest, s.IsProper) →
      dropApi (uri.toList.dropWhile (· == '/')) = join rest ++ ending →
      (groupKey uri).toList = join (kept rest) := by
    intro rest hrest heq
    have hkept : ∀ s ∈ kept rest, s.IsProper :=
      fun s hs => hrest s ((kept_sublist rest).subset hs)
    rw [groupKey, String.toList_ofList, heq, dropParameters_join hrest hending,
      dropBoth_join hkept hending]
  obtain ⟨hstarts, rest, rfl, hdropped⟩ | ⟨hstarts, hsame, hdropped⟩ := hpath
  · have hrest : ∀ s ∈ rest, s.IsProper := fun s hs => h s (List.mem_cons_of_mem _ hs)
    rw [hstarts, hgroup rest hrest hdropped, if_pos rfl]
    refine ⟨rfl, ?_⟩
    cases rest with
    | nil =>
      -- the path is `api/`
      have hnonempty : join (kept []) ≠ join ((withoutApi [.text ['a', 'p', 'i']]).filter isText) := by
        decide
      simp [hnonempty]
    | cons next rest =>
      have hwithout : withoutApi (.text ['a', 'p', 'i'] :: next :: rest) = next :: rest := by
        rw [withoutApi, if_pos rfl]
      rw [hwithout, join_kept_eq_iff hrest]
      simp
  · rw [hstarts, hgroup segments h hdropped, if_neg Bool.false_ne_true, hsame, join_kept_eq_iff h]
    simp

end Uri

-- A path with two placeholders of word characters, one of them optional, and one with a hyphen.
private def lineSegments : List Segment :=
  [.text ['a', 'p', 'i'], .text ['v', '2'], .placeholder ['i', 'd'] false,
    .placeholder ['n', '-', '1'] false, .text ['x'], .placeholder ['n'] true]

theorem group_of_lines :
    groupKey "/api/v2/\x7bid\x7d/\x7bn-1\x7d/x/\x7bn?\x7d/" = "v2/\x7bn-1\x7d/x" ∧
      (groupKey "/api/v2/\x7bid\x7d/\x7bn-1\x7d/x/\x7bn?\x7d/").toList ≠
        join ((withoutApi lineSegments).filter isText) := by
  have hgroup := @groupKey_of_segments "/api/v2/\x7bid\x7d/\x7bn-1\x7d/x/\x7bn?\x7d/"
    lineSegments (by decide) (by decide)
  constructor
  · exact String.toList_inj.mp hgroup.1
  · intro hdropped
    exact absurd (hgroup.2.mp hdropped).1 (by decide)

/-- A placeholder with a hyphen, which the check of a path finds, is not dropped. -/
theorem hyphenated_not_dropped :
    placeholders "api/v1/items/\x7bitem-id\x7d" = ["item-id"] ∧
      ¬ ∀ uri segments, (∀ s ∈ segments, s.IsProper) →
        (Text.trimSlashes uri).toList = join segments →
        (groupKey uri).toList = join ((withoutApi segments).filter isText) := by
  refine ⟨by decide, fun h => ?_⟩
  have hdropped := h "api/v1/items/\x7bitem-id\x7d"
    [.text ['a', 'p', 'i'], .text ['v', '1'], .text ['i', 't', 'e', 'm', 's'],
      .placeholder ['i', 't', 'e', 'm', '-', 'i', 'd'] false] (by decide) (by decide)
  revert hdropped
  decide

end ApiDocs.Path
