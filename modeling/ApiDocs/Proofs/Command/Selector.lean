import ApiDocs.Command.Selector
import ApiDocs.Proofs.Versions.Splitting
/-!
# Version selectors

A selector is read from a text that names all versions or one, with white space around it dropped.
What is read can be shown and read again, and it selects no versions but those there are.
-/
namespace ApiDocs.VersionSelector

open ApiDocs.Path (IsVersion)

variable {text : String} {version latest : Nat} {versions : List Nat}

/-- The texts that name one version: any number of `v`, perhaps a plus sign, and the digits of the
version. -/
inductive Denotes : String → Nat → Prop
  | intro (marks : Nat) {sign : String} {digits : List Char} {version : Nat}
      (hsign : sign = "" ∨ sign = "+") (hversion : IsVersion digits version) :
      Denotes (String.ofList (List.replicate marks 'v') ++ sign ++ String.ofList digits) version

private theorem version?_iff : version? text = some version ↔
    IsVersion ((Text.stripStart? ['+'] (text.toList.dropWhile (· == 'v'))).getD
      (text.toList.dropWhile (· == 'v'))) version := by
  rw [Path.isVersion_iff, ← List.all_eq_true]
  exact Option.ite_none_right_eq_some

private theorem IsVersion.ne_head {digits : List Char} (h : IsVersion digits version) {c : Char}
    (hc : c.isDigit = false) : digits.head? ≠ some c := by
  intro hhead
  rw [(Path.isVersion_iff.mp h).1 c (List.mem_of_head? hhead)] at hc
  cases hc

private theorem stripSign_append {sign : String} {digits : List Char}
    (hsign : sign = "" ∨ sign = "+") (h : IsVersion digits version) :
    (Text.stripStart? ['+'] (sign.toList ++ digits)).getD (sign.toList ++ digits) = digits := by
  rcases hsign with rfl | rfl
  · have hnone : Text.stripStart? ['+'] digits = none := by
      rw [Option.eq_none_iff_forall_ne_some]
      intro rest hrest
      apply IsVersion.ne_head h (by decide : '+'.isDigit = false)
      rw [Text.stripStart?_eq_some_iff.mp hrest]
      rfl
    exact (congrArg (fun found => Option.getD found digits) hnone :)
  · rfl

private theorem dropMarks_append (marks : Nat) {sign : String} {digits : List Char}
    (hsign : sign = "" ∨ sign = "+") (h : IsVersion digits version) :
    (List.replicate marks 'v' ++ (sign.toList ++ digits)).dropWhile (· == 'v') =
      sign.toList ++ digits := by
  rw [List.dropWhile_append_of_pos (by simp [List.mem_replicate])]
  rcases hsign with rfl | rfl
  · cases digits with
    | nil => rfl
    | cons c rest =>
      have hc : c ≠ 'v' := fun he =>
        IsVersion.ne_head h (by decide : 'v'.isDigit = false) (congrArg some he)
      exact List.dropWhile_cons_of_neg (by simpa using hc)
  · rfl

theorem version?_eq_some_iff : version? text = some version ↔ Denotes text version := by
  rw [version?_iff]
  constructor
  · intro h
    obtain ⟨marks, hmarks⟩ : ∃ marks, text.toList.takeWhile (· == 'v') =
        List.replicate marks 'v' :=
      ⟨_, List.eq_replicate_of_mem fun c hc => by simpa using List.mem_takeWhile_imp hc⟩
    have htext : ∀ sign digits : List Char, text.toList.dropWhile (· == 'v') = sign ++ digits →
        text = String.ofList (List.replicate marks 'v') ++ String.ofList sign ++
          String.ofList digits := by
      intro sign digits hrest
      apply String.toList_inj.mp
      rw [← List.takeWhile_append_dropWhile (p := (· == 'v')) (l := text.toList), hmarks, hrest]
      simp
    generalize text.toList.dropWhile (· == 'v') = cs at h htext
    cases hstrip : Text.stripStart? ['+'] cs with
    | none =>
      rw [hstrip, Option.getD_none] at h
      rw [htext [] cs rfl]
      exact .intro marks (.inl rfl) h
    | some rest =>
      rw [hstrip, Option.getD_some] at h
      rw [htext ['+'] rest (Text.stripStart?_eq_some_iff.mp hstrip)]
      exact .intro marks (.inr rfl) h
  · intro h
    cases h with
    | @intro marks sign digits _ hsign hversion =>
      have hlist : (String.ofList (List.replicate marks 'v') ++ sign ++
          String.ofList digits).toList = List.replicate marks 'v' ++ (sign.toList ++ digits) := by
        simp
      rw [hlist, dropMarks_append marks hsign hversion, stripSign_append hsign hversion]
      exact hversion

theorem Denotes.bounds (h : Denotes text version) : 1 ≤ version ∧ version ≤ 4294967295 := by
  cases h with
  | intro _ _ hversion => exact ⟨hversion.positive, hversion.le_max⟩

private theorem not_denotes_allText : ¬ Denotes allText version := by
  rw [← version?_eq_some_iff]
  exact nofun

theorem parse_eq_all_iff : parse text = .ok .all ↔ Text.trim text = "*" := by
  unfold parse
  dsimp only
  split
  · next hall => exact iff_of_true rfl hall
  · next hall =>
    refine iff_of_false ?_ hall
    split <;> exact nofun

theorem parse_eq_single_iff :
    parse text = .ok (.single version) ↔ Denotes (Text.trim text) version := by
  unfold parse
  dsimp only
  split
  · next hall =>
    rw [hall]
    exact iff_of_false nofun not_denotes_allText
  · rw [← version?_eq_some_iff]
    split <;> simp_all

theorem parse_eq_error_iff : (∃ message, parse text = .error message) ↔
    Text.trim text ≠ "*" ∧ ∀ version, ¬ Denotes (Text.trim text) version := by
  simp only [ne_eq, ← parse_eq_all_iff, ← parse_eq_single_iff]
  cases parse text with
  | error message => simp
  | ok selector => cases selector <;> simp

private theorem denotes_repr (hpos : 1 ≤ version) (hmax : version ≤ 4294967295) :
    Denotes version.repr version := by
  have hrepr : version.repr = String.ofList (List.replicate 0 'v') ++ "" ++
      String.ofList (Nat.toDigits 10 version) := by
    apply String.toList_inj.mp
    simp
  rw [hrepr]
  exact .intro 0 (.inl rfl) (Path.isVersion_toDigits hpos hmax)

private theorem trim_repr (n : Nat) : Text.trim n.repr = n.repr := by
  apply Text.trim_of_forall
  intro c hc
  exact Text.isBlank_of_isDigit (Text.isDigit_of_mem_toDigits c (by simpa using hc))

/-- A selector that was read is shown as a text that it is read from again. -/
theorem parse_display {selector : VersionSelector} (h : parse text = .ok selector) :
    parse selector.display = .ok selector := by
  cases selector with
  | all => rfl
  | single version =>
    obtain ⟨hpos, hmax⟩ := (parse_eq_single_iff.mp h).bounds
    rw [parse_eq_single_iff]
    change Denotes (Text.trim version.repr) version
    rw [trim_repr]
    exact denotes_repr hpos hmax

theorem resolve_all : resolve .all latest = .ok (List.range' 1 latest) :=
  rfl

theorem resolve_single_eq_ok_iff :
    (single version).resolve latest = .ok versions ↔ version ≤ latest ∧ versions = [version] := by
  rw [resolve]
  split <;> simp_all [eq_comm]

theorem resolve_eq_error_iff {selector : VersionSelector} :
    (∃ e, selector.resolve latest = .error e) ↔
      ∃ version, selector = .single version ∧ latest < version := by
  cases selector with
  | all => simp [resolve_all]
  | single version =>
    rw [resolve]
    split <;> simp_all

/-- Which texts are selectors, and which versions a selector selects. A text is taken for all
versions or for one by what is left of it without white space around it, and every other text is
refused. A selector that was read is read again from the text that shows it. It selects the versions
from the first to the latest, or the one that it names unless that is greater than the latest. -/
theorem parse_exact (text : String) :
    Text.Trims text (Text.trim text) ∧
    (parse text = .ok .all ↔ Text.trim text = "*") ∧
    (∀ version, parse text = .ok (.single version) ↔ Denotes (Text.trim text) version) ∧
    ((∃ message, parse text = .error message) ↔
      Text.trim text ≠ "*" ∧ ∀ version, ¬ Denotes (Text.trim text) version) ∧
    ∀ selector, parse text = .ok selector → parse selector.display = .ok selector ∧
      ∀ latest, ((∃ e, selector.resolve latest = .error e) ↔
          ∃ version, selector = .single version ∧ latest < version) ∧
        ∀ versions, selector.resolve latest = .ok versions →
          versions.Pairwise (· < ·) ∧ (∀ version ∈ versions, 1 ≤ version ∧ version ≤ latest) ∧
          (selector = .all → ∀ version, 1 ≤ version → version ≤ latest → version ∈ versions) ∧
          ∀ version, selector = .single version → versions = [version] := by
  refine ⟨Text.trims_trim text, parse_eq_all_iff, fun _ => parse_eq_single_iff,
    parse_eq_error_iff, fun selector h => ⟨parse_display h, fun latest =>
      ⟨resolve_eq_error_iff, fun versions hversions => ?_⟩⟩⟩
  cases selector with
  | all =>
    obtain rfl := Except.ok.inj hversions
    have hmem : ∀ version, version ∈ List.range' 1 latest ↔ 1 ≤ version ∧ version ≤ latest := by
      intro version
      rw [List.mem_range'_1]
      omega
    refine ⟨List.pairwise_lt_range', fun version => (hmem version).mp, ?_, nofun⟩
    exact fun _ version hpos hle => (hmem version).mpr ⟨hpos, hle⟩
  | single version =>
    obtain ⟨hle, rfl⟩ := resolve_single_eq_ok_iff.mp hversions
    have hpos := (parse_eq_single_iff.mp h).bounds.1
    refine ⟨List.pairwise_singleton _ _, ?_, nofun, fun _ he => by rw [single.inj he]⟩
    exact List.forall_mem_singleton.mpr ⟨hpos, hle⟩

example : parse "\u00a0vv+007\n" = .ok (.single 7) := by decide

end ApiDocs.VersionSelector
