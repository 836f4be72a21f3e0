import ApiDocs.Proofs.Files.Kept
import ApiDocs.Proofs.Files.Sound
/-!
# Reading elsewhere after a write

Whatever is read at one place before a file is written at another one is read there afterwards, and
so is every fault but that of a missing file. What is missing stays so if nothing new stands in
its place or obstructs its path.
-/
namespace ApiDocs

namespace Directory

open FilePath (parentName above resolve)

variable {d d' : Directory} {reached parts : List String}

theorem follow_parent (hreached : d.HasDirectory reached) (rest : List String) :
    d.follow reached (parentName :: rest) = d.follow (above reached) rest := by
  obtain ⟨inner, hinner⟩ := hreached
  rw [follow, hinner]
  exact if_pos rfl

theorem follow_of_none (hreached : d.find? reached = none) (name : String) (rest : List String) :
    d.follow reached (name :: rest) = .error .missing := by
  rw [follow, hreached]

theorem follow_of_file {content : Content} (hreached : d.HasFile reached content) (name : String)
    (rest : List String) : d.follow reached (name :: rest) = .error .notDirectory := by
  rw [HasFile] at hreached
  rw [follow, hreached]

theorem Within.isSome (h : Within d d') (hnamed : d.FilesNamed) {place : List String} {e : Entry}
    (he : d.find? place = some e) : (d'.find? place).isSome := by
  cases e with
  | file content =>
    obtain ⟨c, hc⟩ := h.file place content (hnamed place content he) he
    rw [hc]
    rfl
  | directory inner =>
    obtain ⟨inner', hinner'⟩ := h.directory place ⟨inner, he⟩
    rw [hinner']
    rfl

/-- A path that cannot be followed for another reason than that something is missing cannot be
followed for that reason in a larger directory. -/
theorem Within.follow_error (h : Within d d') (hnamed : d.FilesNamed) {fault : Fault}
    (hfault : fault ≠ .missing) (hfollow : d.follow reached parts = .error fault) :
    d'.follow reached parts = .error fault := by
  induction parts generalizing reached with
  | nil => cases hfollow
  | cons name rest ih =>
    cases hreached : d.find? reached with
    | none =>
      rw [follow_of_none hreached] at hfollow
      cases hfollow
      exact absurd rfl hfault
    | some e =>
      cases e with
      | file content =>
        obtain ⟨c, hc⟩ := h.file reached content (hnamed reached content hreached) hreached
        rw [follow_of_file hreached] at hfollow
        rw [follow_of_file hc, hfollow]
      | directory inner =>
        have hthere : d.HasDirectory reached := ⟨inner, hreached⟩
        have hthere' := h.directory reached hthere
        by_cases hname : name = parentName
        · rw [hname, follow_parent hthere] at hfollow
          rw [hname, follow_parent hthere']
          exact ih hfollow
        rw [follow_next hthere hname] at hfollow
        rw [follow_next hthere' hname]
        by_cases hlong : isLong name
        · rwa [if_pos hlong] at hfollow ⊢
        rw [if_neg hlong] at hfollow ⊢
        cases hnext : d.find? (reached ++ [name]) with
        | none =>
          rw [hnext] at hfollow
          cases hfollow
          exact absurd rfl hfault
        | some e =>
          have hnext' := h.isSome hnamed hnext
          rw [hnext, if_neg (by simp)] at hfollow
          rw [if_neg (by simpa [Option.isSome_iff_ne_none] using hnext')]
          exact ih hfollow

/-- Following parts ends where nothing is. -/
def LeadsNowhere (d : Directory) (reached parts : List String) : Prop :=
  d.follow reached parts = .error .missing ∨
    d.follow reached parts = .ok (resolve reached parts) ∧ d.find? (resolve reached parts) = none

/-- Nothing that is new in a directory stands where parts lead. What is new on the way there are
directories that are not left by `..`, with no name below that is too long. -/
structure Unobstructed (d d' : Directory) (reached parts : List String) : Prop where
  place : d.find? (resolve reached parts) = none → d'.find? (resolve reached parts) = none
  way : ∀ front name rest, parts = front ++ name :: rest → d.find? (resolve reached front) = none →
    d'.find? (resolve reached front) ≠ none →
      d'.HasDirectory (resolve reached front) ∧ name ≠ parentName ∧ ¬ isLong name

theorem Unobstructed.above {rest : List String}
    (h : Unobstructed d d' reached (parentName :: rest)) :
    Unobstructed d d' (above reached) rest where
  place := h.place
  way front name back hrest := h.way (parentName :: front) name back (hrest ▸ rfl)

theorem Unobstructed.next {name : String} {rest : List String}
    (h : Unobstructed d d' reached (name :: rest)) (hname : name ≠ parentName) :
    Unobstructed d d' (reached ++ [name]) rest where
  place := by
    have hplace := h.place
    rwa [resolve, if_neg hname] at hplace
  way front next back hrest := by
    have hway := h.way (name :: front) next back (hrest ▸ rfl)
    rwa [resolve, if_neg hname] at hway

/-- Where nothing was, parts lead nowhere unless something new obstructs them. -/
theorem leadsNowhere_of_none (hreached : d.find? reached = none)
    (h : Unobstructed d d' reached parts) : LeadsNowhere d' reached parts := by
  induction parts generalizing reached with
  | nil => exact .inr ⟨rfl, h.place hreached⟩
  | cons name rest ih =>
    by_cases hnew : d'.find? reached = none
    · exact .inl (follow_of_none hnew name rest)
    obtain ⟨hthere, hname, hlong⟩ := h.way [] name rest rfl hreached hnew
    rw [resolve] at hthere
    have hnext : d.find? (reached ++ [name]) = none :=
      find?_below_missing hreached (List.prefix_append _ _)
    rw [LeadsNowhere, follow_next hthere hname, if_neg hlong, resolve, if_neg hname]
    split
    · exact .inl rfl
    · exact ih hnext (h.next hname)

/-- What leads nowhere does so in a larger directory unless something new obstructs it. -/
theorem LeadsNowhere.kept (hnowhere : LeadsNowhere d reached parts) (hwithin : Within d d')
    (h : Unobstructed d d' reached parts) : LeadsNowhere d' reached parts := by
  induction parts generalizing reached with
  | nil =>
    rcases hnowhere with hmissing | ⟨_, hnone⟩
    · cases hmissing
    · exact leadsNowhere_of_none hnone h
  | cons name rest ih =>
    cases hreached : d.find? reached with
    | none => exact leadsNowhere_of_none hreached h
    | some e =>
      cases e with
      | file content =>
        rw [LeadsNowhere, follow_of_file hreached] at hnowhere
        rcases hnowhere with hmissing | ⟨hreach, _⟩
        · cases hmissing
        · cases hreach
      | directory inner =>
        have hthere : d.HasDirectory reached := ⟨inner, hreached⟩
        have hthere' := hwithin.directory reached hthere
        by_cases hname : name = parentName
        · subst hname
          rw [LeadsNowhere, follow_parent hthere, resolve, if_pos rfl] at hnowhere
          rw [LeadsNowhere, follow_parent hthere', resolve, if_pos rfl]
          exact ih hnowhere h.above
        rw [LeadsNowhere, follow_next hthere hname, resolve, if_neg hname] at hnowhere
        rw [LeadsNowhere, follow_next hthere' hname, resolve, if_neg hname]
        by_cases hlong : isLong name
        · rw [if_pos hlong] at hnowhere
          rcases hnowhere with hmissing | ⟨hreach, _⟩
          · cases hmissing
          · cases hreach
        rw [if_neg hlong] at hnowhere ⊢
        split
        · exact .inl rfl
        cases hnext : d.find? (reached ++ [name]) with
        | none => exact leadsNowhere_of_none hnext (h.next hname)
        | some e =>
          rw [hnext, if_neg (by simp)] at hnowhere
          exact ih hnowhere (h.next hname)

end Directory

namespace FileTree

open Directory
open FilePath (place parts isValid)

variable {t t' : FileTree} {path other : String} {content : Content}

theorem lookup_eq_missing_iff : t.lookup path = .error .missing ↔
    path = "" ∨ isValid path ∧ t.root.LeadsNowhere [] (parts path) := by
  by_cases hne : path = ""
  · simp [lookup, hne]
  by_cases hvalid : isValid path
  · cases hfollow : t.root.follow [] (parts path) with
    | error fault => simp [lookup, LeadsNowhere, hne, hvalid, hfollow]
    | ok names =>
      obtain rfl := eq_resolve_of_follow hfollow
      cases hfind : t.root.find? (FilePath.resolve [] (parts path)) with
      | none => simp [lookup, LeadsNowhere, hne, hvalid, hfollow, hfind]
      | some e =>
        cases e with
        | directory inner => simp [lookup, LeadsNowhere, hne, hvalid, hfollow, hfind]
        | file content =>
          by_cases hmoves : FilePath.demandsDirectory path <;>
            simp [lookup, LeadsNowhere, hne, hvalid, hfollow, hfind, hmoves]
  · simp [lookup, hne, hvalid]

theorem readText_eq_missing_iff :
    t.readText path = .error .missing ↔ t.lookup path = .error .missing := by
  rw [readText]
  cases t.lookup path with
  | error fault => simp
  | ok e =>
    cases e with
    | directory inner => simp
    | file content => cases content <;> simp

theorem within_of_write (hwrite : t.write path content = (.ok (), t')) :
    Within t.root t'.root := by
  have hagree : Agree [(path, content)] := by simp [Agree]
  exact (Writes.next hwrite (.done t')).within hagree

/-- What could be read, or not be read though it was not missing, is answered as before after a
file was written elsewhere. -/
theorem readText_elsewhere (hwrite : t.write path content = (.ok (), t'))
    (hnamed : t.root.FilesNamed) (hne : place other ≠ place path)
    (hread : t.readText other ≠ .error .missing) : t'.readText other = t.readText other := by
  have hwritten := written_of_write hwrite
  have hwithin := within_of_write hwrite
  rw [Ne, readText_eq_missing_iff, lookup_eq_missing_iff, not_or, not_and] at hread
  obtain ⟨hnonempty, hsomewhere⟩ := hread
  by_cases hvalid : isValid other
  · specialize hsomewhere hvalid
    cases hfollow : t.root.follow [] (parts other) with
    | error fault =>
      have hfault : fault ≠ .missing := fun he => hsomewhere (.inl (he ▸ hfollow))
      have hfollow' := hwithin.follow_error hnamed hfault hfollow
      simp [readText, lookup, hnonempty, hvalid, hfollow, hfollow']
    | ok names =>
      obtain rfl : names = place other := eq_resolve_of_follow hfollow
      cases hfind : t.root.find? (place other) with
      | none => exact absurd (.inr ⟨hfollow, hfind⟩) hsomewhere
      | some e =>
        have hfollow' := follow_of_found hwithin.directory hfollow (hwithin.isSome hnamed hfind)
        cases e with
        | directory inner =>
          obtain ⟨inner', hfind'⟩ := hwithin.directory _ ⟨inner, hfind⟩
          simp [readText, lookup, hnonempty, hvalid, hfollow, hfollow', hfind, hfind']
        | file c =>
          have hfind' := (hwritten.file_iff _ c (hnamed _ c hfind)).mpr (by rwa [if_neg hne])
          rw [HasFile] at hfind'
          simp [readText, lookup, hnonempty, hvalid, hfollow, hfollow', hfind, hfind']
  · simp [readText, lookup, hnonempty, hvalid]

/-- What was missing is so after a file was written, unless something new obstructs the path. -/
theorem readText_missing (hwrite : t.write path content = (.ok (), t'))
    (hread : t.readText other = .error .missing)
    (hway : Unobstructed t.root t'.root [] (parts other)) :
    t'.readText other = .error .missing := by
  rw [readText_eq_missing_iff, lookup_eq_missing_iff] at hread ⊢
  exact hread.imp_right fun ⟨hvalid, hnowhere⟩ =>
    ⟨hvalid, hnowhere.kept (within_of_write hwrite) hway⟩

end FileTree
end ApiDocs
