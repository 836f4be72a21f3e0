import ApiDocs.Files.Tree
/-!
# Changed files

The files of a tree one by one, and those in which a tree differs from an earlier one.
-/
namespace ApiDocs

mutual
/-- The files of an entry, each with the names that lead to it. -/
def Entry.files (names : List String) : Entry → List (List String × Content)
  | .file content => [(names, content)]
  | .directory d => filesIn names d.entries
def filesIn (names : List String) : List (String × Entry) → List (List String × Content)
  | [] => []
  | (name, entry) :: rest => entry.files (names ++ [name]) ++ filesIn names rest
end

namespace FileTree

/-- All files, each with the names that lead to it. -/
def files (t : FileTree) : List (List String × Content) :=
  filesIn [] t.root.entries

/-- Whether a file stands in a tree with this content. -/
def holds (t : FileTree) (names : List String) (content : Content) : Bool :=
  match t.root.find? names with
  | some (.file present) => present == content
  | _ => false

/-- The files of a tree that an earlier one does not hold. -/
def changedSince (t earlier : FileTree) : List (List String × Content) :=
  t.files.filter fun f => !earlier.holds f.1 f.2

/-- Put an entry where a path leads, over what is there. -/
def mount (t : FileTree) (path : String) (entry : Entry) : FileTree :=
  match FilePath.resolve [] (FilePath.parts path) with
  | [] => ⟨t.root.insertAll (Directory.ofEntry (some entry)).entries⟩
  | names => ⟨t.root.put entry names⟩

end FileTree
end ApiDocs
