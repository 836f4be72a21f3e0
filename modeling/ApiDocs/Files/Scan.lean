import ApiDocs.Files.Tree
/-!
# Finding documents

The documents below a directory are its JSON files, in the order of their paths. Hidden entries,
the directory of published pages and files of reserved names are left out.
-/
namespace ApiDocs

namespace Scan

/-- The directory of published pages, right below the root. -/
def buildName : String := "build"

def documentExtension : String := "json"

/-- A name that starts with a dot. The root is no entry of any directory. -/
def isHidden (name : String) : Bool :=
  name.toList.head? = some '.' || FilePath.leadsOut name

/-- Whether a file of this name is a document. -/
def isDocument (reserved : List String) (name : String) : Bool :=
  FilePath.hasExtension name documentExtension && name ∉ reserved

/-- Lists of paths by name, put together in the order of the names. -/
def inOrder (visits : List (String × List String)) : List String :=
  (visits.mergeSort fun a b => a.1 ≤ b.1).flatMap Prod.snd

mutual
/-- The documents of an entry that stands under a name and a path; `top` tells that it stands
right below the root. A directory with too long a path cannot be opened. -/
def documentsOf (reserved : List String) (top : Bool) (path name : String) :
    Entry → List String
  | .file _ => if !isHidden name && isDocument reserved name then [path] else []
  | .directory d =>
    if isHidden name || (top && name == buildName) || FilePath.isLong path then []
    else inOrder (visits reserved false path d.entries)
/-- The documents of each entry of a directory. -/
def visits (reserved : List String) (top : Bool) (path : String) :
    List (String × Entry) → List (String × List String)
  | [] => []
  | (name, entry) :: rest =>
    (name, documentsOf reserved top (FilePath.join path name) name entry) ::
      visits reserved top path rest
end

end Scan

/-- The documents below a path, in the order of their paths. The name of the path itself does not
matter, except that a file is looked at by its name. -/
def FileTree.scan (t : FileTree) (path : String) (reserved : List String) : List String :=
  match t.lookup path with
  | .error _ => []
  | .ok (.file _) =>
    if (FilePath.name? path).any (Scan.isDocument reserved) then [path] else []
  | .ok (.directory d) => Scan.inOrder (Scan.visits reserved true path d.entries)

end ApiDocs
