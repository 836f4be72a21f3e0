import ApiDocs.Error
import ApiDocs.Route.Path
/-!
# Selecting versions

A command works on one version or on all versions up to the latest. A version may be written with
the letter `v` in front.
-/
namespace ApiDocs

/-- The versions that a command works on. -/
inductive VersionSelector where
  | all
  | single (version : Nat)
deriving Repr, BEq, DecidableEq, Inhabited

namespace VersionSelector

/-- The text that selects all versions. -/
def allText : String := "*"

/-- The version that a text without blanks around it writes. -/
def version? (text : String) : Option Nat :=
  let cs := text.toList.dropWhile (· == 'v')
  let digits := (Text.stripStart? ['+'] cs).getD cs
  if digits.all Char.isDigit then Path.version? digits else none

def parse (text : String) : Except String VersionSelector :=
  let text := Text.trim text
  if text = allText then .ok .all
  else
    match version? text with
    | some version => .ok (.single version)
    | none => .error s!"expected `*` or a positive integer, got `{text}`"

def display : VersionSelector → String
  | .all => allText
  | .single version => toString version

/-- The selected versions, of those up to the latest. -/
def resolve (s : VersionSelector) (latest : Nat) : Except Error (List Nat) :=
  match s with
  | .all => .ok (List.range' 1 latest)
  | .single version =>
    if version ≤ latest then .ok [version]
    else
      .error (.invalidArgument
        s!"version {version} is greater than the latest version {latest}")

end VersionSelector
end ApiDocs
