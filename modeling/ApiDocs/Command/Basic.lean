import ApiDocs.Command.Selector
import ApiDocs.Format
/-!
# Commands

The two commands of the program with all that they can be told, and the reasons for which a
command line is not carried out.
-/
namespace ApiDocs

/-- The server that merged documents name unless they are told another. -/
def defaultBaseUrl : String := "https://localhost/api"

/-- The title of merged documents unless they are told another. -/
def defaultTitle : String := "API"

/-- Merge the documents of a directory. -/
structure MergeArguments where
  docs : String
  version : VersionSelector := .all
  /-- The latest version, when it is not the greatest one found. -/
  latest? : Option Nat := none
  baseUrl : String := defaultBaseUrl
  title : String := defaultTitle
  /-- The file of the tags that documents declare. -/
  tags? : Option String := none
  format : Format := .json
deriving Repr, BEq, DecidableEq, Inhabited

/-- Write a page for each merged document of a directory. -/
structure PublishArguments where
  docs : String
  template : String
  version : VersionSelector := .all
  /-- The directory of pages, when it is not the one below the documents. -/
  output? : Option String := none
  format : Format := .json
deriving Repr, BEq, DecidableEq, Inhabited

inductive Command where
  | merge (arguments : MergeArguments)
  | publish (arguments : PublishArguments)
deriving Repr, BEq, DecidableEq, Inhabited

/-- A command line that can be carried out. -/
structure CommandLine where
  command : Command
  verbose : Bool := false
deriving Repr, BEq, DecidableEq, Inhabited

/-- Why a command line is not carried out. -/
inductive Usage where
  | help
  | programVersion
  /-- Nothing at all was asked for. -/
  | empty
  | missingCommand
  | unknownCommand
  | unknownArgument
  /-- A required option is missing. -/
  | missingArgument
  /-- A value was attached to an option that takes none. -/
  | unneededValue
  | repeatedOption
  /-- A value is missing, empty, or not one of those that are allowed. -/
  | badValue
  /-- A value is not a version. -/
  | badVersion
deriving Repr, BEq, DecidableEq, Inhabited

namespace Usage

def synopsis : String :=
  "Usage: apidocs [-v] <COMMAND>\n\n" ++
  "Commands:\n" ++
  "  merge    Merge the stored path documents into one document per version and bucket\n" ++
  "           -d, --docs <DIR>  [--version <N|*>] [--latest <N>] [--base-url <URL>]\n" ++
  "           [--title <TITLE>] [--tags <FILE>] [-f, --format <json|yaml>]\n" ++
  "  publish  Render merged documents into HTML pages\n" ++
  "           -d, --docs <DIR>  -t, --template <FILE>  [--version <N|*>]\n" ++
  "           [-o, --output <DIR>] [-f, --format <json|yaml>]\n" ++
  "  help     Print this text"

def versionText : String := "apidocs 0.1.0"

/-- Whether the line asked for the text that it is answered with. -/
def isAnswer : Usage → Bool
  | .help => true
  | .programVersion => true
  | _ => false

def message : Usage → String
  | .help => synopsis
  | .programVersion => versionText
  | .empty => synopsis
  | .missingCommand => "error: a command is required"
  | .unknownCommand => "error: unknown command"
  | .unknownArgument => "error: unknown argument"
  | .missingArgument => "error: a required option is missing"
  | .unneededValue => "error: the option takes no value"
  | .repeatedOption => "error: the option is given twice"
  | .badValue => "error: a value is missing or not allowed"
  | .badVersion => "error: a value is not a version"

end Usage
end ApiDocs
