import ApiDocs.Json.Printer
import ApiDocs.Json.Reader
import ApiDocs.Yaml.Printer
import ApiDocs.Yaml.Reader
/-!
# Formats of documents

The text formats in which merged documents are written and read back.
-/
namespace ApiDocs

inductive Format where
  | json
  | yaml
deriving Repr, BEq, DecidableEq, Inhabited

namespace Format

def all : List Format := [.json, .yaml]

/-- The name of a format, which is also the extension of its files. -/
def name : Format → String
  | .json => "json"
  | .yaml => "yaml"

def ofName? (name : String) : Option Format :=
  all.find? fun f => f.name == name

def print : Format → Json → String
  | .json => Json.pretty
  | .yaml => Yaml.print

/-- Read a value; none if the text breaks the rules of the format. -/
def parse? : Format → String → Option Json
  | .json => Json.parse?
  | .yaml => Yaml.parse?

end Format
end ApiDocs
