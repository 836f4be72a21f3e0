import ApiDocs.Command.Basic
/-!
# Reading command lines

A command line is a list of words: flags, the name of a command, and the options of that command.
An option is settled, and its value looked at, only when the next flag or option comes or the line
ends; so a word that is not known is reported before a bad value in front of it.
-/
namespace ApiDocs

inductive Flag where
  | verbose
  | help
  | version
deriving Repr, BEq, DecidableEq, Inhabited

namespace Flag

def long : Flag → String
  | .verbose => "verbose"
  | .help => "help"
  | .version => "version"

def short : Flag → Char
  | .verbose => 'v'
  | .help => 'h'
  | .version => 'V'

end Flag

/-- An option that takes a value. -/
inductive Setting where
  | docs
  | template
  | version
  | latest
  | baseUrl
  | title
  | tags
  | output
  | format
deriving Repr, BEq, DecidableEq, Inhabited

namespace Setting

def long : Setting → String
  | .docs => "docs"
  | .template => "template"
  | .version => "version"
  | .latest => "latest"
  | .baseUrl => "base-url"
  | .title => "title"
  | .tags => "tags"
  | .output => "output"
  | .format => "format"

def short? : Setting → Option Char
  | .docs => some 'd'
  | .template => some 't'
  | .output => some 'o'
  | .format => some 'f'
  | _ => none

end Setting

/-- The values that options were given. -/
structure Settings where
  docs? : Option String := none
  template? : Option String := none
  version? : Option VersionSelector := none
  latest? : Option Nat := none
  baseUrl? : Option String := none
  title? : Option String := none
  tags? : Option String := none
  output? : Option String := none
  format? : Option Format := none
deriving Repr, BEq, DecidableEq, Inhabited

namespace Settings

def has (s : Settings) : Setting → Bool
  | .docs => s.docs?.isSome
  | .template => s.template?.isSome
  | .version => s.version?.isSome
  | .latest => s.latest?.isSome
  | .baseUrl => s.baseUrl?.isSome
  | .title => s.title?.isSome
  | .tags => s.tags?.isSome
  | .output => s.output?.isSome
  | .format => s.format?.isSome

def filePath (text : String) : Except Usage String :=
  if text.isEmpty then .error .badValue else .ok text

def selector (text : String) : Except Usage VersionSelector :=
  match VersionSelector.parse text with
  | .ok s => .ok s
  | .error _ => .error .badVersion

/-- A version in decimal digits, with an optional sign. -/
def latestVersion (text : String) : Except Usage Nat :=
  let digits := (Text.stripStart? ['+'] text.toList).getD text.toList
  match if digits.all Char.isDigit then Path.version? digits else none with
  | some version => .ok version
  | none => .error .badVersion

def outputFormat (text : String) : Except Usage Format :=
  match Format.ofName? text with
  | some f => .ok f
  | none => .error .badValue

def set (s : Settings) (option : Setting) (text : String) : Except Usage Settings := do
  match option with
  | .docs => return { s with docs? := some (← filePath text) }
  | .template => return { s with template? := some (← filePath text) }
  | .version => return { s with version? := some (← selector text) }
  | .latest => return { s with latest? := some (← latestVersion text) }
  | .baseUrl => return { s with baseUrl? := some text }
  | .title => return { s with title? := some text }
  | .tags => return { s with tags? := some (← filePath text) }
  | .output => return { s with output? := some (← filePath text) }
  | .format => return { s with format? := some (← outputFormat text) }

end Settings

inductive Word where
  /-- Two dashes: nothing after them is an option. -/
  | dashes
  | long (name : String) (value? : Option String)
  /-- Flags by their letters; the last letter may be of an option, with its value behind it. -/
  | short (letters : List Char)
  | plain
deriving Repr, BEq, DecidableEq, Inhabited

/-- What a word is. One dash alone is plain. -/
def Word.ofString (text : String) : Word :=
  match text.toList with
  | ['-', '-'] => .dashes
  | '-' :: '-' :: rest =>
    let name := String.ofList (rest.takeWhile (· != '='))
    match rest.dropWhile (· != '=') with
    | _ :: value => .long name (some (String.ofList value))
    | [] => .long name none
  | '-' :: letter :: letters => .short (letter :: letters)
  | _ => .plain

/-- The flags and options that are known in one part of the line. -/
structure Vocabulary where
  flags : List Flag
  settings : List Setting
deriving Repr, BEq, Inhabited

namespace Vocabulary

/-- Before the name of the command. -/
def general : Vocabulary :=
  ⟨[.verbose, .help, .version], []⟩

def merge : Vocabulary :=
  ⟨[.verbose, .help], [.docs, .version, .latest, .baseUrl, .title, .tags, .format]⟩

def publish : Vocabulary :=
  ⟨[.verbose, .help], [.docs, .template, .version, .output, .format]⟩

end Vocabulary

/-- What one part of the line has said so far. -/
structure Reading where
  verbose : Bool := false
  settings : Settings := {}
  /-- The option that was named last, with its value if it came already. -/
  open? : Option (Setting × Option String) := none
deriving Repr, BEq, Inhabited

namespace Reading

/-- Settle an option: it must have a value, must be new, and its value must be right. -/
def close (r : Reading) (option : Setting) : Option String → Except Usage Reading
  | none => .error .badValue
  | some text =>
    if r.settings.has option then .error .repeatedOption
    else do
      let settings ← r.settings.set option text
      pure { r with settings, open? := none }

/-- Settle the option that was named last. -/
def settle (r : Reading) : Except Usage Reading :=
  match r.open? with
  | none => .ok r
  | some (option, value?) => r.close option value?

def raise (r : Reading) (flag : Flag) : Except Usage Reading := do
  let r ← r.settle
  match flag with
  | .verbose => if r.verbose then .error .repeatedOption else pure { r with verbose := true }
  | .help => .error .help
  | .version => .error .programVersion

/-- Name an option. A value that is attached to it settles it at once. -/
def name (r : Reading) (option : Setting) (value? : Option String) : Except Usage Reading := do
  let r ← r.settle
  match value? with
  | some value => r.close option (some value)
  | none => pure { r with open? := some (option, none) }

/-- Read the long name of a flag or an option. -/
def readLong (v : Vocabulary) (r : Reading) (word : String) (value? : Option String) :
    Except Usage Reading :=
  match v.settings.find? fun o => o.long == word with
  | some option => r.name option value?
  | none =>
    match v.flags.find? fun f => f.long == word with
    | some flag => if value?.isSome then .error .unneededValue else r.raise flag
    | none => .error .unknownArgument

/-- The value behind the letter of an option; an equals sign before it does not count. -/
def attached? : List Char → Option String
  | [] => none
  | '=' :: value => some (String.ofList value)
  | value => some (String.ofList value)

def readShort (v : Vocabulary) (r : Reading) : List Char → Except Usage Reading
  | [] => .ok r
  | letter :: letters =>
    match v.settings.find? fun o => o.short? == some letter with
    | some option => r.name option (attached? letters)
    | none =>
      match v.flags.find? fun f => f.short == letter with
      | some flag => do (← r.raise flag).readShort v letters
      | none => .error .unknownArgument

/-- Read the words after the name of a command. A plain word is the value of the option before it;
a command takes no others. -/
def readAll (v : Vocabulary) (r : Reading) : List String → Except Usage Reading
  | [] => r.settle
  | word :: words =>
    match Word.ofString word, r.open? with
    | .dashes, _ => if words.isEmpty then r.settle else .error .unknownArgument
    | .long name value?, _ => do (← r.readLong v name value?).readAll v words
    | .short letters, _ => do (← r.readShort v letters).readAll v words
    | .plain, some (option, none) => { r with open? := some (option, some word) }.readAll v words
    | .plain, _ => .error .unknownArgument

end Reading

namespace Settings

def toMerge (s : Settings) : Except Usage MergeArguments :=
  match s.docs? with
  | some docs =>
    .ok {
      docs
      version := s.version?.getD .all
      latest? := s.latest?
      baseUrl := s.baseUrl?.getD defaultBaseUrl
      title := s.title?.getD defaultTitle
      tags? := s.tags?
      format := s.format?.getD .json }
  | none => .error .missingArgument

def toPublish (s : Settings) : Except Usage PublishArguments :=
  match s.docs?, s.template? with
  | some docs, some template =>
    .ok {
      docs, template
      version := s.version?.getD .all
      output? := s.output?
      format := s.format?.getD .json }
  | _, _ => .error .missingArgument

end Settings

namespace CommandLine

/-- The name of the command that explains the others. -/
def helpName : String := "help"
def mergeName : String := "merge"
def publishName : String := "publish"

def isName (word : String) : Bool :=
  [mergeName, publishName, helpName].contains word

/-- The answer to a request to explain the command of these names. -/
def explain (words : List String) : Usage :=
  match words with
  | [] => .help
  | [word] => if isName word then .help else .unknownCommand
  | _ => .unknownCommand

/-- Read the words after the name of a merge. -/
def readMerge (verbose : Bool) (words : List String) : Except Usage CommandLine := do
  let r ← Reading.readAll .merge {} words
  let arguments ← r.settings.toMerge
  pure ⟨.merge arguments, verbose || r.verbose⟩

/-- Read the words after the name of a publication. -/
def readPublish (verbose : Bool) (words : List String) : Except Usage CommandLine := do
  let r ← Reading.readAll .publish {} words
  let arguments ← r.settings.toPublish
  pure ⟨.publish arguments, verbose || r.verbose⟩

/-- The answer to a line without a command. -/
def withoutCommand (r : Reading) : Usage :=
  if r.verbose then .missingCommand else .empty

/-- Read a line from a place before the name of its command. -/
def readFrom (r : Reading) : List String → Except Usage CommandLine
  | [] => .error (withoutCommand r)
  | word :: words =>
    if word = mergeName then readMerge r.verbose words
    else if word = publishName then readPublish r.verbose words
    else if word = helpName then .error (explain words)
    else
      match Word.ofString word with
      | .dashes =>
        match words with
        | [] => .error (withoutCommand r)
        | next :: _ => .error (if isName next then .unknownArgument else .unknownCommand)
      | .long name value? => do readFrom (← r.readLong .general name value?) words
      | .short letters => do readFrom (← r.readShort .general letters) words
      | .plain => .error .unknownCommand

/-- Read the words of a command line, without the name of the program. -/
def parse (words : List String) : Except Usage CommandLine :=
  readFrom {} words

end CommandLine
end ApiDocs
