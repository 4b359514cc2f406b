import WindowForest.Config.Decode
import WindowForest.Toml.Document

/-!
# Loading a configuration

A configuration is loaded from a text, or from the content of a file. The text
has to be a document in the first place, and only then it is asked whether the
document describes a configuration.
-/

set_option autoImplicit false

namespace WindowForest.Config

/-- Why a text is not a configuration. -/
inductive ParseError where
  /-- The text is not a document. -/
  | malformed
  /-- The document does not describe a configuration. -/
  | misfit (cause : Misfit)
deriving DecidableEq, Inhabited

/-- Why a file is not a configuration. -/
inductive LoadError where
  /-- The file is missing, or it does not hold text. -/
  | unreadable (path : String)
  | parse (cause : ParseError)
deriving DecidableEq, Inhabited

/-- The text of an error, where there is more to say than that the text is malformed. -/
def ParseError.message? : ParseError → Option String
  | malformed => none
  | misfit cause => some cause.message

/-- The text of an error. A file that cannot be read is named by its path, and what is wrong with the
text of a file is said as it is of any text. -/
def LoadError.message? : LoadError → Option String
  | unreadable path => some ("reading config file " ++ path)
  | parse cause => cause.message?

/-- The configuration that a text describes. -/
def parse (text : String) : Except ParseError Config :=
  match Toml.parse text with
  | none => .error .malformed
  | some entries =>
    match decode entries with
    | .ok c => .ok c
    | .error e => .error (.misfit e)

/-- The configuration in a file, given what the file holds if it exists. -/
def load (path : String) (content : Option ByteArray) : Except LoadError Config :=
  match content.bind String.fromUTF8? with
  | none => .error (.unreadable path)
  | some text =>
    match parse text with
    | .ok c => .ok c
    | .error e => .error (.parse e)

end WindowForest.Config
