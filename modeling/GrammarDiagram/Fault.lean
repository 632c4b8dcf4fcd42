/-
GrammarDiagram/Fault.lean

Everything that can go wrong, by cause.

Faults of the first group are the user's to mend and have a wording; so has
the missing field, which shows the name of the field.  The others say that a
value of a document has the wrong shape for what is asked of it.
-/
import GrammarDiagram.Json.Reader
import GrammarDiagram.Text.Utf8
import GrammarDiagram.Toml.Token

namespace GrammarDiagram

/-- Why a file cannot be used. -/
inductive FileFault where
  /-- There is no such file, or no such folder to put it in. -/
  | missing
  /-- A folder stands where a file is needed. -/
  | isFolder
  /-- A file stands where a folder is needed. -/
  | notAFolder
  /-- A part of the path, or the path, is too long. -/
  | nameTooLong
  /-- The path holds the null character. -/
  | nullCharacter
  /-- There is no room to write. -/
  | noRoom
deriving DecidableEq, Repr

/-- A cause of failure. -/
inductive Fault where
  /-- No kind of node has this tag. -/
  | unknownKind (tag : Value) (available : List String)
  /-- A document without nodes or without edges. -/
  | notADiagram
  /-- A collection of saved grammars that holds none. -/
  | nothingSaved
  /-- No saved grammar has this name or id. -/
  | unknownGrammar (wanted : String) (available : List String)
  /-- No ranking has this name. -/
  | unknownRanking (name : Value) (available : List String)
  /-- An integer has more digits than can be written. -/
  | unwritable
  /-- An item that should be a pair has another length. -/
  | unevenPair (index length : Nat)
  /-- Nodes that are not wired into the diagram. -/
  | incomplete (problems : List String)
  /-- The bytes are not UTF-8. -/
  | encoding (fault : Text.Utf8Fault)
  /-- The text is not JSON. -/
  | json (fault : Json.Fault)
  /-- The text is not TOML. -/
  | toml (fault : Toml.Fault)
  /-- An object lacks a field. -/
  | missingField (name : String)
  /-- A field is taken of a value that is no object. -/
  | noFields
  /-- The items are taken of a value that has none. -/
  | noItems
  /-- An item that should be a pair is no sequence. -/
  | notAPair
  /-- A list or an object cannot name anything. -/
  | unusableKey
  /-- A difference is taken of a value that is no number. -/
  | notANumber
  /-- Two values cannot be compared. -/
  | incomparable
  /-- A value that is no text is joined to one. -/
  | notJoinable
  /-- A field is looked up in a value that is no object. -/
  | notAnObject
  /-- The case is changed of a value that is no text. -/
  | notAText
  /-- An integer is too large for a double. -/
  | beyondDoubles
  /-- A file cannot be used. -/
  | file (fault : FileFault)

namespace Fault

/-- The fault in words.  Only the first eleven, the missing field and the file
faults concern the user. -/
def message : Fault → String
  | .unknownKind tag available =>
    "Unknown node type: " ++ tag.display ++ ". Available: " ++ String.intercalate ", " available
  | .notADiagram => "Graph document must contain 'nodes' and 'edges'"
  | .nothingSaved => "Saved grammar list is empty"
  | .unknownGrammar wanted available =>
    "Unknown grammar: " ++ wanted ++ ". Available: " ++ String.intercalate ", " available
  | .unknownRanking name available =>
    "Unknown ranking: " ++ name.display ++ ". Available: " ++ String.intercalate ", " available
  | .unwritable =>
    "Exceeds the limit (" ++ toString Number.digitLimit ++ " digits) for integer string " ++
      "conversion; use sys.set_int_max_str_digits() to increase the limit"
  | .unevenPair index length =>
    "dictionary update sequence element #" ++ toString index ++ " has length " ++
      toString length ++ "; 2 is required"
  | .incomplete problems =>
    "Grammar is incomplete; some nodes are not properly connected: " ++
      String.intercalate ", " problems
  | .encoding fault => fault.message
  | .json fault => fault.message
  | .toml .malformed => "not a TOML document"
  | .toml (.tooManyDigits count) => Json.tooManyDigitsMessage count
  | .toml .tooDeep => "nested too deep"
  | .missingField name => Text.quoted name
  | .noFields => "no fields can be taken of this value"
  | .noItems => "no items can be taken of this value"
  | .notAPair => "not a pair"
  | .unusableKey => "a list or an object cannot be a key"
  | .notANumber => "not a number"
  | .incomparable => "values that cannot be compared"
  | .notJoinable => "not a text"
  | .notAnObject => "not an object"
  | .notAText => "not a text"
  | .beyondDoubles => "integer too large"
  | .file .missing => "no such file or folder"
  | .file .isFolder => "is a folder"
  | .file .notAFolder => "not a folder"
  | .file .nameTooLong => "file name too long"
  | .file .nullCharacter => "embedded null byte"
  | .file .noRoom => "no room to write"

/-- Whether the fault is one of the user's input, told in its own words. -/
def isUsers : Fault → Bool
  | .unknownKind .. => true
  | .notADiagram => true
  | .nothingSaved => true
  | .unknownGrammar .. => true
  | .unknownRanking .. => true
  | .unwritable => true
  | .unevenPair .. => true
  | .incomplete _ => true
  | .encoding _ => true
  | .json .tooDeep => false
  | .json .loneSurrogate => false
  | .json _ => true
  | .toml .tooDeep => false
  | .toml _ => true
  | _ => false

end Fault

end GrammarDiagram
