/-
GrammarDiagram/Settings.lean

Settings of the program, from a TOML document.

The table `compiler` says whether rule sets are reduced, the table `cycles`
which ranking is used.  Both values are kept as the document has them.
-/
import GrammarDiagram.Diagram.Node
import GrammarDiagram.Toml.Document

namespace GrammarDiagram

/-- What can be set. -/
structure Settings where
  /-- Whether rule sets are reduced: any value that counts as present. -/
  optimize : Value := .bool true
  /-- The name of the ranking. -/
  ranking : Value := .text "geometric"

namespace Settings

/-- A value of a table of the document, if the table is there. -/
def setting (fields : List (String × Value)) (table name : String) (default : Value) :
    Except Fault Value :=
  match Value.findField table fields with
  | some t => t.lookD name default
  | none => .ok default

/-- The settings in the fields of a document. -/
def ofFields (fields : List (String × Value)) : Except Fault Settings := do
  let base : Settings := {}
  let optimize ← setting fields "compiler" "optimize" base.optimize
  let ranking ← setting fields "cycles" "ranking" base.ranking
  return ⟨optimize, ranking⟩

/-- Read the settings that the bytes of a file hold. -/
def load (bytes : List UInt8) : Except Fault Settings := do
  let text ← (Text.decodeUtf8 bytes).mapError Fault.encoding
  let fields ← (Toml.readDocument (Text.joinNewlines text)).mapError Fault.toml
  ofFields fields

end Settings

end GrammarDiagram
