/-
GrammarDiagram/Diagram/Node.lean

The nodes of a diagram and how documents hold them.

A node has an id, a kind and a place on the canvas; the user may have given it
a name and a label, and it has the properties that its kind asks for.  Names,
labels, coordinates and properties are kept as the document has them, and what
does not fit is found out where it is used.  Literal values are an exception:
documents hold them escaped, nodes hold the text itself.
-/
import GrammarDiagram.Diagram.Kind
import GrammarDiagram.Diagram.Literal

namespace GrammarDiagram

/-! ### Properties -/

/-- The properties of a node, in order, with pairwise different keys. -/
abbrev Properties := List (Value × Value)

namespace Properties

/-- The property under a name. -/
def find? (name : String) : Properties → Option Value
  | [] => none
  | p :: rest => if Value.same p.1 (.text name) then some p.2 else find? name rest

/-- Put a property: in the place of the one with the same key, or at the
end. -/
def put (key value : Value) : Properties → Properties
  | [] => [(key, value)]
  | p :: rest => if Value.same p.1 key then (p.1, value) :: rest else p :: put key value rest

/-- Lists and objects cannot be keys. -/
def isKey : Value → Bool
  | .list _ => false
  | .object _ => false
  | _ => true

/-- The parts of a value that has parts: the items of a list, the characters
of a text, the names of an object's fields. -/
def parts? : Value → Option (List Value)
  | .list items => some items
  | .text s => some (s.toList.map fun c => .text c.toString)
  | .object fields => some (fields.map fun f => .text f.1)
  | _ => none

/-- The key and the value that an item gives. -/
def pairOf (index : Nat) (item : Value) : Except Fault (Value × Value) :=
  match parts? item with
  | some [key, value] => if isKey key then .ok (key, value) else .error .unusableKey
  | some parts => .error (.unevenPair index parts.length)
  | none => .error .notAPair

/-- Put the pairs that the items give, the first item having this index. -/
def putAll (index : Nat) (acc : Properties) : List Value → Except Fault Properties
  | [] => .ok acc
  | item :: rest => do
    let (key, value) ← pairOf index item
    putAll (index + 1) (put key value acc) rest

/-- The properties of a document: an object, or a sequence of pairs. -/
def ofValue (v : Value) : Except Fault Properties :=
  if !v.isPresent then .ok []
  else
    match v with
    | .object fields => .ok (fields.map fun f => (.text f.1, f.2))
    | v =>
      match parts? v with
      | some items => putAll 0 [] items
      | none => .error .noItems

end Properties

/-! ### Reading fields -/

namespace Value

/-- A field that has to be there. -/
def require (v : Value) (name : String) : Except Fault Value :=
  match v with
  | .object fields =>
    match findField name fields with
    | some w => .ok w
    | none => .error (.missingField name)
  | _ => .error .noFields

/-- A field of an object, null if it has none. -/
def look (v : Value) (name : String) : Except Fault Value :=
  match v with
  | .object fields => .ok ((findField name fields).getD .null)
  | _ => .error .notAnObject

/-- A field of an object with a value for want of one. -/
def lookD (v : Value) (name : String) (default : Value) : Except Fault Value :=
  match v with
  | .object fields => .ok ((findField name fields).getD default)
  | _ => .error .notAnObject

/-- An absent value stands for an object without fields. -/
def orEmpty (v : Value) : Value := if v.isPresent then v else .object []

end Value

/-! ### Nodes -/

/-- A place on the canvas; the second coordinate grows downwards. -/
structure Position where
  x : Value := .int 0
  y : Value := .int 0

/-- A node of a diagram. -/
structure Node where
  id : String
  kind : Kind
  position : Position := {}
  name : Value := .null
  label : Value := .null
  properties : Properties := []

namespace Node

/-- Whether the user has named the node; start and finish take no names. -/
def isNamed (n : Node) : Bool := n.name.isPresent && !n.kind.isSentinel

/-- What the user is told as the node's name. -/
def displayName (n : Node) : Value :=
  if n.isNamed then n.name
  else if n.label.isPresent then n.label
  else .text n.kind.label

/-- The properties of a node of this kind, literal values unescaped. -/
def storedProperties (kind : Kind) (properties : Properties) : Properties :=
  match kind, properties.find? "value" with
  | .literal, some (.text s) => properties.put (.text "value") (.text (Literal.unescape s))
  | _, _ => properties

/-- Read a node of a document. -/
def ofValue (v : Value) : Except Fault Node := do
  let kind ← Kind.ofTag (← v.require "type")
  let place := (← v.look "position").orEmpty
  let data := (← v.look "data").orEmpty
  let properties ← Properties.ofValue (← data.look "properties")
  let id ← v.require "id"
  let x ← place.lookD "x" (.int 0)
  let y ← place.lookD "y" (.int 0)
  let name ← data.look "name"
  let label ← data.look "label"
  return {
    id := id.display
    kind := kind
    position := ⟨x, y⟩
    name := name.orNull
    label := label.orNull
    properties := storedProperties kind properties }

end Node

end GrammarDiagram
