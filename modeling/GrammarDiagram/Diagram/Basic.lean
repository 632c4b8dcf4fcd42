/-
GrammarDiagram/Diagram/Basic.lean

Diagrams and the documents that hold them.

A document is one diagram, or the collection of grammars that the editor has
saved, from which one is chosen by id or by name.
-/
import GrammarDiagram.Diagram.Edge
import GrammarDiagram.Event
import GrammarDiagram.Text.Slug

namespace GrammarDiagram

/-- A diagram: nodes and edges in the order of the document, and what the
document says of its name and id. -/
structure Diagram where
  nodes : List Node := []
  edges : List Edge := []
  name : Value := .null
  id : Value := .null

namespace Diagram

/-! ### Diagrams -/

/-- The first node with this id. -/
def node? (d : Diagram) (id : String) : Option Node :=
  d.nodes.find? fun n => n.id == id

/-- The diagram that a fresh editor shows. -/
def initial : Diagram where
  nodes := [
    { id := "start", kind := .start, label := .text "Start" },
    { id := "end", kind := .finish, position := ⟨.int 1000, .int 0⟩, label := .text "End" }]

/-- The file name under which a grammar of this name is offered. -/
def exportName (name : Value) : Except Fault String :=
  if !name.isPresent then .ok "grammar.gbnf"
  else
    match name with
    | .text s => .ok (Text.slug s ++ ".gbnf")
    | _ => .error .notAText

/-! ### Documents -/

/-- The items that a value yields one after the other. -/
def itemsOf (v : Value) : Except Fault (List Value) :=
  match Properties.parts? v with
  | some items => .ok items
  | none => .error .noItems

/-- Read a diagram: all nodes, then all edges. -/
def ofValue (v : Value) : Except Fault Diagram :=
  match v with
  | .object fields =>
    match Value.findField "nodes" fields, Value.findField "edges" fields with
    | some nodes, some edges => do
      let nodes ← (← itemsOf nodes).mapM Node.ofValue
      let edges ← (← itemsOf edges).mapM Edge.ofValue
      return {
        nodes := nodes
        edges := edges
        name := (Value.findField "name" fields).getD .null
        id := (Value.findField "id" fields).getD .null }
    | _, _ => .error .notADiagram
  | _ => .error .notADiagram

/-! ### Saved grammars -/

/-- The first entry whose id or name is the one wanted. -/
def findSaved? (wanted : String) : List Value → Except Fault (Option Value)
  | [] => .ok none
  | entry :: rest => do
    let id ← entry.look "id"
    let name ← entry.look "name"
    if id.same (.text wanted) || name.same (.text wanted) then return some entry
    else findSaved? wanted rest

/-- How a saved grammar is listed: by its name, or else by its id. -/
def listedName (entry : Value) : Except Fault String := do
  let name ← entry.look "name"
  let id ← entry.look "id"
  return (if name.isPresent then name else id).display

/-- Choose a saved grammar; the first one if none is asked for. -/
def select (entries : List Value) (wanted : Option String) : Except Fault Value :=
  match entries, wanted with
  | [], _ => .error .nothingSaved
  | entry :: _, none => .ok entry
  | entries, some wanted => do
    match ← findSaved? wanted entries with
    | some entry => return entry
    | none => throw (.unknownGrammar wanted (← entries.mapM listedName))

/-- Read the diagram that the bytes of a file hold. -/
def load (path : String) (bytes : List UInt8) (wanted : Option String) : Traced Diagram := do
  let text ← (Text.decodeUtf8 bytes).mapError Fault.encoding
  let v ← (Json.readText (Text.unifyNewlines text)).mapError Fault.json
  let document ←
    match v, wanted with
    | .list entries, _ => (select entries wanted : Except Fault Value)
    | v, none => pure v
    | v, some selector => do
      Traced.tell (.selectorIgnored path selector)
      pure v
  let d ← ofValue document
  Traced.tell (.diagramLoaded d.nodes.length d.edges.length path)
  return d

end Diagram

end GrammarDiagram
