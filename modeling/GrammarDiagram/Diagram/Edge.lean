/-
GrammarDiagram/Diagram/Edge.lean

The edges of a diagram: one node may be followed by another.

An edge runs between ids, whether or not there are nodes with these ids, and
may be tied to a handle at either end.  Its key is made of the ids and the
handles that are there, and is how edges are known outside the diagram.
-/
import GrammarDiagram.Diagram.Node

namespace GrammarDiagram

/-- A directed edge between two ids. -/
structure Edge where
  source : String
  target : String
  sourceHandle : Value := .null
  targetHandle : Value := .null

namespace Edge

/-- An edge from an id to itself. -/
def isSelfLoop (e : Edge) : Bool := e.source == e.target

/-- The text that a handle adds to a key; an absent handle adds none. -/
def handleText (handle : Value) : Except Fault (List String) :=
  match handle with
  | .text s => .ok (if s = "" then [] else [s])
  | v => if v.isPresent then .error .notJoinable else .ok []

/-- The key of an edge: source, source handle, target and target handle, as far
as they are there, joined by arrows. -/
def key (e : Edge) : Except Fault String := do
  let sourceHandle ← handleText e.sourceHandle
  let targetHandle ← handleText e.targetHandle
  let source := if e.source = "" then [] else [e.source]
  let target := if e.target = "" then [] else [e.target]
  return String.intercalate "->" (source ++ sourceHandle ++ target ++ targetHandle)

/-- Read an edge of a document. -/
def ofValue (v : Value) : Except Fault Edge := do
  let source ← v.require "source"
  let target ← v.require "target"
  let sourceHandle ← v.look "sourceHandle"
  let targetHandle ← v.look "targetHandle"
  return {
    source := source.display
    target := target.display
    sourceHandle := sourceHandle.orNull
    targetHandle := targetHandle.orNull }

end Edge

end GrammarDiagram
