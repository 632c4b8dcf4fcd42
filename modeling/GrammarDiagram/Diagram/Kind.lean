/-
GrammarDiagram/Diagram/Kind.lean

The kinds of nodes.

The kinds are a closed set.  Each has a tag, under which documents know it,
and a label, under which people do.
-/
import GrammarDiagram.Fault

namespace GrammarDiagram

/-- The kinds of nodes of a diagram. -/
inductive Kind where
  /-- Where every sentence begins. -/
  | start
  /-- Where a sentence may end. -/
  | finish
  /-- A fixed text. -/
  | literal
  /-- One character of a set, or any other pattern of the user's. -/
  | charSet
  | letter
  | digit
  | nonNewline
  | identifier
  /-- A length of time with its unit. -/
  | duration
  /-- A node that matches nothing and only joins ways. -/
  | router
deriving DecidableEq, Repr

namespace Kind

/-- All kinds, in their fixed order. -/
def all : List Kind :=
  [.start, .finish, .literal, .charSet, .letter, .digit, .nonNewline, .identifier, .duration,
   .router]

/-- The tag of a kind in documents. -/
def tag : Kind → String
  | .start => "startNode"
  | .finish => "endNode"
  | .literal => "stringNode"
  | .charSet => "charSetNode"
  | .letter => "letterNode"
  | .digit => "digitNode"
  | .nonNewline => "nonNewlineNode"
  | .identifier => "identifierNode"
  | .duration => "timeNode"
  | .router => "routerNode"

/-- The label of a kind. -/
def label : Kind → String
  | .start => "Start"
  | .finish => "End"
  | .literal => "String Match"
  | .charSet => "Character Set"
  | .letter => "Letter"
  | .digit => "Digit"
  | .nonNewline => "Non-Newline"
  | .identifier => "Identifier"
  | .duration => "Time Duration"
  | .router => "Router"

/-- Start and finish frame a diagram and match nothing themselves. -/
def isSentinel : Kind → Bool
  | .start => true
  | .finish => true
  | _ => false

/-- The kind with this tag. -/
def ofTag (tag : Value) : Except Fault Kind :=
  match all.find? fun k => Value.same tag (.text k.tag) with
  | some k => .ok k
  | none => .error (.unknownKind tag (all.map Kind.tag))

theorem mem_all (k : Kind) : k ∈ all := by cases k <;> decide

end Kind

end GrammarDiagram
