/-
GrammarDiagram/Connectivity.lean

Whether every node is wired into its diagram.

A start node needs an edge that leaves it, a finish node one that enters it,
and every other node both.  Edges count by the ids at their ends alone, so an
edge to an id without a node counts for the node at its other end.
-/
import GrammarDiagram.Diagram.Basic

namespace GrammarDiagram

/-- Some edge leaves this id. -/
def hasOutgoing (edges : List Edge) (id : String) : Bool := edges.any fun e => e.source == id

/-- Some edge enters this id. -/
def hasIncoming (edges : List Edge) (id : String) : Bool := edges.any fun e => e.target == id

/-- Whether a node has the edges that its kind needs. -/
def Node.isWired (edges : List Edge) (n : Node) : Bool :=
  match n.kind with
  | .start => hasOutgoing edges n.id
  | .finish => hasIncoming edges n.id
  | _ => hasIncoming edges n.id && hasOutgoing edges n.id

/-- The names of the nodes that are not wired in, in the order of the nodes. -/
structure Report where
  problems : List Value

namespace Report

/-- A report without problems. -/
def isValid (r : Report) : Bool := r.problems.isEmpty

/-- The report on a list of nodes and a list of edges. -/
def ofGraph (nodes : List Node) (edges : List Edge) : Report :=
  ⟨(nodes.filter fun n => !n.isWired edges).map Node.displayName⟩

/-- The text of a name that is one. -/
def nameText : Value → Except Fault String
  | .text s => .ok s
  | _ => .error .notJoinable

/-- The fault that a report with problems amounts to. -/
def fault (r : Report) : Fault :=
  match r.problems.mapM nameText with
  | .ok names => .incomplete names
  | .error f => f

end Report

end GrammarDiagram
