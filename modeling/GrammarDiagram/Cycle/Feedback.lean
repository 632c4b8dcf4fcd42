/-
GrammarDiagram/Cycle/Feedback.lean

The edges that are drawn as loops: one for each cycle, at most.

Of every cycle the edge with the greatest key is taken, the first one if
several have it, and it is recorded if the ranking holds that it runs
backward.  Its key is marked, and the length of the cycle is put under the key;
of two cycles with one winner the later gives the length.
-/
import GrammarDiagram.Cycle.Ranking
import GrammarDiagram.Cycle.Search
import GrammarDiagram.Event
import GrammarDiagram.Table

namespace GrammarDiagram

/-- The places of ids; of nodes with one id the last counts. -/
def positionsOf (nodes : List Node) : Table Position :=
  nodes.foldl (fun t n => t.put n.id n.position) ∅

/-- The place of an id; an id without a node is at the origin. -/
def Table.placeOf (positions : Table Position) (id : String) : Position :=
  (positions.get? id).getD {}

namespace Ranking

/-- The key of an edge at its places. -/
def keyAt (r : Ranking) (positions : Table Position) (e : Edge) : Except Fault (List KeyPart) :=
  r.sortKey e (positions.placeOf e.source) (positions.placeOf e.target)

/-- The edge with the greatest key among one that leads so far and others. -/
def leader (r : Ranking) (positions : Table Position) (best : Edge) (key : List KeyPart) :
    List Edge → Except Fault Edge
  | [] => .ok best
  | e :: rest => do
    let k ← r.keyAt positions e
    if KeyPart.exceeds k key then r.leader positions e k rest
    else r.leader positions best key rest

/-- The edge of a cycle with the greatest key. -/
def winner? (r : Ranking) (positions : Table Position) : List Edge → Except Fault (Option Edge)
  | [] => .ok none
  | e :: rest => do
    let k ← r.keyAt positions e
    return some (← r.leader positions e k rest)

end Ranking

/-- A cycle, its winner, and whether the winner runs backward. -/
structure Verdict where
  cycle : List Edge
  winner : Edge
  backward : Bool

/-- The edges to be drawn as loops: the marked keys; the length of the cycle that
each of them closes; and the verdicts that led to them. -/
structure Feedback where
  marked : List String := []
  pathLengths : Table Nat := ∅
  verdicts : List Verdict := []

namespace Feedback

/-- The keys of the edges to be drawn as loops, in increasing order. -/
def edges (f : Feedback) : List String :=
  f.marked.mergeSort fun a b => decide (a ≤ b)

/-- Whether an edge is to be drawn as a loop. -/
def isFeedback (f : Feedback) (e : Edge) : Except Fault Bool := do
  return f.marked.contains (← e.key)

/-- The length of the cycle that an edge closes, zero if it is not drawn as a
loop. -/
def pathLength (f : Feedback) (e : Edge) : Except Fault Nat := do
  return (f.pathLengths.get? (← e.key)).getD 0

/-- Judge a cycle and record its winner if it runs backward. -/
def judge (r : Ranking) (positions : Table Position) (f : Feedback) (cycle : List Edge) :
    Traced Feedback := do
  match ← r.winner? positions cycle with
  | none => return f
  | some winner =>
    let source := positions.placeOf winner.source
    let target := positions.placeOf winner.target
    let backward ← r.isBackward winner source target
    let f := { f with verdicts := f.verdicts ++ [⟨cycle, winner, backward⟩] }
    if backward then
      let key ← winner.key
      Traced.tell (.feedbackFound key cycle.length)
      return { f with
        marked := f.marked.insert key
        pathLengths := f.pathLengths.put key cycle.length }
    else
      return f

/-- The edges of a diagram that are drawn as loops. -/
def analyze (r : Ranking) (nodes : List Node) (edges : List Edge) : Traced Feedback :=
  (Cycle.find nodes edges).foldlM (judge r (positionsOf nodes)) {}

end Feedback

end GrammarDiagram
