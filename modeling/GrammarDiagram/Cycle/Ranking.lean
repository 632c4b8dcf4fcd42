/-
GrammarDiagram/Cycle/Ranking.lean

Rankings of the edges of a cycle.

A ranking gives every edge a key and says of the edge with the greatest key
whether it really runs backward.  Keys are sequences of parts and are compared
at the first part in which they differ; of two keys one of which continues the
other, the longer is greater.

The geometric ranking is for diagrams that are read from left to right.  The
edge that runs furthest to the left is the greatest; an edge straight up or
down counts as one step to the left if it runs upwards and as one to the right
if not.
-/
import GrammarDiagram.Diagram.Edge

namespace GrammarDiagram

/-! ### Keys -/

/-- One part of a key. -/
inductive KeyPart where
  | number (n : Number)
  | flag (b : Bool)
  | text (s : String)
deriving DecidableEq, Repr

namespace KeyPart

/-- Equality of parts; a not-a-number equals nothing. -/
def equal : KeyPart → KeyPart → Bool
  | .number a, .number b => a.equal b
  | .flag a, .flag b => a == b
  | .text a, .text b => a == b
  | _, _ => false

/-- Strictly greater, within one sort of part. -/
def greater : KeyPart → KeyPart → Bool
  | .number a, .number b => a.greater b
  | .flag a, .flag b => a && !b
  | .text a, .text b => b < a
  | _, _ => false

/-- Whether the first key is greater. -/
def exceeds : List KeyPart → List KeyPart → Bool
  | [], _ => false
  | _ :: _, [] => true
  | a :: as, b :: bs => if a.equal b then exceeds as bs else a.greater b

end KeyPart

/-! ### Rankings -/

/-- A way to choose the edge of a cycle that runs backward.  Both functions are
given the places of the edge's source and target. -/
structure Ranking where
  sortKey : Edge → Position → Position → Except Fault (List KeyPart)
  isBackward : Edge → Position → Position → Except Fault Bool

/-! ### The geometric ranking -/

namespace Geometric

/-- The difference of two coordinates. -/
def difference (a b : Value) : Except Fault Number :=
  match a.number?, b.number? with
  | some x, some y =>
    match x.sub? y with
    | some d => .ok d
    | none => .error .beyondDoubles
  | _, _ => .error .notANumber

/-- Whether the first place is below the second. -/
def isBelow (p q : Position) : Except Fault Bool :=
  match p.y.greater? q.y with
  | some b => .ok b
  | none => .error .incomparable

/-- How far an edge runs to the left; straight up counts as one, straight down
as minus one. -/
def score (source target : Position) : Except Fault Number := do
  let dx ← difference source.x target.x
  if dx.isZero then
    return .int (if ← isBelow source target then 1 else -1)
  else
    return dx

/-- The key of an edge: how far it runs to the left, its height, whether it
runs upwards, and its source. -/
def sortKey (e : Edge) (source target : Position) : Except Fault (List KeyPart) := do
  let score ← score source target
  let dy ← difference source.y target.y
  let below ← isBelow source target
  return [.number score, .number dy.abs, .flag below, .text e.source]

/-- An edge runs backward if it is a loop, or runs to the left, or does not run
sideways and runs upwards. -/
def isBackward (e : Edge) (source target : Position) : Except Fault Bool :=
  if e.isSelfLoop then .ok true
  else do
    let score ← score source target
    if score.greater (.int 0) then return true
    else if score.isZero then isBelow source target
    else return false

end Geometric

namespace Ranking

/-- The ranking for diagrams that are read from left to right. -/
def geometric : Ranking := ⟨Geometric.sortKey, Geometric.isBackward⟩

/-- The rankings by name. -/
def known : List (String × Ranking) := [("geometric", geometric)]

/-- The ranking with this name.  The fault of an unknown name shows the name, so
it has to be one that can be written. -/
def ofName (name : Value) : Except Fault Ranking :=
  if !Properties.isKey name then .error .unusableKey
  else
    match known.find? fun r => name.same (.text r.1) with
    | some r => .ok r.2
    | none =>
      if name.isWritable then .error (.unknownRanking name (known.map Prod.fst))
      else .error .unwritable

end Ranking

end GrammarDiagram
