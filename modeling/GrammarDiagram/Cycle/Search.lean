/-
GrammarDiagram/Cycle/Search.lean

Finding the cycles of a diagram by depth-first search.

The search keeps the path it is on as a stack of frames, the last one on top.
A frame is an id, the edge it was entered by, and the edges leaving it that
are still to be looked at.  An edge to an id on the path closes a cycle: the
edges by which the path goes on from that id, and the edge itself.  An edge to
an id that is neither on the path nor done with is followed.

The edges that leave an id wait in `unexplored` until the id is entered, and
go into its frame then.  So every step looks at an edge or leaves an id, and
the search ends by counting: twice the edges that are waiting or pending, plus
the frames, grows smaller with each step.
-/
import GrammarDiagram.Diagram.Edge

namespace GrammarDiagram.Cycle

/-! ### States -/

/-- An id on the path, the edge it was entered by (the first id of a path has
none), and the edges leaving it that are still to be looked at. -/
structure Frame where
  id : String
  via : Option Edge
  pending : List Edge

/-- A state of the search: the path with its last id first, the edges whose
source was not entered yet, the ids that are done with, and the cycles found,
in order. -/
structure Search where
  stack : List Frame := []
  unexplored : List Edge
  visited : List String := []
  cycles : List (List Edge) := []

namespace Search

/-- The ids on the path, the last one first. -/
def path (s : Search) : List String := s.stack.map Frame.id

/-- The number of edges pending in frames. -/
def pendingCount (frames : List Frame) : Nat := (frames.flatMap Frame.pending).length

/-- The measure of a state, which every step makes smaller. -/
def weight (s : Search) : Nat :=
  2 * (s.unexplored.length + pendingCount s.stack) + s.stack.length

/-! ### Steps -/

/-- Enter an id through an edge: its outgoing edges become pending. -/
def enter (s : Search) (id : String) (via : Option Edge) : Search :=
  { s with
    stack := ⟨id, via, s.unexplored.filter fun e => e.source == id⟩ :: s.stack
    unexplored := s.unexplored.filter fun e => !(e.source == id) }

/-- The cycle that an edge closes: the edges of the path behind the edge's
target, and the edge. -/
def closedBy (stack : List Frame) (e : Edge) : List Edge :=
  ((stack.takeWhile fun f => f.id != e.target).filterMap Frame.via).reverse ++ [e]

/-- Look at an edge that leaves the id on top. -/
def examine (s : Search) (e : Edge) : Search :=
  if s.path.contains e.target then { s with cycles := s.cycles ++ [closedBy s.stack e] }
  else if s.visited.contains e.target then s
  else s.enter e.target (some e)

/-- One step: look at the next edge of the frame on top, or leave its id if no
edge is left.  A search without frames stands still. -/
def step (s : Search) : Search :=
  match s.stack with
  | [] => s
  | top :: below =>
    match top.pending with
    | [] => { s with stack := below, visited := top.id :: s.visited }
    | e :: rest => { s with stack := { top with pending := rest } :: below }.examine e

/-! ### The measure -/

theorem weight_enter (s : Search) (id : String) (via : Option Edge) :
    (s.enter id via).weight = s.weight + 1 := by
  have h := List.length_eq_countP_add_countP (fun e : Edge => e.source == id) (l := s.unexplored)
  simp only [List.countP_eq_length_filter] at h
  have h' : (s.unexplored.filter fun e => !(e.source == id)).length =
      (s.unexplored.filter fun a => decide (¬ (a.source == id) = true)).length := by
    congr 1
    apply List.filter_congr
    intro e _
    cases e.source == id <;> rfl
  simp only [weight, enter, pendingCount, List.flatMap_cons, List.length_append, List.length_cons]
  omega

theorem weight_examine_le (s : Search) (e : Edge) : (s.examine e).weight ≤ s.weight + 1 := by
  unfold examine
  split
  · exact Nat.le_succ _
  · split
    · exact Nat.le_succ _
    · exact Nat.le_of_eq (weight_enter s _ _)

theorem weight_step_lt (s : Search) (h : s.stack ≠ []) : s.step.weight < s.weight := by
  obtain ⟨stack, unexplored, visited, cycles⟩ := s
  rcases stack with - | ⟨top, below⟩
  · exact absurd rfl h
  · obtain ⟨id, via, pending⟩ := top
    rcases pending with - | ⟨e, rest⟩
    · simp only [step, weight, pendingCount, List.flatMap_cons, List.length_append, List.length_cons,
        List.length_nil]
      omega
    · refine Nat.lt_of_le_of_lt (weight_examine_le _ e) ?_
      simp only [weight, pendingCount, List.flatMap_cons, List.length_append, List.length_cons]
      omega

/-! ### Runs -/

/-- Step until the path is left. -/
def run (s : Search) : Search :=
  if h : s.stack = [] then s
  else
    have := weight_step_lt s h
    s.step.run
termination_by s.weight

/-- Search from an id, unless it is done with. -/
def searchFrom (s : Search) (id : String) : Search :=
  if s.visited.contains id then s else (s.enter id none).run

/-- Search from the ids of all nodes, in order. -/
def ofGraph (nodes : List Node) (edges : List Edge) : Search :=
  nodes.foldl (fun s n => s.searchFrom n.id) { unexplored := edges }

end Search

/-- The cycles of a diagram in the order in which the search finds them. -/
def find (nodes : List Node) (edges : List Edge) : List (List Edge) :=
  (Search.ofGraph nodes edges).cycles

end GrammarDiagram.Cycle
