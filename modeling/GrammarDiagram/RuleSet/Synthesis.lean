/-
GrammarDiagram/RuleSet/Synthesis.lean

From a diagram to a rule set: one rule for each node.

Naming comes first and takes two passes, so that names chosen by the user win
over generated ones.  The start node is the root, the finish node has the
empty name, which ends a sentence, and a node without a name of its own is
named after its place in the list.  Then every node but the finish gives a rule
with its name and pattern, and every edge between named ids a successor.
-/
import GrammarDiagram.Connectivity
import GrammarDiagram.RuleSet.Basic
import GrammarDiagram.RuleSet.Pattern

namespace GrammarDiagram.RuleSet

/-! ### Names -/

/-- The names given so far: all of them, and those the user chose, by node. -/
structure Claims where
  taken : List String := [Name.root]
  chosen : Table String := ∅

/-- Give a node the name that the user chose for it, made unique. -/
def Claims.claim (claims : Claims) (n : Node) : Except Fault Claims :=
  if n.isNamed then
    match n.name with
    | .text s =>
      let name := Name.unique (Name.normalize s) claims.taken
      .ok ⟨name :: claims.taken, claims.chosen.put n.id name⟩
    | _ => .error .notAText
  else .ok claims

/-- The names that the users chose. -/
def claimNames (nodes : List Node) : Except Fault Claims :=
  nodes.foldlM Claims.claim {}

/-- The name generated for the node at this place. -/
def defaultName (index : Nat) : String := Name.numbered "_rule" index

/-- Name the nodes from the one at place `index` on. -/
def nameNodes (chosen : Table String) (index : Nat) (taken : List String) (names : Table String) :
    List Node → Table String
  | [] => names
  | n :: rest =>
    match n.kind, chosen.get? n.id with
    | .start, _ => nameNodes chosen (index + 1) taken (names.put n.id Name.root) rest
    | .finish, _ => nameNodes chosen (index + 1) taken (names.put n.id "") rest
    | _, some name => nameNodes chosen (index + 1) taken (names.put n.id name) rest
    | _, none =>
      let name := Name.unique (defaultName index) taken
      nameNodes chosen (index + 1) (name :: taken) (names.put n.id name) rest

/-- The rule name of every id. -/
def assignNames (nodes : List Node) : Except Fault (Table String) := do
  let claims ← claimNames nodes
  return nameNodes claims.chosen 0 claims.taken ∅ nodes

/-! ### Rules -/

/-- Add the rule of a node.  The finish gives none, and of nodes with one name
the first gives the rule. -/
def addRule (names : Table String) (rules : Table Rule) (n : Node) : Table Rule :=
  match names.get? n.id with
  | some name =>
    if n.kind = .finish || rules.contains name then rules
    else rules.put name { name := name, pattern := n.pattern }
  | none => rules

/-- Add the successor that an edge gives.  An edge with an end that has no name
is told and left out. -/
def addEdge (names : Table String) (rs : RuleSet) (e : Edge) : Traced RuleSet :=
  match names.get? e.source, names.get? e.target with
  | some source, some target => pure (rs.link source target)
  | _, _ => do
    let key ← e.key
    Traced.tell (.edgeSkipped key)
    return rs

/-- The rule set of a diagram. -/
def synthesize (nodes : List Node) (edges : List Edge) : Traced RuleSet := do
  let names ← assignNames nodes
  let rules := nodes.foldl (addRule names) ∅
  let rs ← edges.foldlM (addEdge names) { rules := rules }
  Traced.tell (.synthesisDone rs.size nodes.length)
  return rs

end GrammarDiagram.RuleSet
