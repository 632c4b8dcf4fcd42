/-
GrammarDiagram/RuleSet/Emission.lean

The text of a grammar.

Each rule is a line: its name, the sign `::=` and its body, the pattern
followed by the alternatives.  The root comes first and the others follow in
the order of their names; rules without a body are left out.  A root without a
body is written as the empty literal if other lines are there, since every
grammar starts from the root.
-/
import GrammarDiagram.RuleSet.Basic
import GrammarDiagram.Text.Blank

namespace GrammarDiagram.RuleSet

/-! ### Bodies -/

/-- The alternatives of a successor list.  The empty ones are left out, and
make the rest optional. -/
def renderAlternatives (targets : List String) : String :=
  let named := targets.filter fun t => t != ""
  let joined :=
    match named with
    | [] => ""
    | [t] => t
    | _ => "(" ++ String.intercalate " | " named ++ ")"
  if named.isEmpty || named.length == targets.length then joined else joined ++ "?"

/-- The body of a rule with this name. -/
def body (rs : RuleSet) (name : String) : String :=
  Text.strip (rs.patternOf name ++ " " ++ renderAlternatives (rs.successors name))

/-- The body of a rule, if there is one of this name. -/
def body? (rs : RuleSet) (name : String) : Option String :=
  if rs.hasRule name then some (rs.body name) else none

/-! ### Lines -/

/-- The line of a rule. -/
def line (name body : String) : String := name ++ " ::= " ++ body

/-- The names of the rules other than the root, in increasing order. -/
def sortedNames (rs : RuleSet) : List String :=
  rs.ordinary.mergeSort fun a b => decide (a ≤ b)

/-- The lines of the rules other than the root that have a body. -/
def ordinaryLines (rs : RuleSet) : List String :=
  (rs.sortedNames.filter fun n => rs.body n != "").map fun n => line n (rs.body n)

/-- The lines of a grammar. -/
def lines (rs : RuleSet) : List String :=
  let rest := rs.ordinaryLines
  let rootBody := (rs.body? Name.root).getD ""
  if rootBody != "" then line Name.root rootBody :: rest
  else if rest.isEmpty then []
  else line Name.root "\"\"" :: rest

/-- The text of a grammar. -/
def render (rs : RuleSet) : String := String.intercalate "\n" rs.lines

end GrammarDiagram.RuleSet
