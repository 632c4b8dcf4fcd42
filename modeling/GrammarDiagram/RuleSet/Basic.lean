/-
GrammarDiagram/RuleSet/Basic.lean

Rule sets: the working form of a grammar.

A rule has a name, a pattern of its own, and successors: what may follow the
pattern.  A successor is the name of a rule, or empty where the sentence may
end, or a pattern that has taken the place of a rule.
-/
import GrammarDiagram.RuleSet.Name
import GrammarDiagram.Table

namespace GrammarDiagram

/-- A rule without its successors: its name, and what it matches by itself. -/
structure Rule where
  name : String
  pattern : String := ""
deriving DecidableEq

/-- The table of rules, each under its name. -/
def Table.named (rules : List Rule) : Table Rule := .ofList (rules.map fun r => (r.name, r))

/-- A rule set: the rules by their names, and the successors of names. -/
structure RuleSet where
  rules : Table Rule := ∅
  adjacency : Table (List String) := ∅

namespace RuleSet

/-! ### Looking things up -/

/-- Whether there is a rule of this name. -/
def hasRule (rs : RuleSet) (name : String) : Bool := rs.rules.contains name

/-- The rule under a name; where there is none, one without a pattern. -/
def ruleOf (rs : RuleSet) (name : String) : Rule := (rs.rules.get? name).getD { name := name }

/-- The pattern of a rule. -/
def patternOf (rs : RuleSet) (name : String) : String := (rs.ruleOf name).pattern

/-- What may follow a name. -/
def successors (rs : RuleSet) (name : String) : List String := (rs.adjacency.get? name).getD []

/-- The names of the rules other than the root. -/
def ordinary (rs : RuleSet) : List String := rs.rules.keys.filter fun n => n != Name.root

/-- The number of rules. -/
def size (rs : RuleSet) : Nat := rs.rules.size

/-- One more mention of a name. -/
def countMention (counts : Table Nat) (name : String) : Table Nat :=
  counts.put name ((counts.get? name).getD 0 + 1)

/-- How often each name is mentioned as a successor: first the names that have
successors, then those only mentioned. -/
def referenceCounts (rs : RuleSet) : Table Nat :=
  (rs.adjacency.entries.flatMap Prod.snd).foldl countMention (rs.adjacency.mapValues fun _ => 0)

/-- The first name that has this one among its successors. -/
def mentioner? (rs : RuleSet) (name : String) : Option String :=
  (rs.adjacency.entries.find? fun e => e.2.contains name).map Prod.fst

/-! ### Changing things -/

/-- Take out a rule and its successors. -/
def remove (rs : RuleSet) (name : String) : RuleSet :=
  ⟨rs.rules.erase name, rs.adjacency.erase name⟩

/-- Give a rule another pattern. -/
def setPattern (rs : RuleSet) (name pattern : String) : RuleSet :=
  { rs with rules := rs.rules.put name { rs.ruleOf name with pattern := pattern } }

/-- Give a name successors. -/
def setSuccessors (rs : RuleSet) (name : String) (targets : List String) : RuleSet :=
  { rs with adjacency := rs.adjacency.put name targets }

/-- Add one successor to a name. -/
def link (rs : RuleSet) (source target : String) : RuleSet :=
  rs.setSuccessors source (rs.successors source ++ [target])

/-- Equality up to the order in which rules and successor lists were put. -/
def agrees (rs other : RuleSet) : Bool :=
  rs.rules.sameMap other.rules && rs.adjacency.sameMap other.adjacency

/-! ### Small facts -/

theorem size_remove_lt {rs : RuleSet} {name : String} (h : rs.hasRule name) :
    (rs.remove name).size < rs.size :=
  Table.size_erase_lt h

theorem size_setPattern {rs : RuleSet} {name : String} (pattern : String) (h : rs.hasRule name) :
    (rs.setPattern name pattern).size = rs.size :=
  Table.size_put_of_contains _ h

@[simp] theorem size_setSuccessors (rs : RuleSet) (name : String) (targets : List String) :
    (rs.setSuccessors name targets).size = rs.size := rfl

theorem hasRule_setPattern (rs : RuleSet) (name other pattern : String) (h : rs.hasRule other) :
    (rs.setPattern name pattern).hasRule other := by
  simp only [hasRule, Table.contains, setPattern, Table.get?_put] at h ⊢
  split <;> simp_all

@[simp] theorem hasRule_setSuccessors (rs : RuleSet) (name other : String) (targets : List String) :
    (rs.setSuccessors name targets).hasRule other = rs.hasRule other := rfl

end RuleSet

end GrammarDiagram
