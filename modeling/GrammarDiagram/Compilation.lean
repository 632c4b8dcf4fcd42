/-
GrammarDiagram/Compilation.lean

From a diagram to the text of its grammar: the check of the wiring, the rule
set, its reduction if it is asked for, and the text.
-/
import GrammarDiagram.RuleSet.Emission
import GrammarDiagram.RuleSet.Reduction
import GrammarDiagram.RuleSet.Synthesis

namespace GrammarDiagram

/-- A compiled diagram. -/
structure Compilation where
  grammar : String
  ruleSet : RuleSet
  steps : Nat

/-- Reduce a rule set to the end, and tell how it went. -/
def RuleSet.optimizeTraced (rs : RuleSet) : Traced (RuleSet × Nat) := do
  let (final, events) := rs.optimize
  Traced.tellAll events
  Traced.tell (.reductionDone events.length final.size)
  return (final, events.length)

/-- Compile nodes and edges.  Nothing is compiled unless every node is wired
in. -/
def compile (optimize : Bool) (nodes : List Node) (edges : List Edge) : Traced Compilation := do
  let report := Report.ofGraph nodes edges
  if !report.isValid then
    (throw report.fault : Except Fault Unit)
  Traced.tell (.synthesisStarted nodes.length edges.length)
  let rs ← RuleSet.synthesize nodes edges
  if optimize then
    let (final, steps) ← rs.optimizeTraced
    Traced.tell (.optimized final.size steps)
    return ⟨final.render, final, steps⟩
  else
    return ⟨rs.render, rs, 0⟩

end GrammarDiagram
