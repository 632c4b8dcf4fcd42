import GrammarDiagram.Main
import GrammarDiagram.Proofs.Closure
import GrammarDiagram.Proofs.Meaning
import GrammarDiagram.Proofs.Feedback
import GrammarDiagram.Proofs.Walk
import GrammarDiagram.Proofs.Fixpoint
import GrammarDiagram.Proofs.Route
import GrammarDiagram.Proofs.WellFormed
import GrammarDiagram.Proofs.Discovery
import GrammarDiagram.Proofs.Wiring
import GrammarDiagram.Proofs.Renaming
import GrammarDiagram.Proofs.Stepping
import GrammarDiagram.Proofs.Absorbing
import GrammarDiagram.Proofs.Confluence
import GrammarDiagram.Proofs.ReadBack
import GrammarDiagram.Proofs.Reachability
import GrammarDiagram.Proofs.Preservation
import GrammarDiagram.Proofs.Linear
import GrammarDiagram.Proofs.Assignment
import GrammarDiagram.Proofs.Verdict
import GrammarDiagram.Proofs.Layout
import GrammarDiagram.Proofs.Record
import GrammarDiagram.Proofs.Key
import GrammarDiagram.Proofs.Literal
import GrammarDiagram.Proofs.Canonical
import GrammarDiagram.Proofs.Lookup
import GrammarDiagram.Proofs.Account
import GrammarDiagram.Proofs.Delivery
