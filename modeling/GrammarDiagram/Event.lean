/-
GrammarDiagram/Event.lean

What a run tells about itself, and computations that tell it.

Events are recorded by what happened; level and wording are functions of the
event.  A `Traced` computation yields the events up to its end and then a
result or a fault, so that what was told before a fault is not lost.
-/
import GrammarDiagram.Fault

namespace GrammarDiagram

/-! ### Events -/

/-- How much an event matters. -/
inductive Level where
  | debug
  | info
  | warning
deriving DecidableEq, Repr

/-- Something worth telling. -/
inductive Event where
  /-- A selector was given for a file that holds one grammar only. -/
  | selectorIgnored (path selector : String)
  | diagramLoaded (nodes edges : Nat) (path : String)
  /-- An edge was chosen to be drawn as a loop. -/
  | feedbackFound (key : String) (length : Nat)
  /-- An edge has an end without a node. -/
  | edgeSkipped (key : String)
  | synthesisStarted (nodes edges : Nat)
  | synthesisDone (rules nodes : Nat)
  | ruleFused (name mentioner : String)
  | ruleMerged (dropped kept : String)
  | ruleInlined (name mentioner fragment : String)
  | reductionDone (steps rules : Nat)
  | optimized (rules steps : Nat)
  | grammarWritten (rules : Nat) (path : String)
deriving DecidableEq, Repr

namespace Event

/-- The level of an event. -/
def level : Event → Level
  | .selectorIgnored .. => .warning
  | .edgeSkipped _ => .warning
  | .synthesisStarted .. => .info
  | .optimized .. => .info
  | .grammarWritten .. => .info
  | _ => .debug

/-- An event in words. -/
def message : Event → String
  | .selectorIgnored path selector =>
    path ++ " holds a single grammar; ignoring selector " ++ Text.quoted selector
  | .diagramLoaded nodes edges path =>
    "Loaded " ++ toString nodes ++ " nodes and " ++ toString edges ++ " edges from " ++ path
  | .feedbackFound key length =>
    "Feedback edge " ++ key ++ " closes a cycle of length " ++ toString length
  | .edgeSkipped key => "Skipping edge " ++ key ++ ": unknown endpoint"
  | .synthesisStarted nodes edges =>
    "Synthesizing rules for " ++ toString nodes ++ " nodes, " ++ toString edges ++ " edges"
  | .synthesisDone rules nodes =>
    "Synthesized " ++ toString rules ++ " rules from " ++ toString nodes ++ " nodes"
  | .ruleFused name mentioner => "Inlined " ++ name ++ " into " ++ mentioner
  | .ruleMerged dropped kept => "Merged " ++ dropped ++ " into " ++ kept
  | .ruleInlined name mentioner fragment =>
    "Inlined " ++ name ++ " into " ++ mentioner ++ " as " ++ fragment
  | .reductionDone steps rules =>
    "Optimizer applied " ++ toString steps ++ " rewrites, " ++ toString rules ++ " rules left"
  | .optimized rules steps =>
    "Optimized to " ++ toString rules ++ " rules (" ++ toString steps ++ " rewrites)"
  | .grammarWritten rules path => "Wrote " ++ toString rules ++ " rules to " ++ path

end Event

/-! ### Traced computations -/

/-- The events of a computation, and its result or the fault it stopped at. -/
structure Traced (α : Type) where
  events : List Event
  result : Except Fault α

namespace Traced

variable {α β : Type}

/-- A result without events. -/
protected def pure (a : α) : Traced α := ⟨[], .ok a⟩

/-- Go on with the result, if there is one. -/
protected def bind (t : Traced α) (f : α → Traced β) : Traced β :=
  match t.result with
  | .ok a => ⟨t.events ++ (f a).events, (f a).result⟩
  | .error e => ⟨t.events, .error e⟩

instance : Monad Traced where
  pure := Traced.pure
  bind := Traced.bind

/-- Tell an event. -/
def tell (e : Event) : Traced Unit := ⟨[e], .ok ()⟩

/-- Tell events. -/
def tellAll (es : List Event) : Traced Unit := ⟨es, .ok ()⟩

/-- A computation without events. -/
def lift (r : Except Fault α) : Traced α := ⟨[], r⟩

instance : MonadLift (Except Fault) Traced := ⟨lift⟩

end Traced

end GrammarDiagram
