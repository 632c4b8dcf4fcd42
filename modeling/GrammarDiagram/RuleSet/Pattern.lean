/-
GrammarDiagram/RuleSet/Pattern.lean

The patterns of nodes, and the pattern that stands for a rule in a list of
alternatives.

Every node has a pattern of its own, whatever it is connected to.  To stand
among alternatives a pattern has to be one atom, a quoted literal or a bracket
expression; any other pattern goes into parentheses.
-/
import GrammarDiagram.Diagram.Node

namespace GrammarDiagram

/-! ### The pattern of a node -/

/-- The text of a property, with a text for want of one. -/
def Properties.text (ps : Properties) (name default : String) : String :=
  match ps.find? name with
  | some v => if v.isPresent then v.display else default
  | none => default

/-- What a node matches by itself. -/
def Node.pattern (n : Node) : String :=
  match n.kind with
  | .start => ""
  | .finish => ""
  | .router => ""
  | .literal => Literal.quote (n.properties.text "value" "")
  | .charSet => n.properties.text "pattern" "[]"
  | .letter => "[a-zA-Z]"
  | .digit => "[0-9]"
  | .nonNewline => "[^\\n]"
  | .identifier => "[a-zA-Z_][a-zA-Z0-9_]*"
  | .duration => "[0-9] [0-9]? (\"s\" | \"m\" | \"h\" | \"d\" | \"w\" | \"mo\" | \"y\")"

/-! ### Atoms -/

namespace Pattern

/-- The rest of an atom behind its opening character: characters other than the
closing one and the backslash, and backslashes with a character other than a
line feed behind them, up to the closing character.  One line feed may follow
it. -/
def closesAtom (closing : Char) : List Char → Bool
  | [] => false
  | [c] => c == closing
  | c :: d :: rest =>
    if c == closing then d == '\n' && rest.isEmpty
    else if c == '\\' then d != '\n' && closesAtom closing rest
    else closesAtom closing (d :: rest)

/-- One quoted literal or one bracket expression. -/
def isAtom : List Char → Bool
  | '"' :: rest => closesAtom '"' rest
  | '[' :: rest => closesAtom ']' rest
  | _ => false

/-- The text that stands for a rule with this pattern among alternatives. -/
def fragment (pattern : String) : String :=
  if isAtom pattern.toList then pattern else "(" ++ pattern ++ ")"

end Pattern

end GrammarDiagram
