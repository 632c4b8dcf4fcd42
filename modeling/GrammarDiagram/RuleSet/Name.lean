/-
GrammarDiagram/RuleSet/Name.lean

Names of rules.

A name chosen by the user becomes an identifier, and a name that is taken gets
the least counter that makes it free.  Among the first counters, one for each
name that is taken, there is a free one, since the plain name takes up one of
the places; so the search is over a list.
-/
import GrammarDiagram.Text.Slug

namespace GrammarDiagram.Name

/-- The name of the rule that a grammar starts from. -/
def root : String := "root"

/-- Whether a text starts with a digit. -/
def startsWithDigit (s : String) : Bool :=
  match s.toList with
  | c :: _ => c.isDigit
  | [] => false

/-- The identifier form of a name: a slug that does not start with a digit. -/
def normalize (s : String) : String :=
  let name := Text.slug s
  if startsWithDigit name then "_" ++ name else name

/-- A name with a counter. -/
def numbered (name : String) (k : Nat) : String := name ++ toString k

/-- The first counter that makes the name free, among as many as there are
names taken. -/
def freeCounter (name : String) (taken : List String) : Nat :=
  ((List.range' 1 taken.length).find? fun k => !taken.contains (numbered name k)).getD
    (taken.length + 1)

/-- The name itself if it is free, or else the name with the least counter that
makes it so. -/
def unique (name : String) (taken : List String) : String :=
  if taken.contains name then numbered name (freeCounter name taken) else name

end GrammarDiagram.Name
