/-
GrammarDiagram/Text/Slug.lean

The identifier form of a text: lower case, with an underscore for every
character outside `a`-`z`, `0`-`9` and `_`.

Lower case is taken before the characters are sorted out.  Outside ASCII only
two characters have an ASCII letter in their lower case: the Kelvin sign,
whose lower case is `k`, and the dotted capital I, whose lower case is `i`
followed by a combining dot.  Every other one becomes one underscore, so the
form needs no table of cases.
-/

namespace GrammarDiagram.Text

/-- The characters a slug is made of. -/
def isSlugChar (c : Char) : Bool :=
  c.isLower || c.isDigit || c == '_'

/-- What one character contributes to a slug. -/
def slugChar (c : Char) : List Char :=
  if isSlugChar c then [c]
  else if c.isUpper then [c.toLower]
  else if c.toNat == 0x130 then ['i', '_']
  else if c.toNat == 0x212A then ['k']
  else ['_']

/-- The identifier form of a text. -/
def slug (s : String) : String :=
  String.ofList (s.toList.flatMap slugChar)

@[simp] theorem toList_slug (s : String) : (slug s).toList = s.toList.flatMap slugChar := by
  simp [slug]

end GrammarDiagram.Text
