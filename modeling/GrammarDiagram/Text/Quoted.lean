/-
GrammarDiagram/Text/Quoted.lean

The quoted form of a text, as values show the texts inside them.

A text is put between apostrophes, or between double quotes when it holds an
apostrophe and no double quote.  The quote in use and the backslash get a
backslash in front; line feed, carriage return and tab are written by letter;
every other character that is not printable is written by its code point, in
two, four or eight hexadecimal digits.
-/
import GrammarDiagram.Text.Printable

namespace GrammarDiagram.Text

/-! ### Hexadecimal digits -/

/-- The hexadecimal digits of `n`, in lower case and with zeros in front up to
`width`. -/
def hexChars (width n : Nat) : List Char :=
  let digits := Nat.toDigits 16 n
  List.replicate (width - digits.length) '0' ++ digits

/-! ### Quoting -/

/-- The quote that goes round a text. -/
def quoteMark (cs : List Char) : Char :=
  if cs.contains '\'' && !cs.contains '"' then '"' else '\''

/-- One character of a text between the quotes `mark`. -/
def quotedChar (mark c : Char) : List Char :=
  if c == mark || c == '\\' then ['\\', c]
  else if c == '\n' then ['\\', 'n']
  else if c == '\r' then ['\\', 'r']
  else if c == '\t' then ['\\', 't']
  else if isPrintable c then [c]
  else if c.toNat < 0x100 then '\\' :: 'x' :: hexChars 2 c.toNat
  else if c.toNat < 0x10000 then '\\' :: 'u' :: hexChars 4 c.toNat
  else '\\' :: 'U' :: hexChars 8 c.toNat

/-- The quoted form of a text. -/
def quoted (s : String) : String :=
  let cs := s.toList
  let mark := quoteMark cs
  String.ofList (mark :: (cs.flatMap (quotedChar mark) ++ [mark]))

end GrammarDiagram.Text
