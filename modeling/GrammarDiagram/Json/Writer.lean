/-
GrammarDiagram/Json/Writer.lean

Writing JSON text in ASCII.

Quotes, backslashes and the control characters that have a letter are written
with a backslash; every other character outside the printable part of ASCII is
written as one or two code units of four hexadecimal digits.
-/
import GrammarDiagram.Text.Quoted

namespace GrammarDiagram.Json

/-- A code unit behind a backslash. -/
def unitEscape (n : Nat) : List Char :=
  '\\' :: 'u' :: Text.hexChars 4 n

/-- One character of a JSON string. -/
def writtenChar (c : Char) : List Char :=
  if c == '"' || c == '\\' then ['\\', c]
  else if c == '\n' then ['\\', 'n']
  else if c == '\r' then ['\\', 'r']
  else if c == '\t' then ['\\', 't']
  else if c == '\x08' then ['\\', 'b']
  else if c == '\x0c' then ['\\', 'f']
  else if 0x20 ≤ c.toNat && c.toNat ≤ 0x7E then [c]
  else if c.toNat < 0x10000 then unitEscape c.toNat
  else
    let n := c.toNat - 0x10000
    unitEscape (0xD800 + n / 0x400) ++ unitEscape (0xDC00 + n % 0x400)

/-- A text as a JSON string. -/
def quote (s : String) : String :=
  String.ofList ('"' :: (s.toList.flatMap writtenChar ++ ['"']))

/-- A list of written values, one to a line, inside the given margin. -/
def block (opening closing margin : String) (items : List String) : String :=
  if items.isEmpty then opening ++ closing
  else
    opening ++ "\n" ++ String.intercalate ",\n" (items.map fun i => margin ++ "  " ++ i) ++ "\n" ++
      margin ++ closing

end GrammarDiagram.Json
