/-
GrammarDiagram/Diagram/Literal.lean

Literal texts and their escaped form.

Inside the quotes of a literal a backslash, a double quote, a line feed, a
carriage return and a tab are written with a backslash in front.  `unescape`
undoes this: it reads from left to right and leaves every backslash alone that
does not open one of the five escapes.
-/

namespace GrammarDiagram.Literal

/-! ### Escaping -/

/-- The letter that stands for a character behind a backslash. -/
def escapeLetter? : Char → Option Char
  | '\\' => some '\\'
  | '"' => some '"'
  | '\n' => some 'n'
  | '\r' => some 'r'
  | '\t' => some 't'
  | _ => none

/-- A character of a literal as it is written. -/
def escapeChar (c : Char) : List Char :=
  match escapeLetter? c with
  | some l => ['\\', l]
  | none => [c]

/-- The escaped form of a text. -/
def escapeChars (cs : List Char) : List Char := cs.flatMap escapeChar

/-- A text as a literal: escaped and between double quotes. -/
def quote (s : String) : String :=
  String.ofList ('"' :: (escapeChars s.toList ++ ['"']))

@[simp] theorem toList_quote (s : String) :
    (quote s).toList = '"' :: (escapeChars s.toList ++ ['"']) := by
  simp [quote]

/-! ### Unescaping -/

/-- The character that a letter behind a backslash stands for. -/
def unescapeLetter? : Char → Option Char
  | '\\' => some '\\'
  | '"' => some '"'
  | 'n' => some '\n'
  | 'r' => some '\r'
  | 't' => some '\t'
  | _ => none

/-- Undo the escapes, from left to right. -/
def unescapeChars : List Char → List Char
  | [] => []
  | [c] => [c]
  | c :: d :: rest =>
    match (if c = '\\' then unescapeLetter? d else none) with
    | some e => e :: unescapeChars rest
    | none => c :: unescapeChars (d :: rest)

/-- The text of an escaped form. -/
def unescape (s : String) : String := String.ofList (unescapeChars s.toList)

@[simp] theorem toList_unescape (s : String) : (unescape s).toList = unescapeChars s.toList := by
  simp [unescape]

end GrammarDiagram.Literal
