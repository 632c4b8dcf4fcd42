/-
GrammarDiagram/Text/Blank.lean

White space, and text freed of the white space at its two ends.

The class is the one of the Unicode property `White_Space` together with the
four separators U+001C to U+001F, so a zero-width space or a byte order mark
is an ordinary character.  `strip` works on both ends at once: it drops the
blanks in front, turns the text round, drops them again and turns it back.
-/

namespace GrammarDiagram.Text

/-! ### The class -/

/-- White space: tab to carriage return, the four information separators,
space, and the blank characters outside ASCII. -/
def isBlank (c : Char) : Bool :=
  let n := c.toNat
  (0x09 ≤ n && n ≤ 0x0D) || (0x1C ≤ n && n ≤ 0x20) || n == 0x85 || n == 0xA0 ||
    n == 0x1680 || (0x2000 ≤ n && n ≤ 0x200A) || n == 0x2028 || n == 0x2029 ||
    n == 0x202F || n == 0x205F || n == 0x3000

/-! ### Stripping -/

/-- The characters without the blanks at either end. -/
def stripChars (cs : List Char) : List Char :=
  ((cs.dropWhile isBlank).reverse.dropWhile isBlank).reverse

/-- The text without the blanks at either end. -/
def strip (s : String) : String :=
  String.ofList (stripChars s.toList)

@[simp] theorem toList_strip (s : String) : (strip s).toList = stripChars s.toList := by
  simp [strip]

@[simp] theorem stripChars_nil : stripChars [] = [] := rfl

end GrammarDiagram.Text
