/-
GrammarDiagram/Json/Reader.lean

Reading JSON text into values.

The reader goes through the characters once and stops at the first fault.
A fault has a cause and an offset, from which line and column are worked out
at the end.  Beyond the standard, the words `NaN`, `Infinity` and `-Infinity`
are numbers.  Of two fields with one name the last gives the value and the
first the place.  An integer may have at most 4300 digits, and lists and
objects may be nested 989 deep.  Texts are made of characters, so that a half of a
surrogate pair by itself is a fault; the standard would let it stand.

Nested values are read with a bound on the number of steps; twice the length
of the text is enough, as every second step takes a character at least.
-/
import GrammarDiagram.Value

namespace GrammarDiagram.Json

/-! ### Faults -/

/-- What is wrong with a text that is not JSON. -/
inductive Cause where
  | expectedValue
  | expectedName
  | expectedColon
  | expectedComma
  | unterminatedString
  | controlCharacter
  | badEscape
  | badUnicodeEscape
  | extraData
  | byteOrderMark
deriving DecidableEq, Repr

/-- Why a text cannot be read: it is not JSON, at the given place, or it holds
an integer with too many digits, or its values are nested too deep, or half a
surrogate pair stands by itself. -/
inductive Fault where
  | malformed (cause : Cause) (line column offset : Nat)
  | tooManyDigits (count : Nat)
  | tooDeep
  | loneSurrogate
deriving DecidableEq, Repr

/-- How deep lists and objects may be nested. -/
def nestingLimit : Nat := 989

/-- The words for an integer with too many digits. -/
def tooManyDigitsMessage (count : Nat) : String :=
  "Exceeds the limit (" ++ toString Number.digitLimit ++ " digits) for integer string conversion: value has " ++
    toString count ++ " digits; use sys.set_int_max_str_digits() to increase the limit"

/-- The cause in words. -/
def Cause.message : Cause → String
  | .expectedValue => "Expecting value"
  | .expectedName => "Expecting property name enclosed in double quotes"
  | .expectedColon => "Expecting ':' delimiter"
  | .expectedComma => "Expecting ',' delimiter"
  | .unterminatedString => "Unterminated string starting at"
  | .controlCharacter => "Invalid control character at"
  | .badEscape => "Invalid \\escape"
  | .badUnicodeEscape => "Invalid \\uXXXX escape"
  | .extraData => "Extra data"
  | .byteOrderMark => "Unexpected UTF-8 BOM (decode using utf-8-sig)"

/-- The fault in words, with its place counted in characters. -/
def Fault.message : Fault → String
  | .malformed cause line column offset =>
    cause.message ++ ": line " ++ toString line ++ " column " ++ toString column ++
      " (char " ++ toString offset ++ ")"
  | .tooManyDigits count => tooManyDigitsMessage count
  | .tooDeep => "nested too deep"
  | .loneSurrogate => "half a surrogate pair"

/-! ### Characters -/

/-- Where the reader stopped. -/
inductive Stop where
  | at (cause : Cause) (offset : Nat)
  | tooManyDigits (count : Nat)
  | tooDeep
  | loneSurrogate

/-- What a step returns: a result, the offset after it, and the characters from
there on. -/
abbrev Step (α : Type) := α × Nat × List Char

/-- The blanks between tokens. -/
def isSpace (c : Char) : Bool :=
  c == ' ' || c == '\t' || c == '\n' || c == '\r'

/-- Skip blanks. -/
def skipSpaces (pos : Nat) : List Char → Nat × List Char
  | [] => (pos, [])
  | c :: rest => if isSpace c then skipSpaces (pos + 1) rest else (pos, c :: rest)

/-- The value of a hexadecimal digit. -/
def hexDigit? (c : Char) : Option Nat :=
  if c.isDigit then some (c.toNat - 48)
  else if 'a' ≤ c && c ≤ 'f' then some (c.toNat - 87)
  else if 'A' ≤ c && c ≤ 'F' then some (c.toNat - 55)
  else none

/-- The value of four hexadecimal digits. -/
def hexQuad? (a b c d : Char) : Option Nat := do
  let a ← hexDigit? a
  let b ← hexDigit? b
  let c ← hexDigit? c
  let d ← hexDigit? d
  some (((a * 16 + b) * 16 + c) * 16 + d)

/-- The character that stands behind a backslash for another one. -/
def escaped? : Char → Option Char
  | '"' => some '"'
  | '\\' => some '\\'
  | '/' => some '/'
  | 'b' => some '\x08'
  | 'f' => some '\x0c'
  | 'n' => some '\n'
  | 'r' => some '\r'
  | 't' => some '\t'
  | _ => none

/-! ### Strings -/

/-- The character of a code point, unless it is a surrogate or too large. -/
def scalar? (n : Nat) : Option Char :=
  if n < 0xD800 || (0xE000 ≤ n && n < 0x110000) then some (Char.ofNat n) else none

/-- The characters of code points in which the two halves of a surrogate pair
may stand one after the other; a half by itself is none. -/
def joinSurrogates? : List Nat → Option (List Char)
  | [] => some []
  | [n] => do return [← scalar? n]
  | n :: m :: rest =>
    if 0xD800 ≤ n && n ≤ 0xDBFF && 0xDC00 ≤ m && m ≤ 0xDFFF then do
      return Char.ofNat (0x10000 + (n - 0xD800) * 0x400 + (m - 0xDC00)) :: (← joinSurrogates? rest)
    else do
      return (← scalar? n) :: (← joinSurrogates? (m :: rest))

/-- Read a string up to its closing quote.  `start` is the offset of the
opening quote, `pos` the offset of the next character, `acc` the code points
read, the last one first.  Behind `\u` stand four digits and, since the string
has to be closed, one more character. -/
def readString (start pos : Nat) (acc : List Nat) :
    List Char → Except Stop (Step String)
  | [] => .error (.at .unterminatedString start)
  | '"' :: rest =>
    match joinSurrogates? acc.reverse with
    | some text => .ok (String.ofList text, pos + 1, rest)
    | none => .error .loneSurrogate
  | '\\' :: 'u' :: a :: b :: c :: d :: next :: rest =>
    match hexQuad? a b c d with
    | some n => readString start (pos + 6) (n :: acc) (next :: rest)
    | none => .error (.at .badUnicodeEscape (pos + 1))
  | '\\' :: 'u' :: _ => .error (.at .badUnicodeEscape (pos + 1))
  | '\\' :: c :: rest =>
    match escaped? c with
    | some e => readString start (pos + 2) (e.toNat :: acc) rest
    | none => .error (.at .badEscape pos)
  | ['\\'] => .error (.at .unterminatedString start)
  | c :: rest =>
    if c.toNat < 0x20 then .error (.at .controlCharacter pos)
    else readString start (pos + 1) (c.toNat :: acc) rest

/-! ### Numbers -/

/-- The value of a run of decimal digits. -/
def digitsValue (cs : List Char) : Nat :=
  cs.foldl (fun n c => n * 10 + (c.toNat - 48)) 0

/-- The digits in front, and what follows them. -/
def digitRun (cs : List Char) : List Char × List Char :=
  (cs.takeWhile Char.isDigit, cs.dropWhile Char.isDigit)

/-- The fraction of a number: a point and digits, or nothing; with the number of
characters taken. -/
def readFraction (cs : List Char) : List Char × Nat × List Char :=
  match cs with
  | '.' :: rest =>
    match digitRun rest with
    | ([], _) => ([], 0, cs)
    | (digits, rest') => (digits, digits.length + 1, rest')
  | _ => ([], 0, cs)

/-- The sign in front of digits: whether it is a minus, how many characters it
takes, and what follows. -/
def readSign (cs : List Char) : Bool × Nat × List Char :=
  match cs with
  | '-' :: rest => (true, 1, rest)
  | '+' :: rest => (false, 1, rest)
  | _ => (false, 0, cs)

/-- The exponent of a number: a letter, a sign if any and digits, or nothing;
with the number of characters taken. -/
def readExponent (cs : List Char) : Option Int × Nat × List Char :=
  match cs with
  | c :: rest =>
    if c == 'e' || c == 'E' then
      let (negative, width, rest) := readSign rest
      match digitRun rest with
      | ([], _) => (none, 0, cs)
      | (digits, rest') =>
        let n : Int := digitsValue digits
        (some (if negative then -n else n), 1 + width + digits.length, rest')
    else (none, 0, cs)
  | [] => (none, 0, cs)

/-- Read a number.  It is an integer if it has neither fraction nor
exponent. -/
def readNumber (pos : Nat) (cs : List Char) : Except Stop (Step Value) :=
  let (negative, body) :=
    match cs with
    | '-' :: r => (true, r)
    | r => (false, r)
  let (whole, rest) :=
    match body with
    | '0' :: r => (['0'], r)
    | r => digitRun r
  if whole.isEmpty then .error (.at .expectedValue pos)
  else
    let (fraction, fractionWidth, rest) := readFraction rest
    let (exponent, exponentWidth, rest) := readExponent rest
    let stop := pos + (if negative then 1 else 0) + whole.length + fractionWidth + exponentWidth
    if fraction.isEmpty && exponent.isNone then
      if Number.digitLimit < whole.length then .error (.tooManyDigits whole.length)
      else
        let n : Int := digitsValue whole
        .ok (.int (if negative then -n else n), stop, rest)
    else
      let d := Double.ofDecimal negative (digitsValue (whole ++ fraction))
        (exponent.getD 0 - fraction.length)
      .ok (.double d, stop, rest)

/-! ### Values -/

/-- The words that are values. -/
def words : List (List Char × Value) :=
  [("null".toList, .null), ("true".toList, .bool true), ("false".toList, .bool false),
   ("NaN".toList, .double .nan), ("Infinity".toList, .double (.infinite false)),
   ("-Infinity".toList, .double (.infinite true))]

/-- Read a word that is a value. -/
def readWord? (pos : Nat) (cs : List Char) : Option (Value × Nat × List Char) :=
  words.findSome? fun (word, value) =>
    if word.isPrefixOf cs then some (value, pos + word.length, cs.drop word.length) else none

mutual

/-- Read a value at `pos`, in at most `steps` steps; lists and objects may still
be nested `room` deep. -/
def readValue (steps room pos : Nat) (cs : List Char) : Except Stop (Step Value) :=
  match steps with
  | 0 => .error (.at .expectedValue pos)
  | steps + 1 =>
    match cs with
    | [] => .error (.at .expectedValue pos)
    | '"' :: rest => do
      let (s, pos, rest) ← readString pos (pos + 1) [] rest
      .ok (.text s, pos, rest)
    | '[' :: rest =>
      if room = 0 then .error .tooDeep
      else
        let (pos, rest) := skipSpaces (pos + 1) rest
        match rest with
        | ']' :: rest => .ok (.list [], pos + 1, rest)
        | _ => readItems steps (room - 1) pos [] rest
    | '{' :: rest =>
      if room = 0 then .error .tooDeep
      else
        let (pos, rest) := skipSpaces (pos + 1) rest
        match rest with
        | '}' :: rest => .ok (.object [], pos + 1, rest)
        | _ => readFields steps (room - 1) pos [] rest
    | _ =>
      match readWord? pos cs with
      | some r => .ok r
      | none => readNumber pos cs

/-- Read the items of a list up to its closing bracket; `acc` holds the items
read, the last one first. -/
def readItems (steps room pos : Nat) (acc : List Value) (cs : List Char) :
    Except Stop (Step Value) :=
  match steps with
  | 0 => .error (.at .expectedValue pos)
  | steps + 1 => do
    let (v, pos, rest) ← readValue steps room pos cs
    let (pos, rest) := skipSpaces pos rest
    match rest with
    | ']' :: rest => .ok (.list (v :: acc).reverse, pos + 1, rest)
    | ',' :: rest =>
      let (pos, rest) := skipSpaces (pos + 1) rest
      readItems steps room pos (v :: acc) rest
    | _ => .error (.at .expectedComma pos)

/-- Read the fields of an object up to its closing brace. -/
def readFields (steps room pos : Nat) (acc : List (String × Value)) (cs : List Char) :
    Except Stop (Step Value) :=
  match steps with
  | 0 => .error (.at .expectedValue pos)
  | steps + 1 =>
    match cs with
    | '"' :: rest => do
      let (name, pos, rest) ← readString pos (pos + 1) [] rest
      let (pos, rest) := skipSpaces pos rest
      match rest with
      | ':' :: rest =>
        let (pos, rest) := skipSpaces (pos + 1) rest
        let (v, pos, rest) ← readValue steps room pos rest
        let (pos, rest) := skipSpaces pos rest
        let fields := Value.putField name v acc
        match rest with
        | '}' :: rest => .ok (.object fields, pos + 1, rest)
        | ',' :: rest =>
          let (pos, rest) := skipSpaces (pos + 1) rest
          readFields steps room pos fields rest
        | _ => .error (.at .expectedComma pos)
      | _ => .error (.at .expectedColon pos)
    | _ => .error (.at .expectedName pos)

end

/-! ### Texts -/

/-- Line and column of an offset, both counted from one. -/
def place (cs : List Char) (offset : Nat) : Nat × Nat :=
  let before := cs.take offset
  (before.count '\n' + 1, (before.reverse.takeWhile (· != '\n')).length + 1)

/-- The fault at a stop. -/
def Stop.fault (cs : List Char) : Stop → Fault
  | .at cause offset =>
    let (line, column) := place cs offset
    .malformed cause line column offset
  | .tooManyDigits count => .tooManyDigits count
  | .tooDeep => .tooDeep
  | .loneSurrogate => .loneSurrogate

/-- Read a text that is one value between blanks. -/
def readText (cs : List Char) : Except Fault Value :=
  let result : Except Stop Value :=
    if cs.head? == some '\ufeff' then .error (.at .byteOrderMark 0)
    else do
      let (pos, rest) := skipSpaces 0 cs
      let (v, pos, rest) ← readValue (2 * cs.length + 2) nestingLimit pos rest
      let (pos, rest) := skipSpaces pos rest
      if rest.isEmpty then .ok v else .error (.at .extraData pos)
  result.mapError (Stop.fault cs)

end GrammarDiagram.Json
