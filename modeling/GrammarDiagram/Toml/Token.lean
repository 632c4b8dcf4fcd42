/-
GrammarDiagram/Toml/Token.lean

The tokens of TOML: keys, strings, numbers, dates and times.

A reader takes characters and returns what it read together with the
characters that follow.  The text of a fault is nobody's business here: a
document is TOML or it is not.  Line ends have been unified before, so a
carriage return is a control character like the others.
-/
import GrammarDiagram.Json.Reader

namespace GrammarDiagram.Toml

/-! ### Faults -/

/-- Why a text cannot be read: it is not TOML, or it holds an integer with too
many digits, or its values are nested too deep. -/
inductive Fault where
  | malformed
  | tooManyDigits (count : Nat)
  | tooDeep
deriving DecidableEq, Repr

/-! ### Characters -/

/-- Blanks inside a line. -/
def isBlank (c : Char) : Bool := c == ' ' || c == '\t'

/-- Control characters, which stand nowhere but the tab. -/
def isControl (c : Char) : Bool := (c.toNat < 0x20 || c.toNat == 0x7F) && c != '\t'

/-- The characters of a key without quotes. -/
def isBareKeyChar (c : Char) : Bool := c.isAlphanum || c == '-' || c == '_'

/-- Skip blanks inside a line. -/
def skipBlanks (cs : List Char) : List Char := cs.dropWhile isBlank

/-- Skip the comment that starts here, if one does; its line end stays. -/
def skipComment (cs : List Char) : Except Fault (List Char) :=
  match cs with
  | '#' :: rest =>
    if (rest.takeWhile (· != '\n')).any isControl then .error .malformed
    else .ok (rest.dropWhile (· != '\n'))
  | _ => .ok cs

/-- Skip blanks, line ends and comments, as between the items of an array. -/
def skipFiller (inComment : Bool) : List Char → Except Fault (List Char)
  | [] => .ok []
  | c :: rest =>
    if inComment then
      if c == '\n' then skipFiller false rest
      else if isControl c then .error .malformed
      else skipFiller true rest
    else if isBlank c || c == '\n' then skipFiller false rest
    else if c == '#' then skipFiller true rest
    else .ok (c :: rest)

/-! ### Strings -/

/-- The value of hexadecimal digits. -/
def hexValue? (cs : List Char) : Option Nat :=
  cs.foldlM (fun n c => (Json.hexDigit? c).map (n * 16 + ·)) 0

/-- The escape behind a backslash: its character and what follows. -/
def escape? : List Char → Option (Char × List Char)
  | 'b' :: rest => some ('\x08', rest)
  | 't' :: rest => some ('\t', rest)
  | 'n' :: rest => some ('\n', rest)
  | 'f' :: rest => some ('\x0c', rest)
  | 'r' :: rest => some ('\r', rest)
  | '"' :: rest => some ('"', rest)
  | '\\' :: rest => some ('\\', rest)
  | 'u' :: a :: b :: c :: d :: rest => do
    let n ← hexValue? [a, b, c, d]
    let ch ← Json.scalar? n
    some (ch, rest)
  | 'U' :: a :: b :: c :: d :: e :: f :: g :: h :: rest => do
    let n ← hexValue? [a, b, c, d, e, f, g, h]
    let ch ← Json.scalar? n
    some (ch, rest)
  | _ => none

theorem length_escape? {cs rest : List Char} {c : Char} (h : escape? cs = some (c, rest)) :
    rest.length < cs.length := by
  unfold escape? at h
  split at h <;> simp_all [Option.bind_eq_some_iff] <;> grind

/-- A backslash at the end of a line: what follows it after all blanks and
line ends. -/
def continuation? (cs : List Char) : Option (List Char) :=
  match skipBlanks cs with
  | '\n' :: rest => some (rest.dropWhile fun c => isBlank c || c == '\n')
  | _ => none

theorem length_continuation? {cs rest : List Char} (h : continuation? cs = some rest) :
    rest.length < cs.length := by
  unfold continuation? at h
  split at h
  · rename_i r hr
    cases h
    have h₁ : (skipBlanks cs).length ≤ cs.length := (List.dropWhile_sublist _).length_le
    have h₂ : (r.dropWhile fun c => isBlank c || c == '\n').length ≤ r.length :=
      (List.dropWhile_sublist _).length_le
    rw [hr] at h₁
    simp only [List.length_cons] at h₁
    omega
  · cases h

/-- Read a string with escapes up to its closing quote or quotes; `acc` holds
what was read, the last character first. -/
def readBasic (multiline : Bool) (acc : List Char) (cs : List Char) :
    Except Fault (List Char × List Char) :=
  match cs with
  | [] => .error .malformed
  | c :: rest =>
    if c == '"' then
      if !multiline then .ok (acc.reverse, rest)
      else if ['"', '"'].isPrefixOf rest then .ok (acc.reverse, rest.drop 2)
      else readBasic multiline (c :: acc) rest
    else if c == '\\' then
      match h : escape? rest with
      | some (e, rest') =>
        have := length_escape? h
        readBasic multiline (e :: acc) rest'
      | none =>
        if multiline then
          match h' : continuation? rest with
          | some rest' =>
            have := length_continuation? h'
            readBasic multiline acc rest'
          | none => .error .malformed
        else .error .malformed
    else if isControl c && !(multiline && c == '\n') then .error .malformed
    else readBasic multiline (c :: acc) rest
termination_by cs.length
decreasing_by all_goals simp_all; try omega

/-- Read a string without escapes up to its closing apostrophe or
apostrophes. -/
def readLiteral (multiline : Bool) (acc : List Char) : List Char → Except Fault (List Char × List Char)
  | [] => .error .malformed
  | c :: rest =>
    if c == '\'' && !multiline then .ok (acc.reverse, rest)
    else if c == '\'' && ['\'', '\''].isPrefixOf rest then .ok (acc.reverse, rest.drop 2)
    else if isControl c && !(multiline && c == '\n') then .error .malformed
    else readLiteral multiline (c :: acc) rest

/-- A string over several lines may end in up to two quotes of its own. -/
def trailingQuotes (mark : Char) (read : List Char × List Char) : List Char × List Char :=
  let (text, rest) := read
  if [mark, mark].isPrefixOf rest then (text ++ [mark, mark], rest.drop 2)
  else if [mark].isPrefixOf rest then (text ++ [mark], rest.drop 1)
  else (text, rest)

/-- The line end right behind the opening quotes is left out. -/
def skipFirstNewline : List Char → List Char
  | '\n' :: rest => rest
  | cs => cs

/-- Read a string of any kind, if one starts here. -/
def readString? (cs : List Char) : Option (Except Fault (List Char × List Char)) :=
  match cs with
  | '"' :: '"' :: '"' :: rest =>
    some ((readBasic true [] (skipFirstNewline rest)).map (trailingQuotes '"'))
  | '"' :: rest => some (readBasic false [] rest)
  | '\'' :: '\'' :: '\'' :: rest =>
    some ((readLiteral true [] (skipFirstNewline rest)).map (trailingQuotes '\''))
  | '\'' :: rest => some (readLiteral false [] rest)
  | _ => none

/-! ### Keys -/

/-- Read one part of a key: bare, or a string on one line. -/
def readKeyPart (cs : List Char) : Except Fault (String × List Char) :=
  match cs with
  | '"' :: rest => do
    let (text, rest) ← readBasic false [] rest
    .ok (String.ofList text, rest)
  | '\'' :: rest => do
    let (text, rest) ← readLiteral false [] rest
    .ok (String.ofList text, rest)
  | _ =>
    let text := cs.takeWhile isBareKeyChar
    if text.isEmpty then .error .malformed
    else .ok (String.ofList text, cs.dropWhile isBareKeyChar)

/-- Read a key: parts with points between them, blanks allowed around the
points and behind the key.  Each part takes one step. -/
def readKey (steps : Nat) (cs : List Char) : Except Fault (List String × List Char) :=
  match steps with
  | 0 => .error .malformed
  | steps + 1 => do
    let (part, rest) ← readKeyPart cs
    match skipBlanks rest with
    | '.' :: rest =>
      let (parts, rest) ← readKey steps (skipBlanks rest)
      .ok (part :: parts, rest)
    | rest => .ok ([part], rest)

/-! ### Numbers -/

/-- Digits behind a first one, with single underscores between them. -/
def moreDigits (isDigit : Char → Bool) : List Char → List Char × List Char
  | [] => ([], [])
  | [c] => if isDigit c then ([c], []) else ([], [c])
  | c :: d :: rest =>
    if isDigit c then
      let (digits, rest) := moreDigits isDigit (d :: rest)
      (c :: digits, rest)
    else if c == '_' && isDigit d then
      let (digits, rest) := moreDigits isDigit rest
      (d :: digits, rest)
    else ([], c :: d :: rest)

/-- Digits with single underscores between them, if a digit stands here. -/
def digits? (isDigit : Char → Bool) (cs : List Char) : Option (List Char × List Char) :=
  match cs with
  | c :: rest =>
    if isDigit c then
      let (digits, rest) := moreDigits isDigit rest
      some (c :: digits, rest)
    else none
  | [] => none

/-- An integer in base 16, 8 or 2, with its mark in front. -/
def readBased? (cs : List Char) : Option (Value × List Char) := do
  let (base, rest) ←
    match cs with
    | '0' :: 'x' :: rest => some (16, rest)
    | '0' :: 'o' :: rest => some (8, rest)
    | '0' :: 'b' :: rest => some (2, rest)
    | _ => none
  let (digits, rest) ← digits? (fun c => (Json.hexDigit? c).any (· < base)) rest
  let n : Nat := digits.foldl (fun n c => n * base + (Json.hexDigit? c).getD 0) 0
  some (.int n, rest)

/-- The exponent of a number, if there is one. -/
def readExponent? (cs : List Char) : Option (Int × List Char) :=
  match cs with
  | c :: rest =>
    if c == 'e' || c == 'E' then
      let (negative, _, rest) := Json.readSign rest
      (digits? Char.isDigit rest).map fun (digits, rest) =>
        let n : Int := Json.digitsValue digits
        (if negative then -n else n, rest)
    else none
  | [] => none

/-- The fraction of a number, if there is one. -/
def readFraction? (cs : List Char) : Option (List Char × List Char) :=
  match cs with
  | '.' :: rest => digits? Char.isDigit rest
  | _ => none

/-- A decimal number, if one starts here. -/
def readDecimal? (cs : List Char) : Option (Except Fault (Value × List Char)) := do
  let (negative, _, body) := Json.readSign cs
  let (whole, rest) ←
    match body with
    | '0' :: r => some (['0'], r)
    | r => digits? Char.isDigit r
  let fraction := readFraction? rest
  let rest := (fraction.map Prod.snd).getD rest
  let exponent := readExponent? rest
  let rest := (exponent.map Prod.snd).getD rest
  if fraction.isNone && exponent.isNone then
    if Number.digitLimit < whole.length then some (.error (.tooManyDigits whole.length))
    else
      let n : Int := Json.digitsValue whole
      some (.ok (.int (if negative then -n else n), rest))
  else
    let fractionDigits := (fraction.map Prod.fst).getD []
    let d := Double.ofDecimal negative (Json.digitsValue (whole ++ fractionDigits))
      ((exponent.map Prod.fst).getD 0 - fractionDigits.length)
    some (.ok (.double d, rest))

/-- The words that are numbers. -/
def numberWords : List (List Char × Value) :=
  [("inf".toList, .double (.infinite false)), ("nan".toList, .double .nan),
   ("+inf".toList, .double (.infinite false)), ("-inf".toList, .double (.infinite true)),
   ("+nan".toList, .double .nan), ("-nan".toList, .double .nan)]

/-- The word among these that starts here. -/
def readWord? (words : List (List Char × Value)) (cs : List Char) : Option (Value × List Char) :=
  words.findSome? fun (word, value) =>
    if word.isPrefixOf cs then some (value, cs.drop word.length) else none

/-! ### Dates and times -/

/-- A number of exactly `count` digits. -/
def fixedDigits? (count : Nat) (cs : List Char) : Option (Nat × List Char) :=
  let front := cs.take count
  if front.length == count && front.all Char.isDigit then
    some (Json.digitsValue front, cs.drop count)
  else none

/-- This character, and what follows. -/
def expect? (c : Char) (cs : List Char) : Option (List Char) :=
  match cs with
  | d :: rest => if c == d then some rest else none
  | [] => none

/-- A number written with at least `width` digits. -/
def padded (width n : Nat) : String :=
  let digits := Nat.toDigits 10 n
  String.ofList (List.replicate (width - digits.length) '0' ++ digits)

/-- A time of day, shown with six places if it has a fraction of a second;
further places are dropped. -/
def readTime? (cs : List Char) : Option (String × List Char) := do
  let (hour, cs) ← fixedDigits? 2 cs
  let cs ← expect? ':' cs
  let (minute, cs) ← fixedDigits? 2 cs
  let cs ← expect? ':' cs
  let (second, cs) ← fixedDigits? 2 cs
  if 24 ≤ hour || 60 ≤ minute || 60 ≤ second then none
  else
    let whole := padded 2 hour ++ ":" ++ padded 2 minute ++ ":" ++ padded 2 second
    match cs with
    | '.' :: rest =>
      let places := rest.takeWhile Char.isDigit
      if places.isEmpty then some (whole, cs)
      else
        let micros := places.take 6 ++ List.replicate (6 - places.length) '0'
        let fraction := if Json.digitsValue micros == 0 then "" else "." ++ String.ofList micros
        some (whole ++ fraction, rest.dropWhile Char.isDigit)
    | _ => some (whole, cs)

/-- The offset of a time from universal time, if there is one. -/
def readOffset? (cs : List Char) : Option (String × List Char) :=
  match cs with
  | 'Z' :: rest => some ("+00:00", rest)
  | 'z' :: rest => some ("+00:00", rest)
  | c :: rest => do
    if c != '+' && c != '-' then none
    else
      let (hour, rest) ← fixedDigits? 2 rest
      let rest ← expect? ':' rest
      let (minute, rest) ← fixedDigits? 2 rest
      if 24 ≤ hour || 60 ≤ minute then none
      else
        let sign := if c == '-' && 0 < hour + minute then "-" else "+"
        some (sign ++ padded 2 hour ++ ":" ++ padded 2 minute, rest)
  | [] => none

/-- The number of days of a month. -/
def daysIn (year month : Nat) : Nat :=
  if month == 2 then
    if year % 4 == 0 && (year % 100 != 0 || year % 400 == 0) then 29 else 28
  else if month == 4 || month == 6 || month == 9 || month == 11 then 30
  else 31

/-- A date, with a time of day and an offset if they follow.  A date that has
the form of one and is not in the calendar is a fault. -/
def readMoment? (cs : List Char) : Option (Except Fault (Value × List Char)) := do
  let (year, cs) ← fixedDigits? 4 cs
  let cs ← expect? '-' cs
  let (month, cs) ← fixedDigits? 2 cs
  let cs ← expect? '-' cs
  let (day, cs) ← fixedDigits? 2 cs
  if month == 0 || 12 < month || day == 0 || 31 < day then none
  else
    let date := padded 4 year ++ "-" ++ padded 2 month ++ "-" ++ padded 2 day
    let (shown, rest) :=
      match cs with
      | c :: rest =>
        if c == 'T' || c == 't' || c == ' ' then
          match readTime? rest with
          | some (time, rest) =>
            match readOffset? rest with
            | some (offset, rest) => (date ++ " " ++ time ++ offset, rest)
            | none => (date ++ " " ++ time, rest)
          | none => (date, cs)
        else (date, cs)
      | [] => (date, cs)
    if year == 0 || daysIn year month < day then some (.error .malformed)
    else some (.ok (.moment shown, rest))

end GrammarDiagram.Toml
