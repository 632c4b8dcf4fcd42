/-
GrammarDiagram/Toml/Document.lean

Reading TOML documents into values.

A document is a sequence of statements, each on a line of its own: a key with
a value, or the header of a table or of an item of an array of tables.  What
has been written is one nested object; beside it stands which tables are
closed: a table with a header of its own has no second header, a table made by
a key with points gets none, and a value written in one piece is not extended.

Nested values and the sequence of statements are read with a bound on the
number of steps, computed from the length of the text.  How deep values may be
nested is bounded too: an array takes up two places of the room for nesting, a
table in one line three, and either of them one if it is empty.
-/
import GrammarDiagram.Toml.Token

namespace GrammarDiagram.Toml

/-! ### Nested objects -/

/-- Change the object behind a path, making the objects on the way that are
missing.  Where `intoLists` is set, a list stands for its last item.  There is
no object behind a path that goes through another value. -/
def updateAt (intoLists : Bool) :
    List String → (List (String × Value) → Option (List (String × Value))) →
      List (String × Value) → Option (List (String × Value))
  | [], change, fields => change fields
  | key :: path, change, fields =>
    match Value.findField key fields with
    | none => do
      let inner ← updateAt intoLists path change []
      some (Value.putField key (.object inner) fields)
    | some (.object inner) => do
      let inner ← updateAt intoLists path change inner
      some (Value.putField key (.object inner) fields)
    | some (.list items) =>
      match intoLists, items.getLast? with
      | true, some (.object inner) => do
        let inner ← updateAt intoLists path change inner
        some (Value.putField key (.list (items.dropLast ++ [.object inner])) fields)
      | _, _ => none
    | some _ => none

/-- Put a field that is not there yet. -/
def addField (key : String) (value : Value) (fields : List (String × Value)) :
    Option (List (String × Value)) :=
  if (Value.findField key fields).isSome then none else some (Value.putField key value fields)

/-- Put a new object at the end of the list of objects under a key. -/
def addItem (key : String) (fields : List (String × Value)) : Option (List (String × Value)) :=
  match Value.findField key fields with
  | none => some (Value.putField key (.list [.object []]) fields)
  | some (.list items) => some (Value.putField key (.list (items ++ [.object []])) fields)
  | some _ => none

/-- What an operation on the document yields, a failure being a fault. -/
def orMalformed {α : Type} : Option α → Except Fault α
  | some a => .ok a
  | none => .error .malformed

/-- Whether a value is written in one piece and has parts. -/
def isComposite : Value → Bool
  | .list _ => true
  | .object _ => true
  | _ => false

/-- Whether one of the paths leads to this key or to a table around it. -/
def covers (paths : List (List String)) (key : List String) : Bool :=
  paths.any fun p => p.isPrefixOf key

/-! ### Values -/

/-- The words that are truth values. -/
def truthWords : List (List Char × Value) :=
  [("true".toList, .bool true), ("false".toList, .bool false)]

/-- A value without parts. -/
def readScalar (cs : List Char) : Except Fault (Value × List Char) :=
  match readString? cs with
  | some r => r.map fun (text, rest) => (.text (String.ofList text), rest)
  | none =>
    match readWord? truthWords cs with
    | some r => .ok r
    | none =>
      match readMoment? cs with
      | some r => r
      | none =>
        match readTime? cs with
        | some (shown, rest) => .ok (.moment shown, rest)
        | none =>
          match readBased? cs with
          | some r => .ok r
          | none =>
            match readDecimal? cs with
            | some r => r
            | none => orMalformed (readWord? numberWords cs)

/-- The room for nesting. -/
def nestingRoom : Nat := 987

mutual

/-- Read a value, in at most `steps` steps and with `room` for nesting. -/
def readValue (steps room : Nat) (cs : List Char) : Except Fault (Value × List Char) :=
  match steps with
  | 0 => .error .malformed
  | steps + 1 =>
    match cs with
    | '[' :: rest =>
      if room < 1 then .error .tooDeep
      else do
        let rest ← skipFiller false rest
        match rest with
        | ']' :: rest => .ok (.list [], rest)
        | _ => if room < 2 then .error .tooDeep else readItems steps (room - 2) [] rest
    | '{' :: rest =>
      if room < 1 then .error .tooDeep
      else
        match skipBlanks rest with
        | '}' :: rest => .ok (.object [], rest)
        | rest => if room < 3 then .error .tooDeep else readPairs steps (room - 3) [] [] rest
    | _ => readScalar cs

/-- Read the items of an array; `acc` holds those read, the last one first. -/
def readItems (steps room : Nat) (acc : List Value) (cs : List Char) :
    Except Fault (Value × List Char) :=
  match steps with
  | 0 => .error .malformed
  | steps + 1 => do
    let (v, rest) ← readValue steps room cs
    let rest ← skipFiller false rest
    match rest with
    | ']' :: rest => .ok (.list (v :: acc).reverse, rest)
    | ',' :: rest => do
      let rest ← skipFiller false rest
      match rest with
      | ']' :: rest => .ok (.list (v :: acc).reverse, rest)
      | _ => readItems steps room (v :: acc) rest
    | _ => .error .malformed

/-- Read the pairs of a table in one line; `frozen` lists the keys whose values
are complete. -/
def readPairs (steps room : Nat) (frozen : List (List String)) (fields : List (String × Value))
    (cs : List Char) : Except Fault (Value × List Char) :=
  match steps with
  | 0 => .error .malformed
  | steps + 1 => do
    let (key, rest) ← readKey (cs.length + 1) cs
    match rest with
    | '=' :: rest =>
      let (v, rest) ← readValue steps room (skipBlanks rest)
      if covers frozen key then .error .malformed
      else
        let fields ← orMalformed
          (updateAt false key.dropLast (addField (key.getLastD "") v) fields)
        let frozen := if isComposite v then key :: frozen else frozen
        match skipBlanks rest with
        | '}' :: rest => .ok (.object fields, rest)
        | ',' :: rest => readPairs steps room frozen fields (skipBlanks rest)
        | _ => .error .malformed
    | _ => .error .malformed

end

/-! ### Statements -/

/-- A document in the making: its fields, the key of the table that is open,
the tables that have a header, the values that are complete, and the tables
made by keys with points since the last header. -/
structure Document where
  fields : List (String × Value) := []
  header : List String := []
  declared : List (List String) := []
  frozen : List (List String) := []
  pending : List (List String) := []

namespace Document

/-- A new header: the tables made by keys with points are closed. -/
def closePending (d : Document) : Document :=
  { d with declared := d.pending ++ d.declared, pending := [] }

/-- Open the table with this key. -/
def openTable (d : Document) (key : List String) : Except Fault Document :=
  if d.declared.contains key || covers d.frozen key then .error .malformed
  else do
    let fields ← orMalformed (updateAt true key some d.fields)
    .ok { d with fields := fields, header := key, declared := key :: d.declared }

/-- Open a new item of the array of tables with this key. -/
def openItem (d : Document) (key : List String) : Except Fault Document :=
  if covers d.frozen key then .error .malformed
  else do
    let outside := fun p : List String => !key.isPrefixOf p
    let fields ← orMalformed (updateAt true key.dropLast (addItem (key.getLastD "")) d.fields)
    .ok { d with
      fields := fields
      header := key
      declared := key :: d.declared.filter outside
      frozen := d.frozen.filter outside }

/-- The keys that lead to a key, itself left out, below the open table. -/
def ancestors (header : List String) : List String → List (List String)
  | [] => []
  | [_] => []
  | k :: rest => (header ++ [k]) :: ancestors (header ++ [k]) rest

/-- Put a value under a key of the open table. -/
def assign (d : Document) (key : List String) (value : Value) : Except Fault Document :=
  let above := ancestors d.header key
  let parent := d.header ++ key.dropLast
  if above.any d.declared.contains || covers d.frozen parent then .error .malformed
  else do
    let fields ← orMalformed (updateAt true parent (addField (key.getLastD "") value) d.fields)
    .ok { d with
      fields := fields
      pending := above ++ d.pending
      frozen := if isComposite value then (d.header ++ key) :: d.frozen else d.frozen }

end Document

/-- Read the statement at the start of a line, up to what may follow it. -/
def readStatement (d : Document) (cs : List Char) : Except Fault (Document × List Char) :=
  match cs with
  | '[' :: '[' :: rest => do
    let (key, rest) ← readKey (rest.length + 1) (skipBlanks rest)
    let d ← d.closePending.openItem key
    match rest with
    | ']' :: ']' :: rest => .ok (d, skipBlanks rest)
    | _ => .error .malformed
  | '[' :: rest => do
    let (key, rest) ← readKey (rest.length + 1) (skipBlanks rest)
    let d ← d.closePending.openTable key
    match rest with
    | ']' :: rest => .ok (d, skipBlanks rest)
    | _ => .error .malformed
  | '#' :: _ => .ok (d, cs)
  | _ => do
    let (key, rest) ← readKey (cs.length + 1) cs
    match rest with
    | '=' :: rest =>
      let (v, rest) ← readValue (2 * rest.length + 2) nestingRoom (skipBlanks rest)
      let d ← d.assign key v
      .ok (d, skipBlanks rest)
    | _ => .error .malformed

/-- Read the statements of a document, in at most `steps` steps. -/
def readStatements (steps : Nat) (d : Document) (cs : List Char) : Except Fault Document :=
  match steps with
  | 0 => .error .malformed
  | steps + 1 =>
    match skipBlanks cs with
    | [] => .ok d
    | '\n' :: rest => readStatements steps d rest
    | cs => do
      let (d, rest) ← readStatement d cs
      let rest ← skipComment rest
      match rest with
      | [] => .ok d
      | '\n' :: rest => readStatements steps d rest
      | _ => .error .malformed

/-- Read a document: its fields in order. -/
def readDocument (cs : List Char) : Except Fault (List (String × Value)) :=
  (readStatements (cs.length + 1) {} cs).map Document.fields

end GrammarDiagram.Toml
