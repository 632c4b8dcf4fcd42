/-
GrammarDiagram/Value.lean

The values that documents and settings hold.

Documents are not typed: where a text is expected there may be a number, and
the reader of a document decides only when it needs the value.  So one type
holds them all, with the few notions that the readers share: which values
count as absent, which are numbers, when two are the same, when one is
greater, and the text of a value.
-/
import GrammarDiagram.Number.Basic
import GrammarDiagram.Text.Quoted

namespace GrammarDiagram

/-- A value of a document.  The fields of an object are in order and have
pairwise different names.  A moment is a date or a time of day, known by its
text. -/
inductive Value where
  | null
  | bool (b : Bool)
  | int (n : Int)
  | double (d : Double)
  | text (s : String)
  | moment (shown : String)
  | list (items : List Value)
  | object (fields : List (String × Value))

namespace Value

instance : Inhabited Value := ⟨.null⟩

/-! ### Fields -/

/-- The field of this name. -/
def findField (name : String) : List (String × Value) → Option Value
  | [] => none
  | f :: rest => if f.1 = name then some f.2 else findField name rest

/-- Put a field: in the place of the field of this name, or at the end. -/
def putField (name : String) (value : Value) : List (String × Value) → List (String × Value)
  | [] => [(name, value)]
  | f :: rest => if f.1 = name then (name, value) :: rest else f :: putField name value rest

/-! ### Presence -/

/-- Null, false, zero and everything empty count as absent. -/
def isPresent : Value → Bool
  | .null => false
  | .bool b => b
  | .int n => n != 0
  | .double d => !d.isZero
  | .text s => s != ""
  | .moment _ => true
  | .list items => !items.isEmpty
  | .object fields => !fields.isEmpty

/-- A value that counts as absent is taken for null. -/
def orNull (v : Value) : Value := if v.isPresent then v else .null

/-! ### Numbers -/

/-- The number that a value is; a truth value counts as 0 or 1. -/
def number? : Value → Option Number
  | .bool b => some (.int (if b then 1 else 0))
  | .int n => some (.int n)
  | .double d => some (.double d)
  | _ => none

/-! ### Sameness and order

A not-a-number is the same as itself: it has one spelling only, and two of them in
a document are one value. -/

/-- Whether two numbers are the same. -/
def sameNumber : Number → Number → Bool
  | .double .nan, .double .nan => true
  | a, b => a.equal b

mutual

/-- Whether two values are the same: numbers by value, lists item by item,
objects field by field in any order. -/
def same : Value → Value → Bool
  | .null, .null => true
  | .text s, .text t => s == t
  | .moment s, .moment t => s == t
  | .list xs, .list ys => sameItems xs ys
  | .object fs, .object gs => fs.length == gs.length && sameFields fs gs
  | v, w =>
    match v.number?, w.number? with
    | some a, some b => sameNumber a b
    | _, _ => false

/-- Whether two lists of values are the same. -/
def sameItems : List Value → List Value → Bool
  | [], [] => true
  | x :: xs, y :: ys => same x y && sameItems xs ys
  | _, _ => false

/-- Whether each field has the same value among the other fields. -/
def sameFields : List (String × Value) → List (String × Value) → Bool
  | [], _ => true
  | (name, v) :: fs, gs =>
    (match findField name gs with
      | some w => same v w
      | none => false) && sameFields fs gs

end

mutual

/-- Whether the first value is greater; numbers, texts and lists can be
compared, each with its own kind. -/
def greater? : Value → Value → Option Bool
  | .text s, .text t => some (t < s)
  | .list xs, .list ys => greaterItems? xs ys
  | v, w => do
    let a ← v.number?
    let b ← w.number?
    some (a.greater b)

/-- Lists are compared at the first place where they differ, and by length if
there is none. -/
def greaterItems? : List Value → List Value → Option Bool
  | [], _ => some false
  | _ :: _, [] => some true
  | x :: xs, y :: ys => if same x y then greaterItems? xs ys else greater? x y

end

/-! ### Text -/

mutual

/-- A value as it is shown inside another one: texts in quotes. -/
def inspect : Value → String
  | .null => "None"
  | .bool b => if b then "True" else "False"
  | .int n => toString n
  | .double d => d.text
  | .text s => Text.quoted s
  | .moment s => s
  | .list items => "[" ++ String.intercalate ", " (inspectItems items) ++ "]"
  | .object fields => "\x7b" ++ String.intercalate ", " (inspectFields fields) ++ "\x7d"

/-- The items of a list, one by one. -/
def inspectItems : List Value → List String
  | [] => []
  | v :: rest => inspect v :: inspectItems rest

/-- The fields of an object, one by one. -/
def inspectFields : List (String × Value) → List String
  | [] => []
  | (name, v) :: rest => (Text.quoted name ++ ": " ++ inspect v) :: inspectFields rest

end

mutual

/-- Whether a value has a text: every integer in it can be written. -/
def isWritable : Value → Bool
  | .int n => (Number.int n).isWritable
  | .list items => areWritable items
  | .object fields => fieldsAreWritable fields
  | _ => true

/-- Whether all values of a list have a text. -/
def areWritable : List Value → Bool
  | [] => true
  | v :: rest => isWritable v && areWritable rest

/-- Whether the values of all fields have a text. -/
def fieldsAreWritable : List (String × Value) → Bool
  | [] => true
  | (_, v) :: rest => isWritable v && fieldsAreWritable rest

end

/-- A value by itself: a text stands for itself. -/
def display : Value → String
  | .text s => s
  | v => v.inspect

@[simp] theorem display_text (s : String) : display (.text s) = s := rfl

end Value

end GrammarDiagram
