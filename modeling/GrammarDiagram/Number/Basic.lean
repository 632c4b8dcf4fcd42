/-
GrammarDiagram/Number/Basic.lean

Numbers as documents hold them: integers of any size, and doubles.

Two integers are subtracted exactly.  As soon as a double takes part the
integer is first turned into the nearest double, which fails when it lies
beyond the doubles.  Comparison is always exact.  Integers of any size can be
calculated with, but in decimal digits only those up to a limit are read and
written.
-/
import GrammarDiagram.Number.Shortest

namespace GrammarDiagram

/-- An integer or a double. -/
inductive Number where
  | int (n : Int)
  | double (d : Double)
deriving DecidableEq, Repr

namespace Number

/-- The number as a double, if it is not an integer beyond them. -/
def toDouble? : Number → Option Double
  | .int n => Double.ofInt? n
  | .double d => some d

/-- Difference; there is none when an integer beyond the doubles meets a
double. -/
def sub? : Number → Number → Option Number
  | .int a, .int b => some (.int (a - b))
  | a, b => do
    let x ← a.toDouble?
    let y ← b.toDouble?
    some (.double (x.sub y))

/-- Absolute value. -/
def abs : Number → Number
  | .int n => .int n.natAbs
  | .double d => .double d.abs

/-- Exact comparison; a not-a-number has no place in the order. -/
def compare? : Number → Number → Option Ordering
  | .int a, .int b => some (compare a b)
  | .double a, .double b => a.compare? b
  | .double a, .int b => a.compareInt? b
  | .int a, .double b => (b.compareInt? a).map Ordering.swap

/-- Equality of value: a not-a-number equals nothing. -/
def equal (a b : Number) : Bool :=
  a.compare? b == some .eq

/-- Strictly greater. -/
def greater (a b : Number) : Bool :=
  a.compare? b == some .gt

/-- Zero of either kind and sign. -/
def isZero : Number → Bool
  | .int n => n == 0
  | .double d => d.isZero

/-- The most decimal digits of an integer that can be read or written. -/
def digitLimit : Nat := 4300

/-- Whether a number can be written in decimal digits. -/
def isWritable : Number → Bool
  | .int n => n.natAbs < Nat.pow 10 digitLimit
  | .double _ => true

@[simp] theorem sub?_int (a b : Int) : sub? (.int a) (.int b) = some (.int (a - b)) := rfl

@[simp] theorem compare?_int (a b : Int) : compare? (.int a) (.int b) = some (compare a b) := rfl

end Number

end GrammarDiagram
