/-
GrammarDiagram/Number/Shortest.lean

The decimal text of a double: the fewest digits that read back as the same
double, and of those the nearest to it.

The reals that round to a double form an interval round it, whose ends belong
to it when the mantissa is even.  For one digit, then two, and so on, the two
neighbours of the double on the grid of decimals with that many digits are
tried; the first grid on which one of them lies in the interval wins.  All
comparisons are of exact fractions.
-/
import GrammarDiagram.Number.Double

namespace GrammarDiagram.Double

/-! ### Digits -/

/-- A positive decimal `digits · 10^exponent`. -/
structure Decimal where
  digits : Nat
  exponent : Int

/-- The decimal as a fraction. -/
def Decimal.ratio (d : Decimal) : Nat × Nat :=
  if 0 ≤ d.exponent then (d.digits * Nat.pow 10 d.exponent.toNat, 1)
  else (d.digits, Nat.pow 10 (-d.exponent).toNat)

/-- The fraction `m · 2^e`. -/
def binaryRatio (m : Nat) (e : Int) : Nat × Nat :=
  if 0 ≤ e then (m * Nat.pow 2 e.toNat, 1) else (m, Nat.pow 2 (-e).toNat)

/-- Whether a decimal reads back as the double `m · 2^e`: it lies between the
points half way to the two neighbouring doubles. -/
def readsBack (m : Nat) (e : Int) (d : Decimal) : Bool :=
  let (p, q) := d.ratio
  let belowIsCloser := m == Nat.pow 2 52 && leastExponent < e
  let (ln, ld) := if belowIsCloser then binaryRatio (4 * m - 1) (e - 2) else binaryRatio (2 * m - 1) (e - 1)
  let (hn, hd) := binaryRatio (2 * m + 1) (e - 1)
  if m % 2 == 0 then ln * q ≤ p * ld && p * hd ≤ hn * q
  else ln * q < p * ld && p * hd < hn * q

/-- The place of the first digit of `m · 2^e`: the `k` with
`10^k ≤ m · 2^e < 10^(k+1)`. -/
def firstPlace (m : Nat) (e : Int) : Int :=
  let (n, d) := binaryRatio m e
  ((Nat.toDigits 10 (n * Nat.pow 10 400 / d)).length : Int) - 401

/-- The neighbour of `m · 2^e` on the grid of `count` digits that reads back;
of two, the nearer, and on a tie the even one. -/
def onGrid? (m : Nat) (e : Int) (count : Nat) : Option Decimal :=
  let place := firstPlace m e - (count : Int) + 1
  let (n, d) := binaryRatio m e
  let (n, d) :=
    if 0 ≤ place then (n, d * Nat.pow 10 place.toNat) else (n * Nat.pow 10 (-place).toNat, d)
  let below : Decimal := ⟨n / d, place⟩
  let above : Decimal := ⟨n / d + 1, place⟩
  let nearest : Decimal := ⟨roundDiv n d, place⟩
  if 0 < below.digits && readsBack m e below && readsBack m e above then some nearest
  else if 0 < below.digits && readsBack m e below then some below
  else if readsBack m e above then some above
  else none

/-- The shortest decimal that reads back.  Seventeen digits always do. -/
def shortest (m : Nat) (e : Int) : Decimal :=
  ((List.range' 1 17).findSome? (onGrid? m e)).getD ⟨m, e⟩

/-! ### Text -/

/-- The digits without the zeros at the end. -/
def significant (n : Nat) : List Char :=
  ((Nat.toDigits 10 n).reverse.dropWhile (· == '0')).reverse

/-- Numbers from `10^-4` up to `10^16` are written with a decimal point in
place and at least one digit after it, all others with an exponent of at least
two digits. -/
def positionalText (digits : List Char) (point : Int) : List Char :=
  if point ≤ -4 || 16 < point then
    let exponent := point - 1
    let fraction := if digits.length ≤ 1 then [] else '.' :: digits.drop 1
    let size := Nat.toDigits 10 exponent.natAbs
    let size := if size.length < 2 then '0' :: size else size
    digits.take 1 ++ fraction ++ ['e', if exponent < 0 then '-' else '+'] ++ size
  else if point ≤ 0 then
    ['0', '.'] ++ List.replicate (-point).toNat '0' ++ digits
  else if point.toNat < digits.length then
    digits.take point.toNat ++ '.' :: digits.drop point.toNat
  else
    digits ++ List.replicate (point.toNat - digits.length) '0' ++ ['.', '0']

/-- The text of a double. -/
def text : Double → String
  | .nan => "nan"
  | .infinite s => if s then "-inf" else "inf"
  | .finite s m e =>
    let body :=
      if m == 0 then ['0', '.', '0']
      else
        let d := shortest m e
        let point := d.exponent + (Nat.toDigits 10 d.digits).length
        positionalText (significant d.digits) point
    String.ofList (if s then '-' :: body else body)

end GrammarDiagram.Double
