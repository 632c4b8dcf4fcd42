/-
GrammarDiagram/Number/Double.lean

Double precision numbers, with exact arithmetic.

A finite double is a sign, a mantissa and a power of two, kept in one form:
the mantissa is below 2^53, the exponent is at least -1074, and the mantissa
reaches 2^52 unless the exponent is -1074.  Every operation here works out
its exact result as a fraction and rounds once, to the nearest double and to
the even mantissa on a tie, which is what `ofRatio` does.  A not-a-number has
no sign and no payload.
-/

namespace GrammarDiagram

/-- A double precision number: `finite s m e` is `± m · 2^e`. -/
inductive Double where
  | nan
  | infinite (negative : Bool)
  | finite (negative : Bool) (mantissa : Nat) (exponent : Int)
deriving DecidableEq, Repr

namespace Double

/-! ### Rounding -/

/-- The exponent of the least positive double. -/
def leastExponent : Int := -1074

/-- The exponent of the greatest finite doubles. -/
def greatestExponent : Int := 971

/-- Zero with a sign. -/
def zero (negative : Bool) : Double := .finite negative 0 leastExponent

/-- The fraction `num / den / 2^e`. -/
def scaled (num den : Nat) (e : Int) : Nat × Nat :=
  if 0 ≤ e then (num, den * Nat.pow 2 e.toNat) else (num * Nat.pow 2 (-e).toNat, den)

/-- The integer nearest to `num / den`, the even one of two. -/
def roundDiv (num den : Nat) : Nat :=
  let q := num / den
  let r := num % den
  if 2 * r < den then q
  else if den < 2 * r then q + 1
  else if q % 2 == 0 then q
  else q + 1

/-- The double nearest to `± num / den`. -/
def ofRatio (negative : Bool) (num den : Nat) : Double :=
  if num == 0 then zero negative
  else
    let magnitude : Int := (num.log2 : Int) - (den.log2 : Int)
    let low := max (magnitude - 53) leastExponent
    let (n, d) := scaled num den low
    let e := if Nat.pow 2 53 ≤ n / d then low + 1 else low
    let (n, d) := scaled num den e
    let m := roundDiv n d
    let (m, e) := if m == Nat.pow 2 53 then (Nat.pow 2 52, e + 1) else (m, e)
    if greatestExponent < e then .infinite negative else .finite negative m e

/-- The double nearest to `± digits · 10^exponent`.  Powers far outside the
range are settled by the number of digits alone. -/
def ofDecimal (negative : Bool) (digits : Nat) (exponent : Int) : Double :=
  if digits == 0 then zero negative
  else
    let magnitude : Int := (Nat.toDigits 10 digits).length + exponent
    if 400 < magnitude then .infinite negative
    else if magnitude < -400 then zero negative
    else if 0 ≤ exponent then ofRatio negative (digits * Nat.pow 10 exponent.toNat) 1
    else ofRatio negative digits (Nat.pow 10 (-exponent).toNat)

/-- The double nearest to an integer, if there is a finite one. -/
def ofInt? (n : Int) : Option Double :=
  match ofRatio (n < 0) n.natAbs 1 with
  | .finite s m e => some (.finite s m e)
  | _ => none

/-! ### Arithmetic and order -/

/-- The integer `± m`. -/
def signed (negative : Bool) (m : Nat) : Int :=
  if negative then -(m : Int) else m

/-- Two finite doubles as integers over one power of two. -/
def aligned (s₁ : Bool) (m₁ : Nat) (e₁ : Int) (s₂ : Bool) (m₂ : Nat) (e₂ : Int) : Int × Int × Int :=
  let e := min e₁ e₂
  (signed s₁ (m₁ * Nat.pow 2 (e₁ - e).toNat),
    signed s₂ (m₂ * Nat.pow 2 (e₂ - e).toNat), e)

/-- Difference.  Equal numbers differ by `+0`, except that `-0 - +0` is `-0`. -/
def sub : Double → Double → Double
  | .nan, _ => .nan
  | _, .nan => .nan
  | .infinite s, .infinite t => if s == t then .nan else .infinite s
  | .infinite s, .finite .. => .infinite s
  | .finite .., .infinite t => .infinite (!t)
  | .finite s₁ m₁ e₁, .finite s₂ m₂ e₂ =>
    let (a, b, e) := aligned s₁ m₁ e₁ s₂ m₂ e₂
    let d := a - b
    if d == 0 then zero (m₁ == 0 && s₁ && !s₂)
    else if 0 ≤ e then ofRatio (d < 0) (d.natAbs * Nat.pow 2 e.toNat) 1
    else ofRatio (d < 0) d.natAbs (Nat.pow 2 (-e).toNat)

/-- Absolute value. -/
def abs : Double → Double
  | .nan => .nan
  | .infinite _ => .infinite false
  | .finite _ m e => .finite false m e

/-- Comparison; a not-a-number has no place in the order. -/
def compare? : Double → Double → Option Ordering
  | .nan, _ => none
  | _, .nan => none
  | .infinite s, .infinite t => some (compare (signed s 1) (signed t 1))
  | .infinite s, .finite .. => some (if s then .lt else .gt)
  | .finite .., .infinite t => some (if t then .gt else .lt)
  | .finite s₁ m₁ e₁, .finite s₂ m₂ e₂ =>
    let (a, b, _) := aligned s₁ m₁ e₁ s₂ m₂ e₂
    some (compare a b)

/-- Exact comparison with an integer of any size. -/
def compareInt? : Double → Int → Option Ordering
  | .nan, _ => none
  | .infinite s, _ => some (if s then .lt else .gt)
  | .finite s m e, n =>
    if 0 ≤ e then some (compare (signed s (m * Nat.pow 2 e.toNat)) n)
    else some (compare (signed s m) (n * Nat.pow 2 (-e).toNat))

/-- Zero of either sign. -/
def isZero : Double → Bool
  | .finite _ m _ => m == 0
  | _ => false

/-! ### Interchange form -/

/-- The 64 bits of the interchange format: sign, biased exponent, fraction. -/
def toBits : Double → Nat
  | .nan => 0x7FF8000000000000
  | .infinite s => (if s then Nat.pow 2 63 else 0) + 0x7FF0000000000000
  | .finite s m e =>
    (if s then Nat.pow 2 63 else 0) +
      (if m < Nat.pow 2 52 then m else (e + 1075).toNat * Nat.pow 2 52 + (m - Nat.pow 2 52))

end Double

end GrammarDiagram
