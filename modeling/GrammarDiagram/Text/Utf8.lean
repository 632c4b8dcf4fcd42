/-
GrammarDiagram/Text/Utf8.lean

Strict reading of UTF-8.

Bytes are read one at a time.  Between characters a byte is a character of
its own, opens a longer one, or is invalid; inside a character the next byte
has to lie in a range that the opening byte fixes, so that overlong forms,
surrogates and code points above U+10FFFF are refused at the first byte that
shows them.  A fault names the bytes from the opening byte up to the byte
before the one that was refused.
-/
import GrammarDiagram.Text.Quoted

namespace GrammarDiagram.Text

/-! ### Faults -/

/-- Why a byte sequence is not UTF-8. -/
inductive Utf8Problem where
  /-- No character starts with this byte. -/
  | invalidStart
  /-- A byte that does not go on with the character begun. -/
  | invalidContinuation
  /-- The input ends inside a character. -/
  | unexpectedEnd
deriving DecidableEq, Repr

/-- The refused bytes: `length` of them from position `start`, the first of
them being `byte`. -/
structure Utf8Fault where
  start : Nat
  length : Nat
  byte : UInt8
  problem : Utf8Problem
deriving DecidableEq, Repr

/-- The problem in words. -/
def Utf8Problem.message : Utf8Problem → String
  | .invalidStart => "invalid start byte"
  | .invalidContinuation => "invalid continuation byte"
  | .unexpectedEnd => "unexpected end of data"

/-- A single byte is shown, several are given by their positions. -/
def Utf8Fault.message (f : Utf8Fault) : String :=
  let place :=
    if f.length ≤ 1 then
      "byte 0x" ++ String.ofList (hexChars 2 f.byte.toNat) ++ " in position " ++ toString f.start
    else
      "bytes in position " ++ toString f.start ++ "-" ++ toString (f.start + f.length - 1)
  "'utf-8' codec can't decode " ++ place ++ ": " ++ f.problem.message

/-! ### Reading -/

/-- A character begun: its opening byte, how many of its bytes were read and
how many are owed, the range of the next byte, and the bits so far. -/
structure Utf8Pending where
  first : UInt8
  seen : Nat
  owed : Nat
  low : Nat
  high : Nat
  code : Nat

/-- The character that the opening byte `b` begins, if it begins a longer one. -/
def Utf8Pending.open? (b : UInt8) : Option Utf8Pending :=
  let n := b.toNat
  if 0xC2 ≤ n && n ≤ 0xDF then some ⟨b, 1, 1, 0x80, 0xBF, n - 0xC0⟩
  else if n == 0xE0 then some ⟨b, 1, 2, 0xA0, 0xBF, 0⟩
  else if n == 0xED then some ⟨b, 1, 2, 0x80, 0x9F, 0xD⟩
  else if 0xE1 ≤ n && n ≤ 0xEF then some ⟨b, 1, 2, 0x80, 0xBF, n - 0xE0⟩
  else if n == 0xF0 then some ⟨b, 1, 3, 0x90, 0xBF, 0⟩
  else if 0xF1 ≤ n && n ≤ 0xF3 then some ⟨b, 1, 3, 0x80, 0xBF, n - 0xF0⟩
  else if n == 0xF4 then some ⟨b, 1, 3, 0x80, 0x8F, 4⟩
  else none

/-- Read on at position `pos`, with the character begun and the characters
read so far (the last one first). -/
def decodeFrom (pos : Nat) (begun : Option Utf8Pending) (acc : List Char) :
    List UInt8 → Except Utf8Fault (List Char)
  | [] =>
    match begun with
    | none => .ok acc.reverse
    | some p => .error ⟨pos - p.seen, p.seen, p.first, .unexpectedEnd⟩
  | b :: rest =>
    match begun with
    | none =>
      if b.toNat < 0x80 then decodeFrom (pos + 1) none (Char.ofNat b.toNat :: acc) rest
      else
        match Utf8Pending.open? b with
        | some p => decodeFrom (pos + 1) (some p) acc rest
        | none => .error ⟨pos, 1, b, .invalidStart⟩
    | some p =>
      if p.low ≤ b.toNat && b.toNat ≤ p.high then
        let code := p.code * 64 + (b.toNat - 0x80)
        if p.owed ≤ 1 then decodeFrom (pos + 1) none (Char.ofNat code :: acc) rest
        else
          decodeFrom (pos + 1)
            (some { p with seen := p.seen + 1, owed := p.owed - 1, low := 0x80, high := 0xBF,
                           code := code }) acc rest
      else .error ⟨pos - p.seen, p.seen, p.first, .invalidContinuation⟩

/-- The text that the bytes encode. -/
def decodeUtf8 (bytes : List UInt8) : Except Utf8Fault (List Char) :=
  decodeFrom 0 none [] bytes

/-! ### Line ends -/

/-- Every line end, be it CR LF, CR or LF, written as LF. -/
def unifyNewlines : List Char → List Char
  | [] => []
  | '\r' :: '\n' :: rest => '\n' :: unifyNewlines rest
  | '\r' :: rest => '\n' :: unifyNewlines rest
  | c :: rest => c :: unifyNewlines rest

/-- CR LF written as LF; a CR by itself stays. -/
def joinNewlines : List Char → List Char
  | [] => []
  | '\r' :: '\n' :: rest => '\n' :: joinNewlines rest
  | c :: rest => c :: joinNewlines rest

end GrammarDiagram.Text
