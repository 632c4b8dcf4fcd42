/-
GrammarDiagram/Text/Terminal.lean

Text for a stream that is no terminal: control sequences are left out.

A control sequence is the escape character, an opening bracket, any number of
parameter characters (digits, `;` and `?`) and a letter.  An escape character
that opens no complete sequence stays where it is.
-/

namespace GrammarDiagram.Text

/-- The characters between the bracket and the letter of a control sequence. -/
def isParameterChar (c : Char) : Bool :=
  c.isDigit || c == ';' || c == '?'

/-- What follows the parameters and the letter of a control sequence, or
nothing if no letter ends the parameters. -/
def afterControl? : List Char → Option (List Char)
  | [] => none
  | c :: rest =>
    if isParameterChar c then afterControl? rest
    else if c.isAlpha then some rest
    else none

theorem length_afterControl? {cs rest : List Char} (h : afterControl? cs = some rest) :
    rest.length < cs.length := by
  induction cs with
  | nil => simp [afterControl?] at h
  | cons c cs ih =>
    unfold afterControl? at h
    split at h
    · exact Nat.lt_succ_of_lt (ih h)
    · split at h
      · cases h
        exact Nat.lt_succ_self _
      · cases h

/-- The characters without the control sequences. -/
def withoutControls (cs : List Char) : List Char :=
  match cs with
  | [] => []
  | c :: rest =>
    match rest with
    | [] => [c]
    | d :: rest' =>
      if c == '\x1b' && d == '[' then
        match h : afterControl? rest' with
        | some after =>
          have := length_afterControl? h
          withoutControls after
        | none => c :: withoutControls (d :: rest')
      else c :: withoutControls (d :: rest')
termination_by cs.length
decreasing_by all_goals simp_all; try omega

/-- The text without its control sequences. -/
def plain (s : String) : String :=
  String.ofList (withoutControls s.toList)

end GrammarDiagram.Text
