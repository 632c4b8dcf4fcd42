/-
GrammarDiagram/Command/Options.lean

Reading command lines.

Options have a long form with two hyphens and may have a letter.  A long
option takes its value behind an equals sign or as the next word; letters may
be run together, and a letter that takes a value takes the rest of its word or
the next word.  Two hyphens end the options.  A line that cannot be read this
way is a mistake in the usage, whatever else stands on it.
-/

namespace GrammarDiagram.Command

/-! ### Options -/

/-- An option: its name, its letter if it has one, and whether it takes a
value. -/
structure Opt where
  name : String
  letter : Option Char := none
  takesValue : Bool := false
deriving DecidableEq, Repr

/-- A line that was read: the options in order, each with its value (empty for
an option that takes none), and the other words. -/
structure Line where
  options : List (String × String) := []
  words : List String := []
deriving DecidableEq, Repr

namespace Line

/-- Whether an option is there. -/
def has (l : Line) (name : String) : Bool := l.options.any fun o => o.1 == name

/-- The value of an option; of several, the last. -/
def value? (l : Line) (name : String) : Option String :=
  (l.options.reverse.find? fun o => o.1 == name).map Prod.snd

/-- One more option. -/
def addOption (l : Line) (name value : String) : Line :=
  { l with options := l.options ++ [(name, value)] }

end Line

/-! ### Words that are options -/

/-- What a word with options comes to: complete, or with an option at its end
whose value is the next word. -/
inductive OptionWord where
  | complete (line : Line)
  | needsValue (line : Line) (name : String)

/-- Read letters run together. -/
def readLetters (opts : List Opt) (line : Line) : List Char → Option OptionWord
  | [] => some (.complete line)
  | c :: rest =>
    match opts.find? fun o => o.letter == some c with
    | none => none
    | some o =>
      if !o.takesValue then readLetters opts (line.addOption o.name "") rest
      else if rest.isEmpty then some (.needsValue line o.name)
      else some (.complete (line.addOption o.name (String.ofList rest)))

/-- Read a word that starts with a hyphen. -/
def readOptionWord (opts : List Opt) (line : Line) (word : String) : Option OptionWord :=
  let cs := word.toList
  let name := String.ofList (cs.takeWhile (· != '='))
  let value? := if cs.contains '=' then some (String.ofList ((cs.dropWhile (· != '=')).drop 1)) else none
  match opts.find? fun o => "--" ++ o.name == name with
  | some o =>
    match o.takesValue, value? with
    | true, some value => some (.complete (line.addOption o.name value))
    | true, none => some (.needsValue line o.name)
    | false, some _ => none
    | false, none => some (.complete (line.addOption o.name ""))
  | none => if ['-', '-'].isPrefixOf cs then none else readLetters opts line (cs.drop 1)

/-- Read words.  Where options may not follow other words, the first word that
is no option ends them. -/
def readWords (opts : List Opt) (mixed : Bool) (line : Line) : List String → Option Line
  | [] => some line
  | word :: rest =>
    if word == "--" then some { line with words := line.words ++ rest }
    else if ['-'].isPrefixOf word.toList && word != "-" then
      match readOptionWord opts line word with
      | none => none
      | some (.complete line) => readWords opts mixed line rest
      | some (.needsValue line name) =>
        match rest with
        | [] => none
        | value :: rest => readWords opts mixed (line.addOption name value) rest
    else if mixed then readWords opts mixed { line with words := line.words ++ [word] } rest
    else some { line with words := line.words ++ word :: rest }

/-- Read a command line. -/
def readLine (opts : List Opt) (mixed : Bool) (words : List String) : Option Line :=
  readWords opts mixed {} words

end GrammarDiagram.Command
