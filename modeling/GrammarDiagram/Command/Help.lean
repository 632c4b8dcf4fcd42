/-
GrammarDiagram/Command/Help.lean

The commands, their options, and the texts that explain them.
-/
import GrammarDiagram.Command.Options

namespace GrammarDiagram.Command

/-- The commands. -/
inductive Verb where
  /-- Compile a diagram. -/
  | compile
  /-- Check the wiring of a diagram. -/
  | validate
  /-- Print the edges that are drawn as loops. -/
  | cycles
deriving DecidableEq, Repr

/-- The command of this name. -/
def Verb.ofName? : String → Option Verb
  | "compile" => some .compile
  | "validate" => some .validate
  | "cycles" => some .cycles
  | _ => none

/-! ### Options -/

/-- The options before the name of a command. -/
def groupOptions : List Opt := [{ name := "version" }, { name := "help" }]

/-- The options of a command. -/
def Verb.options : Verb → List Opt
  | .compile => [
      { name := "output", letter := some 'o', takesValue := true },
      { name := "grammar", letter := some 'g', takesValue := true },
      { name := "config", takesValue := true },
      { name := "no-optimize" },
      { name := "verbose", letter := some 'v' },
      { name := "help" }]
  | .validate => [
      { name := "grammar", letter := some 'g', takesValue := true },
      { name := "verbose", letter := some 'v' },
      { name := "help" }]
  | .cycles => [
      { name := "grammar", letter := some 'g', takesValue := true },
      { name := "config", takesValue := true },
      { name := "verbose", letter := some 'v' },
      { name := "help" }]

/-! ### Texts -/

/-- The version of the program. -/
def versionText : String := "gbnfgraph, version 0.1.0"

/-- The explanation of the program. -/
def groupHelp : String := String.intercalate "\n" [
  "Usage: gbnfgraph [OPTIONS] COMMAND [ARGS]...",
  "",
  "  gbnfgraph: compile grammar diagrams into GBNF.",
  "",
  "Options:",
  "  --version  Show the version and exit.",
  "  --help     Show this message and exit.",
  "",
  "Commands:",
  "  compile   Compile a saved grammar diagram into GBNF.",
  "  cycles    Print the feedback edges the renderer draws as loops.",
  "  validate  Check that every node in a diagram is connected."]

/-- The explanation of a command. -/
def Verb.help : Verb → String
  | .compile => String.intercalate "\n" [
      "Usage: gbnfgraph compile [OPTIONS] GRAPH",
      "",
      "  Compile a saved grammar diagram into GBNF.",
      "",
      "Options:",
      "  -o, --output PATH   Output file or directory (default: stdout)",
      "  -g, --grammar TEXT  Saved grammar id or name when GRAPH holds a list",
      "  --config PATH       Compiler config file",
      "  --no-optimize       Emit the unoptimized rule set",
      "  -v, --verbose       Verbose output",
      "  --help              Show this message and exit."]
  | .validate => String.intercalate "\n" [
      "Usage: gbnfgraph validate [OPTIONS] GRAPH",
      "",
      "  Check that every node in a diagram is connected.",
      "",
      "Options:",
      "  -g, --grammar TEXT  Saved grammar id or name when GRAPH holds a list",
      "  -v, --verbose       Verbose output",
      "  --help              Show this message and exit."]
  | .cycles => String.intercalate "\n" [
      "Usage: gbnfgraph cycles [OPTIONS] GRAPH",
      "",
      "  Print the feedback edges the renderer draws as loops.",
      "",
      "Options:",
      "  -g, --grammar TEXT  Saved grammar id or name when GRAPH holds a list",
      "  --config PATH       Compiler config file",
      "  -v, --verbose       Verbose output",
      "  --help              Show this message and exit."]

end GrammarDiagram.Command
