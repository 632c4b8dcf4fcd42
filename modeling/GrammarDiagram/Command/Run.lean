/-
GrammarDiagram/Command/Run.lean

Running command lines.

A run prints to two streams and ends with a status: 0 for success, 1 for a
failure, 2 for a mistake in the usage.  Faults of the user's input are told on
the error stream; any other fault ends the run and is handed on as it is.
Neither stream is a terminal, so printed text is freed of control sequences;
what is told of events, and what is written to files, is not.
-/
import GrammarDiagram.Command.Files
import GrammarDiagram.Command.Help
import GrammarDiagram.Compilation
import GrammarDiagram.Cycle.Feedback
import GrammarDiagram.Json.Writer
import GrammarDiagram.Settings
import GrammarDiagram.Text.Alphanumeric
import GrammarDiagram.Text.Terminal

namespace GrammarDiagram.Command

/-! ### Outcomes -/

/-- What a run printed, its status, and the fault that ended it, if one did. -/
structure Outcome where
  output : String := ""
  errors : String := ""
  status : Nat := 0
  fault : Option Fault := none

namespace Outcome

/-- A run that printed a text and succeeded. -/
def printed (text : String) : Outcome := { output := text ++ "\n" }

/-- A mistake in the usage. -/
def usage : Outcome := { status := 2 }

/-- A run that a fault ended. -/
def stopped (errors : String) (f : Fault) : Outcome :=
  { errors := errors, status := 1, fault := some f }

end Outcome

/-- A printed line. -/
def echo (text : String) : String := Text.plain text ++ "\n"

/-! ### Events -/

/-- The name of a level. -/
def levelName : Level → String
  | .debug => "DEBUG"
  | .info => "INFO"
  | .warning => "WARNING"

/-- The line that tells an event; details are told only on request. -/
def logLine (verbose : Bool) (e : Event) : String :=
  if e.level = .debug && !verbose then ""
  else "[" ++ levelName e.level ++ "] " ++ e.message ++ "\n"

/-- The lines that tell events. -/
def logText (verbose : Bool) (es : List Event) : String := String.join (es.map (logLine verbose))

/-! ### Parts of runs -/

/-- How a command is to be run: the path of the diagram and the options. -/
structure Request where
  graph : String
  grammar : Option String := none
  config : Option String := none
  output : Option String := none
  noOptimize : Bool := false
  verbose : Bool := false

/-- Go on with a traced result, its events told behind what was told before; a
fault ends the run. -/
def andThen {m : Type → Type} [Monad m] {α : Type} (verbose : Bool) (told : String)
    (t : Traced α) (onFault : String → Fault → Outcome) (next : String → α → m Outcome) :
    m Outcome :=
  let told := told ++ logText verbose t.events
  match t.result with
  | .ok a => next told a
  | .error f => pure (onFault told f)

/-- Faults of the user's input are told, others end the run. -/
def toldOrStopped (told : String) (f : Fault) : Outcome :=
  if f.isUsers then { errors := told ++ echo ("Error: " ++ f.message), status := 1 }
  else .stopped told f

/-- The lines about nodes that are not wired in. -/
def problemText (names : List String) : String :=
  echo "Grammar is incomplete. Some nodes are not properly connected:" ++
    String.join (names.map fun n => echo ("  - " ++ n))

section
variable {m : Type → Type} [Monad m] [Disk m]

/-- The settings that a request asks for. -/
def loadSettings (r : Request) : m (Traced Settings) := do
  match r.config with
  | none => return pure {}
  | some path =>
    match ← Disk.read path with
    | .ok bytes => return Traced.lift (Settings.load bytes)
    | .error f => return Traced.lift (.error (.file f))

/-- The diagram that a request asks for. -/
def loadDiagram (r : Request) : m (Traced Diagram) := do
  let path := plainPath r.graph
  match ← Disk.read path with
  | .ok bytes => return Diagram.load path bytes r.grammar
  | .error f => return Traced.lift (.error (.file f))

/-! ### The commands -/

/-- The path to write to: inside a folder, the name under which the grammar is
offered. -/
def targetPath (output : String) (name : Value) : m (Except Fault String) := do
  let path := plainPath output
  match ← Disk.inspect path with
  | .ok .folder => return (Diagram.exportName name).map (within path)
  | .ok .file => return .ok path
  | .error .missing => return .ok path
  | .error .notAFolder => return .ok path
  | .error f => return .error (.file f)

/-- Print a grammar, or write it to a file. -/
def deliver (r : Request) (told : String) (d : Diagram) (c : Compilation) : m Outcome := do
  match r.output with
  | none => return { output := echo c.grammar, errors := told }
  | some output =>
    match ← targetPath output d.name with
    | .error f => return .stopped told f
    | .ok path =>
      match ← Disk.write path (c.grammar ++ "\n") with
      | .error f => return .stopped told (.file f)
      | .ok () =>
        let event := Event.grammarWritten c.ruleSet.size path
        return { errors := told ++ logLine r.verbose event }

/-- Nodes that are not wired in are told, other faults end the run. -/
def incompleteOrStopped (told : String) (f : Fault) : Outcome :=
  match f with
  | .incomplete names => { errors := told ++ problemText names, status := 1 }
  | f => .stopped told f

/-- Compile a diagram. -/
def runCompile (r : Request) : m Outcome := do
  andThen r.verbose "" (← loadSettings r) .stopped fun told settings => do
    andThen r.verbose told (← loadDiagram r) toldOrStopped fun told d =>
      let optimize := settings.optimize.isPresent && !r.noOptimize
      andThen r.verbose told (compile optimize d.nodes d.edges) incompleteOrStopped
        fun told c => deliver r told d c

/-- Check the wiring of a diagram. -/
def runValidate (r : Request) : m Outcome := do
  andThen r.verbose "" (← loadDiagram r) toldOrStopped fun told d =>
    let report := Report.ofGraph d.nodes d.edges
    if report.isValid then pure { output := echo "OK", errors := told }
    else
      pure { errors := told ++ problemText (report.problems.map Value.display), status := 1 }

/-- The JSON text of the edges drawn as loops. -/
def feedbackText (f : Feedback) : String :=
  let lengths := (f.pathLengths.entries.mergeSort fun a b => decide (a.1 ≤ b.1)).map fun e =>
    Json.quote e.1 ++ ": " ++ toString e.2
  Json.block "\x7b" "\x7d" "" [
    "\"feedback_edges\": " ++ Json.block "[" "]" "  " (f.edges.map Json.quote),
    "\"path_lengths\": " ++ Json.block "\x7b" "\x7d" "  " lengths]

/-- Print the edges that are drawn as loops. -/
def runCycles (r : Request) : m Outcome := do
  andThen r.verbose "" (← loadSettings r) .stopped fun told settings =>
    andThen r.verbose told (Traced.lift (Ranking.ofName settings.ranking)) toldOrStopped
      fun told ranking => do
        andThen r.verbose told (← loadDiagram r) toldOrStopped fun told d =>
          andThen r.verbose told (Feedback.analyze ranking d.nodes d.edges) .stopped
            fun told f => pure { output := echo (feedbackText f), errors := told }

/-! ### Command lines -/

/-- What comes of a path that is needed: a path that cannot be one ends the
run, and one where nothing fit stands is a mistake in the usage. -/
def checkPath (fits : Except FileFault Entry → Bool) (path : String) : m (Except Outcome Unit) := do
  match ← Disk.inspect path with
  | .error .nullCharacter => return .error (.stopped "" (.file .nullCharacter))
  | found => return if fits found then .ok () else .error .usage

/-- What may stand at the path of an option: settings have to be there, and an
output may be anything. -/
def optionFits (name : String) (found : Except FileFault Entry) : Bool :=
  name != "config" || found.isOk

/-- Check the options that are paths, in the order of the line. -/
def checkOptions (line : Line) : List String → m (Except Outcome Unit)
  | [] => return .ok ()
  | name :: rest => do
    match line.value? name, name == "output" || name == "config" with
    | some path, true =>
      match ← checkPath (optionFits name) path with
      | .ok () => checkOptions line rest
      | .error o => return .error o
    | _, _ => checkOptions line rest

/-- The request of a line: paths that can be used, and one word, which names a
file.  The options are checked first, then the word, then that there is no
other. -/
def requestOf (line : Line) : m (Except Outcome Request) := do
  match ← checkOptions line (line.options.map Prod.fst) with
  | .error o => return .error o
  | .ok () =>
    match line.words with
    | [] => return .error .usage
    | graph :: others =>
      match ← checkPath (fun found => found matches .ok .file) graph with
      | .error o => return .error o
      | .ok () =>
        if !others.isEmpty then return .error .usage
        else
          return .ok {
            graph := graph
            grammar := line.value? "grammar"
            config := line.value? "config"
            output := line.value? "output"
            noOptimize := line.has "no-optimize"
            verbose := line.has "verbose" }

/-- Run a command with the words behind its name. -/
def runVerb (verb : Verb) (words : List String) : m Outcome := do
  match readLine verb.options true words with
  | none => return .usage
  | some line =>
    if line.has "help" then return .printed verb.help
    else
      match ← requestOf line with
      | .error o => return o
      | .ok r =>
        match verb with
        | .compile => runCompile r
        | .validate => runValidate r
        | .cycles => runCycles r

/-- A word that names no command: a word that could not be one is answered
with the explanation of the program. -/
def unknownVerb (word : String) : Outcome :=
  match word.toList with
  | c :: _ => if Text.isAlphanumeric c then .usage else .printed groupHelp
  | [] => .usage

/-- Run a command line.  A line without words asks for the explanation of the
program. -/
def run (words : List String) : m Outcome := do
  if words.isEmpty then return .printed groupHelp
  else
    match readLine groupOptions false words with
    | none => return .usage
    | some line =>
      match line.options, line.words with
      | ("version", _) :: _, _ => return .printed versionText
      | _ :: _, _ => return .printed groupHelp
      | [], [] => return .usage
      | [], word :: rest =>
        match Verb.ofName? word with
        | some verb => runVerb verb rest
        | none => return unknownVerb word

end

end GrammarDiagram.Command
