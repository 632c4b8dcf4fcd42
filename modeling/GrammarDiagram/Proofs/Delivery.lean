/-
GrammarDiagram/Proofs/Delivery.lean

Where the grammar of a compilation goes.

A command line that compiles prints the grammar, or writes it to a file if an output
is given.  Two lines that differ in nothing else come to one grammar
(`compile_delivers`): the check of the paths leaves the tree as it is (`Asks`), and
neither the settings nor the diagram nor its compilation depend on the output
(`requestOf_without`, `runCompile_cases`).  But the file gets the grammar as it is, and
what is printed is freed of control sequences.  So the two texts are equal exactly if
no control sequence occurs in the grammar.  A literal can bring one in, since quoting
leaves the escape character alone (`red_printed_ne_written`).
-/
import GrammarDiagram.Command.Run
import GrammarDiagram.Proofs.Files
import GrammarDiagram.Proofs.Terminal

namespace GrammarDiagram.Command

/-! ### Lines without an option -/

namespace Line

variable {l : Line} {name other : String}

/-- A line from which an option is left out, wherever it stands. -/
def without (l : Line) (name : String) : Line :=
  { l with options := l.options.filter fun o => o.1 != name }

theorem value?_without_of_ne (h : other ≠ name) : (l.without name).value? other = l.value? other := by
  simp only [value?, without, ← List.filter_reverse, List.find?_filter]
  congr 2
  funext o
  by_cases ho : o.1 = other
  · simp [ho, h]
  · simp [ho]

theorem has_without_of_ne (h : other ≠ name) : (l.without name).has other = l.has other := by
  simp only [has, without, List.any_filter]
  congr 1
  funext o
  by_cases ho : o.1 = other
  · simp [ho, h]
  · simp [ho]

theorem value?_without_self : (l.without name).value? name = none := by
  have hnone : (l.without name).options.reverse.find? (fun o => o.1 == name) = none := by
    refine List.find?_eq_none.mpr fun o ho => ?_
    simpa using (List.mem_filter.mp (List.mem_reverse.mp ho)).2
  rw [value?, hnone, Option.map_none]

end Line

/-! ### Questions to the tree -/

/-- Run a computation on a tree. -/
def onTree {α : Type} (x : StateM Tree α) (t : Tree) : α × Tree := x.run t

theorem onTree_bind {α β : Type} (x : StateM Tree α) (f : α → StateM Tree β) (t : Tree) :
    onTree (x >>= f) t = onTree (f (onTree x t).1) (onTree x t).2 := rfl

/-- What a tree answers when it is asked what stands at a path. -/
def Tree.entry (t : Tree) (path : String) : Except FileFault Entry :=
  (onTree (Disk.inspect path) t).1

theorem onTree_inspect (path : String) (t : Tree) :
    onTree (Disk.inspect path) t = (t.entry path, t) := rfl

/-- What comes of a path at which this is found. -/
def pathVerdict (fits : Except FileFault Entry → Bool) :
    Except FileFault Entry → Except Outcome Unit
  | .error .nullCharacter => .error (.stopped "" (.file .nullCharacter))
  | found => if fits found then .ok () else .error .usage

theorem onTree_checkPath (fits : Except FileFault Entry → Bool) (path : String) (t : Tree) :
    onTree (checkPath fits path) t = (pathVerdict fits (t.entry path), t) := by
  unfold checkPath
  rw [onTree_bind, onTree_inspect]
  rcases t.entry path with f | entry
  · cases f <;> rfl
  · rfl

/-- A computation leaves the tree as it is, and refuses only with a failure. -/
structure Asks {α : Type} (x : StateM Tree (Except Outcome α)) : Prop where
  tree : ∀ t, (onTree x t).2 = t
  status : ∀ {t outcome}, (onTree x t).1 = .error outcome → outcome.status ≠ 0

theorem asks_pure {α : Type} (a : α) : Asks (pure (.ok a)) where
  tree := fun _ => rfl
  status := fun h => by cases h

theorem asks_error {α : Type} {outcome : Outcome} (h : outcome.status ≠ 0) :
    Asks (pure (.error outcome) : StateM Tree (Except Outcome α)) where
  tree := fun _ => rfl
  status := fun heq => by
    cases heq
    exact h

theorem asks_checkPath (fits : Except FileFault Entry → Bool) (path : String) :
    Asks (checkPath fits path) where
  tree := fun t => by rw [onTree_checkPath]
  status := fun {t outcome} h => by
    rw [onTree_checkPath] at h
    unfold pathVerdict at h
    split at h
    · cases h
      decide
    · split at h
      · cases h
      · cases h
        decide

/-- A question that is answered goes on with the answer. -/
theorem Asks.onTree_bind {α β : Type} {x : StateM Tree (Except Outcome α)} (hx : Asks x) {t : Tree}
    {a : α} (h : (onTree x t).1 = .ok a) (f : Except Outcome α → StateM Tree β) :
    onTree (x >>= f) t = onTree (f (.ok a)) t := by
  rw [Command.onTree_bind, hx.tree, h]

/-- Where two questions are answered, both are. -/
theorem Asks.exists_answer {α β : Type} {x : StateM Tree (Except Outcome α)} (hx : Asks x)
    {f : Except Outcome α → StateM Tree (Except Outcome β)} {t : Tree} {b : β}
    (h : (onTree (x >>= f) t).1 = .ok b)
    (herror : ∀ outcome, f (.error outcome) = pure (.error outcome)) :
    ∃ a, (onTree x t).1 = .ok a ∧ (onTree (f (.ok a)) t).1 = .ok b := by
  rcases hanswer : (onTree x t).1 with outcome | a
  · rw [Command.onTree_bind, hanswer, herror] at h
    cases h
  · rw [hx.onTree_bind hanswer] at h
    exact ⟨a, rfl, h⟩

/-- One question after the other. -/
theorem Asks.next {α β : Type} {x : StateM Tree (Except Outcome α)}
    {f : Except Outcome α → StateM Tree (Except Outcome β)} (hx : Asks x)
    (hok : ∀ a, Asks (f (.ok a)))
    (herror : ∀ outcome, f (.error outcome) = pure (.error outcome)) : Asks (x >>= f) where
  tree := fun t => by
    rcases hanswer : (onTree x t).1 with outcome | a
    · rw [Command.onTree_bind, hx.tree, hanswer, herror]
      rfl
    · rw [hx.onTree_bind hanswer]
      exact (hok a).tree t
  status := fun {t outcome} h => by
    rcases hanswer : (onTree x t).1 with failure | a
    · rw [Command.onTree_bind, hanswer, herror] at h
      cases h
      exact hx.status hanswer
    · rw [hx.onTree_bind hanswer] at h
      exact (hok a).status h

theorem asks_checkOptions (line : Line) (names : List String) :
    Asks (checkOptions line names) := by
  induction names with
  | nil => exact asks_pure ()
  | cons name rest ih =>
    unfold checkOptions
    split
    · exact (asks_checkPath _ _).next (fun () => ih) fun _ => rfl
    · exact ih

theorem asks_requestOf (line : Line) : Asks (requestOf line) := by
  unfold requestOf
  refine (asks_checkOptions _ _).next (fun () => ?_) fun _ => rfl
  rcases line.words with - | ⟨graph, others⟩
  · exact asks_error (by decide)
  · refine (asks_checkPath _ graph).next (fun () => ?_) fun _ => rfl
    rcases others with - | ⟨other, others⟩
    · exact asks_pure _
    · exact asks_error (by decide)

/-! ### Requests that differ in the output -/

section Requests

variable {line : Line} {t : Tree}

/-- Where the options are accepted, so are those without the output. -/
theorem checkOptions_without {names : List String}
    (h : (onTree (checkOptions line names) t).1 = .ok ()) :
    (onTree (checkOptions (line.without "output") (names.filter fun n => n != "output")) t).1 =
      .ok () := by
  induction names with
  | nil => rfl
  | cons name rest ih =>
    unfold checkOptions at h
    by_cases hname : name = "output"
    · rw [List.filter_cons_of_neg (by simpa using hname)]
      split at h
      · obtain ⟨⟨⟩, -, h⟩ := (asks_checkPath _ _).exists_answer h fun _ => rfl
        exact ih h
      · exact ih h
    · rw [List.filter_cons_of_pos (by simpa using hname)]
      unfold checkOptions
      rw [Line.value?_without_of_ne hname]
      split at h
      · obtain ⟨⟨⟩, hpath, h⟩ := (asks_checkPath _ _).exists_answer h fun _ => rfl
        rw [(asks_checkPath _ _).onTree_bind hpath]
        exact ih h
      · exact ih h

/-- What a line asks for about the diagram at a path. -/
def Line.request (line : Line) (graph : String) : Request where
  graph := graph
  grammar := line.value? "grammar"
  config := line.value? "config"
  output := line.value? "output"
  noOptimize := line.has "no-optimize"
  verbose := line.has "verbose"

theorem Line.request_without (line : Line) (graph : String) :
    (line.without "output").request graph = { line.request graph with output := none } := by
  simp only [request, value?_without_self, value?_without_of_ne (by decide : "grammar" ≠ "output"),
    value?_without_of_ne (by decide : "config" ≠ "output"),
    has_without_of_ne (by decide : "no-optimize" ≠ "output"),
    has_without_of_ne (by decide : "verbose" ≠ "output")]

/-- A line that is accepted asks for the same without the output. -/
theorem requestOf_without {r : Request} (h : (onTree (requestOf line) t).1 = .ok r) :
    ∃ graph, line.words = [graph] ∧ r = line.request graph ∧
      (onTree (requestOf (line.without "output")) t).1 = .ok { r with output := none } := by
  unfold requestOf at h ⊢
  obtain ⟨⟨⟩, hoptions, h⟩ := (asks_checkOptions _ _).exists_answer h fun _ => rfl
  have hnames : (line.without "output").options.map Prod.fst =
      (line.options.map Prod.fst).filter fun n => n != "output" := by
    rw [List.filter_map]
    rfl
  rw [hnames, (asks_checkOptions _ _).onTree_bind (checkOptions_without hoptions)]
  have hwords : (line.without "output").words = line.words := rfl
  rcases hgraph : line.words with - | ⟨graph, others⟩
  · rw [hgraph] at h
    cases h
  · rw [hgraph] at h
    rw [hwords, hgraph]
    obtain ⟨⟨⟩, hfile, h⟩ := (asks_checkPath _ _).exists_answer h fun _ => rfl
    simp only [(asks_checkPath _ _).onTree_bind hfile]
    rcases others with - | ⟨other, others⟩
    · cases h
      exact ⟨graph, rfl, rfl, congrArg Except.ok (line.request_without graph)⟩
    · cases h

end Requests

/-! ### Runs that differ in the output -/

section Runs

variable {r : Request} {t : Tree} {α : Type} {verbose : Bool} {told : String} {x : Traced α}
  {onFault : String → Fault → Outcome} {next : String → α → StateM Tree Outcome}

theorem andThen_of_ok {a : α} (h : x.result = .ok a) :
    andThen verbose told x onFault next = next (told ++ logText verbose x.events) a := by
  rw [andThen, h]

theorem andThen_of_error {f : Fault} (h : x.result = .error f) :
    andThen verbose told x onFault next =
      pure (onFault (told ++ logText verbose x.events) f) := by
  rw [andThen, h]

theorem onTree_read (path : String) (t : Tree) :
    onTree (Disk.read path) t = (t.bytesOf path, t) := rfl

theorem exists_loadSettings (r : Request) (t : Tree) :
    ∃ settings, onTree (loadSettings r) t = (settings, t) := by
  unfold loadSettings
  rcases r.config with - | path
  · exact ⟨_, rfl⟩
  · rw [onTree_bind, onTree_read]
    rcases t.bytesOf path with f | bytes
    · exact ⟨_, rfl⟩
    · exact ⟨_, rfl⟩

theorem onTree_loadDiagram_of_ok {bytes : List UInt8}
    (h : t.bytesOf (plainPath r.graph) = .ok bytes) :
    onTree (loadDiagram r) t = (Diagram.load (plainPath r.graph) bytes r.grammar, t) := by
  unfold loadDiagram
  rw [onTree_bind, onTree_read, h]
  rfl

theorem onTree_loadDiagram_of_error {f : FileFault}
    (h : t.bytesOf (plainPath r.graph) = .error f) :
    onTree (loadDiagram r) t = (Traced.lift (.error (.file f)), t) := by
  unfold loadDiagram
  rw [onTree_bind, onTree_read, h]
  rfl

theorem status_toldOrStopped (told : String) (f : Fault) : (toldOrStopped told f).status ≠ 0 := by
  unfold toldOrStopped
  split
  · exact Nat.one_ne_zero
  · exact Nat.one_ne_zero

theorem status_incompleteOrStopped (told : String) (f : Fault) :
    (incompleteOrStopped told f).status ≠ 0 := by
  unfold incompleteOrStopped
  split
  · exact Nat.one_ne_zero
  · exact Nat.one_ne_zero

/-- The diagram that a request names, and its compilation with the settings that the
request names. -/
structure Compiled (t : Tree) (r : Request) (d : Diagram) (c : Compilation) : Prop where
  loaded : ∃ bytes, t.bytesOf (plainPath r.graph) = .ok bytes ∧
    (Diagram.load (plainPath r.graph) bytes r.grammar).result = .ok d
  compiled : ∃ settings, (onTree (loadSettings r) t).1.result = .ok settings ∧
    (compile (settings.optimize.isPresent && !r.noOptimize) d.nodes d.edges).result = .ok c

/-- Up to the delivery a run does not depend on the output. -/
theorem runCompile_cases (r : Request) (t : Tree) :
    (∃ outcome, outcome.status ≠ 0 ∧
        ∀ output, onTree (runCompile { r with output := output }) t = (outcome, t)) ∨
      ∃ told d c, Compiled t r d c ∧
        ∀ output, onTree (runCompile { r with output := output }) t =
          onTree (deliver { r with output := output } told d c) t := by
  obtain ⟨s, hs⟩ := exists_loadSettings r t
  have hstart : ∀ output, onTree (runCompile { r with output := output }) t =
      onTree (andThen r.verbose "" s .stopped fun told settings => do
        andThen r.verbose told (← loadDiagram r) toldOrStopped fun told d =>
          andThen r.verbose told
            (compile (settings.optimize.isPresent && !r.noOptimize) d.nodes d.edges)
            incompleteOrStopped fun told c => deliver { r with output := output } told d c) t := by
    intro output
    have hsettings : onTree (loadSettings { r with output := output }) t = (s, t) := hs
    unfold runCompile
    rw [onTree_bind, hsettings]
    rfl
  simp only [hstart]
  -- each of the three steps ends the run or goes on, whatever the output is
  rcases hsettings : s.result with f | settings
  · refine .inl ⟨.stopped ("" ++ logText r.verbose s.events) f, Nat.one_ne_zero, fun output => ?_⟩
    rw [andThen_of_error hsettings]
    rfl
  · simp only [andThen_of_ok hsettings, onTree_bind]
    rcases hbytes : t.bytesOf (plainPath r.graph) with f | bytes
    · simp only [onTree_loadDiagram_of_error hbytes]
      exact .inl ⟨_, status_toldOrStopped _ (.file f), fun output => rfl⟩
    · simp only [onTree_loadDiagram_of_ok hbytes]
      rcases hload : (Diagram.load (plainPath r.graph) bytes r.grammar).result with f | d
      · simp only [andThen_of_error hload]
        exact .inl ⟨_, status_toldOrStopped _ f, fun output => rfl⟩
      · simp only [andThen_of_ok hload]
        rcases hcompile : (compile (settings.optimize.isPresent && !r.noOptimize) d.nodes
          d.edges).result with f | c
        · simp only [andThen_of_error hcompile]
          exact .inl ⟨_, status_incompleteOrStopped _ f, fun output => rfl⟩
        · simp only [andThen_of_ok hcompile]
          have hloaded : (onTree (loadSettings r) t).1.result = .ok settings := by
            rw [hs, hsettings]
          exact .inr ⟨_, d, c, ⟨⟨bytes, hbytes, hload⟩, settings, hloaded, hcompile⟩,
            fun output => rfl⟩

/-- Where an output is written: at its path or, if a folder stands there, inside it
under the name that the grammar is offered with. -/
def IsTarget (t : Tree) (file : String) (name : Value) (target : String) : Prop :=
  t.entry (plainPath file) ≠ .ok .folder ∧ target = plainPath file ∨
    t.entry (plainPath file) = .ok .folder ∧ ∃ exported,
      Diagram.exportName name = .ok exported ∧ target = within (plainPath file) exported

theorem targetPath_spec (file : String) (name : Value) (t : Tree) :
    (onTree (targetPath file name) t).2 = t ∧
      ∀ {target}, (onTree (targetPath file name) t).1 = .ok target →
        IsTarget t file name target := by
  unfold targetPath IsTarget
  rw [onTree_bind, onTree_inspect]
  rcases hentry : t.entry (plainPath file) with f | entry
  · cases f
    case missing => exact ⟨rfl, fun h => .inl ⟨nofun, (Except.ok.inj h).symm⟩⟩
    case notAFolder => exact ⟨rfl, fun h => .inl ⟨nofun, (Except.ok.inj h).symm⟩⟩
    all_goals exact ⟨rfl, fun h => by cases h⟩
  · cases entry
    case file => exact ⟨rfl, fun h => .inl ⟨nofun, (Except.ok.inj h).symm⟩⟩
    case folder =>
      refine ⟨rfl, fun {target} h => .inr ⟨rfl, ?_⟩⟩
      change (Diagram.exportName name).map (within (plainPath file)) = .ok target at h
      rcases hname : Diagram.exportName name with f | exported
      · rw [hname] at h
        cases h
      · rw [hname] at h
        exact ⟨exported, rfl, (Except.ok.inj h).symm⟩

theorem onTree_write (path text : String) (t : Tree) :
    onTree (Disk.write path text) t =
      match t.put path (bytesOfText text) with
      | .ok t' => (.ok (), t')
      | .error f => (.error f, t) := by
  have hwrite : (Disk.write path text : StateM Tree (Except FileFault Unit)) = do
      match (← get).put path (bytesOfText text) with
      | .ok t' =>
        set t'
        return .ok ()
      | .error f => return .error f := rfl
  have hget : onTree get t = (t, t) := rfl
  rw [hwrite, onTree_bind, hget]
  rcases t.put path (bytesOfText text) with f | t'
  · rfl
  · rfl

/-- A grammar that is delivered to a file is put there, with a line feed behind it. -/
theorem deliver_spec {file : String} {d : Diagram} {c : Compilation}
    (h : (onTree (deliver { r with output := some file } told d c) t).1.status = 0) :
    ∃ target, IsTarget t file d.name target ∧
      t.put target (bytesOfText (c.grammar ++ "\n")) =
        .ok (onTree (deliver { r with output := some file } told d c) t).2 := by
  obtain ⟨htree, htarget⟩ := targetPath_spec file d.name t
  unfold deliver at h ⊢
  simp only [onTree_bind, htree] at h ⊢
  rcases hpath : (onTree (targetPath file d.name) t).1 with f | target
  · rw [hpath] at h
    exact absurd h Nat.one_ne_zero
  · rw [hpath] at h
    refine ⟨target, htarget hpath, ?_⟩
    simp only [onTree_bind, onTree_write] at h ⊢
    rcases hput : t.put target (bytesOfText (c.grammar ++ "\n")) with f | t'
    · rw [hput] at h
      exact absurd h Nat.one_ne_zero
    · rfl

end Runs

/-! ### The two deliveries -/

section Deliveries

variable {words words' : List String} {line : Line} {file : String} {t : Tree}

theorem run_compile (words : List String) :
    (run ("compile" :: words) : StateM Tree Outcome) = runVerb .compile words := rfl

/-- A line that asks for no help is compiled as its request says. -/
theorem onTree_compile_of_ok (hline : readLine Verb.compile.options true words = some line)
    (hhelp : line.has "help" = false) {r : Request}
    (hr : (onTree (requestOf line) t).1 = .ok r) :
    onTree (run ("compile" :: words)) t = onTree (runCompile r) t := by
  rw [run_compile, runVerb, hline]
  simp only [hhelp, Bool.false_eq_true, if_false]
  rw [(asks_requestOf line).onTree_bind hr]

/-- A line that succeeds, and asks for no help, is accepted. -/
theorem exists_request (hline : readLine Verb.compile.options true words = some line)
    (hhelp : line.has "help" = false)
    (hsuccess : (onTree (run ("compile" :: words)) t).1.status = 0) :
    ∃ r, (onTree (requestOf line) t).1 = .ok r := by
  rcases hr : (onTree (requestOf line) t).1 with outcome | r
  · rw [run_compile, runVerb, hline] at hsuccess
    simp only [hhelp, Bool.false_eq_true, if_false, onTree_bind, hr] at hsuccess
    exact absurd hsuccess ((asks_requestOf line).status hr)
  · exact ⟨r, rfl⟩

theorem plain_line_eq_iff (s : String) :
    Text.plain s ++ "\n" = s ++ "\n" ↔ ¬ Text.HasControl s := by
  rw [← Text.plain_eq_self_iff, ← String.toList_inj, ← String.toList_inj, String.toList_append,
    String.toList_append, List.append_left_inj]

/-- A line that writes a grammar to a file, and the line that differs from it in having
no output, come to one grammar.  The file holds it as it is, unless it is a device; what
is printed is freed of control sequences.  So the two texts are equal exactly if no
control sequence occurs in the grammar, and this is so if no pattern of a node has the
escape character.  Nothing is said of diagrams with half a surrogate pair in a text:
the reader does not take them, and the line does not succeed. -/
theorem compile_delivers (hwrite : readLine Verb.compile.options true words = some line)
    (hprint : readLine Verb.compile.options true words' = some (line.without "output"))
    (hhelp : line.has "help" = false) (hfile : line.value? "output" = some file)
    (hsuccess : (onTree (run ("compile" :: words)) t).1.status = 0) :
    ∃ graph d c target printed told,
      line.words = [graph] ∧ Compiled t (line.request graph) d c ∧
      IsTarget t file d.name target ∧
      ((onTree (run ("compile" :: words)) t).2.bytesOf target =
          .ok (bytesOfText (c.grammar ++ "\n")) ∨
        ∃ hasRoom, t.get target = .ok (.device hasRoom)) ∧
      onTree (run ("compile" :: words')) t = ({ output := printed, errors := told }, t) ∧
      printed = Text.plain c.grammar ++ "\n" ∧
      (printed = c.grammar ++ "\n" ↔ ¬ Text.HasControl c.grammar) ∧
      ((∀ n ∈ d.nodes, Lacks '\x1b' n.pattern) → printed = c.grammar ++ "\n") := by
  obtain ⟨r, hr⟩ := exists_request hwrite hhelp hsuccess
  obtain ⟨graph, hgraph, rfl, hr'⟩ := requestOf_without hr
  have hhelp' : (line.without "output").has "help" = false :=
    (Line.has_without_of_ne (by decide)).trans hhelp
  rw [onTree_compile_of_ok hwrite hhelp hr] at hsuccess ⊢
  rw [onTree_compile_of_ok hprint hhelp' hr']
  have hself : { line.request graph with output := some file } = line.request graph := by
    rw [← hfile]
    rfl
  rcases runCompile_cases (line.request graph) t with
    ⟨outcome, hstatus, hrun⟩ | ⟨told, d, c, hcompiled, hrun⟩
  · rw [← hself, hrun] at hsuccess
    exact absurd hsuccess hstatus
  · have hwritten : onTree (runCompile (line.request graph)) t =
        onTree (deliver { line.request graph with output := some file } told d c) t := by
      rw [← hrun, hself]
    rw [hwritten] at hsuccess ⊢
    obtain ⟨target, htarget, hput⟩ := deliver_spec hsuccess
    have hequal := plain_line_eq_iff c.grammar
    refine ⟨graph, d, c, target, _, told, hgraph, hcompiled, htarget, ?_, hrun none, rfl,
      hequal, ?_⟩
    · exact (Tree.bytesOf_put hput).imp_right And.right
    · intro hlacks
      obtain ⟨settings, -, hc⟩ := hcompiled.compiled
      exact hequal.mpr (Text.not_hasControl (lacks_grammar (by decide) (by decide) hc hlacks))

/-- A diagram of one literal, which makes a terminal write in red. -/
def redText : String :=
  "\x7b\"nodes\":[\x7b\"id\":\"s\",\"type\":\"startNode\"\x7d," ++
    "\x7b\"id\":\"a\",\"type\":\"stringNode\"," ++
    "\"data\":\x7b\"properties\":\x7b\"value\":\"\\u001b[31m\"\x7d\x7d\x7d," ++
    "\x7b\"id\":\"e\",\"type\":\"endNode\"\x7d]," ++
    "\"edges\":[\x7b\"source\":\"s\",\"target\":\"a\"\x7d," ++
    "\x7b\"source\":\"a\",\"target\":\"e\"\x7d]\x7d"

/-- A home folder with the diagram and an empty folder. -/
def redTree : Tree where
  items := [(["red.json"], .file (bytesOfText redText)), (["out"], .folder)]

/-- A line with an output between other options. -/
def redLine : Line where
  options := [("no-optimize", ""), ("output", "out/"), ("verbose", "")]
  words := ["red.json"]

/-- The grammar of two rules that the red diagram is compiled into without
reductions. -/
def redGrammar : String := "root ::= _rule1\n_rule1 ::= \"\x1b[31m\""

/-- The diagram has no name, so that its grammar is offered as `grammar.gbnf`. -/
theorem compiled_red {d : Diagram} {c : Compilation}
    (h : Compiled redTree (redLine.request "red.json") d c) :
    (Diagram.exportName d.name).toOption = some "grammar.gbnf" ∧ c.grammar = redGrammar := by
  obtain ⟨bytes, hbytes, hload⟩ := h.loaded
  obtain ⟨settings, -, hcompile⟩ := h.compiled
  -- what the request asks for
  have hpath : plainPath "red.json" = "red.json" := by decide +kernel
  have hnone : redLine.value? "grammar" = none := by decide
  have hplain : redLine.has "no-optimize" = true := by decide
  simp only [Line.request, hpath, hnone] at hbytes hload
  simp only [Line.request, hplain, Bool.not_true, Bool.and_false] at hcompile
  -- what it comes to
  have hfile : redTree.bytesOf "red.json" = .ok (bytesOfText redText) := by decide +kernel
  have hresult : ∃ d, (Diagram.load "red.json" (bytesOfText redText) none).result = .ok d ∧
      decide ((Diagram.exportName d.name).toOption = some "grammar.gbnf" ∧
        (compile false d.nodes d.edges).result.toOption.map Compilation.grammar =
          some redGrammar) := Fault.exists_ok_of_any (by decide +kernel)
  obtain ⟨d', hload', hfacts⟩ := hresult
  cases hfile.symm.trans hbytes
  cases hload'.symm.trans hload
  obtain ⟨hname, hgrammar⟩ := of_decide_eq_true hfacts
  rw [hcompile] at hgrammar
  exact ⟨hname, Option.some.inj hgrammar⟩

/-- The line with the output puts the grammar into the folder as it is, and the line
without it prints an empty literal. -/
theorem compile_delivers_red :
    (onTree (run ["compile", "--no-optimize", "-oout/", "red.json", "-v"]) redTree).1.status = 0 ∧
      (onTree (run ["compile", "--no-optimize", "-oout/", "red.json", "-v"]) redTree).2.bytesOf
        "out/grammar.gbnf" = .ok (bytesOfText "root ::= _rule1\n_rule1 ::= \"\x1b[31m\"\n") ∧
      (onTree (run ["compile", "--no-optimize", "red.json", "-v"]) redTree).1.output =
        "root ::= _rule1\n_rule1 ::= \"\"\n" := by
  have hwrite : readLine Verb.compile.options true ["--no-optimize", "-oout/", "red.json", "-v"] =
      some redLine := by decide +kernel
  have hprint : readLine Verb.compile.options true ["--no-optimize", "red.json", "-v"] =
      some (redLine.without "output") := by decide +kernel
  have hfile : redLine.value? "output" = some "out/" := by decide
  have hsuccess : (onTree (run ["compile", "--no-optimize", "-oout/", "red.json", "-v"])
      redTree).1.status = 0 := by decide +kernel
  obtain ⟨graph, d, c, target, printed, told, hgraph, hcompiled, htarget, hwritten, hrun,
    hprinted, -⟩ := compile_delivers hwrite hprint (by decide) hfile hsuccess
  obtain rfl : "red.json" = graph := List.singleton_inj.mp hgraph
  obtain ⟨hexported, hgrammar⟩ := compiled_red hcompiled
  have hfolder : redTree.entry (plainPath "out/") = .ok .folder := by decide +kernel
  have hplace : target = "out/grammar.gbnf" := by
    rcases htarget with ⟨hno, -⟩ | ⟨-, exported, hname, rfl⟩
    · exact absurd hfolder hno
    · rw [hname] at hexported
      cases hexported
      decide +kernel
  rw [hplace, hgrammar] at hwritten
  refine ⟨hsuccess, ?_, ?_⟩
  · rcases hwritten with hbytes | ⟨hasRoom, hdevice⟩
    · exact hbytes
    · have hmissing : (redTree.get "out/grammar.gbnf").toOption = none := by decide +kernel
      rw [hdevice] at hmissing
      cases hmissing
  · have hplain : Text.plain redGrammar ++ "\n" = "root ::= _rule1\n_rule1 ::= \"\"\n" := by
      decide +kernel
    rw [hrun, hprinted, hgrammar, hplain]

/-- The red literal is written to a file, and printed as an empty one. -/
theorem red_printed_ne_written :
    (onTree (run ["compile", "red.json"]) redTree).1.status = 0 ∧
      (onTree (run ["compile", "-o", "red.gbnf", "red.json"]) redTree).1.status = 0 ∧
      (onTree (run ["compile", "red.json"]) redTree).1.output = "root ::= \"\"\n" ∧
      ((onTree (run ["compile", "-o", "red.gbnf", "red.json"]) redTree).2.bytesOf
        "red.gbnf").toOption = some (bytesOfText "root ::= \"\x1b[31m\"\n") ∧
      "root ::= \"\"\n" ≠ "root ::= \"\x1b[31m\"\n" := by
  decide +kernel

end Deliveries

end GrammarDiagram.Command
