/-
GrammarDiagram/Proofs/Lookup.lean

No look-up of a compilation fails.

A table gives nothing for a key that it does not have, and the functions that compile
a diagram take the empty text there, or leave the node out.  Below are the same
functions with look-ups that have to succeed: `Table.demand` stops at a key that is
missing.  They do what the others do (`compileChecked_eq`), since every key that they
ask for is there: ids of nodes have names, also if several nodes have one id; every
kind of node has a pattern; the rules that are fused or inlined exist, and so do their
mentioners; and bodies are written for rules only.

So a diagram whose names, labels and handles are texts is compiled unless a node lacks
an edge, and then the fault lists these nodes (`compile_total`).
-/
import GrammarDiagram.Proofs.Compilation

namespace GrammarDiagram

/-! ### Look-ups that have to succeed -/

/-- The value under a key that has to be there. -/
def Table.demand {α : Type} (t : Table α) (key : String) : Except Fault α :=
  match t.get? key with
  | some v => .ok v
  | none => .error (.missingField key)

theorem Table.demand_eq_ok {α : Type} {t : Table α} {key : String} {v : α}
    (h : t.get? key = some v) : t.demand key = .ok v := by
  rw [demand, h]

namespace RuleSet

variable {nodes : List Node} {edges : List Edge} {names : Table String} {rs : RuleSet}

/-! ### Synthesis -/

/-- What nodes match by themselves, by the tags of their kinds. -/
def patternTable : Table (Node → String) where
  entries := [
    (Kind.start.tag, fun _ => ""),
    (Kind.finish.tag, fun _ => ""),
    (Kind.router.tag, fun _ => ""),
    (Kind.literal.tag, fun n => Literal.quote (n.properties.text "value" "")),
    (Kind.charSet.tag, fun n => n.properties.text "pattern" "[]"),
    (Kind.letter.tag, fun _ => "[a-zA-Z]"),
    (Kind.digit.tag, fun _ => "[0-9]"),
    (Kind.nonNewline.tag, fun _ => "[^\\n]"),
    (Kind.identifier.tag, fun _ => "[a-zA-Z_][a-zA-Z0-9_]*"),
    (Kind.duration.tag,
      fun _ => "[0-9] [0-9]? (\"s\" | \"m\" | \"h\" | \"d\" | \"w\" | \"mo\" | \"y\")")]
  distinct := by decide

/-- Every kind has an entry, and it gives the pattern. -/
theorem exists_demand_patternTable (n : Node) :
    ∃ pattern, patternTable.demand n.kind.tag = .ok pattern ∧ pattern n = n.pattern := by
  rcases n with ⟨id, kind, position, properties, name, label⟩
  cases kind <;> exact ⟨_, rfl, rfl⟩

/-- Add the rule of a node, whose id has to have a name and whose kind a pattern. -/
def addRuleChecked (names : Table String) (rules : Table Rule) (n : Node) :
    Except Fault (Table Rule) := do
  let name ← names.demand n.id
  if n.kind = .finish || rules.contains name then return rules
  else
    let pattern ← patternTable.demand n.kind.tag
    return rules.put name { name := name, pattern := pattern n }

theorem addRuleChecked_eq {n : Node} {name : String} (h : names.get? n.id = some name)
    (rules : Table Rule) :
    addRuleChecked names rules n = .ok (addRule names rules n) := by
  simp only [addRuleChecked, addRule, Table.demand_eq_ok h, h]
  show (if n.kind = .finish || rules.contains name then _ else _) = _
  split
  · rfl
  · obtain ⟨pattern, hdemand, hpattern⟩ := exists_demand_patternTable n
    rw [hdemand, ← hpattern]
    rfl

/-- Add the successor that an edge gives.  Its ends are looked up if both have names. -/
def addEdgeChecked (names : Table String) (rs : RuleSet) (e : Edge) : Traced RuleSet :=
  if names.contains e.source && names.contains e.target then do
    let source ← names.demand e.source
    let target ← names.demand e.target
    return rs.link source target
  else do
    let key ← e.key
    Traced.tell (.edgeSkipped key)
    return rs

theorem addEdgeChecked_eq (names : Table String) (rs : RuleSet) (e : Edge) :
    addEdgeChecked names rs e = addEdge names rs e := by
  rcases hs : names.get? e.source with - | source
  · simp only [addEdgeChecked, addEdge, Table.contains, hs]
    rfl
  · rcases ht : names.get? e.target with - | target
    · simp only [addEdgeChecked, addEdge, Table.contains, hs, ht]
      rfl
    · simp only [addEdgeChecked, addEdge, Table.contains, hs, ht, Table.demand_eq_ok hs,
        Table.demand_eq_ok ht]
      rfl

/-- Every id of a node has a name, also if several nodes have it. -/
theorem exists_get?_of_assignNames (h : assignNames nodes = .ok names) {n : Node}
    (hn : n ∈ nodes) : ∃ name, names.get? n.id = some name := by
  obtain ⟨claims, hclaims, h⟩ := Fault.bind_eq_ok_iff.mp h
  cases h
  rcases hlast : lastNode? nodes n.id with - | m
  · exact absurd (List.mem_map_of_mem hn) (lastNode?_eq_none_iff.mp hlast)
  · obtain ⟨_, _, _, -, hget⟩ :=
      get?_nameNodes_of_lastNode? (claims_sound hclaims) 0 (Names.empty claims) hlast
    exact ⟨_, hget⟩

/-- The rule set of a diagram. -/
def synthesizeChecked (nodes : List Node) (edges : List Edge) : Traced RuleSet := do
  let names ← assignNames nodes
  let rules ← (nodes.foldlM (addRuleChecked names) ∅ : Except Fault (Table Rule))
  let rs ← edges.foldlM (addEdgeChecked names) { rules := rules }
  Traced.tell (.synthesisDone rs.size nodes.length)
  return rs

theorem synthesizeChecked_eq (nodes : List Node) (edges : List Edge) :
    synthesizeChecked nodes edges = synthesize nodes edges := by
  refine Traced.bind_congr fun names hnames => ?_
  have hrules : nodes.foldlM (addRuleChecked names) ∅ = .ok (nodes.foldl (addRule names) ∅) := by
    refine Fault.foldlM_eq_ok (fun n hn rules => ?_) ∅
    obtain ⟨name, hname⟩ := exists_get?_of_assignNames hnames hn
    exact addRuleChecked_eq hname rules
  rw [hrules, funext fun rs => funext (addEdgeChecked_eq names rs)]
  exact Traced.lift_ok_bind _ _

/-! ### Reductions -/

theorem demand_rules {name : String} (h : rs.hasRule name) :
    rs.rules.demand name = .ok (rs.ruleOf name) := by
  obtain ⟨rule, hget⟩ := Option.isSome_iff_exists.mp h
  rw [Table.demand_eq_ok hget, ruleOf, hget, Option.getD_some]

/-- Fuse the first rule that can be; both rules have to be there. -/
def fuseChecked (rs : RuleSet) : Except Fault (Option Reduction) :=
  match rs.candidates.find? rs.canFuse with
  | none => return none
  | some (name, mentioner) => do
    let first ← rs.rules.demand mentioner
    let second ← rs.rules.demand name
    let fused := rs.setPattern mentioner (Text.strip (first.pattern ++ " " ++ second.pattern))
    return some ⟨(fused.setSuccessors mentioner (rs.successors name)).remove name,
      .ruleFused name mentioner⟩

theorem fuseChecked_eq (rs : RuleSet) : rs.fuseChecked = .ok rs.fuse? := by
  unfold fuseChecked fuse?
  rcases hc : rs.candidates.find? rs.canFuse with - | ⟨name, mentioner⟩
  · rfl
  · obtain ⟨hname, hmentioner⟩ := hasRule_of_mem_candidates (List.mem_of_find?_eq_some hc)
    simp only [demand_rules hname, demand_rules hmentioner]
    rfl

/-- Whether two rules are twins. -/
def areTwinsChecked (rs : RuleSet) (a b : String) : Except Fault Bool := do
  let first ← rs.rules.demand a
  let second ← rs.rules.demand b
  return first.pattern == second.pattern && rs.successors a == rs.successors b

/-- The first name with a twin behind it, and its first twin. -/
def findTwinsChecked (rs : RuleSet) : List String → Except Fault (Option (String × String))
  | [] => return none
  | name :: rest => do
    match ← rest.findM? (rs.areTwinsChecked name) with
    | some twin => return some (name, twin)
    | none => rs.findTwinsChecked rest

theorem findTwinsChecked_eq {l : List String} (h : ∀ name ∈ l, rs.hasRule name) :
    rs.findTwinsChecked l = .ok (rs.findTwins? l) := by
  induction l with
  | nil => rfl
  | cons name rest ih =>
    have hname := h name List.mem_cons_self
    have hrest : ∀ other ∈ rest, rs.hasRule other := fun other ho =>
      h other (List.mem_cons_of_mem _ ho)
    have htwins : ∀ other ∈ rest,
        rs.areTwinsChecked name other = .ok (rs.areTwins name other) := by
      intro other ho
      simp only [areTwinsChecked, demand_rules hname, demand_rules (hrest other ho)]
      rfl
    rw [findTwinsChecked, findTwins?, Fault.findM?_eq_ok htwins]
    rcases rest.find? (rs.areTwins name) with - | twin
    · exact ih hrest
    · rfl

/-- Merge the first rule that has a twin with it. -/
def mergeChecked (rs : RuleSet) : Except Fault (Option Reduction) := do
  let twins ← rs.findTwinsChecked rs.ordinary
  return twins.map fun p => ⟨rs.mergeAt p.1 p.2, .ruleMerged p.2 p.1⟩

theorem mergeChecked_eq (rs : RuleSet) : rs.mergeChecked = .ok rs.merge? := by
  have hordinary : ∀ name ∈ rs.ordinary, rs.hasRule name := fun name hname =>
    (Table.contains_iff_mem_keys _ _).mpr (List.mem_filter.mp hname).1
  rw [mergeChecked, findTwinsChecked_eq hordinary]
  rfl

/-- Inline the first rule that can be, which has to be there. -/
def inlineChecked (rs : RuleSet) : Except Fault (Option Reduction) :=
  match rs.candidates.find? rs.canInline with
  | none => return none
  | some (name, mentioner) => do
    let fragment := Pattern.fragment (← rs.rules.demand name).pattern
    let targets := (rs.successors mentioner).map fun t => if t = name then fragment else t
    return some ⟨(rs.setSuccessors mentioner targets).remove name,
      .ruleInlined name mentioner fragment⟩

theorem inlineChecked_eq (rs : RuleSet) : rs.inlineChecked = .ok rs.inline? := by
  unfold inlineChecked inline?
  rcases hc : rs.candidates.find? rs.canInline with - | ⟨name, mentioner⟩
  · rfl
  · obtain ⟨hname, -⟩ := hasRule_of_mem_candidates (List.mem_of_find?_eq_some hc)
    simp only [demand_rules hname]
    rfl

/-- The next reduction. -/
def reduceChecked (rs : RuleSet) : Except Fault (Option Reduction) := do
  let fused ← rs.fuseChecked
  if fused.isSome then return fused
  let merged ← rs.mergeChecked
  if merged.isSome then return merged
  rs.inlineChecked

theorem reduceChecked_eq (rs : RuleSet) : rs.reduceChecked = .ok rs.reduce? := by
  rw [reduceChecked, fuseChecked_eq, mergeChecked_eq, inlineChecked_eq, reduce?, basic?]
  rcases rs.fuse? with - | r
  · rcases rs.merge? with - | r
    · rfl
    · rfl
  · rfl

theorem size_reduceChecked {r : Reduction} (h : rs.reduceChecked = .ok (some r)) :
    r.result.size < rs.size :=
  size_reduce? (Except.ok.inj ((reduceChecked_eq rs).symm.trans h))

/-- Reduce until nothing applies. -/
def optimizeChecked (rs : RuleSet) : Except Fault (RuleSet × List Event) :=
  match h : rs.reduceChecked with
  | .error f => .error f
  | .ok none => .ok (rs, [])
  | .ok (some r) => do
    have := size_reduceChecked h
    let (final, events) ← r.result.optimizeChecked
    return (final, r.event :: events)
termination_by rs.size

theorem optimizeChecked_eq (rs : RuleSet) : rs.optimizeChecked = .ok rs.optimize := by
  fun_induction optimizeChecked rs with
  | case1 rs f h =>
    rw [reduceChecked_eq] at h
    cases h
  | case2 rs h =>
    rw [reduceChecked_eq] at h
    rw [optimize_of_none (Except.ok.inj h)]
  | case3 rs r h hlt ih =>
    rw [reduceChecked_eq] at h
    rw [optimize_of_some (Except.ok.inj h), ih]
    rfl

/-- Reduce a rule set to the end, and tell how it went. -/
def optimizeTracedChecked (rs : RuleSet) : Traced (RuleSet × Nat) := do
  let (final, events) ← rs.optimizeChecked
  Traced.tellAll events
  Traced.tell (.reductionDone events.length final.size)
  return (final, events.length)

theorem optimizeTracedChecked_eq (rs : RuleSet) :
    rs.optimizeTracedChecked = rs.optimizeTraced := by
  rw [optimizeTracedChecked, optimizeChecked_eq]
  rfl

/-! ### Emission -/

/-- The body of a rule that has to be there. -/
def bodyChecked (rs : RuleSet) (name : String) : Except Fault String := do
  let rule ← rs.rules.demand name
  return Text.strip (rule.pattern ++ " " ++ renderAlternatives (rs.successors name))

theorem bodyChecked_eq {name : String} (h : rs.hasRule name) :
    rs.bodyChecked name = .ok (rs.body name) := by
  rw [bodyChecked, demand_rules h]
  rfl

/-- The body of the root, empty if there is no root. -/
def rootBodyChecked (rs : RuleSet) : Except Fault String :=
  if rs.hasRule Name.root then rs.bodyChecked Name.root else .ok ""

theorem rootBodyChecked_eq (rs : RuleSet) :
    rs.rootBodyChecked = .ok ((rs.body? Name.root).getD "") := by
  unfold rootBodyChecked body?
  split
  · rename_i hroot
    exact bodyChecked_eq hroot
  · rfl

/-- The text of a grammar. -/
def renderChecked (rs : RuleSet) : Except Fault String := do
  let bodies ← rs.sortedNames.mapM fun name => do
    let body ← rs.bodyChecked name
    return (name, body)
  let rest := (bodies.filter fun b => b.2 != "").map fun b => line b.1 b.2
  let rootBody ← rs.rootBodyChecked
  let lines :=
    if rootBody != "" then line Name.root rootBody :: rest
    else if rest.isEmpty then []
    else line Name.root "\"\"" :: rest
  return String.intercalate "\n" lines

theorem renderChecked_eq (rs : RuleSet) : rs.renderChecked = .ok rs.render := by
  have hbodies : (rs.sortedNames.mapM fun name => do
      let body ← rs.bodyChecked name
      return (name, body)) = Except.ok (rs.sortedNames.map fun name => (name, rs.body name)) := by
    refine Fault.mapM_eq_ok fun name hname => ?_
    have hrule : rs.hasRule name := by
      have hkey := List.mem_mergeSort.mp hname
      exact (Table.contains_iff_mem_keys _ _).mpr (List.mem_filter.mp hkey).1
    rw [bodyChecked_eq hrule]
    rfl
  have hrest : ((rs.sortedNames.map fun name => (name, rs.body name)).filter
      fun b => b.2 != "").map (fun b => line b.1 b.2) = rs.ordinaryLines := by
    simp only [ordinaryLines, List.filter_map, List.map_map, Function.comp_def]
  rw [renderChecked, hbodies, rootBodyChecked_eq]
  show Except.ok _ = _
  rw [hrest]
  rfl

end RuleSet

/-! ### Compilation -/

variable {nodes : List Node} {edges : List Edge}

/-- Compile nodes and edges, with look-ups that have to succeed. -/
def compileChecked (optimize : Bool) (nodes : List Node) (edges : List Edge) :
    Traced Compilation := do
  let report := Report.ofGraph nodes edges
  if !report.isValid then
    (throw report.fault : Except Fault Unit)
  Traced.tell (.synthesisStarted nodes.length edges.length)
  let rs ← RuleSet.synthesizeChecked nodes edges
  if optimize then
    let (final, steps) ← rs.optimizeTracedChecked
    Traced.tell (.optimized final.size steps)
    return ⟨← final.renderChecked, final, steps⟩
  else
    return ⟨← rs.renderChecked, rs, 0⟩

theorem compileChecked_eq (optimize : Bool) (nodes : List Node) (edges : List Edge) :
    compileChecked optimize nodes edges = compile optimize nodes edges := by
  unfold compileChecked compile
  simp only [RuleSet.synthesizeChecked_eq, RuleSet.optimizeTracedChecked_eq,
    RuleSet.renderChecked_eq]
  rfl

/-! ### Legible diagrams -/

/-- A value that is a text, or absent. -/
def Value.isTextual : Value → Bool
  | .text _ => true
  | v => !v.isPresent

theorem Value.exists_text {v : Value} (h : v.isTextual) (hpresent : v.isPresent) :
    ∃ s, v = .text s := by
  unfold isTextual at h
  split at h
  · exact ⟨_, rfl⟩
  · simp [hpresent] at h

/-- Name and label are texts, or absent. -/
def Node.isLegible (n : Node) : Bool := n.name.isTextual && n.label.isTextual

/-- Both handles are texts, or absent. -/
def Edge.isLegible (e : Edge) : Bool := e.sourceHandle.isTextual && e.targetHandle.isTextual

/-- What the user is told as the name of a legible node is a text. -/
theorem Node.displayName_eq_text {n : Node} (h : n.isLegible) :
    n.displayName = .text n.displayName.display := by
  obtain ⟨hname, hlabel⟩ := Bool.and_eq_true_iff.mp h
  obtain ⟨s, hs⟩ : ∃ s, n.displayName = .text s := by
    unfold displayName
    split
    · rename_i hnamed
      exact Value.exists_text hname (Bool.and_eq_true_iff.mp hnamed).1
    · split
      · rename_i hpresent
        exact Value.exists_text hlabel hpresent
      · exact ⟨_, rfl⟩
  rw [hs, Value.display_text]

theorem Edge.exists_handleText {v : Value} (h : v.isTextual) :
    ∃ parts, Edge.handleText v = .ok parts := by
  unfold Edge.handleText
  split
  · exact ⟨_, rfl⟩
  · rename_i hno
    have habsent : v.isPresent = false := by
      by_contra hpresent
      obtain ⟨s, hs⟩ := Value.exists_text h (by simpa using hpresent)
      exact hno s hs
    rw [habsent]
    exact ⟨_, rfl⟩

theorem Edge.exists_key {e : Edge} (h : e.isLegible) : ∃ key, e.key = .ok key := by
  obtain ⟨hsource, htarget⟩ := Bool.and_eq_true_iff.mp h
  obtain ⟨first, hfirst⟩ := exists_handleText hsource
  obtain ⟨second, hsecond⟩ := exists_handleText htarget
  rw [Edge.key, hfirst, hsecond]
  exact ⟨_, rfl⟩

/-- Legible diagrams have rule sets, whatever their ids. -/
theorem exists_synthesize (hnodes : ∀ n ∈ nodes, n.isLegible) (hedges : ∀ e ∈ edges, e.isLegible) :
    ∃ rs, (RuleSet.synthesize nodes edges).result = .ok rs := by
  have hname : ∀ n ∈ nodes, n.isNamed → ∃ s, n.name = .text s := fun n hn hnamed =>
    Value.exists_text (Bool.and_eq_true_iff.mp (hnodes n hn)).1 (Bool.and_eq_true_iff.mp hnamed).1
  obtain ⟨names, hnames⟩ := RuleSet.exists_assignNames_iff.mpr hname
  exact ⟨_, RuleSet.synthesize_eq_ok_iff.mpr
    ⟨names, hnames, fun e he _ => Edge.exists_key (hedges e he), rfl⟩⟩

/-! ### Nodes that lack an edge -/

/-- A node lacks an edge: one that leaves it, unless it is a finish, or one that enters
it, unless it is a start. -/
def Unwired (edges : List Edge) (n : Node) : Prop :=
  (n.kind ≠ .finish ∧ ∀ e ∈ edges, e.source ≠ n.id) ∨
    (n.kind ≠ .start ∧ ∀ e ∈ edges, e.target ≠ n.id)

instance (edges : List Edge) : DecidablePred (Unwired edges) := fun n =>
  inferInstanceAs (Decidable ((n.kind ≠ .finish ∧ ∀ e ∈ edges, e.source ≠ n.id) ∨
    (n.kind ≠ .start ∧ ∀ e ∈ edges, e.target ≠ n.id)))

theorem isWired_eq_false_iff {n : Node} : n.isWired edges = false ↔ Unwired edges n := by
  have hout : hasOutgoing edges n.id = false ↔ ∀ e ∈ edges, e.source ≠ n.id := by
    simp [hasOutgoing]
  have hin : hasIncoming edges n.id = false ↔ ∀ e ∈ edges, e.target ≠ n.id := by
    simp [hasIncoming]
  unfold Unwired Node.isWired
  rw [← hout, ← hin]
  split
  · rename_i hkind
    simp [hkind]
  · rename_i hkind
    simp [hkind]
  · rename_i hstart hfinish
    rw [Bool.and_eq_false_iff, or_comm, and_iff_right hstart, and_iff_right hfinish]

/-- The report names the nodes that lack an edge. -/
theorem problems_ofGraph (nodes : List Node) (edges : List Edge) :
    (Report.ofGraph nodes edges).problems =
      (nodes.filter (Unwired edges ·)).map Node.displayName := by
  have hfilter : (fun n : Node => !n.isWired edges) = fun n => decide (Unwired edges n) := by
    funext n
    rw [Bool.eq_iff_iff, Bool.not_eq_true', decide_eq_true_iff, isWired_eq_false_iff]
  rw [Report.ofGraph, hfilter]

theorem isValid_ofGraph_iff :
    (Report.ofGraph nodes edges).isValid ↔ ∀ n ∈ nodes, ¬ Unwired edges n := by
  simp [Report.isValid, problems_ofGraph]

theorem mapM_nameText (names : List String) :
    (names.map Value.text).mapM Report.nameText = .ok names := by
  rw [List.mapM_map]
  exact (Fault.mapM_eq_ok fun _ _ => rfl).trans (by rw [List.map_id'])

theorem fault_ofGraph (hnodes : ∀ n ∈ nodes, n.isLegible) :
    (Report.ofGraph nodes edges).fault =
      .incomplete ((nodes.filter (Unwired edges ·)).map fun n => n.displayName.display) := by
  have hproblems : (Report.ofGraph nodes edges).problems =
      ((nodes.filter (Unwired edges ·)).map fun n => n.displayName.display).map Value.text := by
    rw [problems_ofGraph, List.map_map]
    exact List.map_congr_left fun n hn =>
      Node.displayName_eq_text (hnodes n (List.mem_filter.mp hn).1)
  rw [Report.fault, hproblems, mapM_nameText]

/-- No look-up of a compilation fails, so a legible diagram is compiled unless a node
lacks an edge; then the fault lists what the user is told as the names of these nodes. -/
theorem compile_total (optimize : Bool) (hnodes : ∀ n ∈ nodes, n.isLegible)
    (hedges : ∀ e ∈ edges, e.isLegible) :
    compileChecked optimize nodes edges = compile optimize nodes edges ∧
      ((∃ n ∈ nodes, Unwired edges n) →
        (compile optimize nodes edges).result = .error (.incomplete
          ((nodes.filter (Unwired edges ·)).map fun n => n.displayName.display))) ∧
      ((∀ n ∈ nodes, ¬ Unwired edges n) →
        ∃ c, (compile optimize nodes edges).result = .ok c) := by
  refine ⟨compileChecked_eq optimize nodes edges, ?_, ?_⟩
  · rintro ⟨n, hn, hunwired⟩
    have hinvalid : ¬ (Report.ofGraph nodes edges).isValid := fun h =>
      isValid_ofGraph_iff.mp h n hn hunwired
    rw [result_compile, if_neg hinvalid, fault_ofGraph hnodes]
  · intro hwired
    obtain ⟨rs, hrs⟩ := exists_synthesize hnodes hedges
    exact ⟨_, compile_eq_ok_iff.mpr ⟨isValid_ofGraph_iff.mpr hwired, rs, hrs, rfl⟩⟩

/-- Two starts, two nodes with one id, and a finish that an edge leaves. -/
def crowdedNodes : List Node := [
  { id := "in", kind := .start },
  { id := "again", kind := .start },
  { id := "word", kind := .letter, name := .text "Word" },
  { id := "word", kind := .digit },
  { id := "out", kind := .finish, label := .text "Done" }]

/-- Edges of the crowded nodes, two of them with an end that is no node. -/
def crowdedEdges : List Edge := [
  { source := "in", target := "word" },
  { source := "again", target := "word" },
  { source := "word", target := "out", sourceHandle := .text "right" },
  { source := "out", target := "word" },
  { source := "word", target := "nowhere", targetHandle := .text "left" },
  { source := "nowhere", target := "lost" }]

/-- A node that an edge enters and none leaves. -/
def lostNode : Node := { id := "lost", kind := .router, label := .text "Crossing" }

/-- The crowded diagram is compiled; with a node that lacks an edge, and without the
edges, the fault lists the nodes. -/
theorem compile_total_crowded :
    (∀ n ∈ lostNode :: crowdedNodes, n.isLegible) ∧ (∀ e ∈ crowdedEdges, e.isLegible) ∧
      (∃ c, (compile true crowdedNodes crowdedEdges).result = .ok c) ∧
      (compile true (lostNode :: crowdedNodes) crowdedEdges).result =
        .error (.incomplete ["Crossing"]) ∧
      (compile false crowdedNodes []).result =
        .error (.incomplete ["Start", "Start", "Word", "Digit", "Done"]) := by
  have hnodes : ∀ n ∈ lostNode :: crowdedNodes, n.isLegible := by decide
  have hedges : ∀ e ∈ crowdedEdges, e.isLegible := by decide
  have hcrowded : ∀ n ∈ crowdedNodes, n.isLegible := fun n hn =>
    hnodes n (List.mem_cons_of_mem _ hn)
  refine ⟨hnodes, hedges, (compile_total true hcrowded hedges).2.2 (by decide), ?_, ?_⟩
  · exact (compile_total true hnodes hedges).2.1 (by decide)
  · exact (compile_total false hcrowded (by decide)).2.1 (by decide)

end GrammarDiagram
