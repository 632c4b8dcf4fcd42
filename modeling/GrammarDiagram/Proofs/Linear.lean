/-
GrammarDiagram/Proofs/Linear.lean

Linear diagrams compile to one line.

A linear diagram runs from its start to its finish without a branch.  Its rule
set is chained, in whatever order its nodes and its edges are listed
(`Linear.chained`): the edges give pairs of neighbouring names, no two of them
with the same first name, so that every name has one successor at most
(`Linear.successors_assemble_eq`).  Reducing a chain leaves one rule, and so the
grammar is one line, or empty (`compile_linear`).
-/
import GrammarDiagram.Proofs.Chain
import GrammarDiagram.Proofs.Compilation
import GrammarDiagram.Proofs.Wiring

namespace GrammarDiagram

/-! ### Pairs of neighbours -/

namespace RuleSet

/-- The name of a node. -/
def nameOf (names : Table String) (n : Node) : String := (names.get? n.id).getD ""

theorem Naming.get?_eq_nameOf {names : Table String} {nodes : List Node} {n : Node}
    (hnames : Naming nodes names) (hn : n ∈ nodes) :
    names.get? n.id = some (nameOf names n) := by
  obtain ⟨x, hx, -⟩ := hnames.fits hn
  rw [nameOf, hx]
  rfl

/-- The names at the ends of the edges of a linear diagram, in its order. -/
def neighbours (names : Table String) (start : Node) (inner : List Node) (stop : Node) :
    List (String × String) :=
  ((start :: inner).map (nameOf names)).zip ((inner ++ [stop]).map (nameOf names))

theorem map_fst_neighbours (names : Table String) (start : Node) (inner : List Node)
    (stop : Node) :
    (neighbours names start inner stop).map Prod.fst = (start :: inner).map (nameOf names) :=
  List.map_fst_zip (by simp)

theorem map_snd_neighbours (names : Table String) (start : Node) (inner : List Node)
    (stop : Node) :
    (neighbours names start inner stop).map Prod.snd = (inner ++ [stop]).map (nameOf names) :=
  List.map_snd_zip (by simp)

/-- Of pairs with different first parts at most one begins with `x`. -/
theorem filterMap_eq_findEntry {pairs : List (String × String)}
    (hd : (pairs.map Prod.fst).Nodup) (x : String) :
    pairs.filterMap (fun p => if p.1 = x then some p.2 else none) =
      (Table.findEntry x pairs).toList := by
  induction pairs with
  | nil => rfl
  | cons p rest ih =>
    rw [List.map_cons, List.nodup_cons] at hd
    by_cases hp : p.1 = x
    · have hnone : Table.findEntry x rest = none := by
        rw [← Option.not_isSome_iff_eq_none, Table.findEntry_isSome_iff, ← hp]
        exact hd.1
      rw [List.filterMap_cons, ih hd.2, hnone]
      simp [Table.findEntry, hp]
    · rw [List.filterMap_cons, ih hd.2]
      simp [Table.findEntry, hp]

end RuleSet

/-! ### Linear diagrams -/

/-- A diagram that runs from its start through other nodes to its finish, one
edge from each node to the next.  Nodes and edges may be listed in any order. -/
structure Linear (nodes : List Node) (edges : List Edge) (start : Node) (inner : List Node)
    (stop : Node) : Prop where
  nodes_perm : nodes.Perm (start :: inner ++ [stop])
  distinct : (nodes.map Node.id).Nodup
  start_kind : start.kind = .start
  inner_kind : ∀ n ∈ inner, n.kind.isSentinel = false
  stop_kind : stop.kind = .finish
  edges_perm : (edges.map fun e => (e.source, e.target)).Perm
    (((start :: inner).map Node.id).zip ((inner ++ [stop]).map Node.id))

namespace Linear

variable {nodes : List Node} {edges : List Edge} {start stop : Node} {inner : List Node}
  (h : Linear nodes edges start inner stop)
include h

theorem mem_iff {n : Node} : n ∈ nodes ↔ n ∈ start :: inner ∨ n = stop := by
  rw [h.nodes_perm.mem_iff, List.mem_append, List.mem_singleton]

theorem kind_ne_finish {n : Node} (hn : n ∈ start :: inner) : n.kind ≠ .finish := by
  rcases List.mem_cons.mp hn with rfl | hn
  · rw [h.start_kind]
    decide
  · exact (Kind.ne_of_isSentinel_eq_false (h.inner_kind n hn)).2

theorem mem_of_kind_ne_finish {n : Node} (hn : n ∈ nodes) (hkind : n.kind ≠ .finish) :
    n ∈ start :: inner := by
  rcases h.mem_iff.mp hn with hn | rfl
  · exact hn
  · exact absurd h.stop_kind hkind

theorem kind_ne_start {n : Node} (hn : n ∈ inner ++ [stop]) : n.kind ≠ .start := by
  rcases List.mem_append.mp hn with hn | hn
  · exact (Kind.ne_of_isSentinel_eq_false (h.inner_kind n hn)).1
  · rw [List.mem_singleton.mp hn, h.stop_kind]
    decide

/-! ### The check of the wiring -/

/-- The sources of the edges are the nodes but the last. -/
theorem sources_perm : (edges.map Edge.source).Perm ((start :: inner).map Node.id) := by
  have hperm := h.edges_perm.map Prod.fst
  rw [List.map_map, List.map_fst_zip (by simp)] at hperm
  exact hperm

/-- The targets of the edges are the nodes but the first. -/
theorem targets_perm : (edges.map Edge.target).Perm ((inner ++ [stop]).map Node.id) := by
  have hperm := h.edges_perm.map Prod.snd
  rw [List.map_map, List.map_snd_zip (by simp)] at hperm
  exact hperm

theorem hasOutgoing_of_mem {n : Node} (hn : n ∈ start :: inner) : hasOutgoing edges n.id := by
  have hid := h.sources_perm.mem_iff.mpr (List.mem_map_of_mem hn)
  simpa [hasOutgoing] using hid

theorem hasIncoming_of_mem {n : Node} (hn : n ∈ inner ++ [stop]) : hasIncoming edges n.id := by
  have hid := h.targets_perm.mem_iff.mpr (List.mem_map_of_mem hn)
  simpa [hasIncoming] using hid

theorem isWired {n : Node} (hn : n ∈ nodes) : n.isWired edges := by
  rw [h.nodes_perm.mem_iff, List.mem_append, List.mem_cons, List.mem_singleton] at hn
  rcases hn with (rfl | hn) | rfl
  · simp [Node.isWired, h.start_kind, h.hasOutgoing_of_mem List.mem_cons_self]
  · have hout := h.hasOutgoing_of_mem (List.mem_cons_of_mem _ hn)
    have hin := h.hasIncoming_of_mem (List.mem_append_left _ hn)
    unfold Node.isWired
    split <;> simp [hout, hin]
  · have hin := h.hasIncoming_of_mem (List.mem_append_right _ List.mem_cons_self)
    simp [Node.isWired, h.stop_kind, hin]

theorem isValid : (Report.ofGraph nodes edges).isValid := by
  have hnone : nodes.filter (fun n => !n.isWired edges) = [] := by
    rw [List.filter_eq_nil_iff]
    intro n hn
    simp [h.isWired hn]
  simp [Report.isValid, Report.ofGraph, hnone]

/-! ### The rule set -/

variable {names : Table String} (hnames : RuleSet.Naming nodes names)
include hnames

open RuleSet

/-- The rules of different nodes have different names. -/
theorem nodup_names : ((start :: inner).map (nameOf names)).Nodup := by
  have hnodup : (start :: inner).Nodup :=
    (List.nodup_append.mp (h.nodes_perm.nodup_iff.mp h.distinct.of_map)).1
  refine (List.nodup_map_iff_inj_on hnodup).mpr fun m hm n hn hname => ?_
  have hmem := h.mem_iff.mpr (.inl hm)
  have hnmem := h.mem_iff.mpr (.inl hn)
  have hget := hnames.get?_eq_nameOf hmem
  rw [hname] at hget
  rcases hnames.eq_or_sentinels h.distinct hmem hnmem hget (hnames.get?_eq_nameOf hnmem)
    (h.kind_ne_finish hn) with heq | ⟨hms, hns⟩
  · exact heq
  · have hstart : ∀ k ∈ start :: inner, k.kind = .start → k = start := by
      intro k hk hkind
      rcases List.mem_cons.mp hk with rfl | hk
      · rfl
      · exact absurd hkind (h.kind_ne_start (List.mem_append_left _ hk))
    rw [hstart m hm hms, hstart n hn hns]

theorem nodup_neighbours : ((neighbours names start inner stop).map Prod.fst).Nodup := by
  rw [map_fst_neighbours]
  exact h.nodup_names hnames

/-- A name has the successor that the edge from its node gives. -/
theorem successors_assemble_eq (x : String) :
    (assemble names nodes edges).successors x =
      (Table.findEntry x (neighbours names start inner stop)).toList := by
  have hperm := h.edges_perm.filterMap
    fun p => if names.get? p.1 = some x then names.get? p.2 else none
  have hpairs : (((start :: inner).map Node.id).zip ((inner ++ [stop]).map Node.id)).filterMap
      (fun p => if names.get? p.1 = some x then names.get? p.2 else none) =
      (neighbours names start inner stop).filterMap
        fun p => if p.1 = x then some p.2 else none := by
    rw [neighbours, List.zip_map, List.zip_map, List.filterMap_map, List.filterMap_map]
    refine List.filterMap_congr fun p hp => ?_
    obtain ⟨hsource, htarget⟩ := List.of_mem_zip hp
    have hsource' := hnames.get?_eq_nameOf (h.mem_iff.mpr (.inl hsource))
    have htarget' := hnames.get?_eq_nameOf
      (h.nodes_perm.mem_iff.mpr (List.mem_cons_of_mem _ htarget))
    simp only [Function.comp_apply, Prod.map_fst, Prod.map_snd, hsource', htarget',
      Option.some.injEq]
  rw [hpairs, List.filterMap_map, filterMap_eq_findEntry (h.nodup_neighbours hnames)] at hperm
  change (edges.filterMap (targetFrom names x)).Perm _ at hperm
  rw [successors_assemble]
  -- a list with one item at most has one order
  generalize Table.findEntry x (neighbours names start inner stop) = found at hperm ⊢
  rcases found with - | t
  · exact List.perm_nil.mp hperm
  · exact List.perm_singleton.mp hperm

theorem patternOf_nameOf {n : Node} (hn : n ∈ start :: inner) :
    (assemble names nodes edges).patternOf (nameOf names n) = n.pattern := by
  have hmem := h.mem_iff.mpr (.inl hn)
  refine patternOf_assemble hmem (h.kind_ne_finish hn) (hnames.get?_eq_nameOf hmem) ?_
  intro m hm hkind hget
  have hname : nameOf names m = nameOf names n := by
    rw [nameOf, hget]
    rfl
  exact List.inj_on_of_nodup_map (h.nodup_names hnames) (h.mem_of_kind_ne_finish hm hkind) hn hname

omit h in
theorem fits_nameOf {n : Node} (hn : n ∈ nodes) : Fits n.kind (nameOf names n) :=
  hnames.fits_of_get? hn (hnames.get?_eq_nameOf hn)

/-- There is a rule for every node but the last. -/
theorem rules_perm :
    (assemble names nodes edges).rules.keys.Perm ((start :: inner).map (nameOf names)) := by
  refine (List.perm_ext_iff_of_nodup (Table.nodup_keys _) (h.nodup_names hnames)).mpr fun x => ?_
  rw [← Table.contains_iff_mem_keys]
  change (assemble names nodes edges).hasRule x ↔ _
  rw [hasRule_assemble_iff, List.mem_map]
  constructor
  · rintro ⟨n, hn, hkind, hget⟩
    rw [hnames.get?_eq_nameOf hn] at hget
    exact ⟨n, h.mem_of_kind_ne_finish hn hkind, Option.some.inj hget⟩
  · rintro ⟨n, hn, rfl⟩
    have hmem := h.mem_iff.mpr (.inl hn)
    exact ⟨n, hmem, h.kind_ne_finish hn, hnames.get?_eq_nameOf hmem⟩

/-- Every name has the name of the next node for its successor. -/
theorem successors_names :
    ((start :: inner).map (nameOf names)).map (assemble names nodes edges).successors =
      (((start :: inner).map (nameOf names)).tail ++ [""]).map fun t => [t] := by
  have hstop : nameOf names stop = "" :=
    (fits_nameOf hnames (h.mem_iff.mpr (.inr rfl))).eq_empty_iff.mpr h.stop_kind
  have htargets : ((start :: inner).map (nameOf names)).tail ++ [""] =
      (neighbours names start inner stop).map Prod.snd := by
    rw [map_snd_neighbours, List.map_append, List.map_singleton, hstop]
    rfl
  rw [htargets, ← map_fst_neighbours names start inner stop, List.map_map, List.map_map]
  refine List.map_congr_left fun p hp => ?_
  have hfind := (Table.findEntry_eq_some_iff (h.nodup_neighbours hnames)).mpr hp
  rw [Function.comp_apply, h.successors_assemble_eq hnames, hfind]
  rfl

/-- The rule set of a linear diagram is chained. -/
theorem chained (hbare : ∀ n ∈ inner, Text.IsStripped n.pattern) :
    (assemble names nodes edges).Chained ((start :: inner).map (nameOf names)) where
  head := by
    have hfits := fits_nameOf hnames (h.mem_iff.mpr (.inl List.mem_cons_self))
    exact congrArg some (hfits.eq_root_iff.mpr h.start_kind)
  rules := h.rules_perm hnames
  ne_empty := by
    intro hmem
    obtain ⟨n, hn, hempty⟩ := List.mem_map.mp hmem
    have hfits := fits_nameOf hnames (h.mem_iff.mpr (.inl hn))
    exact h.kind_ne_finish hn (hfits.eq_empty_iff.mp hempty)
  links := h.successors_names hnames
  outside := by
    intro x hx
    have hnone : Table.findEntry x (neighbours names start inner stop) = none := by
      rw [← Option.not_isSome_iff_eq_none, Table.findEntry_isSome_iff, map_fst_neighbours]
      exact hx
    rw [h.successors_assemble_eq hnames, hnone]
    rfl
  bare := by
    intro x hx
    obtain ⟨n, hn, rfl⟩ := List.mem_map.mp hx
    rw [h.patternOf_nameOf hnames hn]
    rcases List.mem_cons.mp hn with rfl | hn
    · rw [Node.pattern, h.start_kind]
      exact Text.isStripped_iff.mpr rfl
    · exact hbare n hn

omit hnames in
/-- Names are the only thing that can go wrong: no edge is left out. -/
theorem legible_iff :
    Legible nodes edges ↔ ∀ n ∈ inner, n.isNamed → ∃ s, n.name = .text s := by
  constructor
  · intro hlegible n hn
    exact hlegible.name n (h.mem_iff.mpr (.inl (List.mem_cons_of_mem _ hn)))
  · intro hinner
    constructor
    · intro n hn hnamed
      rw [h.nodes_perm.mem_iff, List.mem_append, List.mem_cons, List.mem_singleton] at hn
      rcases hn with (rfl | hn) | rfl
      · simp [Node.isNamed, h.start_kind, Kind.isSentinel] at hnamed
      · exact hinner n hn hnamed
      · simp [Node.isNamed, h.stop_kind, Kind.isSentinel] at hnamed
    · intro e he hloose
      have hids : (nodes.map Node.id).Perm ((start :: inner ++ [stop]).map Node.id) :=
        h.nodes_perm.map _
      have hsource := h.sources_perm.mem_iff.mp (List.mem_map_of_mem he)
      have htarget := h.targets_perm.mem_iff.mp (List.mem_map_of_mem he)
      rw [hids.mem_iff, hids.mem_iff] at hloose
      rcases hloose with hloose | hloose
      · rw [List.map_append] at hloose
        exact absurd (List.mem_append_left _ hsource) hloose
      · exact absurd (List.mem_cons_of_mem _ htarget) hloose

end Linear

/-- A linear diagram whose patterns have no blanks at their ends compiles to one
line, in one step for each node between start and finish, exactly if the names
that users gave are texts. -/
theorem compile_linear {nodes : List Node} {edges : List Edge} {start stop : Node}
    {inner : List Node} (h : Linear nodes edges start inner stop)
    (hbare : ∀ n ∈ inner, Text.IsStripped n.pattern) :
    (∃ c, (compile true nodes edges).result = .ok c ∧ c.steps = inner.length ∧
        c.ruleSet.rules.keys = [Name.root] ∧
        c.grammar = RuleSet.oneLine ((inner.map Node.pattern).filter fun p => p != "")) ↔
      ∀ n ∈ inner, n.isNamed → ∃ s, n.name = .text s := by
  rw [← h.legible_iff]
  constructor
  · rintro ⟨c, hc, -⟩
    exact ((exists_compile_iff h.distinct).mp ⟨c, hc⟩).2
  · intro hlegible
    obtain ⟨c, hc⟩ := (exists_compile_iff h.distinct).mpr ⟨h.isValid, hlegible⟩
    obtain ⟨-, rs, hrs, rfl⟩ := compile_eq_ok_iff.mp hc
    obtain ⟨names, hassign, -, rfl⟩ := RuleSet.synthesize_eq_ok_iff.mp hrs
    have hnames := RuleSet.naming_of_assignNames h.distinct hassign
    have hchain := h.chained hnames hbare
    obtain ⟨hroot, htext⟩ := hchain.optimize
    refine ⟨_, hc, ?_, List.perm_singleton.mp hroot.rules, ?_⟩
    · have hsteps := RuleSet.length_add_size_optimize (RuleSet.assemble names nodes edges)
      have hsize := hchain.rules.length_eq
      have hsize' := hroot.rules.length_eq
      simp only [Table.length_keys, List.length_map, List.length_cons, List.length_nil]
        at hsize hsize'
      simp only [RuleSet.size] at hsteps
      show (RuleSet.assemble names nodes edges).optimize.2.length = _
      omega
    · have hpatterns : ((start :: inner).map (RuleSet.nameOf names)).map
          (RuleSet.assemble names nodes edges).patternOf = (start :: inner).map Node.pattern := by
        rw [List.map_map]
        exact List.map_congr_left fun n hn => h.patternOf_nameOf hnames hn
      have hstart : start.pattern = "" := by rw [Node.pattern, h.start_kind]
      rw [hpatterns] at htext
      have hrender := hroot.render_eq htext
      rw [List.map_cons, hstart] at hrender
      exact hrender

/-- Where the lineup starts. -/
def lineupStart : Node := { id := "s", kind := .start }

/-- A letter, a router, a digit with a name and a quotation mark. -/
def lineup : List Node := [
  { id := "a", kind := .letter },
  { id := "r", kind := .router },
  { id := "b", kind := .digit, name := .text "root" },
  { id := "q", kind := .literal, properties := [(.text "value", .text "\"")] }]

/-- Where the lineup ends. -/
def lineupStop : Node := { id := "e", kind := .finish }

/-- The edges of the lineup, not in its order. -/
def lineupEdges : List Edge := [
  { source := "b", target := "q" },
  { source := "s", target := "a" },
  { source := "q", target := "e" },
  { source := "r", target := "b" },
  { source := "a", target := "r" }]

theorem linear_lineup :
    Linear (lineupStart :: lineup ++ [lineupStop]).reverse lineupEdges lineupStart lineup
      lineupStop where
  nodes_perm := List.reverse_perm _
  distinct := by decide
  start_kind := rfl
  inner_kind := by decide
  stop_kind := rfl
  edges_perm := by decide

/-- The lineup compiles to one line, its nodes listed from the last to the
first. -/
theorem compile_linear_lineup :
    Linear (lineupStart :: lineup ++ [lineupStop]).reverse lineupEdges lineupStart lineup
        lineupStop ∧
      (∀ n ∈ lineup, Text.IsStripped n.pattern) ∧
      ∃ c, (compile true (lineupStart :: lineup ++ [lineupStop]).reverse lineupEdges).result =
          .ok c ∧
        c.steps = 4 ∧ c.ruleSet.rules.keys = [Name.root] ∧
        c.grammar = "root ::= [a-zA-Z] [0-9] \"\\\"\"" := by
  have hbare : ∀ n ∈ lineup, Text.IsStripped n.pattern := by
    intro n hn
    simp only [lineup, List.mem_cons, List.not_mem_nil, or_false] at hn
    rcases hn with rfl | rfl | rfl | rfl <;> rw [Text.isStripped_iff] <;> decide +kernel
  have htext : ∀ n ∈ lineup, n.isNamed → ∃ s, n.name = .text s := by
    intro n hn hnamed
    simp only [lineup, List.mem_cons, List.not_mem_nil, or_false] at hn
    rcases hn with rfl | rfl | rfl | rfl
    · cases hnamed
    · cases hnamed
    · exact ⟨_, rfl⟩
    · cases hnamed
  have hline : RuleSet.oneLine ((lineup.map Node.pattern).filter fun p => p != "") =
      "root ::= [a-zA-Z] [0-9] \"\\\"\"" := by decide +kernel
  obtain ⟨c, hc, hsteps, hkeys, hgrammar⟩ := (compile_linear linear_lineup hbare).mpr htext
  exact ⟨linear_lineup, hbare, c, hc, hsteps, hkeys, hgrammar.trans hline⟩

end GrammarDiagram
