/-
GrammarDiagram/Proofs/Renaming.lean

Ids serve to tell nodes apart and for nothing else.

A renaming gives every id of a diagram another one.  If it keeps different ids
apart, the diagram compiles to the same rule set and the same text as before,
or stops at the same fault (`compile_rename`).  Ids may be shared by nodes, and
edges may run to ids without a node.

The two runs go side by side: at every point the tables of the second hold
under the new ids what those of the first hold under the old ones
(`Table.Renames`), and everything else is equal.  `Parallel` says this of
computations that may fail, and is kept by sequences (`Parallel.bind`) and by
loops (`Parallel.foldlM`).
-/
import GrammarDiagram.Proofs.Compilation
import Mathlib.Data.Set.Function
import Mathlib.Logic.Equiv.Basic

namespace GrammarDiagram

/-! ### Renamed diagrams -/

/-- The node with another id. -/
def Node.rename (f : String → String) (n : Node) : Node := { n with id := f n.id }

/-- The edge between the new ids. -/
def Edge.rename (f : String → String) (e : Edge) : Edge :=
  { e with source := f e.source, target := f e.target }

/-- The ids of nodes and those at the ends of edges. -/
def occurringIds (nodes : List Node) (edges : List Edge) : Set String :=
  {id | (∃ n ∈ nodes, n.id = id) ∨ ∃ e ∈ edges, e.source = id ∨ e.target = id}

/-! ### Computations side by side -/

/-- Two computations stop at the same fault, or have related results. -/
inductive Parallel {α β : Type} (R : α → β → Prop) : Except Fault α → Except Fault β → Prop
  | fault (e : Fault) : Parallel R (.error e) (.error e)
  | result {a b} : R a b → Parallel R (.ok a) (.ok b)

namespace Parallel

variable {α β α' β' γ : Type} {R : α → β → Prop} {Q : α' → β' → Prop}

theorem eq {x y : Except Fault α} (h : Parallel Eq x y) : x = y := by
  cases h with
  | fault e => rfl
  | result h => rw [h]

theorem bind {x : Except Fault α} {y : Except Fault β} {f : α → Except Fault α'}
    {g : β → Except Fault β'} (h : Parallel R x y)
    (hfg : ∀ a b, R a b → Parallel Q (f a) (g b)) : Parallel Q (x >>= f) (y >>= g) := by
  cases h with
  | fault e => exact .fault e
  | result h => exact hfg _ _ h

/-- Loops over a list and over a changed one stay side by side if every round
does. -/
theorem foldlM {f : α → γ → Except Fault α} {g : β → γ → Except Fault β} {change : γ → γ}
    (l : List γ) (hstep : ∀ c ∈ l, ∀ a b, R a b → Parallel R (f a c) (g b (change c)))
    {a : α} {b : β} (h : R a b) : Parallel R (l.foldlM f a) ((l.map change).foldlM g b) := by
  induction l generalizing a b with
  | nil => exact .result h
  | cons c rest ih =>
    rw [List.map_cons, List.foldlM_cons, List.foldlM_cons]
    obtain ⟨hc, hrest⟩ := List.forall_mem_cons.mp hstep
    exact (hc a b h).bind fun a' b' h' => ih hrest h'

end Parallel

/-! ### Renamed tables -/

section Renamed

variable {f : String → String} {ids : Set String} (hf : ids.InjOn f)

/-- The second table holds under the new ids what the first one holds under the
old ones. -/
def Table.Renames {α : Type*} (f : String → String) (ids : Set String) (t t' : Table α) : Prop :=
  ∀ id ∈ ids, t'.get? (f id) = t.get? id

theorem Table.renames_empty {α : Type*} : Table.Renames f ids (∅ : Table α) ∅ :=
  fun _ _ => rfl

include hf in
theorem Table.Renames.put {α : Type*} {t t' : Table α} (h : Table.Renames f ids t t')
    {id : String} (hid : id ∈ ids) (v : α) :
    Table.Renames f ids (t.put id v) (t'.put (f id) v) := by
  intro k hk
  rw [Table.get?_put, Table.get?_put, h k hk]
  exact if_congr (hf.eq_iff hk hid) rfl rfl

/-! ### The check of the wiring -/

variable {nodes : List Node} {edges : List Edge} (hnodes : ∀ n ∈ nodes, n.id ∈ ids)
  (hedges : ∀ e ∈ edges, e.source ∈ ids ∧ e.target ∈ ids)

include hf in
/-- Some edge has the new id at an end if some edge had the old one there. -/
theorem any_end_rename {place : Edge → String} (hplace : ∀ e, place (e.rename f) = f (place e))
    (hends : ∀ e ∈ edges, place e ∈ ids) {id : String} (hid : id ∈ ids) :
    (edges.map (Edge.rename f)).any (fun e => place e == f id) =
      edges.any fun e => place e == id := by
  rw [List.any_map, Bool.eq_iff_iff, List.any_eq_true, List.any_eq_true]
  refine exists_congr fun e => and_congr_right fun he => ?_
  rw [Function.comp_apply, hplace, beq_iff_eq, beq_iff_eq]
  exact hf.eq_iff (hends e he) hid

include hf hedges in
theorem isWired_rename {n : Node} (hn : n.id ∈ ids) :
    (n.rename f).isWired (edges.map (Edge.rename f)) = n.isWired edges := by
  have hout : hasOutgoing (edges.map (Edge.rename f)) (f n.id) = hasOutgoing edges n.id :=
    any_end_rename hf (fun _ => rfl) (fun e he => (hedges e he).1) hn
  have hin : hasIncoming (edges.map (Edge.rename f)) (f n.id) = hasIncoming edges n.id :=
    any_end_rename hf (fun _ => rfl) (fun e he => (hedges e he).2) hn
  unfold Node.isWired
  simp only [Node.rename, hout, hin]

include hf hnodes hedges in
/-- The report does not depend on ids. -/
theorem ofGraph_rename :
    Report.ofGraph (nodes.map (Node.rename f)) (edges.map (Edge.rename f)) =
      Report.ofGraph nodes edges := by
  unfold Report.ofGraph
  rw [List.filter_map, List.map_map]
  have hfilter : nodes.filter ((fun n => !n.isWired (edges.map (Edge.rename f))) ∘ Node.rename f) =
      nodes.filter fun n => !n.isWired edges :=
    List.filter_congr fun n hn => congrArg _ (isWired_rename hf hedges (hnodes n hn))
  rw [hfilter]
  rfl

/-! ### Names -/

namespace RuleSet

/-- Claims on names that differ in the ids only. -/
def Claims.Renames (f : String → String) (ids : Set String) (claims claims' : Claims) : Prop :=
  claims'.taken = claims.taken ∧ Table.Renames f ids claims.chosen claims'.chosen

include hf in
theorem Claims.Renames.claim {claims claims' : Claims} (h : Claims.Renames f ids claims claims')
    {n : Node} (hn : n.id ∈ ids) :
    Parallel (Claims.Renames f ids) (claims.claim n) (claims'.claim (n.rename f)) := by
  obtain ⟨htaken, hchosen⟩ := h
  unfold Claims.claim
  by_cases hnamed : n.isNamed
  · have hnamed' : (n.rename f).isNamed := hnamed
    rw [if_pos hnamed, if_pos hnamed', htaken]
    simp only [Node.rename]
    split
    · exact .result ⟨rfl, hchosen.put hf hn _⟩
    · exact .fault _
  · have hnamed' : ¬ (n.rename f).isNamed := hnamed
    rw [if_neg hnamed, if_neg hnamed']
    exact .result ⟨htaken, hchosen⟩

include hf hnodes in
theorem nameNodes_rename {chosen chosen' : Table String}
    (hchosen : Table.Renames f ids chosen chosen') (index : Nat) (taken : List String)
    {names names' : Table String} (hnames : Table.Renames f ids names names') :
    Table.Renames f ids (nameNodes chosen index taken names nodes)
      (nameNodes chosen' index taken names' (nodes.map (Node.rename f))) := by
  induction nodes generalizing index taken names names' with
  | nil => exact hnames
  | cons n rest ih =>
    obtain ⟨hn, hrest⟩ := List.forall_mem_cons.mp hnodes
    have hsame : chosen'.get? (n.rename f).id = chosen.get? n.id := hchosen n.id hn
    have hkind : (n.rename f).kind = n.kind := rfl
    have hput : ∀ name, Table.Renames f ids (names.put n.id name)
        (names'.put (n.rename f).id name) := fun name => hnames.put hf hn name
    rw [List.map_cons]
    unfold nameNodes
    rw [hsame, hkind]
    split
    · exact ih hrest _ _ (hput _)
    · exact ih hrest _ _ (hput _)
    · exact ih hrest _ _ (hput _)
    · exact ih hrest _ _ (hput _)

include hf hnodes in
theorem assignNames_rename :
    Parallel (Table.Renames f ids) (assignNames nodes)
      (assignNames (nodes.map (Node.rename f))) := by
  have hclaims : Parallel (Claims.Renames f ids) (claimNames nodes)
      (claimNames (nodes.map (Node.rename f))) :=
    Parallel.foldlM nodes (fun n hn _ _ h => h.claim hf (hnodes n hn))
      ⟨rfl, Table.renames_empty⟩
  refine hclaims.bind ?_
  rintro claims claims' ⟨htaken, hchosen⟩
  rw [htaken]
  exact .result (nameNodes_rename hf hnodes hchosen _ _ Table.renames_empty)

/-! ### Rules -/

variable {names names' : Table String} (hnames : Table.Renames f ids names names')
include hnames

theorem addRule_rename {n : Node} (hn : n.id ∈ ids) (rules : Table Rule) :
    addRule names' rules (n.rename f) = addRule names rules n := by
  have hsame : names'.get? (n.rename f).id = names.get? n.id := hnames n.id hn
  unfold addRule
  rw [hsame]
  rfl

include hnodes in
theorem foldl_addRule_rename (rules : Table Rule) :
    (nodes.map (Node.rename f)).foldl (addRule names') rules =
      nodes.foldl (addRule names) rules := by
  rw [List.foldl_map]
  exact List.foldl_ext _ _ _ fun rules n hn => addRule_rename hnames (hnodes n hn) rules

omit hnames in
/-- Whether an edge has a key depends on its handles alone. -/
theorem key_rename_bind {α : Type} (e : Edge) (x : Except Fault α) :
    ((e.rename f).key >>= fun _ => x) = e.key >>= fun _ => x := by
  unfold Edge.key
  simp only [Edge.rename]
  rcases Edge.handleText e.sourceHandle with - | sourceHandle
  · rfl
  · rcases Edge.handleText e.targetHandle with - | targetHandle
    · rfl
    · rfl

theorem result_addEdge_rename {e : Edge} (he : e.source ∈ ids ∧ e.target ∈ ids) (rs : RuleSet) :
    (addEdge names' rs (e.rename f)).result = (addEdge names rs e).result := by
  have hsource : names'.get? (e.rename f).source = names.get? e.source := hnames _ he.1
  have htarget : names'.get? (e.rename f).target = names.get? e.target := hnames _ he.2
  unfold addEdge
  rw [hsource, htarget]
  split
  · rfl
  · rw [Traced.result_bind, Traced.result_bind]
    exact key_rename_bind e _

include hedges in
theorem result_foldlM_addEdge_rename (rs : RuleSet) :
    ((edges.map (Edge.rename f)).foldlM (addEdge names') rs).result =
      (edges.foldlM (addEdge names) rs).result := by
  rw [Traced.result_foldlM, Traced.result_foldlM]
  refine (Parallel.foldlM (R := Eq) edges ?_ rfl).eq.symm
  rintro e he rs _ rfl
  rw [result_addEdge_rename hnames (hedges e he)]
  rcases (addEdge names rs e).result with - | rs'
  · exact .fault _
  · exact .result rfl

omit hnames in
include hf hnodes hedges in
theorem result_synthesize_rename :
    (synthesize (nodes.map (Node.rename f)) (edges.map (Edge.rename f))).result =
      (synthesize nodes edges).result := by
  unfold synthesize
  simp only [Traced.result_bind]
  refine ((assignNames_rename hf hnodes).bind (Q := Eq) fun names names' hnames => ?_).eq.symm
  rw [result_foldlM_addEdge_rename hedges hnames, foldl_addRule_rename hnodes hnames]
  rcases (edges.foldlM (addEdge names) _).result with - | rs
  · exact .fault _
  · exact .result rfl

end RuleSet

end Renamed

/-! ### Compiling a renamed diagram -/

/-- Compiling depends on ids only in that they are equal or not. -/
theorem compile_rename {f : String → String} {nodes : List Node} {edges : List Edge}
    (hf : (occurringIds nodes edges).InjOn f) (optimize : Bool) :
    Report.ofGraph (nodes.map (Node.rename f)) (edges.map (Edge.rename f)) =
        Report.ofGraph nodes edges ∧
      (compile optimize (nodes.map (Node.rename f)) (edges.map (Edge.rename f))).result =
        (compile optimize nodes edges).result := by
  have hnodes : ∀ n ∈ nodes, n.id ∈ occurringIds nodes edges := fun n hn => .inl ⟨n, hn, rfl⟩
  have hedges : ∀ e ∈ edges,
      e.source ∈ occurringIds nodes edges ∧ e.target ∈ occurringIds nodes edges :=
    fun e he => ⟨.inr ⟨e, he, .inl rfl⟩, .inr ⟨e, he, .inr rfl⟩⟩
  have hreport := ofGraph_rename hf hnodes hedges
  refine ⟨hreport, ?_⟩
  rw [result_compile, result_compile, hreport,
    RuleSet.result_synthesize_rename hf hnodes hedges]

/-- Two nodes with one id, the first of which has a name. -/
def sharedNodes : List Node := [
  { id := "s", kind := .start },
  { id := "a", kind := .letter, name := .text "Word" },
  { id := "a", kind := .digit },
  { id := "e", kind := .finish }]

/-- The edges of `sharedNodes`; one of them leads to no node. -/
def sharedEdges : List Edge := [
  { source := "s", target := "a" },
  { source := "a", target := "lost" },
  { source := "a", target := "e" },
  { source := "a", target := "a" }]

/-- The start may have the id of the letter and the letter that of the start. -/
theorem compile_rename_swap :
    (occurringIds sharedNodes sharedEdges).InjOn (Equiv.swap "s" "a") ∧
      ∃ c, (compile true sharedNodes sharedEdges).result = .ok c ∧
        (compile true (sharedNodes.map (Node.rename (Equiv.swap "s" "a")))
          (sharedEdges.map (Edge.rename (Equiv.swap "s" "a")))).result = .ok c ∧
        c.grammar = "root ::= word\nword ::= [a-zA-Z] word?" := by
  have hf : (occurringIds sharedNodes sharedEdges).InjOn (Equiv.swap "s" "a") :=
    (Equiv.swap "s" "a").injective.injOn
  have hcompile : ∃ c, (compile true sharedNodes sharedEdges).result = .ok c ∧
      decide (c.grammar = "root ::= word\nword ::= [a-zA-Z] word?") :=
    Fault.exists_ok_of_any (by decide +kernel)
  obtain ⟨c, hc, hgrammar⟩ := hcompile
  refine ⟨hf, c, hc, ?_, of_decide_eq_true hgrammar⟩
  rw [(compile_rename hf true).2, hc]

end GrammarDiagram
