/-
GrammarDiagram/Proofs/Synthesis.lean

The rule set of a diagram, as a specification.

Synthesis walks through nodes and edges and may stop at a fault.  Where it does
not (`exists_synthesize_iff`), its result is put together from the naming of
the diagram (`synthesize_eq_ok_iff`): the rules are the names of the nodes other
than finishes (`hasRule_assemble_iff`), each with the pattern of its node
(`patternOf_assemble`), and the successors of a name are the names at the
targets of the edges that leave it (`mem_successors_assemble_iff`).
-/
import GrammarDiagram.Compilation
import GrammarDiagram.Proofs.Language
import GrammarDiagram.Proofs.Naming

namespace GrammarDiagram.RuleSet

variable {names : Table String} {nodes : List Node} {edges : List Edge} {rs : RuleSet}

/-! ### Rules of nodes -/

/-- Whether a node gives the rule of this name. -/
def givesRule (names : Table String) (x : String) (n : Node) : Bool :=
  n.kind ≠ .finish && names.get? n.id == some x

theorem givesRule_iff {x : String} {n : Node} :
    givesRule names x n ↔ n.kind ≠ .finish ∧ names.get? n.id = some x := by
  simp [givesRule]

theorem get?_addRule (names : Table String) (rules : Table Rule) (n : Node) (x : String) :
    (addRule names rules n).get? x =
      (rules.get? x).or (if givesRule names x n then some ⟨x, n.pattern⟩ else none) := by
  unfold addRule
  rcases hname : names.get? n.id with - | name
  · have hno : ¬ givesRule names x n := by simp [givesRule, hname]
    rw [if_neg hno, Option.or_none]
  · by_cases hskip : n.kind = .finish || rules.contains name
    · simp only [hskip, if_true]
      -- a name that has its rule keeps it
      by_cases hgives : givesRule names x n
      · obtain ⟨hkind, hx⟩ := givesRule_iff.mp hgives
        rw [hname] at hx
        cases hx
        have hold : (rules.get? x).isSome := by
          simpa [hkind, Table.contains] using hskip
        obtain ⟨p, hp⟩ := Option.isSome_iff_exists.mp hold
        rw [hp, Option.some_or]
      · rw [if_neg hgives, Option.or_none]
    · simp only [hskip]
      simp only [Bool.or_eq_true, decide_eq_true_eq, not_or, Bool.not_eq_true] at hskip
      obtain ⟨hkind, hnew⟩ := hskip
      simp only [Bool.false_eq_true, if_false, Table.get?_put]
      by_cases hx : x = name
      · subst hx
        have hnone : rules.get? x = none := by
          simpa [Table.contains] using hnew
        have hgives : givesRule names x n := givesRule_iff.mpr ⟨hkind, hname⟩
        rw [if_pos rfl, hnone, if_pos hgives, Option.none_or]
      · have hno : ¬ givesRule names x n := by
          rw [givesRule_iff, hname]
          rintro ⟨-, h⟩
          exact hx (Option.some.inj h).symm
        rw [if_neg hx, if_neg hno, Option.or_none]

/-- The rule of a name has this name and the pattern of the first node that gives it. -/
theorem get?_foldl_addRule (names : Table String) (nodes : List Node) (rules : Table Rule)
    (x : String) :
    (nodes.foldl (addRule names) rules).get? x =
      (rules.get? x).or ((nodes.find? (givesRule names x)).map fun n => ⟨x, n.pattern⟩) := by
  induction nodes generalizing rules with
  | nil => simp
  | cons n rest ih =>
    rw [List.foldl_cons, ih, get?_addRule, Option.or_assoc, List.find?_cons]
    split <;> simp_all

/-! ### Successors of names -/

/-- Add the successor that an edge gives, if both its ends have names. -/
def linkEdge (names : Table String) (rs : RuleSet) (e : Edge) : RuleSet :=
  match names.get? e.source, names.get? e.target with
  | some source, some target => rs.link source target
  | _, _ => rs

/-- The successor that an edge gives to a name. -/
def targetFrom (names : Table String) (x : String) (e : Edge) : Option String :=
  if names.get? e.source = some x then names.get? e.target else none

theorem rules_linkEdge (names : Table String) (rs : RuleSet) (e : Edge) :
    (linkEdge names rs e).rules = rs.rules := by
  unfold linkEdge
  split <;> rfl

theorem successors_linkEdge (names : Table String) (rs : RuleSet) (e : Edge) (x : String) :
    (linkEdge names rs e).successors x = rs.successors x ++ (targetFrom names x e).toList := by
  unfold linkEdge targetFrom
  rcases hs : names.get? e.source with - | source
  · simp
  · rcases ht : names.get? e.target with - | target
    · simp
    · simp only [link, successors_setSuccessors, Option.some.injEq]
      by_cases hx : x = source
      · subst hx
        simp
      · have hx' : ¬ source = x := fun h => hx h.symm
        simp [hx, hx']

theorem rules_foldl_linkEdge (names : Table String) (edges : List Edge) (rs : RuleSet) :
    (edges.foldl (linkEdge names) rs).rules = rs.rules := by
  induction edges generalizing rs with
  | nil => rfl
  | cons e rest ih => rw [List.foldl_cons, ih, rules_linkEdge]

theorem successors_foldl_linkEdge (names : Table String) (edges : List Edge) (rs : RuleSet)
    (x : String) :
    (edges.foldl (linkEdge names) rs).successors x =
      rs.successors x ++ edges.filterMap (targetFrom names x) := by
  induction edges generalizing rs with
  | nil => simp
  | cons e rest ih =>
    rw [List.foldl_cons, ih, successors_linkEdge, List.append_assoc, List.filterMap_cons]
    congr 1
    rcases targetFrom names x e with - | t <;> rfl

/-! ### Synthesis without faults -/

/-- The rule set that names, nodes and edges give. -/
def assemble (names : Table String) (nodes : List Node) (edges : List Edge) : RuleSet :=
  edges.foldl (linkEdge names) { rules := nodes.foldl (addRule names) ∅ }

/-- An edge that is left out has to have a key, under which this is told. -/
def Tellable (names : Table String) (e : Edge) : Prop :=
  names.get? e.source = none ∨ names.get? e.target = none → ∃ key, e.key = .ok key

theorem result_addEdge_eq_ok_iff {e : Edge} {rs' : RuleSet} :
    (addEdge names rs e).result = .ok rs' ↔ Tellable names e ∧ rs' = linkEdge names rs e := by
  unfold addEdge Tellable
  split
  · -- both ends have names
    rename_i source target hs ht
    have hlink : linkEdge names rs e = rs.link source target := by simp only [linkEdge, hs, ht]
    rw [hs, ht, hlink]
    constructor
    · intro h
      exact ⟨fun h => by simp at h, (Except.ok.inj h).symm⟩
    · rintro ⟨-, rfl⟩
      rfl
  · -- an end has no name, and the edge is reported under its key
    rename_i hno
    have hlink : linkEdge names rs e = rs := by
      unfold linkEdge
      split
      · rename_i source target hs ht
        exact absurd ht (hno source target hs)
      · rfl
    rw [hlink]
    have hloose : names.get? e.source = none ∨ names.get? e.target = none := by
      rcases hs : names.get? e.source with - | source
      · exact .inl rfl
      · rcases ht : names.get? e.target with - | target
        · exact .inr rfl
        · exact absurd ht (hno source target hs)
    constructor
    · intro h
      obtain ⟨key, hkey, h⟩ := Traced.result_bind_eq_ok_iff.mp h
      obtain ⟨-, -, h⟩ := Traced.result_bind_eq_ok_iff.mp h
      exact ⟨fun _ => ⟨key, hkey⟩, (Except.ok.inj h).symm⟩
    · rintro ⟨hkey, rfl⟩
      obtain ⟨key, hkey⟩ := hkey hloose
      exact Traced.result_bind_eq_ok_iff.mpr ⟨key, hkey,
        Traced.result_bind_eq_ok_iff.mpr ⟨(), rfl, rfl⟩⟩

theorem result_foldlM_addEdge_eq_ok_iff (edges : List Edge) {rs rs' : RuleSet} :
    (edges.foldlM (addEdge names) rs).result = .ok rs' ↔
      (∀ e ∈ edges, Tellable names e) ∧ rs' = edges.foldl (linkEdge names) rs := by
  induction edges generalizing rs with
  | nil =>
    constructor
    · intro h
      exact ⟨fun e he => absurd he List.not_mem_nil, (Except.ok.inj h).symm⟩
    · rintro ⟨-, rfl⟩
      rfl
  | cons e rest ih =>
    rw [List.foldlM_cons, Traced.result_bind_eq_ok_iff, List.foldl_cons, List.forall_mem_cons]
    constructor
    · rintro ⟨mid, hmid, h⟩
      obtain ⟨he, rfl⟩ := result_addEdge_eq_ok_iff.mp hmid
      obtain ⟨hrest, rfl⟩ := ih.mp h
      exact ⟨⟨he, hrest⟩, rfl⟩
    · rintro ⟨⟨he, hrest⟩, rfl⟩
      exact ⟨_, result_addEdge_eq_ok_iff.mpr ⟨he, rfl⟩, ih.mpr ⟨hrest, rfl⟩⟩

/-- Synthesis names the ids and assembles the rule set. -/
theorem synthesize_eq_ok_iff :
    (synthesize nodes edges).result = .ok rs ↔
      ∃ names, assignNames nodes = .ok names ∧ (∀ e ∈ edges, Tellable names e) ∧
        rs = assemble names nodes edges := by
  unfold synthesize
  rw [Traced.result_bind_eq_ok_iff]
  constructor
  · rintro ⟨names, hnames, h⟩
    obtain ⟨rs', hrs', h⟩ := Traced.result_bind_eq_ok_iff.mp h
    obtain ⟨-, -, h⟩ := Traced.result_bind_eq_ok_iff.mp h
    have hrs : rs' = rs := Except.ok.inj h
    subst hrs
    exact ⟨names, hnames, (result_foldlM_addEdge_eq_ok_iff edges).mp hrs'⟩
  · rintro ⟨names, hnames, hedges⟩
    exact ⟨names, hnames, Traced.result_bind_eq_ok_iff.mpr
      ⟨rs, (result_foldlM_addEdge_eq_ok_iff edges).mpr hedges,
        Traced.result_bind_eq_ok_iff.mpr ⟨(), rfl, rfl⟩⟩⟩

/-- Names that users gave are texts, and so are the handles of edges that are
left out. -/
structure Legible (nodes : List Node) (edges : List Edge) : Prop where
  name : ∀ n ∈ nodes, n.isNamed → ∃ s, n.name = .text s
  key : ∀ e ∈ edges, e.source ∉ nodes.map Node.id ∨ e.target ∉ nodes.map Node.id →
    ∃ key, e.key = .ok key

/-- Synthesis succeeds exactly on the legible diagrams. -/
theorem exists_synthesize_iff (hids : (nodes.map Node.id).Nodup) :
    (∃ rs, (synthesize nodes edges).result = .ok rs) ↔ Legible nodes edges := by
  simp only [synthesize_eq_ok_iff]
  constructor
  · rintro ⟨-, names, hnames, hedges, -⟩
    have hn := naming_of_assignNames hids hnames
    refine ⟨exists_assignNames_iff.mp ⟨names, hnames⟩, fun e he hloose => hedges e he ?_⟩
    exact hloose.imp hn.get?_eq_none_iff.mpr hn.get?_eq_none_iff.mpr
  · rintro ⟨hname, hkey⟩
    obtain ⟨names, hnames⟩ := exists_assignNames_iff.mpr hname
    have hn := naming_of_assignNames hids hnames
    refine ⟨_, names, hnames, fun e he hloose => hkey e he ?_, rfl⟩
    exact hloose.imp hn.get?_eq_none_iff.mp hn.get?_eq_none_iff.mp

/-! ### The rule set of a naming -/

theorem successors_assemble (names : Table String) (nodes : List Node) (edges : List Edge)
    (x : String) :
    (assemble names nodes edges).successors x = edges.filterMap (targetFrom names x) := by
  rw [assemble, successors_foldl_linkEdge]
  rfl

theorem mem_successors_assemble_iff {x t : String} :
    t ∈ (assemble names nodes edges).successors x ↔
      ∃ e ∈ edges, names.get? e.source = some x ∧ names.get? e.target = some t := by
  simp [successors_assemble, targetFrom]

theorem hasRule_assemble_iff {x : String} :
    (assemble names nodes edges).hasRule x ↔
      ∃ n ∈ nodes, n.kind ≠ .finish ∧ names.get? n.id = some x := by
  rw [hasRule, assemble, rules_foldl_linkEdge, Table.contains, get?_foldl_addRule]
  simp [givesRule]

/-- Every rule has the pattern of a node. -/
theorem exists_patternOf_assemble {x : String} (h : (assemble names nodes edges).hasRule x) :
    ∃ n ∈ nodes, (assemble names nodes edges).patternOf x = n.pattern := by
  obtain ⟨n, hn, hkind, hx⟩ := hasRule_assemble_iff.mp h
  obtain ⟨m, hm⟩ := Option.isSome_iff_exists.mp
    (List.find?_isSome.mpr ⟨n, hn, givesRule_iff.mpr ⟨hkind, hx⟩⟩)
  refine ⟨m, List.mem_of_find?_eq_some hm, ?_⟩
  rw [patternOf, ruleOf, assemble, rules_foldl_linkEdge, get?_foldl_addRule, hm]
  rfl

/-- The rule of a name that one node gives has the pattern of that node. -/
theorem patternOf_assemble {x : String} {n : Node} (hn : n ∈ nodes) (hkind : n.kind ≠ .finish)
    (hx : names.get? n.id = some x)
    (honly : ∀ m ∈ nodes, m.kind ≠ .finish → names.get? m.id = some x → m = n) :
    (assemble names nodes edges).patternOf x = n.pattern := by
  have hfind : nodes.find? (givesRule names x) = some n := by
    obtain ⟨m, hm⟩ := Option.isSome_iff_exists.mp
      (List.find?_isSome.mpr ⟨n, hn, givesRule_iff.mpr ⟨hkind, hx⟩⟩)
    have hgives := givesRule_iff.mp (List.find?_some hm)
    rw [hm, honly m (List.mem_of_find?_eq_some hm) hgives.1 hgives.2]
  rw [patternOf, ruleOf, assemble, rules_foldl_linkEdge, get?_foldl_addRule, hfind]
  rfl

end GrammarDiagram.RuleSet
