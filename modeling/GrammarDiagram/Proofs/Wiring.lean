/-
GrammarDiagram/Proofs/Wiring.lean

How the wiring of a diagram shows in its rule set.

The check of the wiring counts an edge for the node at either end, whatever is
at the other end.  Synthesis leaves an edge out unless there are nodes at both
ends.  So a node can pass the check through an edge that leads to no node, and
its rule has no successor then, or its name is no successor of any rule
(`lost_not_connected`).

The rule set shows the edges between nodes and no others: successors come from
edges that lead on to a node, mentions from edges that lead from one
(`connected_synthesize`).  If all edges run between nodes, the two views agree.
-/
import GrammarDiagram.Proofs.Mention
import GrammarDiagram.Proofs.Walk

namespace GrammarDiagram

/-- An edge leads from the node to a node. -/
def LeadsOn (nodes : List Node) (edges : List Edge) (n : Node) : Prop :=
  ∃ m ∈ nodes, Linked edges n m

/-- An edge leads from a node to the node. -/
def IsLedTo (nodes : List Node) (edges : List Edge) (n : Node) : Prop :=
  ∃ m ∈ nodes, Linked edges m n

/-- Every edge runs between nodes. -/
def RunsBetween (nodes : List Node) (edges : List Edge) : Prop :=
  ∀ e ∈ edges, e.source ∈ nodes.map Node.id ∧ e.target ∈ nodes.map Node.id

variable {nodes : List Node} {edges : List Edge} {n : Node}

/-! ### Wired nodes -/

/-- If no edge is loose, something follows every wired node but a finish. -/
theorem leadsOn_of_isValid (hends : RunsBetween nodes edges)
    (hvalid : (Report.ofGraph nodes edges).isValid) (hn : n ∈ nodes) (hkind : n.kind ≠ .finish) :
    LeadsOn nodes edges n := by
  obtain ⟨e, he, hsource⟩ := exists_edge_of_isValid hvalid hn hkind
  obtain ⟨m, hm, htarget⟩ := List.mem_map.mp (hends e he).2
  exact ⟨m, hm, e, he, hsource, htarget.symm⟩

/-- If no edge is loose, every wired node but a start follows something. -/
theorem isLedTo_of_isValid (hends : RunsBetween nodes edges)
    (hvalid : (Report.ofGraph nodes edges).isValid) (hn : n ∈ nodes) (hkind : n.kind ≠ .start) :
    IsLedTo nodes edges n := by
  have hin : hasIncoming edges n.id := by
    have hwired := isWired_of_isValid hvalid hn
    unfold Node.isWired at hwired
    split at hwired
    · contradiction
    · exact hwired
    · exact (Bool.and_eq_true_iff.mp hwired).1
  obtain ⟨e, he, htarget⟩ : ∃ e ∈ edges, e.target = n.id := by simpa [hasIncoming] using hin
  obtain ⟨m, hm, hsource⟩ := List.mem_map.mp (hends e he).1
  exact ⟨m, hm, e, he, hsource.symm, htarget⟩

namespace RuleSet

variable {names : Table String} {rs : RuleSet} {m : Node} {x : String}

/-! ### Edges in the rule set -/

/-- Nodes have one name if they are one, or both of them starts or finishes. -/
theorem Naming.eq_or_sentinels (hnames : Naming nodes names) (hids : (nodes.map Node.id).Nodup)
    (hm : m ∈ nodes) (hn : n ∈ nodes) (hmx : names.get? m.id = some x)
    (hnx : names.get? n.id = some x) (hkind : n.kind ≠ .finish) :
    m = n ∨ m.kind = .start ∧ n.kind = .start := by
  have hfm := hnames.fits_of_get? hm hmx
  have hfn := hnames.fits_of_get? hn hnx
  by_cases hroot : x = Name.root
  · exact .inr ⟨hfm.eq_root_iff.mp hroot, hfn.eq_root_iff.mp hroot⟩
  · have hempty : x ≠ "" := fun h => hkind (hfn.eq_empty_iff.mp h)
    exact .inl (List.inj_on_of_nodup_map hids hm hn (hnames.injective hmx hnx hroot hempty))

/-- A name has a successor if an edge leads on from a node of this name. -/
theorem Naming.successors_ne_nil_iff (hnames : Naming nodes names) :
    (assemble names nodes edges).successors x ≠ [] ↔
      ∃ m ∈ nodes, names.get? m.id = some x ∧ LeadsOn nodes edges m := by
  constructor
  · intro hne
    obtain ⟨t, ht⟩ := List.exists_mem_of_ne_nil _ hne
    obtain ⟨e, he, hsource, htarget⟩ := mem_successors_assemble_iff.mp ht
    obtain ⟨m, hm, hms⟩ := hnames.domain hsource
    obtain ⟨k, hk, hkt⟩ := hnames.domain htarget
    exact ⟨m, hm, hms ▸ hsource, k, hk, e, he, hms.symm, hkt.symm⟩
  · rintro ⟨m, hm, hmx, k, hk, e, he, hsource, htarget⟩
    obtain ⟨t, ht, -⟩ := hnames.fits hk
    exact List.ne_nil_of_mem
      (mem_successors_assemble_iff.mpr ⟨e, he, hsource ▸ hmx, htarget ▸ ht⟩)

/-- A name is a successor if an edge leads to a node of this name from a node. -/
theorem Naming.exists_mem_successors_iff (hnames : Naming nodes names) :
    (∃ y, x ∈ (assemble names nodes edges).successors y) ↔
      ∃ m ∈ nodes, names.get? m.id = some x ∧ IsLedTo nodes edges m := by
  constructor
  · rintro ⟨y, hy⟩
    obtain ⟨e, he, hsource, htarget⟩ := mem_successors_assemble_iff.mp hy
    obtain ⟨k, hk, hks⟩ := hnames.domain hsource
    obtain ⟨m, hm, hmt⟩ := hnames.domain htarget
    exact ⟨m, hm, hmt ▸ htarget, k, hk, e, he, hks.symm, hmt.symm⟩
  · rintro ⟨m, hm, hmx, k, hk, e, he, hsource, htarget⟩
    obtain ⟨y, hy, -⟩ := hnames.fits hk
    exact ⟨y, mem_successors_assemble_iff.mpr ⟨e, he, hsource ▸ hy, htarget ▸ hmx⟩⟩

/-! ### The two views of a diagram -/

/-- In the rule set of a wired diagram the rule of a node other than a finish has
a successor exactly if an edge leads on from the node, or from another start if
it is one; and the name of a node that is neither start nor finish is a successor
exactly if an edge leads to it.  If all edges run between nodes, both is so for
every such node. -/
theorem connected_synthesize (hids : (nodes.map Node.id).Nodup)
    (hvalid : (Report.ofGraph nodes edges).isValid)
    (h : (synthesize nodes edges).result = .ok rs) :
    ∃ names, assignNames nodes = .ok names ∧ ∀ n ∈ nodes, ∃ x, names.get? n.id = some x ∧
      (n.kind ≠ .finish → rs.hasRule x ∧
        (rs.successors x ≠ [] ↔ ∃ m ∈ nodes, (m = n ∨ m.kind = .start ∧ n.kind = .start) ∧
          LeadsOn nodes edges m) ∧
        (RunsBetween nodes edges → rs.successors x ≠ [])) ∧
      (n.kind ≠ .start → n.kind ≠ .finish →
        ((∃ y, x ∈ rs.successors y) ↔ IsLedTo nodes edges n) ∧
        (RunsBetween nodes edges → ∃ y, x ∈ rs.successors y)) := by
  obtain ⟨names, hassign, -, rfl⟩ := synthesize_eq_ok_iff.mp h
  have hnames := naming_of_assignNames hids hassign
  refine ⟨names, hassign, fun n hn => ?_⟩
  obtain ⟨x, hx, hfits⟩ := hnames.fits hn
  refine ⟨x, hx, fun hkind => ⟨hasRule_assemble_iff.mpr ⟨n, hn, hkind, hx⟩, ?_, ?_⟩, ?_⟩
  · rw [hnames.successors_ne_nil_iff]
    refine exists_congr fun m => and_congr_right fun hm => and_congr_left fun _ => ?_
    refine ⟨fun hmx => hnames.eq_or_sentinels hids hm hn hmx hx hkind, ?_⟩
    rintro (rfl | ⟨hms, hns⟩)
    · exact hx
    · -- all starts have the name of the root
      obtain ⟨y, hy, hfy⟩ := hnames.fits hm
      rw [hy, hfy.eq_root_iff.mpr hms, hfits.eq_root_iff.mpr hns]
  · intro hends
    exact hnames.successors_ne_nil_iff.mpr
      ⟨n, hn, hx, leadsOn_of_isValid hends hvalid hn hkind⟩
  · intro hstart hfinish
    refine ⟨?_, fun hends => ?_⟩
    · rw [hnames.exists_mem_successors_iff]
      constructor
      · rintro ⟨m, hm, hmx, hled⟩
        rcases hnames.eq_or_sentinels hids hm hn hmx hx hfinish with rfl | ⟨-, hns⟩
        · exact hled
        · exact absurd hns hstart
      · exact fun hled => ⟨n, hn, hx, hled⟩
    · exact hnames.exists_mem_successors_iff.mpr
        ⟨n, hn, hx, isLedTo_of_isValid hends hvalid hn hstart⟩

/-- A letter that leads to no node, and a digit that no node leads to. -/
def lostNodes : List Node := [
  { id := "s", kind := .start },
  { id := "a", kind := .letter },
  { id := "b", kind := .digit },
  { id := "e", kind := .finish }]

/-- The edges of `lostNodes`; there is no node with the id `lost`. -/
def lostEdges : List Edge := [
  { source := "s", target := "a" },
  { source := "a", target := "lost" },
  { source := "lost", target := "b" },
  { source := "b", target := "e" }]

/-- The names of the letter and of the digit. -/
theorem assignNames_lost :
    ∃ names, assignNames lostNodes = .ok names ∧
      names.get? "a" = some "_rule1" ∧ names.get? "b" = some "_rule2" := by
  have hassign : ∃ names, assignNames lostNodes = .ok names ∧
      decide (names.get? "a" = some "_rule1" ∧ names.get? "b" = some "_rule2") :=
    Fault.exists_ok_of_any (by decide +kernel)
  obtain ⟨names, hnames, hget⟩ := hassign
  exact ⟨names, hnames, of_decide_eq_true hget⟩

/-- The rule of the digit has a successor and the name of the letter is one; it is
not so the other way round. -/
theorem connected_synthesize_lost :
    (lostNodes.map Node.id).Nodup ∧ (Report.ofGraph lostNodes lostEdges).isValid ∧
      ∃ rs, (synthesize lostNodes lostEdges).result = .ok rs ∧
        rs.successors "_rule2" ≠ [] ∧ (∃ y, "_rule1" ∈ rs.successors y) ∧
        rs.successors "_rule1" = [] ∧ ¬ ∃ y, "_rule2" ∈ rs.successors y := by
  have hids : (lostNodes.map Node.id).Nodup := by decide
  have hvalid : (Report.ofGraph lostNodes lostEdges).isValid := by decide
  obtain ⟨rs, hrs, -⟩ : ∃ rs, (synthesize lostNodes lostEdges).result = .ok rs ∧ true :=
    Fault.exists_ok_of_any (by decide +kernel)
  obtain ⟨names, hassign, hall⟩ := connected_synthesize hids hvalid hrs
  obtain ⟨names', hassign', hletter, hdigit⟩ := assignNames_lost
  obtain rfl : names = names' := Except.ok.inj (hassign.symm.trans hassign')
  obtain ⟨x, hx, ha, ha'⟩ := hall { id := "a", kind := .letter } (by simp [lostNodes])
  obtain rfl : x = "_rule1" := Option.some.inj (hx.symm.trans hletter)
  obtain ⟨y, hy, hb, hb'⟩ := hall { id := "b", kind := .digit } (by simp [lostNodes])
  obtain rfl : y = "_rule2" := Option.some.inj (hy.symm.trans hdigit)
  refine ⟨hids, hvalid, rs, hrs, (hb (by decide)).2.1.mpr ?_,
    (ha' (by decide) (by decide)).1.mpr ?_, not_not.mp (mt (ha (by decide)).2.1.mp ?_),
    mt (hb' (by decide) (by decide)).1.mp ?_⟩
  · exact ⟨_, by simp [lostNodes], .inl rfl, by simp [LeadsOn, Linked, lostNodes, lostEdges]⟩
  · simp [IsLedTo, Linked, lostNodes, lostEdges]
  · simp [LeadsOn, Linked, lostNodes, lostEdges]
  · simp [IsLedTo, Linked, lostNodes, lostEdges]

/-- The letter has no successor and the digit is none, although both are wired. -/
theorem lost_not_connected :
    (lostNodes.map Node.id).Nodup ∧ (Report.ofGraph lostNodes lostEdges).isValid ∧
      ∃ names rs, assignNames lostNodes = .ok names ∧
        (synthesize lostNodes lostEdges).result = .ok rs ∧
        names.get? "a" = some "_rule1" ∧ rs.hasRule "_rule1" ∧ rs.successors "_rule1" = [] ∧
        names.get? "b" = some "_rule2" ∧ ∀ y, "_rule2" ∉ rs.successors y := by
  have hsynthesize : ∃ rs, (synthesize lostNodes lostEdges).result = .ok rs ∧
      decide (rs.hasRule "_rule1" ∧ rs.successors "_rule1" = [] ∧ "_rule2" ∉ rs.mentions) :=
    Fault.exists_ok_of_any (by decide +kernel)
  obtain ⟨names, hnames, ha, hb⟩ := assignNames_lost
  obtain ⟨rs, hrs, hfacts⟩ := hsynthesize
  obtain ⟨hrule, hend, hmentions⟩ := of_decide_eq_true hfacts
  refine ⟨by decide, by decide, names, rs, hnames, hrs, ha, hrule, hend, hb, fun y hy => ?_⟩
  exact hmentions (List.mem_flatMap.mpr ⟨_, mem_entries_of_mem_successors hy, hy⟩)

end RuleSet

end GrammarDiagram
