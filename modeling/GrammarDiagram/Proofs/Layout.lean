/-
GrammarDiagram/Proofs/Layout.lean

What the geometric ranking looks at: the edges of a cycle, and where their ends
are relative to each other.

The last part of a key is the source of the edge.  So edges with different
sources have different keys, the greatest key is the key of one edge only, and
it does not matter in which order the edges of a cycle come
(`exists_winner_of_perm`).

A ranking sees the places of ids through the keys of edges and through what it
says of the winners.  Where both stay the same so does the analysis, with all
that is told (`Feedback.analyze_congr`), since the search for cycles does not
look at places at all.  A key on a grid is made of differences, so this is so
when a diagram is moved (`agree_shift`).
-/
import GrammarDiagram.Proofs.Feedback

namespace GrammarDiagram

variable {nodes : List Node} {edges cycle : List Edge} {positions : Table Position}

/-! ### Any order of a cycle's edges -/

theorem keyAt_gridPlace (hgrid : ∀ n ∈ nodes, ∃ p, n.position = gridPlace p) (e : Edge) :
    Ranking.geometric.keyAt (positionsOf nodes) e =
      .ok (gridKey e (coordinates ((positionsOf nodes).placeOf e.source))
        (coordinates ((positionsOf nodes).placeOf e.target))).parts := by
  rw [← sortKey_gridPlace, ← placeOf_eq_gridPlace hgrid, ← placeOf_eq_gridPlace hgrid]
  rfl

/-- A key tells the source of its edge. -/
theorem source_eq_of_parts {e e' : Edge} {p q p' q' : Int × Int}
    (h : (gridKey e p q).parts = (gridKey e' p' q').parts) : e.source = e'.source := by
  simp only [GridKey.parts, gridKey, ofLex_toLex, List.cons.injEq, KeyPart.text.injEq] at h
  exact h.2.2.2.1

/-- Among edges with different sources one wins, in whichever order they come. -/
theorem exists_winner_of_perm (hgrid : ∀ n ∈ nodes, ∃ p, n.position = gridPlace p)
    (hne : cycle ≠ []) (hsimple : (cycle.map Edge.source).Nodup) :
    ∃ w ∈ cycle, ∀ cycle' : List Edge, cycle'.Perm cycle →
      Ranking.geometric.winner? (positionsOf nodes) cycle' = .ok (some w) := by
  obtain ⟨w, hw, -, hmax⟩ := exists_winner? hne fun e _ => keyAt_gridPlace hgrid e
  refine ⟨w, hw, fun cycle' hperm => ?_⟩
  have hne' : cycle' ≠ [] := by
    rintro rfl
    exact hne hperm.nil_eq.symm
  obtain ⟨w', hw', hwinner, hmax'⟩ := exists_winner? hne' fun e _ => keyAt_gridPlace hgrid e
  -- each of the two has a key that is not less than the other's
  have hkeys := (hmax w' (hperm.mem_iff.mp hw')).antisymm (hmax' w (hperm.mem_iff.mpr hw))
  have hsource := source_eq_of_parts (congrArg GridKey.parts hkeys)
  rwa [List.inj_on_of_nodup_map hsimple (hperm.mem_iff.mp hw') hw hsource] at hwinner

/-! ### What an analysis depends on -/

namespace Ranking

variable {r : Ranking} {positions' : Table Position}

/-- Two tables of places look the same to a ranking, as far as an edge goes. -/
structure Agree (r : Ranking) (positions positions' : Table Position) (e : Edge) : Prop where
  keyAt : r.keyAt positions e = r.keyAt positions' e
  isBackward : r.isBackward e (positions.placeOf e.source) (positions.placeOf e.target) =
    r.isBackward e (positions'.placeOf e.source) (positions'.placeOf e.target)

theorem leader_congr {rest : List Edge} (h : ∀ e ∈ rest, r.Agree positions positions' e)
    (best : Edge) (key : List KeyPart) :
    r.leader positions best key rest = r.leader positions' best key rest := by
  induction rest generalizing best key with
  | nil => rfl
  | cons e rest ih =>
    obtain ⟨he, hrest⟩ := List.forall_mem_cons.mp h
    rw [leader, leader, he.keyAt]
    simp only [ih hrest]

theorem winner?_congr (h : ∀ e ∈ cycle, r.Agree positions positions' e) :
    r.winner? positions cycle = r.winner? positions' cycle := by
  rcases cycle with - | ⟨e, rest⟩
  · rfl
  · obtain ⟨he, hrest⟩ := List.forall_mem_cons.mp h
    rw [winner?, winner?, he.keyAt]
    simp only [leader_congr hrest]

theorem mem_of_leader {best w : Edge} {key : List KeyPart} {rest : List Edge}
    (h : r.leader positions best key rest = .ok w) : w ∈ best :: rest := by
  induction rest generalizing best key with
  | nil =>
    cases h
    exact List.mem_cons_self
  | cons e rest ih =>
    obtain ⟨k, -, h⟩ := Fault.bind_eq_ok_iff.mp h
    split at h
    · exact List.mem_cons_of_mem _ (ih h)
    · rcases List.mem_cons.mp (ih h) with rfl | hw
      · exact List.mem_cons_self
      · exact List.mem_cons_of_mem _ (List.mem_cons_of_mem _ hw)

/-- A winner is one of the edges. -/
theorem mem_of_winner? {w : Edge} (h : r.winner? positions cycle = .ok (some w)) : w ∈ cycle := by
  rcases cycle with - | ⟨e, rest⟩
  · cases h
  · obtain ⟨k, -, h⟩ := Fault.bind_eq_ok_iff.mp h
    obtain ⟨w', hleader, h⟩ := Fault.bind_eq_ok_iff.mp h
    cases h
    exact mem_of_leader hleader

end Ranking

theorem Cycle.find_congr {nodes' : List Node} (h : nodes.map Node.id = nodes'.map Node.id)
    (edges : List Edge) : Cycle.find nodes edges = Cycle.find nodes' edges := by
  have hids : ∀ nodes : List Node, Search.ofGraph nodes edges =
      (nodes.map Node.id).foldl Search.searchFrom { unexplored := edges } :=
    fun nodes => List.foldl_map.symm
  rw [Cycle.find, Cycle.find, hids, hids, h]

namespace Feedback

variable {r : Ranking} {positions' : Table Position}

theorem judge_congr (h : ∀ e ∈ cycle, r.Agree positions positions' e) (f : Feedback) :
    judge r positions f cycle = judge r positions' f cycle := by
  unfold judge
  rw [Ranking.winner?_congr h]
  refine Traced.bind_congr fun w hw => ?_
  rcases w with - | w
  · rfl
  · have hmem : w ∈ cycle := Ranking.mem_of_winner? hw
    simp only [(h w hmem).isBackward]

/-- The analysis of a diagram depends on its ids and edges, and on what the ranking
sees of the places. -/
theorem analyze_congr {nodes' : List Node} (hids : nodes.map Node.id = nodes'.map Node.id)
    (h : ∀ e ∈ edges, r.Agree (positionsOf nodes) (positionsOf nodes') e) :
    analyze r nodes edges = analyze r nodes' edges := by
  rw [analyze, analyze, Cycle.find_congr hids]
  refine Traced.foldlM_congr (fun c hc f => judge_congr (fun e he => ?_) f) {}
  exact h e ((Cycle.isCycle_of_mem_find hc).mem e he)

end Feedback

/-! ### Moving a diagram -/

/-- Add to a whole number; other values stay. -/
def Value.shift (d : Int) : Value → Value
  | .int n => .int (n + d)
  | v => v

/-- Move a place. -/
def Position.shift (d : Int × Int) (p : Position) : Position := ⟨p.x.shift d.1, p.y.shift d.2⟩

/-- Move a node. -/
def Node.shift (d : Int × Int) (n : Node) : Node := { n with position := n.position.shift d }

variable (d : Int × Int)

theorem map_id_shift (nodes : List Node) :
    (nodes.map (Node.shift d)).map Node.id = nodes.map Node.id :=
  List.map_map

theorem lastNode?_shift (nodes : List Node) (id : String) :
    lastNode? (nodes.map (Node.shift d)) id = (lastNode? nodes id).map (Node.shift d) := by
  rw [lastNode?, ← List.map_reverse, List.find?_map]
  rfl

/-- Nodes move, and with them the ids that they have. -/
theorem placeOf_shift {id : String} (hid : id ∈ nodes.map Node.id) :
    (positionsOf (nodes.map (Node.shift d))).placeOf id =
      ((positionsOf nodes).placeOf id).shift d := by
  rw [Table.placeOf, Table.placeOf, get?_positionsOf, get?_positionsOf, lastNode?_shift]
  rcases hlast : lastNode? nodes id with - | n
  · exact absurd hid (lastNode?_eq_none_iff.mp hlast)
  · rfl

theorem leftward_shift (p q : Int × Int) :
    leftward (p.1 + d.1, p.2 + d.2) (q.1 + d.1, q.2 + d.2) = leftward p q := by
  simp only [leftward, Int.add_left_inj, Int.add_lt_add_iff_right, Int.add_sub_add_right]

theorem gridKey_shift (e : Edge) (p q : Int × Int) :
    gridKey e (p.1 + d.1, p.2 + d.2) (q.1 + d.1, q.2 + d.2) = gridKey e p q := by
  simp only [gridKey, leftward_shift, Int.add_lt_add_iff_right, Int.add_sub_add_right]

/-- Nothing changes for the ranking when all nodes move alike. -/
theorem agree_shift (hgrid : ∀ n ∈ nodes, ∃ p, n.position = gridPlace p) {e : Edge}
    (hsource : e.source ∈ nodes.map Node.id) (htarget : e.target ∈ nodes.map Node.id) :
    Ranking.geometric.Agree (positionsOf (nodes.map (Node.shift d))) (positionsOf nodes) e := by
  have hplace : ∀ {id}, id ∈ nodes.map Node.id → ∃ p : Int × Int,
      (positionsOf nodes).placeOf id = gridPlace p ∧
      (positionsOf (nodes.map (Node.shift d))).placeOf id =
        gridPlace (p.1 + d.1, p.2 + d.2) := by
    intro id hid
    have hhere := placeOf_eq_gridPlace hgrid id
    refine ⟨_, hhere, ?_⟩
    rw [placeOf_shift d hid]
    exact congrArg (Position.shift d) hhere
  obtain ⟨p, hp, hp'⟩ := hplace hsource
  obtain ⟨q, hq, hq'⟩ := hplace htarget
  constructor
  · show Geometric.sortKey e _ _ = Geometric.sortKey e _ _
    rw [hp, hp', hq, hq', sortKey_gridPlace, sortKey_gridPlace, gridKey_shift]
  · show Geometric.isBackward e _ _ = Geometric.isBackward e _ _
    rw [hp, hp', hq, hq', isBackward_gridPlace, isBackward_gridPlace, leftward_shift]

/-- On a grid edges with different sources have different keys, and one of them wins
in whichever order they come; and a diagram whose edges run between its nodes may
be moved without changing its analysis. -/
theorem geometric_layout (hgrid : ∀ n ∈ nodes, ∃ p, n.position = gridPlace p) :
    (∀ cycle : List Edge, cycle ≠ [] → (cycle.map Edge.source).Nodup →
      (∀ e ∈ cycle, ∃ key, Ranking.geometric.keyAt (positionsOf nodes) e = .ok key) ∧
      (cycle.Pairwise fun e e' => Ranking.geometric.keyAt (positionsOf nodes) e ≠
        Ranking.geometric.keyAt (positionsOf nodes) e') ∧
      ∃ w ∈ cycle, ∀ cycle' : List Edge, cycle'.Perm cycle →
        Ranking.geometric.winner? (positionsOf nodes) cycle' = .ok (some w)) ∧
    ∀ (edges : List Edge) (d : Int × Int),
      (∀ e ∈ edges, e.source ∈ nodes.map Node.id ∧ e.target ∈ nodes.map Node.id) →
        Feedback.analyze Ranking.geometric (nodes.map (Node.shift d)) edges =
          Feedback.analyze Ranking.geometric nodes edges := by
  refine ⟨fun cycle hne hsimple => ⟨?_, ?_, exists_winner_of_perm hgrid hne hsimple⟩, ?_⟩
  · exact fun e _ => ⟨_, keyAt_gridPlace hgrid e⟩
  · refine (List.pairwise_map.mp hsimple).imp fun {e e'} hne heq => hne ?_
    rw [keyAt_gridPlace hgrid, keyAt_gridPlace hgrid] at heq
    exact source_eq_of_parts (Except.ok.inj heq)
  · intro edges d hends
    refine Feedback.analyze_congr (map_id_shift d nodes) fun e he => ?_
    exact agree_shift d hgrid (hends e he).1 (hends e he).2

/-! ### A tie -/

/-- Two places that are gone to and fro between, with an id for each turn. -/
def shuttleNodes : List Node := [
  { id := "a", kind := .letter, position := gridPlace (0, 0) },
  { id := "b", kind := .digit, position := gridPlace (10, 0) },
  { id := "c", kind := .letter, position := gridPlace (0, 0) },
  { id := "d", kind := .digit, position := gridPlace (10, 0) }]

/-- The way to and fro; the two ways back tie in all but the source. -/
def shuttle : List Edge := [
  { source := "a", target := "b" },
  { source := "b", target := "c" },
  { source := "c", target := "d" },
  { source := "d", target := "a" }]

/-- The way back from the greater id wins in any order, and the diagram may be
moved. -/
theorem geometric_layout_shuttle :
    (∀ n ∈ shuttleNodes, ∃ p, n.position = gridPlace p) ∧ shuttle ≠ [] ∧
      (shuttle.map Edge.source).Nodup ∧
      (∀ e ∈ shuttle, e.source ∈ shuttleNodes.map Node.id ∧
        e.target ∈ shuttleNodes.map Node.id) ∧
      (∀ edges : List Edge, edges.Perm shuttle →
        Ranking.geometric.winner? (positionsOf shuttleNodes) edges =
          .ok (some { source := "d", target := "a" })) ∧
      Feedback.analyze Ranking.geometric (shuttleNodes.map (Node.shift (3, -7))) shuttle =
        Feedback.analyze Ranking.geometric shuttleNodes shuttle := by
  have hgrid : ∀ n ∈ shuttleNodes, ∃ p, n.position = gridPlace p := by
    intro n hn
    simp only [shuttleNodes, List.mem_cons, List.not_mem_nil, or_false] at hn
    rcases hn with rfl | rfl | rfl | rfl <;> exact ⟨_, rfl⟩
  have hne : shuttle ≠ [] := List.cons_ne_nil _ _
  have hsimple : (shuttle.map Edge.source).Nodup := by decide
  have hends : ∀ e ∈ shuttle, e.source ∈ shuttleNodes.map Node.id ∧
      e.target ∈ shuttleNodes.map Node.id := by decide
  obtain ⟨hcycles, hmove⟩ := geometric_layout hgrid
  obtain ⟨-, -, w, -, hw⟩ := hcycles shuttle hne hsimple
  have hgreater : Ranking.geometric.winner? (positionsOf shuttleNodes) shuttle =
      .ok (some { source := "d", target := "a" }) := by
    with_unfolding_all rfl
  obtain rfl : w = { source := "d", target := "a" } :=
    Option.some.inj (Except.ok.inj ((hw shuttle (List.Perm.refl _)).symm.trans hgreater))
  exact ⟨hgrid, hne, hsimple, hends, hw, hmove shuttle (3, -7) hends⟩

end GrammarDiagram
