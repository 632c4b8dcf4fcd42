/-
GrammarDiagram/Proofs/Verdict.lean

The verdicts of the geometric ranking on a grid.

No edge has a score of zero there, so the winner of a cycle runs backward if it
is a loop or has a positive score.  As the scores of a cycle are all negative
only if its ids are at one place, this is so for loops and for the cycles that
are not at one place (`exists_verdict`).

Ids may repeat, and edges may end at ids without a node, which are at the origin.
-/
import GrammarDiagram.Proofs.Feedback

namespace GrammarDiagram

variable {nodes : List Node} {edges cycle : List Edge} {positions : Table Position}

/-! ### Loops -/

/-- A cycle of one edge that leads back to where it starts. -/
def IsLoop (cycle : List Edge) : Prop := ∃ e : Edge, cycle = [e] ∧ e.isSelfLoop

/-- An edge of a cycle that leads back to where it starts is all of it. -/
theorem IsCycle.isSelfLoop_iff (h : IsCycle edges cycle) {w : Edge} (hw : w ∈ cycle) :
    w.isSelfLoop ↔ IsLoop cycle := by
  constructor
  · intro hloop
    have hback : w.source = w.target := beq_iff_eq.mp hloop
    obtain ⟨before, after, rfl⟩ := List.append_of_mem hw
    have hsimple := h.simple
    rw [List.map_append, List.map_cons, List.nodup_append, List.nodup_cons] at hsimple
    obtain ⟨-, ⟨hafter, -⟩, hbefore⟩ := hsimple
    -- the next edge would start where this one does
    obtain rfl : after = [] := by
      rcases after with - | ⟨next, after⟩
      · rfl
      · have hnext : w.target = next.source := (List.isChain_append.mp h.chain).2.1.rel
        exact absurd (by simp [hback, hnext]) hafter
    -- and so would the first one
    obtain rfl : before = [] := by
      rcases before with - | ⟨first, before⟩
      · rfl
      · have hfirst : w.target = first.source := h.closed first rfl w List.getLast?_concat
        exact absurd (hback.trans hfirst).symm (hbefore _ (by simp) _ List.mem_cons_self)
    exact ⟨w, rfl, hloop⟩
  · rintro ⟨e, rfl, hloop⟩
    rwa [List.mem_singleton.mp hw]

/-! ### Places -/

/-- All ids on a cycle are at one place. -/
def Coincident (positions : Table Position) (cycle : List Edge) : Prop :=
  ∃ p, ∀ e ∈ cycle, positions.placeOf e.source = p

theorem coincident_iff (hgrid : ∀ n ∈ nodes, ∃ p, n.position = gridPlace p) :
    Coincident (positionsOf nodes) cycle ↔
      ∃ p, ∀ e ∈ cycle, coordinates ((positionsOf nodes).placeOf e.source) = p := by
  constructor
  · rintro ⟨p, hp⟩
    exact ⟨coordinates p, fun e he => congrArg coordinates (hp e he)⟩
  · rintro ⟨p, hp⟩
    refine ⟨gridPlace p, fun e he => ?_⟩
    rw [placeOf_eq_gridPlace hgrid, hp e he]

/-- On a grid every edge has a score, and it is not zero. -/
theorem exists_score (hgrid : ∀ n ∈ nodes, ∃ p, n.position = gridPlace p) (i j : String) :
    ∃ s : Int, s ≠ 0 ∧
      Geometric.score ((positionsOf nodes).placeOf i) ((positionsOf nodes).placeOf j) =
        .ok (.int s) := by
  rw [placeOf_eq_gridPlace hgrid i, placeOf_eq_gridPlace hgrid j, score_gridPlace]
  exact ⟨_, leftward_ne_zero _ _, rfl⟩

/-! ### Verdicts -/

/-- A verdict of the geometric ranking: on the winner of the cycle, which runs
backward if it is a loop or its score is positive, and if the cycle is a loop or
not at one place. -/
structure Verdict.IsGeometric (positions : Table Position) (v : Verdict) : Prop
    extends v.Follows Ranking.geometric positions where
  mem : v.winner ∈ v.cycle
  score : ∃ s : Int, s ≠ 0 ∧ Geometric.score (positions.placeOf v.winner.source)
      (positions.placeOf v.winner.target) = .ok (.int s) ∧
    (v.backward ↔ v.winner.isSelfLoop ∨ 0 < s)
  backward_iff : v.backward ↔ IsLoop v.cycle ∨ ¬ Coincident positions v.cycle

theorem exists_verdict (hgrid : ∀ n ∈ nodes, ∃ p, n.position = gridPlace p)
    (h : IsCycle edges cycle) :
    ∃ v : Verdict, v.cycle = cycle ∧ v.IsGeometric (positionsOf nodes) := by
  have hplace := placeOf_eq_gridPlace hgrid
  obtain ⟨w, hw, hwinner, b, hbackward, hb⟩ := exists_geometric_winner h
    (fun id => coordinates ((positionsOf nodes).placeOf id)) fun e _ => hplace e.source
  refine ⟨⟨cycle, w, b⟩, rfl, ⟨hwinner, hbackward⟩, hw, ?_, ?_⟩
  · obtain ⟨s, hs, hscore⟩ := exists_score hgrid w.source w.target
    refine ⟨s, hs, hscore, ?_⟩
    rw [hplace w.source, hplace w.target, score_gridPlace] at hscore
    cases hscore
    have hgridBackward := isBackward_gridPlace w
      (coordinates ((positionsOf nodes).placeOf w.source))
      (coordinates ((positionsOf nodes).placeOf w.target))
    rw [← hplace w.source, ← hplace w.target] at hgridBackward
    have hboth := Except.ok.inj (hbackward.symm.trans hgridBackward)
    simp [hboth]
  · rw [hb, ← coincident_iff hgrid, h.isSelfLoop_iff hw]

/-- On a grid no score is zero; the winner of a cycle that is found is recorded if
the cycle is a loop or not at one place, and only then; and the record of a diagram
has a verdict on each of its cycles. -/
theorem geometric_verdicts (hgrid : ∀ n ∈ nodes, ∃ p, n.position = gridPlace p) :
    (∀ i j, ∃ s : Int, s ≠ 0 ∧
      Geometric.score ((positionsOf nodes).placeOf i) ((positionsOf nodes).placeOf j) =
        .ok (.int s)) ∧
    (∀ cycle ∈ Cycle.find nodes edges, ∃ v : Verdict, v.cycle = cycle ∧
      v.IsGeometric (positionsOf nodes) ∧
      ∀ f key, (v.backward → v.winner.key = .ok key) →
        (Feedback.judge Ranking.geometric (positionsOf nodes) f cycle).result =
          .ok (f.record cycle v.winner key v.backward)) ∧
    ((∀ e ∈ edges, ∃ key, e.key = .ok key) →
      ∃ f, (Feedback.analyze Ranking.geometric nodes edges).result = .ok f ∧
        f.Reported Ranking.geometric (positionsOf nodes) (Cycle.find nodes edges) ∧
        ∀ v ∈ f.verdicts, v.IsGeometric (positionsOf nodes)) := by
  have hverdict : ∀ cycle ∈ Cycle.find nodes edges, ∃ v : Verdict, v.cycle = cycle ∧
      v.IsGeometric (positionsOf nodes) :=
    fun cycle hcycle => exists_verdict hgrid (Cycle.isCycle_of_mem_find hcycle)
  refine ⟨exists_score hgrid, fun cycle hcycle => ?_, fun hkeys => ?_⟩
  · obtain ⟨v, rfl, hv⟩ := hverdict cycle hcycle
    exact ⟨v, rfl, hv, fun f key hkey => Feedback.result_judge hv.toFollows hkey⟩
  · have hjudgeable : ∀ cycle ∈ Cycle.find nodes edges,
        Judgeable Ranking.geometric (positionsOf nodes) cycle := by
      intro cycle hcycle
      obtain ⟨v, rfl, hv⟩ := hverdict cycle hcycle
      exact ⟨v.winner, hv.winner, ⟨v.backward, hv.isBackward⟩,
        hkeys v.winner ((Cycle.isCycle_of_mem_find hcycle).mem _ hv.mem)⟩
    obtain ⟨f, hresult, hreported⟩ := Feedback.exists_reported hjudgeable
    refine ⟨f, hresult, hreported, fun u hu => ?_⟩
    -- the verdict on the cycle of `u` is `u`
    have hcycle : u.cycle ∈ Cycle.find nodes edges := by
      rw [← hreported.cycles_eq]
      exact List.mem_map_of_mem hu
    obtain ⟨v, hsame, hv⟩ := hverdict u.cycle hcycle
    rwa [(hreported.follows u hu).eq hv.toFollows hsame.symm]

/-! ### A cycle at one place and one that is not -/

/-- An id that has two nodes, the last one at the place of another id, and a node
below the origin. -/
def stackedNodes : List Node := [
  { id := "a", kind := .letter, position := gridPlace (7, 7) },
  { id := "a", kind := .letter, position := gridPlace (0, 0) },
  { id := "b", kind := .digit, position := gridPlace (0, 0) },
  { id := "c", kind := .digit, position := gridPlace (0, 3) }]

/-- To and fro between ids at one place. -/
def onTheSpot : List Edge := [{ source := "a", target := "b" }, { source := "b", target := "a" }]

/-- Up to an id without a node, and down again. -/
def upAndDown : List Edge := [
  { source := "c", target := "nowhere" },
  { source := "nowhere", target := "c" }]

theorem find_stacked :
    Cycle.find stackedNodes (onTheSpot ++ upAndDown) = [onTheSpot, upAndDown] := by
  with_unfolding_all rfl

theorem coincident_onTheSpot : Coincident (positionsOf stackedNodes) onTheSpot := by
  refine ⟨gridPlace (0, 0), fun e he => ?_⟩
  simp only [onTheSpot, List.mem_cons, List.not_mem_nil, or_false] at he
  rcases he with rfl | rfl <;> rfl

theorem not_coincident_upAndDown : ¬ Coincident (positionsOf stackedNodes) upAndDown := by
  rintro ⟨p, hp⟩
  have hc : gridPlace (0, 3) = p := hp { source := "c", target := "nowhere" } (by simp [upAndDown])
  have hnowhere : gridPlace (0, 0) = p :=
    hp { source := "nowhere", target := "c" } (by simp [upAndDown])
  have hsame := congrArg coordinates (hc.trans hnowhere.symm)
  revert hsame
  decide

/-- The winner of the cycle at one place is not recorded, that of the other is. -/
theorem geometric_verdicts_stacked :
    (∀ n ∈ stackedNodes, ∃ p, n.position = gridPlace p) ∧
      (∀ e ∈ onTheSpot ++ upAndDown, ∃ key, e.key = .ok key) ∧
      ∃ f u v,
        (Feedback.analyze Ranking.geometric stackedNodes (onTheSpot ++ upAndDown)).result = .ok f ∧
          f.verdicts = [u, v] ∧ u.cycle = onTheSpot ∧ v.cycle = upAndDown ∧
          ¬ u.backward ∧ v.backward := by
  have hgrid : ∀ n ∈ stackedNodes, ∃ p, n.position = gridPlace p := by
    intro n hn
    simp only [stackedNodes, List.mem_cons, List.not_mem_nil, or_false] at hn
    rcases hn with rfl | rfl | rfl | rfl <;> exact ⟨_, rfl⟩
  have hkeys : ∀ e ∈ onTheSpot ++ upAndDown, ∃ key, e.key = .ok key := by
    intro e he
    simp only [onTheSpot, upAndDown, List.mem_append, List.mem_cons, List.not_mem_nil,
      or_false] at he
    rcases he with (rfl | rfl) | rfl | rfl <;> exact ⟨_, rfl⟩
  obtain ⟨f, hresult, hreported, hgeometric⟩ := (geometric_verdicts hgrid).2.2 hkeys
  have hcycles := hreported.cycles_eq
  rw [find_stacked] at hcycles
  obtain ⟨u, rest, hf, hu, hrest⟩ := List.map_eq_cons_iff.mp hcycles
  obtain ⟨v, hv', hv⟩ := List.map_eq_singleton_iff.mp hrest
  rw [hv'] at hf
  have hgu := hgeometric u (by simp [hf])
  have hgv := hgeometric v (by simp [hf])
  refine ⟨hgrid, hkeys, f, u, v, hresult, hf, hu, hv, ?_, ?_⟩
  · rw [hgu.backward_iff, hu]
    rintro (⟨e, he, -⟩ | hplaces)
    · cases he
    · exact hplaces coincident_onTheSpot
  · rw [hgv.backward_iff, hv]
    exact .inr not_coincident_upAndDown

end GrammarDiagram
