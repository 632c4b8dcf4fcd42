/-
GrammarDiagram/Proofs/Feedback.lean

Which cycles get an edge that is drawn as a loop.

What one cycle adds to the record is said by `Reported.record`; by induction the
record of all cycles is the list of the verdicts on them, and the keys that are
marked, like those with a length, are those of the winners that run backward
(`exists_reported`).  So of every cycle that is found the winner is drawn, if it runs
backward, and no other edge is (`analyze_spec`).

On a grid this means that a cycle which is found and not at one place has such an
edge.  A cycle that is not found need not have one, although it shares its closing
edge with one that is found: in `shortcutNodes` the winner of the one found cycle is
not on the other (`shortcut_without_feedback`).  `feedback_cycles` says exactly which
cycles have one.
-/
import GrammarDiagram.Proofs.Naming
import GrammarDiagram.Proofs.Ranking
import Mathlib.Data.List.Nodup

namespace GrammarDiagram

/-! ### Judging cycles -/

/-- The edge that is drawn for a cycle: its winner, if it runs backward. -/
def Drawn (r : Ranking) (positions : Table Position) (cycle : List Edge) (w : Edge) : Prop :=
  r.winner? positions cycle = .ok (some w) ∧
    r.isBackward w (positions.placeOf w.source) (positions.placeOf w.target) = .ok true

/-- A cycle can be judged: it has a winner with a key, and it is known whether it
runs backward. -/
def Judgeable (r : Ranking) (positions : Table Position) (cycle : List Edge) : Prop :=
  ∃ w, r.winner? positions cycle = .ok (some w) ∧
    (∃ b, r.isBackward w (positions.placeOf w.source) (positions.placeOf w.target) = .ok b) ∧
    ∃ key, w.key = .ok key

/-- A verdict on the winner of its cycle, which says whether it runs backward. -/
structure Verdict.Follows (r : Ranking) (positions : Table Position) (v : Verdict) : Prop where
  winner : r.winner? positions v.cycle = .ok (some v.winner)
  isBackward : r.isBackward v.winner (positions.placeOf v.winner.source)
    (positions.placeOf v.winner.target) = .ok v.backward

/-- There is one verdict on a cycle. -/
theorem Verdict.Follows.eq {r : Ranking} {positions : Table Position} {u v : Verdict}
    (hu : u.Follows r positions) (hv : v.Follows r positions) (h : u.cycle = v.cycle) : u = v := by
  obtain ⟨cycle, w, b⟩ := u
  obtain ⟨cycle', w', b'⟩ := v
  obtain rfl : cycle = cycle' := h
  obtain rfl : w = w' := Option.some.inj (Except.ok.inj (hu.winner.symm.trans hv.winner))
  obtain rfl : b = b' := Except.ok.inj (hu.isBackward.symm.trans hv.isBackward)
  rfl

/-- The edge drawn for a cycle is the winner that runs backward. -/
theorem Verdict.Follows.drawn_iff {r : Ranking} {positions : Table Position} {v : Verdict}
    (hv : v.Follows r positions) {w : Edge} :
    Drawn r positions v.cycle w ↔ v.backward ∧ w = v.winner := by
  constructor
  · rintro ⟨hwinner, hbackward⟩
    obtain rfl : w = v.winner := Option.some.inj (Except.ok.inj (hwinner.symm.trans hv.winner))
    exact ⟨Except.ok.inj (hv.isBackward.symm.trans hbackward), rfl⟩
  · rintro ⟨hbackward, rfl⟩
    have hyes := hv.isBackward
    rw [hbackward] at hyes
    exact ⟨hv.winner, hyes⟩

namespace Feedback

variable {r : Ranking} {positions : Table Position} {f : Feedback}

/-- The record of a verdict. -/
def record (f : Feedback) (cycle : List Edge) (w : Edge) (key : String) (backward : Bool) :
    Feedback where
  marked := if backward then f.marked.insert key else f.marked
  pathLengths := if backward then f.pathLengths.put key cycle.length else f.pathLengths
  verdicts := f.verdicts ++ [⟨cycle, w, backward⟩]

theorem mem_marked_record (f : Feedback) (cycle : List Edge) (w : Edge) (key k : String)
    (backward : Bool) :
    k ∈ (f.record cycle w key backward).marked ↔ k ∈ f.marked ∨ backward ∧ k = key := by
  cases backward with
  | false => simp [record]
  | true => simp [record, or_comm]

theorem contains_record (f : Feedback) (cycle : List Edge) (w : Edge) (key k : String)
    (backward : Bool) :
    (f.record cycle w key backward).pathLengths.contains k ↔
      f.pathLengths.contains k ∨ backward ∧ k = key := by
  cases backward with
  | false => simp [record]
  | true =>
    simp only [record, if_true, Table.contains, Table.get?_put]
    by_cases hk : k = key <;> simp [hk]

/-- Judging a cycle records the verdict on it.  The key of the winner is asked for
only if it runs backward. -/
theorem result_judge {v : Verdict} {key : String} (hv : v.Follows r positions)
    (hkey : v.backward → v.winner.key = .ok key) :
    (judge r positions f v.cycle).result =
      .ok (f.record v.cycle v.winner key v.backward) := by
  refine Traced.result_bind_eq_ok_iff.mpr ⟨some v.winner, hv.winner, ?_⟩
  refine Traced.result_bind_eq_ok_iff.mpr ⟨v.backward, hv.isBackward, ?_⟩
  cases hbackward : v.backward with
  | false => rfl
  | true =>
    refine Traced.result_bind_eq_ok_iff.mpr ⟨key, hkey hbackward, ?_⟩
    exact Traced.result_bind_eq_ok_iff.mpr ⟨(), rfl, rfl⟩

/-- The record of cycles: a verdict on each of them, in order; the keys of the
winners that run backward, each marked once; and a length under these keys. -/
structure Reported (r : Ranking) (positions : Table Position) (cycles : List (List Edge))
    (f : Feedback) : Prop where
  cycles_eq : f.verdicts.map Verdict.cycle = cycles
  follows : ∀ v ∈ f.verdicts, v.Follows r positions
  nodup : f.marked.Nodup
  mem_marked_iff : ∀ key, key ∈ f.marked ↔
    ∃ v ∈ f.verdicts, v.backward ∧ v.winner.key = .ok key
  contains_iff : ∀ key, f.pathLengths.contains key ↔
    ∃ v ∈ f.verdicts, v.backward ∧ v.winner.key = .ok key

theorem reported_empty : Reported r positions [] {} where
  cycles_eq := rfl
  follows := by simp
  nodup := List.nodup_nil
  mem_marked_iff := by simp
  contains_iff := by simp [Table.contains]

variable {cycles : List (List Edge)}

/-- One more verdict marks the key of its winner, if this runs backward. -/
theorem exists_backward_concat {verdicts : List Verdict} {v : Verdict} {key : String}
    (hkey : v.backward → v.winner.key = .ok key) (k : String) :
    (∃ u ∈ verdicts ++ [v], u.backward ∧ u.winner.key = .ok k) ↔
      (∃ u ∈ verdicts, u.backward ∧ u.winner.key = .ok k) ∨ v.backward ∧ k = key := by
  simp only [List.mem_append, List.mem_singleton, or_and_right, exists_or, exists_eq_left]
  refine or_congr_right (and_congr_right fun hbackward => ?_)
  rw [hkey hbackward, Except.ok.injEq, eq_comm]

theorem Reported.record (h : f.Reported r positions cycles) {v : Verdict} {key : String}
    (hv : v.Follows r positions) (hkey : v.backward → v.winner.key = .ok key) :
    (f.record v.cycle v.winner key v.backward).Reported r positions (cycles ++ [v.cycle]) where
  cycles_eq := by
    rw [Feedback.record, List.map_append, h.cycles_eq]
    rfl
  follows := by
    intro u hu
    rcases List.mem_append.mp hu with hu | hu
    · exact h.follows u hu
    · rw [List.mem_singleton.mp hu]
      exact hv
  nodup := by
    -- a key is marked once, however many cycles its edge wins
    unfold Feedback.record
    split
    · exact h.nodup.insert
    · exact h.nodup
  mem_marked_iff := by
    intro k
    rw [mem_marked_record, h.mem_marked_iff]
    exact (exists_backward_concat hkey k).symm
  contains_iff := by
    intro k
    rw [contains_record, h.contains_iff]
    exact (exists_backward_concat hkey k).symm

/-- Judging cycles one after the other records a verdict on each. -/
theorem Reported.exists_foldlM_judge {done : List (List Edge)} (hf : f.Reported r positions done)
    (h : ∀ c ∈ cycles, Judgeable r positions c) :
    ∃ f', (cycles.foldlM (judge r positions) f).result = .ok f' ∧
      f'.Reported r positions (done ++ cycles) := by
  induction cycles generalizing done f with
  | nil => exact ⟨f, rfl, by rwa [List.append_nil]⟩
  | cons c rest ih =>
    obtain ⟨⟨w, hwinner, ⟨b, hbackward⟩, key, hkey⟩, hrest⟩ := List.forall_mem_cons.mp h
    have hv : Verdict.Follows r positions ⟨c, w, b⟩ := ⟨hwinner, hbackward⟩
    obtain ⟨f', hfold, hf'⟩ := ih (hf.record hv fun _ => hkey) hrest
    rw [List.append_assoc] at hf'
    refine ⟨f', ?_, hf'⟩
    rw [List.foldlM_cons]
    exact Traced.result_bind_eq_ok_iff.mpr ⟨_, result_judge hv fun _ => hkey, hfold⟩

/-- Where every cycle can be judged, the analysis ends with a verdict on each. -/
theorem exists_reported {nodes : List Node} {edges : List Edge}
    (h : ∀ c ∈ Cycle.find nodes edges, Judgeable r (positionsOf nodes) c) :
    ∃ f, (analyze r nodes edges).result = .ok f ∧
      f.Reported r (positionsOf nodes) (Cycle.find nodes edges) :=
  reported_empty.exists_foldlM_judge h

theorem isFeedback_of_key {e : Edge} {key : String} (hkey : e.key = .ok key) :
    f.isFeedback e = .ok (f.marked.contains key) := by
  rw [isFeedback, hkey]
  rfl

theorem isFeedback_iff {e : Edge} {key : String} (hkey : e.key = .ok key) :
    f.isFeedback e = .ok true ↔ key ∈ f.marked := by
  rw [isFeedback_of_key hkey, Except.ok.injEq, List.contains_iff_mem]

theorem pathLength_of_key {e : Edge} {key : String} (hkey : e.key = .ok key) :
    f.pathLength e = .ok ((f.pathLengths.get? key).getD 0) := by
  rw [pathLength, hkey]
  rfl

/-- Where every cycle can be judged, the analysis ends, and the edges that are
drawn as loops are those with the key of an edge drawn for a cycle. -/
theorem analyze_spec {nodes : List Node} {edges : List Edge}
    (h : ∀ c ∈ Cycle.find nodes edges, Judgeable r (positionsOf nodes) c) :
    ∃ f, (analyze r nodes edges).result = .ok f ∧
      ∀ e key, e.key = .ok key → (f.isFeedback e = .ok true ↔
        ∃ c ∈ Cycle.find nodes edges, ∃ w, Drawn r (positionsOf nodes) c w ∧ w.key = .ok key) := by
  obtain ⟨f, hresult, hreported⟩ := exists_reported h
  refine ⟨f, hresult, fun e key hkey => ?_⟩
  rw [isFeedback_iff hkey, hreported.mem_marked_iff, ← hreported.cycles_eq]
  constructor
  · rintro ⟨v, hv, hbackward, hwkey⟩
    have hdrawn := (hreported.follows v hv).drawn_iff.mpr ⟨hbackward, rfl⟩
    exact ⟨v.cycle, List.mem_map_of_mem hv, v.winner, hdrawn, hwkey⟩
  · rintro ⟨c, hc, w, hdrawn, hwkey⟩
    obtain ⟨v, hv, rfl⟩ := List.mem_map.mp hc
    obtain ⟨hbackward, rfl⟩ := (hreported.follows v hv).drawn_iff.mp hdrawn
    exact ⟨v, hv, hbackward, hwkey⟩

end Feedback

/-! ### Diagrams on a grid -/

/-- A diagram with distinct ids and whole coordinates, whose edges run between its
nodes and have pairwise different keys. -/
structure OnGrid (nodes : List Node) (edges : List Edge) : Prop where
  distinct : (nodes.map Node.id).Nodup
  grid : ∀ n ∈ nodes, ∃ p, n.position = gridPlace p
  ends : ∀ e ∈ edges, e.source ∈ nodes.map Node.id ∧ e.target ∈ nodes.map Node.id
  keyed : ∀ e ∈ edges, ∃ key, e.key = .ok key
  keys : (edges.map Edge.key).Nodup

theorem exists_key_of_map_key {edges : List Edge} {keys : List String}
    (h : edges.map Edge.key = keys.map .ok) : ∀ e ∈ edges, ∃ key, e.key = .ok key := by
  intro e he
  have hkey : e.key ∈ edges.map Edge.key := List.mem_map_of_mem he
  rw [h] at hkey
  obtain ⟨key, -, hkey⟩ := List.mem_map.mp hkey
  exact ⟨key, hkey.symm⟩

theorem nodup_map_key {edges : List Edge} {keys : List String}
    (h : edges.map Edge.key = keys.map .ok) (hkeys : keys.Nodup) :
    (edges.map Edge.key).Nodup := by
  rw [h]
  exact hkeys.map fun _ _ => Except.ok.inj

/-- All nodes on a cycle share one position. -/
def AtOnePlace (nodes : List Node) (cycle : List Edge) : Prop :=
  ∃ p, ∀ e ∈ cycle, ∀ n ∈ nodes, n.id = e.source → n.position = p

/-- The place of an id is the position of the last node with it. -/
theorem get?_positionsOf (nodes : List Node) (id : String) :
    (positionsOf nodes).get? id = (lastNode? nodes id).map Node.position := by
  have key : ∀ t : Table Position,
      (nodes.foldl (fun t n => t.put n.id n.position) t).get? id =
        ((lastNode? nodes id).map Node.position).or (t.get? id) := by
    induction nodes with
    | nil => exact fun t => rfl
    | cons n rest ih =>
      intro t
      rw [List.foldl_cons, ih, lastNode?_cons, Table.get?_put]
      rcases lastNode? rest id with - | m
      · by_cases hid : id = n.id
        · simp [hid]
        · simp [hid, Ne.symm hid]
      · rfl
  rw [positionsOf, key, Table.get?_empty, Option.or_none]

/-- With distinct ids the place of an id is the position of its node. -/
theorem placeOf_positionsOf {nodes : List Node} (hids : (nodes.map Node.id).Nodup) {n : Node}
    (hn : n ∈ nodes) : (positionsOf nodes).placeOf n.id = n.position := by
  rw [Table.placeOf, get?_positionsOf, lastNode?_of_mem hids hn]
  rfl

/-- The coordinates of a place on the grid. -/
def coordinates (p : Position) : Int × Int :=
  match p.x, p.y with
  | .int x, .int y => (x, y)
  | _, _ => (0, 0)

/-- If all nodes are on a grid, so is every id. -/
theorem placeOf_eq_gridPlace {nodes : List Node}
    (hgrid : ∀ n ∈ nodes, ∃ p, n.position = gridPlace p) (id : String) :
    (positionsOf nodes).placeOf id = gridPlace (coordinates ((positionsOf nodes).placeOf id)) := by
  rw [Table.placeOf, get?_positionsOf]
  rcases hlast : lastNode? nodes id with - | n
  · rfl
  · have hn : n ∈ nodes := List.mem_reverse.mp (List.mem_of_find?_eq_some hlast)
    obtain ⟨p, hp⟩ := hgrid n hn
    rw [Option.map_some, Option.getD_some, hp]
    rfl

namespace OnGrid

variable {nodes : List Node} {edges cycle : List Edge} (h : OnGrid nodes edges)
include h

/-- A cycle is at one place if the coordinates of its ids are the same. -/
theorem atOnePlace_iff (hcycle : IsCycle edges cycle) :
    AtOnePlace nodes cycle ↔
      ∃ p, ∀ e ∈ cycle, coordinates ((positionsOf nodes).placeOf e.source) = p := by
  constructor
  · rintro ⟨p, hp⟩
    refine ⟨coordinates p, fun e he => ?_⟩
    obtain ⟨n, hn, hid⟩ := List.mem_map.mp (h.ends e (hcycle.mem e he)).1
    rw [← hid, placeOf_positionsOf h.distinct hn, hp e he n hn hid]
  · rintro ⟨p, hp⟩
    refine ⟨gridPlace p, fun e he n hn hid => ?_⟩
    rw [← placeOf_positionsOf h.distinct hn, hid,
      placeOf_eq_gridPlace h.grid, hp e he]

/-- Every cycle has a winner, which is drawn if it is a loop or the cycle is not
at one place. -/
theorem exists_winner (hcycle : IsCycle edges cycle) :
    ∃ w ∈ cycle, Ranking.geometric.winner? (positionsOf nodes) cycle = .ok (some w) ∧
      Judgeable Ranking.geometric (positionsOf nodes) cycle ∧
      (Drawn Ranking.geometric (positionsOf nodes) cycle w ↔
        w.isSelfLoop ∨ ¬ AtOnePlace nodes cycle) := by
  obtain ⟨w, hw, hwinner, b, hbackward, hb⟩ := exists_geometric_winner hcycle
    (fun id => coordinates ((positionsOf nodes).placeOf id))
    fun e _ => placeOf_eq_gridPlace h.grid e.source
  refine ⟨w, hw, hwinner, ⟨w, hwinner, ⟨b, hbackward⟩, h.keyed w (hcycle.mem w hw)⟩, ?_⟩
  rw [h.atOnePlace_iff hcycle, ← hb, Drawn, hbackward, Except.ok.injEq]
  exact and_iff_right hwinner

/-- The winner of a cycle is one of its edges, and it is known when it is drawn. -/
theorem winner?_spec (hcycle : IsCycle edges cycle) {e : Edge}
    (he : Ranking.geometric.winner? (positionsOf nodes) cycle = .ok (some e)) :
    e ∈ cycle ∧ (Drawn Ranking.geometric (positionsOf nodes) cycle e ↔
      e.isSelfLoop ∨ ¬ AtOnePlace nodes cycle) := by
  obtain ⟨w, hw, hwinner, -, hdrawn⟩ := h.exists_winner hcycle
  have hsame : e = w := Option.some.inj (Except.ok.inj (he.symm.trans hwinner))
  rw [hsame]
  exact ⟨hw, hdrawn⟩

/-- The edges drawn as loops are those drawn for the cycles that are found. -/
theorem exists_analyze :
    ∃ f, (Feedback.analyze Ranking.geometric nodes edges).result = .ok f ∧
      ∀ e ∈ edges, f.isFeedback e = .ok true ↔
        ∃ found ∈ Cycle.find nodes edges, Drawn Ranking.geometric (positionsOf nodes) found e := by
  have hjudge : ∀ c ∈ Cycle.find nodes edges,
      Judgeable Ranking.geometric (positionsOf nodes) c := by
    intro c hc
    obtain ⟨-, -, -, hjudge, -⟩ := h.exists_winner (Cycle.isCycle_of_mem_find hc)
    exact hjudge
  obtain ⟨f, hresult, hkeys⟩ := Feedback.analyze_spec hjudge
  refine ⟨f, hresult, fun e he => ?_⟩
  obtain ⟨key, hkey⟩ := h.keyed e he
  rw [hkeys e key hkey]
  refine exists_congr fun found => and_congr_right fun hfound =>
    ⟨?_, fun hdrawn => ⟨e, hdrawn, hkey⟩⟩
  rintro ⟨w, hdrawn, hwkey⟩
  -- edges have different keys
  have hcycle := Cycle.isCycle_of_mem_find hfound
  have hw : w ∈ edges := hcycle.mem w (h.winner?_spec hcycle hdrawn.1).1
  rwa [List.inj_on_of_nodup_map h.keys he hw (hkey.trans hwkey.symm)]

end OnGrid

/-- A cycle that is found has an edge drawn as a loop unless it is at one place.
Any cycle has the closing edge of one that is found, and it has an edge drawn as
a loop exactly if it has the winner of one that is found and is a loop or not at
one place. -/
theorem feedback_cycles {nodes : List Node} {edges : List Edge} (h : OnGrid nodes edges) :
    ∃ f, (Feedback.analyze Ranking.geometric nodes edges).result = .ok f ∧
      (∀ found ∈ Cycle.find nodes edges, IsCycle edges found ∧
        (¬ AtOnePlace nodes found → ∃ e ∈ found, f.isFeedback e = .ok true)) ∧
      ∀ cycle, IsCycle edges cycle →
        (∃ found ∈ Cycle.find nodes edges, ∃ e ∈ cycle, found.getLast? = some e) ∧
        ((∃ e ∈ cycle, f.isFeedback e = .ok true) ↔
          ∃ found ∈ Cycle.find nodes edges, ∃ e ∈ cycle,
            Ranking.geometric.winner? (positionsOf nodes) found = .ok (some e) ∧
              (e.isSelfLoop ∨ ¬ AtOnePlace nodes found)) := by
  obtain ⟨f, hresult, hfeedback⟩ := h.exists_analyze
  refine ⟨f, hresult, fun found hfound => ?_, fun cycle hcycle => ⟨?_, ?_⟩⟩
  · have hcycle := Cycle.isCycle_of_mem_find hfound
    refine ⟨hcycle, fun hplaces => ?_⟩
    obtain ⟨w, hw, -, -, hdrawn⟩ := h.exists_winner hcycle
    exact ⟨w, hw, (hfeedback w (hcycle.mem w hw)).mpr ⟨found, hfound, hdrawn.mpr (.inr hplaces)⟩⟩
  · exact Cycle.exists_closing_edge (fun e he => (h.ends e he).1) hcycle
  · constructor
    · rintro ⟨e, he, htrue⟩
      obtain ⟨found, hfound, hdrawn⟩ := (hfeedback e (hcycle.mem e he)).mp htrue
      have hspec := h.winner?_spec (Cycle.isCycle_of_mem_find hfound) hdrawn.1
      exact ⟨found, hfound, e, he, hdrawn.1, hspec.2.mp hdrawn⟩
    · rintro ⟨found, hfound, e, he, hwinner, hplaces⟩
      have hspec := h.winner?_spec (Cycle.isCycle_of_mem_find hfound) hwinner
      exact ⟨e, he, (hfeedback e (hcycle.mem e he)).mpr ⟨found, hfound, hspec.2.mpr hplaces⟩⟩

/-! ### A cycle without an edge drawn as a loop -/

/-- Two ways from `a` to `c`, one of them far out to the right, and one way
back. -/
def shortcutNodes : List Node := [
  { id := "a", kind := .letter, position := gridPlace (0, 0) },
  { id := "b", kind := .letter, position := gridPlace (100, 0) },
  { id := "c", kind := .letter, position := gridPlace (10, 0) },
  { id := "d", kind := .letter, position := gridPlace (5, 0) }]

/-- The cycle that goes far out. -/
def detour : List Edge := [
  { source := "a", target := "b" },
  { source := "b", target := "c" },
  { source := "c", target := "a" }]

/-- The cycle that does not. -/
def shortcut : List Edge := [
  { source := "a", target := "d" },
  { source := "d", target := "c" },
  { source := "c", target := "a" }]

/-- The edges of `shortcutNodes`. -/
def shortcutEdges : List Edge := detour ++ shortcut.take 2

theorem key_shortcutEdges :
    shortcutEdges.map Edge.key = ["a->b", "b->c", "c->a", "a->d", "d->c"].map .ok := by cbv

theorem onGrid_shortcut : OnGrid shortcutNodes shortcutEdges where
  distinct := by decide
  grid := by
    intro n hn
    simp only [shortcutNodes, List.mem_cons, List.not_mem_nil, or_false] at hn
    rcases hn with rfl | rfl | rfl | rfl <;> exact ⟨_, rfl⟩
  ends := by decide
  keyed := exists_key_of_map_key key_shortcutEdges
  keys := nodup_map_key key_shortcutEdges (by decide)

theorem find_shortcut : Cycle.find shortcutNodes shortcutEdges = [detour] := by
  with_unfolding_all rfl

theorem isCycle_shortcut : IsCycle shortcutEdges shortcut where
  ne_nil := by simp [shortcut]
  mem := by simp [shortcut, shortcutEdges, detour]
  chain := by simp [shortcut]
  closed := by simp [shortcut]
  simple := by decide

/-- A cycle that the first and the third edge of both cycles are on is not at one
place. -/
theorem not_atOnePlace_of_mem {cycle : List Edge} {target : String}
    (ha : { source := "a", target := target } ∈ cycle)
    (hc : { source := "c", target := "a" } ∈ cycle) : ¬ AtOnePlace shortcutNodes cycle := by
  rintro ⟨p, hp⟩
  have hpa : gridPlace (0, 0) = p :=
    hp _ ha { id := "a", kind := .letter, position := gridPlace (0, 0) }
      (by simp [shortcutNodes]) rfl
  have hpc : gridPlace (10, 0) = p :=
    hp _ hc { id := "c", kind := .letter, position := gridPlace (10, 0) }
      (by simp [shortcutNodes]) rfl
  have hsame := congrArg coordinates (hpa.trans hpc.symm)
  revert hsame
  decide

/-- The detour has an edge drawn as a loop, and it closes with an edge of the
shortcut. -/
theorem feedback_cycles_shortcut :
    OnGrid shortcutNodes shortcutEdges ∧
      ∃ f, (Feedback.analyze Ranking.geometric shortcutNodes shortcutEdges).result = .ok f ∧
        (∃ e ∈ detour, f.isFeedback e = .ok true) ∧
        ∃ found ∈ Cycle.find shortcutNodes shortcutEdges, ∃ e ∈ shortcut,
          found.getLast? = some e := by
  obtain ⟨f, hresult, hfound, hcycles⟩ := feedback_cycles onGrid_shortcut
  have hmem : detour ∈ Cycle.find shortcutNodes shortcutEdges := by
    rw [find_shortcut]
    exact List.mem_cons_self
  refine ⟨onGrid_shortcut, f, hresult, (hfound detour hmem).2 ?_,
    (hcycles shortcut isCycle_shortcut).1⟩
  exact not_atOnePlace_of_mem List.mem_cons_self (by simp [detour])

/-- No edge of the shortcut is drawn as a loop. -/
theorem shortcut_without_feedback :
    OnGrid shortcutNodes shortcutEdges ∧ IsCycle shortcutEdges shortcut ∧
      ¬ AtOnePlace shortcutNodes shortcut ∧
      ∃ f, (Feedback.analyze Ranking.geometric shortcutNodes shortcutEdges).result = .ok f ∧
        ∀ e ∈ shortcut, f.isFeedback e = .ok false := by
  refine ⟨onGrid_shortcut, isCycle_shortcut,
    not_atOnePlace_of_mem List.mem_cons_self (by simp [shortcut]), ?_⟩
  have hanalyze : ∃ f,
      (Feedback.analyze Ranking.geometric shortcutNodes shortcutEdges).result = .ok f ∧
        decide (f.marked = ["b->c"]) := Fault.exists_ok_of_any (by decide +kernel)
  obtain ⟨f, hresult, hmarked⟩ := hanalyze
  rw [decide_eq_true_iff] at hmarked
  refine ⟨f, hresult, ?_⟩
  have hother : ∀ {e : Edge} {key : String}, e.key = .ok key → key ≠ "b->c" →
      f.isFeedback e = .ok false := by
    intro e key hkey hne
    have hnot : ¬ f.marked.contains key := by
      rw [List.contains_iff_mem, hmarked, List.mem_singleton]
      exact hne
    rw [Feedback.isFeedback_of_key hkey, Bool.eq_false_iff.mpr hnot]
  intro e he
  simp only [shortcut, List.mem_cons, List.not_mem_nil, or_false] at he
  rcases he with rfl | rfl | rfl
  · exact hother (by cbv) (show "a->d" ≠ "b->c" by decide)
  · exact hother (by cbv) (show "d->c" ≠ "b->c" by decide)
  · exact hother (by cbv) (show "c->a" ≠ "b->c" by decide)

end GrammarDiagram
