/-
GrammarDiagram/Proofs/Record.lean

What the record of an analysis says of the edges of a diagram.

A verdict *marks* the key of its winner if this runs backward.  Under a key the
record has the length of the cycle that the last verdict with this mark is on
(`Recorded`), and so the keys with a length are the marked ones
(`Reported.marked_perm`).  Judging one more cycle keeps this (`Recorded.record`),
and so it holds of every analysis that has a result, under any ranking and for any
edges (`recorded_of_analyze`).

On a grid an edge runs backward if it is a loop, or leads to the left, or straight
up (`isBackward_iff`).  So every key in the record is that of such an edge, on a
cycle of the recorded length (`recorded_edges`).

A loop is a cycle of its own and lies on no other.  Where its id can be reached it
closes that cycle, since edges that close none do not lead back; and every verdict
on it marks its key (`recorded_loops`).  The length under this key is one, unless
another edge has the same key: the last mark may be that edge's.
-/
import GrammarDiagram.Proofs.Discovery
import GrammarDiagram.Proofs.Layout
import GrammarDiagram.Proofs.Verdict

namespace GrammarDiagram

variable {nodes : List Node} {edges cycle : List Edge} {positions : Table Position}

/-! ### Marks -/

/-- A verdict marks the key of its winner if this runs backward. -/
def Verdict.Marks (v : Verdict) (key : String) : Prop := v.backward ∧ v.winner.key = .ok key

/-- The last one of some verdicts that marks a key. -/
def LastMark (verdicts : List Verdict) (key : String) (v : Verdict) : Prop :=
  ∃ before after, verdicts = before ++ v :: after ∧ v.Marks key ∧ ∀ u ∈ after, ¬ u.Marks key

namespace LastMark

variable {verdicts : List Verdict} {key : String} {u v : Verdict}

theorem mem (h : LastMark verdicts key v) : v ∈ verdicts := by
  obtain ⟨before, after, rfl, -⟩ := h
  simp

theorem marks (h : LastMark verdicts key v) : v.Marks key := by
  obtain ⟨before, after, -, hv, -⟩ := h
  exact hv

/-- A further verdict takes the place of the last mark if it marks the key too. -/
theorem concat_iff :
    LastMark (verdicts ++ [u]) key v ↔
      u.Marks key ∧ v = u ∨ ¬ u.Marks key ∧ LastMark verdicts key v := by
  constructor
  · rintro ⟨before, after, heq, hv, hafter⟩
    rcases List.eq_nil_or_concat after with rfl | ⟨after, last, rfl⟩
    · obtain ⟨-, hsame⟩ := List.append_inj' heq rfl
      obtain rfl : u = v := by simpa using hsame
      exact .inl ⟨hv, rfl⟩
    · rw [List.concat_eq_append] at heq hafter
      rw [← List.cons_append, ← List.append_assoc] at heq
      obtain ⟨rfl, hsame⟩ := List.append_inj' heq rfl
      obtain rfl : u = last := by simpa using hsame
      refine .inr ⟨hafter u (by simp), before, after, rfl, hv, fun x hx => ?_⟩
      exact hafter x (List.mem_append_left _ hx)
  · rintro (⟨hu, rfl⟩ | ⟨hu, before, after, rfl, hv, hafter⟩)
    · exact ⟨verdicts, [], rfl, hu, by simp⟩
    · refine ⟨before, after ++ [u], by simp, hv, fun x hx => ?_⟩
      rcases List.mem_append.mp hx with hx | hx
      · exact hafter x hx
      · rwa [List.mem_singleton.mp hx]

end LastMark

/-! ### Records -/

namespace Feedback

variable {r : Ranking} {f f' : Feedback} {cycles : List (List Edge)}

/-- The record of cycles, with the lengths that it has: under each key that of the
cycle of the last verdict that marks it.  Winners that run backward have keys. -/
structure Recorded (r : Ranking) (positions : Table Position) (cycles : List (List Edge))
    (f : Feedback) : Prop extends f.Reported r positions cycles where
  keyed : ∀ v ∈ f.verdicts, v.backward → ∃ key, v.winner.key = .ok key
  get?_iff : ∀ key n, f.pathLengths.get? key = some n ↔
    ∃ v, LastMark f.verdicts key v ∧ v.cycle.length = n

theorem recorded_empty : Recorded r positions [] {} where
  toReported := reported_empty
  keyed := by simp
  get?_iff := by simp [LastMark]

theorem Recorded.record (h : f.Recorded r positions cycles) {v : Verdict} {key : String}
    (hv : v.Follows r positions) (hkey : v.backward → v.winner.key = .ok key) :
    (f.record v.cycle v.winner key v.backward).Recorded r positions (cycles ++ [v.cycle]) where
  toReported := h.toReported.record hv hkey
  keyed := by
    intro u hu hbackward
    rcases List.mem_append.mp hu with hu | hu
    · exact h.keyed u hu hbackward
    · rw [List.mem_singleton.mp hu] at hbackward ⊢
      exact ⟨key, hkey hbackward⟩
  get?_iff := by
    intro k n
    show (if v.backward then f.pathLengths.put key v.cycle.length else f.pathLengths).get? k =
      some n ↔ ∃ u, LastMark (f.verdicts ++ [v]) k u ∧ u.cycle.length = n
    by_cases hmarks : v.Marks k
    · -- the verdict marks this key, and the length of its cycle is put there
      obtain rfl : key = k := Except.ok.inj ((hkey hmarks.1).symm.trans hmarks.2)
      rw [if_pos hmarks.1, Table.get?_put, if_pos rfl, Option.some.injEq]
      simp only [LastMark.concat_iff, hmarks, true_and, not_true, false_and, or_false,
        exists_eq_left]
    · -- the verdict leaves what is under this key
      have hkeep : (if v.backward then f.pathLengths.put key v.cycle.length
          else f.pathLengths).get? k = f.pathLengths.get? k := by
        split
        · rename_i hbackward
          rw [Table.get?_put, if_neg]
          rintro rfl
          exact hmarks ⟨hbackward, hkey hbackward⟩
        · rfl
      rw [hkeep, h.get?_iff]
      simp only [LastMark.concat_iff, hmarks, false_and, false_or, not_false_iff, true_and]

/-- Judging a cycle, if it has a result, records a verdict on it. -/
theorem exists_verdict_of_judge (hne : cycle ≠ [])
    (h : (judge r positions f cycle).result = .ok f') :
    ∃ (v : Verdict) (key : String), v.cycle = cycle ∧ v.Follows r positions ∧
      (v.backward → v.winner.key = .ok key) ∧
      f' = f.record v.cycle v.winner key v.backward := by
  obtain ⟨w?, hwinner, h⟩ := Traced.result_bind_eq_ok_iff.mp h
  rcases w? with - | w
  · -- some edge wins, as there is one
    obtain ⟨first, rest, rfl⟩ := List.exists_cons_of_ne_nil hne
    obtain ⟨k, -, hwinner⟩ := Fault.bind_eq_ok_iff.mp hwinner
    obtain ⟨w, -, hwinner⟩ := Fault.bind_eq_ok_iff.mp hwinner
    cases hwinner
  · obtain ⟨backward, hbackward, h⟩ := Traced.result_bind_eq_ok_iff.mp h
    have hv : Verdict.Follows r positions ⟨cycle, w, backward⟩ := ⟨hwinner, hbackward⟩
    cases backward with
    | false =>
      cases h
      exact ⟨_, "", rfl, hv, nofun, rfl⟩
    | true =>
      obtain ⟨key, hkey, h⟩ := Traced.result_bind_eq_ok_iff.mp h
      obtain ⟨-, -, h⟩ := Traced.result_bind_eq_ok_iff.mp h
      cases h
      exact ⟨_, key, rfl, hv, fun _ => hkey, rfl⟩

/-- An analysis that has a result has recorded the cycles of the diagram. -/
theorem recorded_of_analyze (h : (analyze r nodes edges).result = .ok f) :
    f.Recorded r (positionsOf nodes) (Cycle.find nodes edges) := by
  rw [analyze, Traced.result_foldlM] at h
  refine Fault.foldlM_eq_ok_induction
    (motive := fun done f => (∀ c ∈ done, c ≠ []) → f.Recorded r (positionsOf nodes) done)
    ?_ (Cycle.find nodes edges) [] (fun _ => recorded_empty) h
    fun c hc => (Cycle.isCycle_of_mem_find hc).ne_nil
  intro done f c f' hf hjudge hne
  rw [List.forall_mem_append, List.forall_mem_singleton] at hne
  obtain ⟨v, key, rfl, hv, hkey, rfl⟩ := exists_verdict_of_judge hne.2 hjudge
  exact (hf hne.1).record hv hkey

/-- The verdicts are on cycles that were found, and so on cycles of the diagram. -/
theorem Recorded.isCycle (h : f.Recorded r positions (Cycle.find nodes edges)) {v : Verdict}
    (hv : v ∈ f.verdicts) : IsCycle edges v.cycle ∧ v.winner ∈ v.cycle := by
  have hfound : v.cycle ∈ Cycle.find nodes edges := by
    rw [← h.cycles_eq]
    exact List.mem_map_of_mem hv
  exact ⟨Cycle.isCycle_of_mem_find hfound, Ranking.mem_of_winner? (h.follows v hv).winner⟩

theorem edges_perm (f : Feedback) : f.edges.Perm f.marked :=
  List.mergeSort_perm _ _

/-- The marked keys are those with a length. -/
theorem Reported.marked_perm (h : f.Reported r positions cycles) :
    f.marked.Perm f.pathLengths.keys := by
  refine (List.perm_ext_iff_of_nodup h.nodup f.pathLengths.nodup_keys).mpr fun key => ?_
  rw [h.mem_marked_iff, ← h.contains_iff, Table.contains_iff_mem_keys]

/-- The edges drawn as loops are those whose keys have a length. -/
theorem Reported.isFeedback_iff_mem_keys (h : f.Reported r positions cycles) {e : Edge}
    {key : String} (hkey : e.key = .ok key) :
    f.isFeedback e = .ok true ↔ key ∈ f.pathLengths.keys := by
  rw [isFeedback_iff hkey, h.marked_perm.mem_iff]

end Feedback

/-! ### Backward on a grid -/

theorem leftward_pos_iff (p q : Int × Int) :
    0 < leftward p q ↔ q.1 < p.1 ∨ q.1 = p.1 ∧ q.2 < p.2 := by
  unfold leftward
  split
  · split <;> omega
  · omega

/-- A loop, or an edge that leads to the left or straight up; the second coordinate
grows downwards. -/
def RunsBackward (positions : Table Position) (e : Edge) : Prop :=
  e.source = e.target ∨ ∃ p q, positions.placeOf e.source = gridPlace p ∧
    positions.placeOf e.target = gridPlace q ∧ (q.1 < p.1 ∨ q.1 = p.1 ∧ q.2 < p.2)

theorem isBackward_iff (hgrid : ∀ n ∈ nodes, ∃ p, n.position = gridPlace p) (e : Edge) :
    Ranking.geometric.isBackward e ((positionsOf nodes).placeOf e.source)
        ((positionsOf nodes).placeOf e.target) = .ok true ↔
      RunsBackward (positionsOf nodes) e := by
  have hplace := placeOf_eq_gridPlace hgrid
  generalize hp : coordinates ((positionsOf nodes).placeOf e.source) = p
  generalize hq : coordinates ((positionsOf nodes).placeOf e.target) = q
  have hsource := hp ▸ hplace e.source
  have htarget := hq ▸ hplace e.target
  rw [RunsBackward, hsource, htarget]
  show Geometric.isBackward e (gridPlace p) (gridPlace q) = .ok true ↔ _
  rw [isBackward_gridPlace, Except.ok.injEq, Bool.or_eq_true, decide_eq_true_iff,
    leftward_pos_iff, Edge.isSelfLoop, beq_iff_eq]
  refine or_congr_right ⟨fun hback => ⟨p, q, rfl, rfl, hback⟩, ?_⟩
  rintro ⟨p', q', hp', hq', hback⟩
  obtain rfl : p = p' := congrArg coordinates hp'
  obtain rfl : q = q' := congrArg coordinates hq'
  exact hback

/-- On a grid the analysis has a result if every edge has a key. -/
theorem exists_analyze_of_keyed (hgrid : ∀ n ∈ nodes, ∃ p, n.position = gridPlace p)
    (hkeys : ∀ e ∈ edges, ∃ key, e.key = .ok key) :
    ∃ f, (Feedback.analyze Ranking.geometric nodes edges).result = .ok f := by
  have hjudgeable : ∀ c ∈ Cycle.find nodes edges,
      Judgeable Ranking.geometric (positionsOf nodes) c := by
    intro c hc
    have hcycle := Cycle.isCycle_of_mem_find hc
    obtain ⟨v, rfl, hv⟩ := exists_verdict hgrid hcycle
    exact ⟨v.winner, hv.winner, ⟨v.backward, hv.isBackward⟩,
      hkeys v.winner (hcycle.mem _ hv.mem)⟩
  obtain ⟨f, hresult, -⟩ := Feedback.exists_reported hjudgeable
  exact ⟨f, hresult⟩

/-! ### Every key that is recorded -/

/-- On a grid whatever is recorded is the key of an edge that runs backward and lies
on a cycle of the recorded length: the last cycle that was found and whose winner
has this key and runs backward. -/
theorem recorded_edges (hgrid : ∀ n ∈ nodes, ∃ p, n.position = gridPlace p) (edges : List Edge) :
    ((∀ e ∈ edges, ∃ key, e.key = .ok key) →
      ∃ f, (Feedback.analyze Ranking.geometric nodes edges).result = .ok f) ∧
    ∀ f, (Feedback.analyze Ranking.geometric nodes edges).result = .ok f →
      f.edges.Perm f.pathLengths.keys ∧
      (∀ e key, e.key = .ok key → (f.isFeedback e = .ok true ↔ key ∈ f.pathLengths.keys)) ∧
      (∀ key n, f.pathLengths.get? key = some n → ∃ e ∈ edges, e.key = .ok key ∧
        RunsBackward (positionsOf nodes) e ∧
        ∃ cycle, IsCycle edges cycle ∧ e ∈ cycle ∧ cycle.length = n) ∧
      f.verdicts.map Verdict.cycle = Cycle.find nodes edges ∧
      (∀ v ∈ f.verdicts, v.Follows Ranking.geometric (positionsOf nodes)) ∧
      ∀ key n, f.pathLengths.get? key = some n ↔
        ∃ v, LastMark f.verdicts key v ∧ v.cycle.length = n := by
  refine ⟨exists_analyze_of_keyed hgrid, fun f hf => ?_⟩
  have hrecorded := Feedback.recorded_of_analyze hf
  refine ⟨f.edges_perm.trans hrecorded.marked_perm, fun e key => hrecorded.isFeedback_iff_mem_keys,
    fun key n hn => ?_, hrecorded.cycles_eq, hrecorded.follows, hrecorded.get?_iff⟩
  obtain ⟨v, hlast, hlength⟩ := (hrecorded.get?_iff key n).mp hn
  obtain ⟨hcycle, hmem⟩ := hrecorded.isCycle hlast.mem
  obtain ⟨hbackward, hkey⟩ := hlast.marks
  have hyes := (hrecorded.follows v hlast.mem).isBackward
  rw [hbackward] at hyes
  exact ⟨v.winner, hcycle.mem _ hmem, hkey, (isBackward_iff hgrid v.winner).mp hyes,
    v.cycle, hcycle, hmem, hlength⟩

/-! ### A winner of two cycles -/

/-- A way back from `z` to `a`, and two ways on from there, a long and a short
one. -/
def hairpinNodes : List Node := [
  { id := "s", kind := .start, position := gridPlace (-10, 0) },
  { id := "z", kind := .letter, position := gridPlace (20, 0) },
  { id := "a", kind := .letter, position := gridPlace (0, 0) },
  { id := "b", kind := .digit, position := gridPlace (10, 5) }]

def longRound : List Edge := [
  { source := "z", target := "a" },
  { source := "a", target := "b" },
  { source := "b", target := "z" }]

def shortRound : List Edge := [
  { source := "z", target := "a" },
  { source := "a", target := "z" }]

/-- The edges of `hairpinNodes`. -/
def hairpinEdges : List Edge :=
  { source := "s", target := "z" } :: longRound ++ [{ source := "a", target := "z" }]

theorem key_hairpinEdges :
    hairpinEdges.map Edge.key = ["s->z", "z->a", "a->b", "b->z", "a->z"].map .ok := by cbv

theorem find_hairpin : Cycle.find hairpinNodes hairpinEdges = [longRound, shortRound] := by
  with_unfolding_all rfl

/-- The way back closes neither round, and it is recorded with the length of the
second. -/
theorem recorded_edges_hairpin :
    (∀ n ∈ hairpinNodes, ∃ p, n.position = gridPlace p) ∧
      (∀ e ∈ hairpinEdges, ∃ key, e.key = .ok key) ∧
      ∃ f, (Feedback.analyze Ranking.geometric hairpinNodes hairpinEdges).result = .ok f ∧
        f.pathLengths.get? "z->a" = some 2 ∧
        ∃ e ∈ hairpinEdges, e.key = .ok "z->a" ∧ RunsBackward (positionsOf hairpinNodes) e ∧
          ∃ cycle, IsCycle hairpinEdges cycle ∧ e ∈ cycle ∧ cycle.length = 2 := by
  have hgrid : ∀ n ∈ hairpinNodes, ∃ p, n.position = gridPlace p := by
    intro n hn
    simp only [hairpinNodes, List.mem_cons, List.not_mem_nil, or_false] at hn
    rcases hn with rfl | rfl | rfl | rfl <;> exact ⟨_, rfl⟩
  have hkeys := exists_key_of_map_key key_hairpinEdges
  obtain ⟨hends, hspec⟩ := recorded_edges hgrid hairpinEdges
  obtain ⟨f, hf⟩ := hends hkeys
  obtain ⟨-, -, hedge, hcycles, hfollows, hget⟩ := hspec f hf
  rw [find_hairpin] at hcycles
  obtain ⟨u, rest, hverdicts, -, hrest⟩ := List.map_eq_cons_iff.mp hcycles
  obtain ⟨v, rfl, hv⟩ := List.map_eq_singleton_iff.mp hrest
  have hback : Verdict.Follows Ranking.geometric (positionsOf hairpinNodes)
      ⟨shortRound, { source := "z", target := "a" }, true⟩ := by
    constructor <;> with_unfolding_all rfl
  obtain rfl := (hfollows v (by simp [hverdicts])).eq hback hv
  have hlength : f.pathLengths.get? "z->a" = some 2 := by
    rw [hget, hverdicts]
    exact ⟨_, ⟨[u], [], rfl, ⟨rfl, by cbv⟩, by simp⟩, rfl⟩
  exact ⟨hgrid, hkeys, f, hf, hlength, hedge "z->a" 2 hlength⟩

/-! ### Loops -/

/-- A loop whose id can be reached is a cycle that is found. -/
theorem Cycle.singleton_mem_find {e : Edge} (he : e ∈ edges) (hloop : e.source = e.target)
    (hreach : Reachable nodes edges e.source) : [e] ∈ find nodes edges := by
  have hcloses : Closes (find nodes edges) e := by
    by_contra hopen
    have hacyclic : AcyclicFrom nodes edges [e] :=
      acyclicFrom_of_forall_not_closes (by simpa using ⟨he, hopen⟩)
    exact hacyclic e.source hreach (.single ⟨e, List.mem_singleton_self e, rfl, hloop.symm⟩)
  obtain ⟨c, hc, hlast⟩ := hcloses
  have hmem : e ∈ c := List.mem_of_getLast? hlast
  have hcycle := isCycle_of_mem_find hc
  obtain ⟨e', rfl, -⟩ := (hcycle.isSelfLoop_iff hmem).mp (beq_iff_eq.mpr hloop)
  rwa [List.mem_singleton.mp hmem]

/-- The winner of a loop is the loop, and it runs backward wherever it is. -/
theorem Verdict.Follows.eq_of_loop {v : Verdict} {e : Edge}
    (hv : v.Follows Ranking.geometric positions) (hcycle : v.cycle = [e])
    (hloop : e.source = e.target) : v.winner = e ∧ v.backward := by
  have hwinner : v.winner = e := by
    have hmem := Ranking.mem_of_winner? hv.winner
    rwa [hcycle, List.mem_singleton] at hmem
  refine ⟨hwinner, ?_⟩
  have hbackward : Geometric.isBackward v.winner _ _ = .ok v.backward := hv.isBackward
  rw [Geometric.isBackward, if_pos (by rw [hwinner]; exact beq_iff_eq.mpr hloop)] at hbackward
  exact (Except.ok.inj hbackward).symm

/-- On a grid every loop whose id can be reached is recorded, and with the length one
if no other edge has its key. -/
theorem recorded_loops (hgrid : ∀ n ∈ nodes, ∃ p, n.position = gridPlace p) (edges : List Edge) :
    ((∀ e ∈ edges, ∃ key, e.key = .ok key) →
      ∃ f, (Feedback.analyze Ranking.geometric nodes edges).result = .ok f) ∧
    ∀ f, (Feedback.analyze Ranking.geometric nodes edges).result = .ok f →
      ∀ e ∈ edges, e.source = e.target → Reachable nodes edges e.source →
        f.isFeedback e = .ok true ∧
        ((∀ e' ∈ edges, e'.key = e.key → e' = e) → f.pathLength e = .ok 1) := by
  refine ⟨exists_analyze_of_keyed hgrid, fun f hf e he hloop hreach => ?_⟩
  have hrecorded := Feedback.recorded_of_analyze hf
  have hfound := Cycle.singleton_mem_find he hloop hreach
  rw [← hrecorded.cycles_eq] at hfound
  obtain ⟨v, hv, hcycle⟩ := List.mem_map.mp hfound
  obtain ⟨hwinner, hbackward⟩ := (hrecorded.follows v hv).eq_of_loop hcycle hloop
  obtain ⟨key, hkey⟩ := hrecorded.keyed v hv hbackward
  have hmarked := (hrecorded.mem_marked_iff key).mpr ⟨v, hv, hbackward, hkey⟩
  have hcontains := (hrecorded.contains_iff key).mpr ⟨v, hv, hbackward, hkey⟩
  rw [hwinner] at hkey
  refine ⟨(Feedback.isFeedback_iff hkey).mpr hmarked, fun honly => ?_⟩
  -- the last mark is on a cycle with this edge, which is the loop
  obtain ⟨n, hn⟩ := Option.isSome_iff_exists.mp hcontains
  obtain ⟨u, hlast, rfl⟩ := (hrecorded.get?_iff key n).mp hn
  obtain ⟨hu, hmem⟩ := hrecorded.isCycle hlast.mem
  rw [honly _ (hu.mem _ hmem) (hlast.marks.2.trans hkey.symm)] at hmem
  obtain ⟨e', hsingle, -⟩ := (hu.isSelfLoop_iff hmem).mp (beq_iff_eq.mpr hloop)
  rw [hsingle] at hn
  rw [Feedback.pathLength_of_key hkey, hn]
  rfl

/-! ### Loops on a longer cycle -/

def loopedNodes : List Node := [
  { id := "a", kind := .letter, position := gridPlace (0, 0) },
  { id := "b", kind := .digit, position := gridPlace (10, 0) }]

/-- A loop at a node and one at an id without a node, both on the way round. -/
def twoLoops : List Edge := [
  { source := "b", target := "b" },
  { source := "lost", target := "lost", sourceHandle := .text "out" }]

/-- The edges of `loopedNodes`. -/
def loopedEdges : List Edge := twoLoops ++ [
  { source := "a", target := "b" },
  { source := "b", target := "lost" },
  { source := "lost", target := "a" }]

theorem key_loopedEdges :
    loopedEdges.map Edge.key =
      ["b->b", "lost->out->lost", "a->b", "b->lost", "lost->a"].map .ok := by cbv

theorem reachable_loopedEdges {e : Edge} (he : e ∈ twoLoops) :
    Reachable loopedNodes loopedEdges e.source := by
  have hb : Reachable loopedNodes loopedEdges "b" :=
    ⟨_, List.mem_cons_of_mem _ List.mem_cons_self, .refl⟩
  simp only [twoLoops, List.mem_cons, List.not_mem_nil, or_false] at he
  rcases he with rfl | rfl
  · exact hb
  · exact hb.tail ⟨{ source := "b", target := "lost" }, by simp [loopedEdges], rfl, rfl⟩

/-- Both loops are recorded with the length one. -/
theorem recorded_loops_twoLoops :
    (∀ n ∈ loopedNodes, ∃ p, n.position = gridPlace p) ∧
      (∀ e ∈ loopedEdges, ∃ key, e.key = .ok key) ∧
      ∃ f, (Feedback.analyze Ranking.geometric loopedNodes loopedEdges).result = .ok f ∧
        ∀ e ∈ twoLoops, e ∈ loopedEdges ∧ e.source = e.target ∧
          Reachable loopedNodes loopedEdges e.source ∧
          (∀ e' ∈ loopedEdges, e'.key = e.key → e' = e) ∧
          f.isFeedback e = .ok true ∧ f.pathLength e = .ok 1 := by
  have hgrid : ∀ n ∈ loopedNodes, ∃ p, n.position = gridPlace p := by
    intro n hn
    simp only [loopedNodes, List.mem_cons, List.not_mem_nil, or_false] at hn
    rcases hn with rfl | rfl <;> exact ⟨_, rfl⟩
  have hkeys := exists_key_of_map_key key_loopedEdges
  have hnodup := nodup_map_key key_loopedEdges (by decide)
  obtain ⟨hends, hspec⟩ := recorded_loops hgrid loopedEdges
  obtain ⟨f, hf⟩ := hends hkeys
  refine ⟨hgrid, hkeys, f, hf, fun e he => ?_⟩
  have hmem : e ∈ loopedEdges := List.mem_append_left _ he
  have hloop : e.source = e.target := by
    simp only [twoLoops, List.mem_cons, List.not_mem_nil, or_false] at he
    rcases he with rfl | rfl <;> rfl
  have honly : ∀ e' ∈ loopedEdges, e'.key = e.key → e' = e :=
    fun e' he' hkey => List.inj_on_of_nodup_map hnodup he' hmem hkey
  obtain ⟨hfeedback, hlength⟩ := hspec f hf e hmem hloop (reachable_loopedEdges he)
  exact ⟨hmem, hloop, reachable_loopedEdges he, honly, hfeedback, hlength honly⟩

end GrammarDiagram
