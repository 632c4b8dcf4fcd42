/-
GrammarDiagram/Proofs/Discovery.lean

The cycles that are found are enough to cut.

Take the last edge of every cycle that the search finds out of the edge list,
once for every time it is found.  From no node can a cycle of the remaining
edges be reached, and so nothing is found exactly if no node reaches a cycle
(`find_sound_and_complete`).  Ids may repeat here and edges may end at ids that
no node has.

The account behind this is `Tally`.  Every edge of the list, counted as often as
it is there, has closed a cycle, was passed over without closing one, is pending,
or waits for its source to be entered.  An edge that is looked at closes a cycle
if its target lies on the path, and the path up to its source does not change
while the source is on it.  So copies of an edge are all judged alike, and no
edge that remains closes a cycle.  Such edges lead down the list of the ids that
are done with, which are the ids that can be reached (`mem_visited_iff`).
-/
import GrammarDiagram.Proofs.Search
import Mathlib.Data.List.Perm.Subperm
import Mathlib.Data.List.TakeWhile

namespace GrammarDiagram

/-! ### Reaching ids -/

/-- An id that can be reached from the id of some node. -/
def Reachable (nodes : List Node) (edges : List Edge) (id : String) : Prop :=
  ∃ n ∈ nodes, Relation.ReflTransGen (Arc edges) n.id id

/-- No edges lead from an id that can be reached back to it, where `rest` are the
edges that may be taken for the way back. -/
def AcyclicFrom (nodes : List Node) (edges rest : List Edge) : Prop :=
  ∀ id, Reachable nodes edges id → ¬ Relation.TransGen (Arc rest) id id

theorem Reachable.tail {nodes : List Node} {edges : List Edge} {x y : String}
    (h : Reachable nodes edges x) (harc : Arc edges x y) : Reachable nodes edges y := by
  obtain ⟨n, hn, hpath⟩ := h
  exact ⟨n, hn, hpath.tail harc⟩

namespace Cycle

/-! ### Closing edges -/

/-- The last edges of cycles, in order. -/
def closings (cycles : List (List Edge)) : List Edge := cycles.filterMap List.getLast?

theorem mem_closings {cycles : List (List Edge)} {e : Edge} :
    e ∈ closings cycles ↔ Closes cycles e :=
  List.mem_filterMap

theorem closings_concat_closedBy (cycles : List (List Edge)) (stack : List Frame) (e : Edge) :
    closings (cycles ++ [Search.closedBy stack e]) = closings cycles ++ [e] := by
  simp [closings, Search.closedBy]

open Classical in
/-- The edges of a diagram without the last edges of the cycles found, each taken
out as often as it is one. -/
noncomputable def cut (nodes : List Node) (edges : List Edge) : List Edge :=
  edges.diff (closings (find nodes edges))

/-! ### Down the path -/

/-- The ids on a path from one of them on down. -/
def downFrom (x : String) (path : List String) : List String := path.dropWhile fun y => y != x

theorem downFrom_cons_self (x : String) (path : List String) : downFrom x (x :: path) = x :: path :=
  List.dropWhile_cons_of_neg (by simp)

theorem downFrom_cons_of_ne {x y : String} (h : x ≠ y) (path : List String) :
    downFrom x (y :: path) = downFrom x path :=
  List.dropWhile_cons_of_pos (by simpa using h.symm)

theorem downFrom_eq_nil {x : String} {path : List String} (h : x ∉ path) :
    downFrom x path = [] := by
  rw [downFrom, List.dropWhile_eq_nil_iff]
  intro y hy
  rw [bne_iff_ne]
  rintro rfl
  exact h hy

/-! ### The account of the edges -/

/-- Where the edges of a diagram are during the search, where `passed` are the
edges that were looked at and closed no cycle. -/
structure Tally (edges passed : List Edge) (s : Search) : Prop where
  sound : Sound edges s
  apart : ∀ x ∈ s.path, x ∉ s.visited
  perm : (closings s.cycles ++
    (passed ++ (s.stack.flatMap Frame.pending ++ s.unexplored))).Perm edges
  entered : ∀ e ∈ closings s.cycles ++ passed, e.source ∈ s.path ∨ e.source ∈ s.visited
  ahead : ∀ e ∈ s.unexplored, e.source ∉ s.path ∧ e.source ∉ s.visited
  returns : ∀ e ∈ closings s.cycles, e.target ∈ s.path ∨ e.target ∈ s.visited
  back : ∀ e ∈ closings s.cycles, e.source ∈ s.path → e.target ∈ downFrom e.source s.path
  forth : ∀ e ∈ passed, e.target ∉ downFrom e.source s.path
  decided : ∀ e ∈ passed, e ∉ closings s.cycles

namespace Tally

variable {edges passed : List Edge} {s : Search} {id : String} {via : Option Edge} {e : Edge}
  {rest : List Edge} {below : List Frame} {unexplored : List Edge} {visited : List String}
  {cycles : List (List Edge)}

theorem init (edges : List Edge) : Tally edges [] { unexplored := edges } where
  sound := .init edges
  apart := by simp [Search.path]
  perm := .refl _
  entered := by simp [closings]
  ahead := by simp [Search.path]
  returns := by simp [closings]
  back := by simp [closings]
  forth := by simp
  decided := by simp

/-- What is known of an edge that is looked at: it leaves the last id of the path,
and it is one of the edges that were not accounted for. -/
theorem look (h : Tally edges passed ⟨⟨id, via, e :: rest⟩ :: below, unexplored, visited, cycles⟩) :
    downFrom e.source (id :: below.map Frame.id) = id :: below.map Frame.id ∧
      (closings cycles ++
        e :: (passed ++ (rest ++ below.flatMap Frame.pending ++ unexplored))).Perm edges ∧
      ∀ e' ∈ closings cycles ++ e :: passed,
        e'.source ∈ id :: below.map Frame.id ∨ e'.source ∈ visited := by
  obtain ⟨⟨-, hsource⟩, -⟩ := h.sound.look
  refine ⟨hsource ▸ downFrom_cons_self id _, ?_, ?_⟩
  · exact (List.perm_middle.symm.append_left (closings cycles)).trans h.perm
  · intro e' he'
    rw [List.mem_append, List.mem_cons] at he'
    rcases he' with hclosing | rfl | hpassed
    · exact h.entered e' (List.mem_append_left _ hclosing)
    · exact .inl (hsource ▸ List.mem_cons_self)
    · exact h.entered e' (List.mem_append_right _ hpassed)

/-- An edge that leads onto the path closes a cycle. -/
theorem close (h : Tally edges passed ⟨⟨id, via, e :: rest⟩ :: below, unexplored, visited, cycles⟩)
    (htarget : e.target ∈ id :: below.map Frame.id) :
    Tally edges passed ⟨⟨id, via, rest⟩ :: below, unexplored, visited,
      cycles ++ [Search.closedBy (⟨id, via, rest⟩ :: below) e]⟩ := by
  obtain ⟨hdown, hperm, hentered⟩ := h.look
  rw [List.append_cons] at hperm hentered
  refine ⟨h.sound.move (.close htarget), h.apart, ?_, ?_, h.ahead, ?_, ?_, h.forth, ?_⟩
  all_goals rw [closings_concat_closedBy]
  · exact hperm
  · exact hentered
  · rw [List.forall_mem_append, List.forall_mem_singleton]
    exact ⟨h.returns, .inl htarget⟩
  · rw [List.forall_mem_append, List.forall_mem_singleton]
    refine ⟨h.back, fun _ => ?_⟩
    rwa [Search.path, List.map_cons, hdown]
  · -- a copy that was passed over had its target off the path
    intro e' he' hmem
    rw [List.mem_append, List.mem_singleton] at hmem
    rcases hmem with hclosing | rfl
    · exact h.decided e' he' hclosing
    · have hforth := h.forth e' he'
      rw [Search.path, List.map_cons, hdown] at hforth
      exact hforth htarget

/-- An edge that leads off the path is passed over. -/
theorem pass (h : Tally edges passed ⟨⟨id, via, e :: rest⟩ :: below, unexplored, visited, cycles⟩)
    (htarget : e.target ∉ id :: below.map Frame.id) :
    Tally edges (e :: passed) ⟨⟨id, via, rest⟩ :: below, unexplored, visited, cycles⟩ := by
  obtain ⟨hdown, hperm, hentered⟩ := h.look
  refine ⟨h.sound.look.2, h.apart, hperm, hentered, h.ahead, h.returns, h.back, ?_, ?_⟩
  · refine List.forall_mem_cons.mpr ⟨?_, h.forth⟩
    rwa [Search.path, List.map_cons, hdown]
  · -- a copy that closed a cycle had its target on the path
    refine List.forall_mem_cons.mpr ⟨fun hclosing => htarget ?_, h.decided⟩
    have hsource := h.sound.look.1.2
    have hback := h.back e hclosing (hsource ▸ List.mem_cons_self)
    rwa [Search.path, List.map_cons, hdown] at hback

/-- An id that is entered for the first time takes the edges that wait for it. -/
theorem enter (h : Tally edges passed s) (hpath : id ∉ s.path) (hvisited : id ∉ s.visited)
    (hvia : Attached edges id via s.stack) : Tally edges passed (s.enter id via) := by
  -- the edges looked at so far leave other ids
  have hother : ∀ e ∈ closings s.cycles ++ passed, e.source ≠ id := by
    rintro e he rfl
    exact (h.entered e he).elim hpath hvisited
  refine ⟨h.sound.enter hpath hvia, ?_, ?_, ?_, ?_, ?_, ?_, ?_, h.decided⟩
  · exact List.forall_mem_cons.mpr ⟨hvisited, h.apart⟩
  · refine List.Perm.trans (List.Perm.append_left _ (List.Perm.append_left _ ?_)) h.perm
    show (s.unexplored.filter (fun e => e.source == id) ++ s.stack.flatMap Frame.pending ++
      s.unexplored.filter fun e => !(e.source == id)).Perm _
    refine (List.perm_append_comm.append_right _).trans ?_
    rw [List.append_assoc]
    exact (List.filter_append_perm _ s.unexplored).append_left _
  · exact fun e he => (h.entered e he).imp_left (List.mem_cons_of_mem _)
  · intro e he
    obtain ⟨hmem, hsource⟩ := List.mem_filter.mp he
    obtain ⟨hoff, hnew⟩ := h.ahead e hmem
    exact ⟨List.not_mem_cons_of_ne_of_not_mem (by simpa using hsource) hoff, hnew⟩
  · exact fun e he => (h.returns e he).imp_left (List.mem_cons_of_mem _)
  · intro e he hsource
    have hne := hother e (List.mem_append_left _ he)
    rw [Search.path, Search.enter, List.map_cons, downFrom_cons_of_ne hne]
    exact h.back e he (List.mem_of_ne_of_mem hne hsource)
  · intro e he
    rw [Search.path, Search.enter, List.map_cons,
      downFrom_cons_of_ne (hother e (List.mem_append_right _ he))]
    exact h.forth e he

/-- An id is left once it has no pending edge. -/
theorem leave (h : Tally edges passed ⟨⟨id, via, []⟩ :: below, unexplored, visited, cycles⟩) :
    Tally edges passed ⟨below, unexplored, id :: visited, cycles⟩ := by
  have hid : id ∉ below.map Frame.id := (List.nodup_cons.mp h.sound.nodup).1
  have hmove : Move ⟨⟨id, via, []⟩ :: below, unexplored, visited, cycles⟩
    ⟨below, unexplored, id :: visited, cycles⟩ := .leave
  refine ⟨h.sound.move hmove, ?_, h.perm, ?_, ?_, ?_, ?_, ?_, h.decided⟩
  · intro x hx
    have hne : x ≠ id := fun heq => hid (heq ▸ hx)
    exact List.not_mem_cons_of_ne_of_not_mem hne (h.apart x (List.mem_cons_of_mem _ hx))
  · exact fun e he => mem_of_move (h.entered e he) hmove
  · intro e he
    obtain ⟨hoff, hnew⟩ := h.ahead e he
    obtain ⟨hne, hbelow⟩ := List.ne_and_not_mem_of_not_mem_cons hoff
    exact ⟨hbelow, List.not_mem_cons_of_ne_of_not_mem hne hnew⟩
  · exact fun e he => mem_of_move (h.returns e he) hmove
  · intro e he hsource
    have hne : e.source ≠ id := fun heq => hid (heq ▸ hsource)
    have hback := h.back e he (List.mem_cons_of_mem _ hsource)
    rwa [Search.path, List.map_cons, downFrom_cons_of_ne hne] at hback
  · intro e he
    by_cases hsource : e.source = id
    · rw [hsource, Search.path, downFrom_eq_nil hid]
      exact List.not_mem_nil
    · have hforth := h.forth e he
      rwa [Search.path, List.map_cons, downFrom_cons_of_ne hsource] at hforth

/-- Moves keep account of the edges. -/
theorem move {s s' : Search} (h : ∃ passed, Tally edges passed s) (hmove : Move s s') :
    ∃ passed, Tally edges passed s' := by
  obtain ⟨passed, h⟩ := h
  cases hmove with
  | leave => exact ⟨passed, h.leave⟩
  | close htarget => exact ⟨passed, h.close htarget⟩
  | skip hdone => exact ⟨_, h.pass fun hpath => h.apart _ hpath hdone⟩
  | follow hpath hvisited =>
    obtain ⟨⟨he, hsource⟩, -⟩ := h.sound.look
    exact ⟨_, (h.pass hpath).enter hpath hvisited ⟨_, he, rfl, hsource, rfl⟩⟩

theorem start (h : Tally edges passed s) (hstack : s.stack = []) (hvisited : id ∉ s.visited) :
    Tally edges passed (s.enter id none) := by
  refine h.enter ?_ hvisited ?_
  · rw [Search.path, hstack]
    exact List.not_mem_nil
  · rw [hstack]
    rfl

end Tally

/-! ### The whole search -/

variable {nodes : List Node} {edges : List Edge}

/-- In the end every edge has closed a cycle, was passed over, or was never met. -/
theorem exists_tally_ofGraph (nodes : List Node) (edges : List Edge) :
    (∃ passed, Tally edges passed (Search.ofGraph nodes edges)) ∧
      (Search.ofGraph nodes edges).stack = [] := by
  refine ofGraph_invariant ⟨[], .init edges⟩ ?_ fun _ _ => Tally.move
  rintro s n - ⟨passed, h⟩ hstack hvisited
  exact ⟨passed, h.start hstack hvisited⟩

/-- A move enters no id but through an edge from the path. -/
theorem mem_or_arc_of_move {s s' : Search} (h : Sound edges s) (hmove : Move s s') {x : String}
    (hx : x ∈ s'.path ∨ x ∈ s'.visited) :
    (x ∈ s.path ∨ x ∈ s.visited) ∨ ∃ y ∈ s.path, Arc edges y x := by
  cases hmove with
  | leave =>
    refine .inl ?_
    rcases hx with hon | hdone
    · exact .inl (List.mem_cons_of_mem _ hon)
    · rcases List.mem_cons.mp hdone with rfl | hdone
      · exact .inl List.mem_cons_self
      · exact .inr hdone
  | close => exact .inl hx
  | skip => exact .inl hx
  | follow =>
    obtain ⟨⟨he, hsource⟩, -⟩ := h.look
    rcases hx with hon | hdone
    · rcases List.mem_cons.mp hon with rfl | hon
      · exact .inr ⟨_, List.mem_cons_self, hsource ▸ .of_mem he⟩
      · exact .inl (.inl hon)
    · exact .inl (.inr hdone)

/-- Only ids that can be reached are entered. -/
theorem reachable_of_mem_visited {id : String} (h : id ∈ (Search.ofGraph nodes edges).visited) :
    Reachable nodes edges id := by
  have hall : ∀ x, x ∈ (Search.ofGraph nodes edges).path ∨
      x ∈ (Search.ofGraph nodes edges).visited → Reachable nodes edges x := by
    refine (ofGraph_invariant (motive := fun s => Sound edges s ∧
      ∀ x, x ∈ s.path ∨ x ∈ s.visited → Reachable nodes edges x) ?_ ?_ ?_).1.2
    · exact ⟨.init edges, by simp [Search.path]⟩
    · rintro s n hn ⟨hsound, hreach⟩ hstack -
      refine ⟨hsound.start hstack n.id, fun x hx => ?_⟩
      rcases hx with hon | hdone
      · rcases List.mem_cons.mp hon with rfl | hon
        · exact ⟨n, hn, .refl⟩
        · exact hreach x (.inl hon)
      · exact hreach x (.inr hdone)
    · rintro s s' ⟨hsound, hreach⟩ hmove
      refine ⟨hsound.move hmove, fun x hx => ?_⟩
      rcases mem_or_arc_of_move hsound hmove hx with hold | ⟨y, hy, harc⟩
      · exact hreach x hold
      · exact (hreach y (.inl hy)).tail harc
  exact hall id (.inr h)

/-- In the end the search is done with exactly the ids that can be reached. -/
theorem mem_visited_iff {id : String} :
    id ∈ (Search.ofGraph nodes edges).visited ↔ Reachable nodes edges id := by
  refine ⟨reachable_of_mem_visited, ?_⟩
  rintro ⟨n, hn, hpath⟩
  obtain ⟨⟨passed, htally⟩, hstack⟩ := exists_tally_ofGraph nodes edges
  induction hpath with
  | refl => exact mem_visited_ofGraph hn edges
  | tail _ harc ih =>
    -- an edge that closes a cycle leads to the path, and the path is left in the end
    obtain ⟨e, he, rfl, rfl⟩ := harc
    by_cases hcloses : Closes (find nodes edges) e
    · have hreturns := htally.returns e (mem_closings.mpr hcloses)
      rw [Search.path, hstack] at hreturns
      exact hreturns.resolve_left List.not_mem_nil
    · exact (thorough_ofGraph nodes edges).settled.target_mem he ih hcloses

/-- Every edge is cut as often as it closes a cycle, and then no copy remains. -/
theorem perm_cut (nodes : List Node) (edges : List Edge) :
    (closings (find nodes edges) ++ cut nodes edges).Perm edges ∧
      ∀ e ∈ cut nodes edges, ¬ Closes (find nodes edges) e := by
  obtain ⟨⟨passed, h⟩, hstack⟩ := exists_tally_ofGraph nodes edges
  have hall := h.perm
  rw [hstack, List.flatMap_nil, List.nil_append] at hall
  have hcut : (closings (find nodes edges) ++ cut nodes edges).Perm edges := by
    classical
    refine List.subperm_append_diff_self_of_count_le fun e _ => ?_
    rw [← hall.count_eq, List.count_append]
    exact Nat.le_add_right _ _
  refine ⟨hcut, fun e he hcloses => ?_⟩
  -- what remains was passed over or waits for an id that is never entered
  have hrest : (cut nodes edges).Perm (passed ++ (Search.ofGraph nodes edges).unexplored) :=
    (List.perm_append_left_iff _).mp (hcut.trans hall.symm)
  rcases List.mem_append.mp (hrest.mem_iff.mp he) with hpassed | hwaiting
  · exact h.decided e hpassed (mem_closings.mpr hcloses)
  · obtain ⟨hoff, hnew⟩ := h.ahead e hwaiting
    exact (h.entered e (List.mem_append_left _ (mem_closings.mpr hcloses))).elim hoff hnew

theorem acyclicFrom_of_forall_not_closes {rest : List Edge}
    (hrest : ∀ e ∈ rest, e ∈ edges ∧ ¬ Closes (find nodes edges) e) :
    AcyclicFrom nodes edges rest := by
  intro id hid
  exact (thorough_ofGraph nodes edges).settled.not_transGen hrest (mem_visited_iff.mpr hid)

/-- A cycle that is found can be reached. -/
theorem not_acyclicFrom_of_mem_find {cycle : List Edge} (h : cycle ∈ find nodes edges) :
    ¬ AcyclicFrom nodes edges edges := by
  have hcycle := isCycle_of_mem_find h
  obtain ⟨last, hmem, hlast⟩ := hcycle.exists_last
  obtain ⟨⟨passed, htally⟩, hstack⟩ := exists_tally_ofGraph nodes edges
  have hreturns := htally.returns last (mem_closings.mpr ⟨cycle, h, hlast⟩)
  rw [Search.path, hstack] at hreturns
  have hreach := reachable_of_mem_visited (hreturns.resolve_left List.not_mem_nil)
  exact fun hacyclic => hacyclic last.target hreach (hcycle.transGen hlast hcycle.mem)

/-- The search finds cycles only, and enough of them: without their last edges no
node reaches a cycle.  Nothing is found exactly if no node reaches a cycle. -/
theorem find_sound_and_complete (nodes : List Node) (edges : List Edge) :
    (∀ cycle ∈ find nodes edges, IsCycle edges cycle) ∧
      (closings (find nodes edges) ++ cut nodes edges).Perm edges ∧
      AcyclicFrom nodes edges (cut nodes edges) ∧
      (find nodes edges = [] ↔ AcyclicFrom nodes edges edges) := by
  obtain ⟨hperm, hopen⟩ := perm_cut nodes edges
  refine ⟨fun cycle => isCycle_of_mem_find, hperm, ?_, fun hnone => ?_, fun hacyclic => ?_⟩
  · refine acyclicFrom_of_forall_not_closes fun e he => ⟨?_, hopen e he⟩
    exact hperm.mem_iff.mp (List.mem_append_right _ he)
  · refine acyclicFrom_of_forall_not_closes fun e he => ⟨he, ?_⟩
    rintro ⟨cycle, hcycle, -⟩
    rw [hnone] at hcycle
    cases hcycle
  · rw [List.eq_nil_iff_forall_not_mem]
    exact fun cycle hcycle => not_acyclicFrom_of_mem_find hcycle hacyclic

end Cycle

end GrammarDiagram
