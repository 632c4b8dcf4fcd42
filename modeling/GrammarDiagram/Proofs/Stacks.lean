/-
GrammarDiagram/Proofs/Stacks.lean

The search with its stacks apart.

A frame holds an id, the edge it was entered by and its pending edges together, and
whether an id is on the path is found out by looking through the frames.  `Stacks`
keeps a list for each of the three and a table with the place of every id on the
path, so that a cycle is cut out of the list by its place.  Each step pushes to and
pops from all four, and it fails where a look-up does: where a list is empty, an id
is not in the table, or the edge that a cycle needs is missing.

The stacks of a state with frames (`Mirrors`) are `InStep`, and looking at an edge
does the same to both.
-/
import GrammarDiagram.Proofs.Discovery
import GrammarDiagram.Table

namespace GrammarDiagram.Cycle

/-! ### States -/

/-- A state of the search: the nodes it has not come to, the ids on the path, the
edge by which each was entered, the place of each, its pending edges, the ids that
are done with, and the cycles found.  The ids entered and the edges looked at so far
are kept in order; no step depends on them. -/
structure Stacks where
  waiting : List Node
  path : List String := []
  enteredBy : List (Option Edge) := []
  onPath : Table Nat := ∅
  pending : List (List Edge) := []
  visited : List String := []
  cycles : List (List Edge) := []
  entered : List String := []
  examined : List Edge := []

/-- The edges that leave an id. -/
def outgoing (edges : List Edge) (id : String) : List Edge := edges.filter fun e => e.source == id

namespace Stacks

/-! ### Steps -/

/-- Begin a path. -/
def start (edges : List Edge) (l : Stacks) (id : String) : Stacks :=
  { l with
    path := [id]
    enteredBy := [none]
    onPath := Table.put ∅ id 0
    pending := [outgoing edges id]
    entered := l.entered ++ [id] }

/-- Enter an id: all stacks grow by one. -/
def enter (edges : List Edge) (l : Stacks) (id : String) (via : Option Edge) : Stacks :=
  { l with
    path := l.path ++ [id]
    enteredBy := l.enteredBy ++ [via]
    onPath := l.onPath.put id l.path.length
    pending := l.pending ++ [outgoing edges id]
    entered := l.entered ++ [id] }

/-- Take the last entry from every stack; this id is done with. -/
def pop (l : Stacks) (id : String) : Stacks :=
  { l with
    path := l.path.dropLast
    enteredBy := l.enteredBy.dropLast
    onPath := l.onPath.erase id
    pending := l.pending.dropLast
    visited := id :: l.visited }

/-- Leave the last id of the path. -/
def pop? (l : Stacks) : Option Stacks :=
  match l.path.getLast?, l.enteredBy.getLast? with
  | some id, some _ => if l.onPath.contains id then some (l.pop id) else none
  | _, _ => none

/-- Close a cycle that begins at this place of the path. -/
def close? (l : Stacks) (place : Nat) (e : Edge) : Option Stacks :=
  ((l.enteredBy.drop (place + 1)).mapM id).map fun behind =>
    { l with cycles := l.cycles ++ [behind ++ [e]] }

/-- Take the first edge from the last list of pending ones. -/
def take (l : Stacks) (e : Edge) (rest : List Edge) : Stacks :=
  { l with
    pending := l.pending.dropLast ++ [rest]
    examined := l.examined ++ [e] }

/-- Look at an edge that leaves the last id of the path. -/
def examine? (edges : List Edge) (l : Stacks) (e : Edge) : Option Stacks :=
  match l.onPath.get? e.target with
  | some place => l.close? place e
  | none =>
    if l.visited.contains e.target then some l else some (l.enter edges e.target (some e))

/-- One step: look at the next edge of the last id of the path, or leave the id if no
edge is left, or go to the next node if the path is left.  A search that has come to
its end stands still. -/
def step? (edges : List Edge) (l : Stacks) : Option Stacks :=
  match l.pending.getLast?, l.waiting with
  | some (e :: rest), _ => (l.take e rest).examine? edges e
  | some [], _ => l.pop?
  | none, n :: rest =>
    if l.visited.contains n.id then some { l with waiting := rest }
    else some ({ l with waiting := rest }.start edges n.id)
  | none, [] => some l

/-- The state after a number of steps. -/
def after (nodes : List Node) (edges : List Edge) : Nat → Option Stacks
  | 0 => some { waiting := nodes }
  | n + 1 => (after nodes edges n).bind (step? edges)

/-- No node is waiting and the path is left. -/
def IsDone (l : Stacks) : Prop := l.waiting = [] ∧ l.pending = []

/-- The table has the place of every id on a path, and of no other. -/
def Places (table : Table Nat) (path : List String) : Prop :=
  ∀ x i, table.get? x = some i ↔ path[i]? = some x

/-- The stacks belong together: each id on the path has an edge it was entered by, a
list of pending edges and its place in the table; no id is on the path twice, and
none is done with; and each id but the first was entered by an edge from the one
before it. -/
structure InStep (edges : List Edge) (l : Stacks) : Prop where
  length_enteredBy : l.enteredBy.length = l.path.length
  length_pending : l.pending.length = l.path.length
  onPath : Places l.onPath l.path
  nodup : l.path.Nodup
  apart : ∀ x ∈ l.path, x ∉ l.visited
  enteredBy : ∀ i, i + 1 < l.path.length → ∃ e ∈ edges,
    l.enteredBy[i + 1]? = some (some e) ∧ l.path[i]? = some e.source ∧
      l.path[i + 1]? = some e.target

/-! ### Stacks of frames -/

/-- The stacks hold what the frames hold, the other way round, and the table has the
places on the path. -/
structure Mirrors (l : Stacks) (s : Search) : Prop where
  path : l.path = s.path.reverse
  enteredBy : l.enteredBy = (s.stack.map Frame.via).reverse
  pending : l.pending = (s.stack.map Frame.pending).reverse
  onPath : Places l.onPath l.path
  visited : l.visited = s.visited
  cycles : l.cycles = s.cycles

/-! ### Places -/

theorem places_empty : Places ∅ [] := by
  intro x i
  simp

theorem getElem?_concat_iff {path : List String} {x y : String} (h : y ≠ x) (i : Nat) :
    (path ++ [x])[i]? = some y ↔ path[i]? = some y := by
  rw [List.getElem?_append]
  split
  · exact Iff.rfl
  · rename_i hge
    rw [List.getElem?_eq_none (Nat.le_of_not_lt hge), List.getElem?_singleton]
    simp [Ne.symm h]

section

variable {table : Table Nat} {path : List String} {x : String}

theorem Places.push (h : Places table path) (hx : x ∉ path) :
    Places (table.put x path.length) (path ++ [x]) := by
  intro y i
  rw [Table.get?_put]
  by_cases hy : y = x
  · subst hy
    rw [if_pos rfl]
    constructor
    · intro hi
      cases hi
      exact List.getElem?_concat_length
    · -- the id is at no other place
      intro hi
      rw [List.getElem?_append] at hi
      split at hi
      · exact absurd (List.mem_of_getElem? hi) hx
      · rename_i hge
        obtain ⟨hlt, -⟩ := List.getElem?_eq_some_iff.mp hi
        rw [List.length_singleton] at hlt
        exact congrArg some (by omega)
  · rw [if_neg hy, h y i, getElem?_concat_iff hy]

theorem Places.pop (h : Places table (path ++ [x])) (hx : x ∉ path) :
    Places (table.erase x) path := by
  intro y i
  rw [Table.get?_erase]
  by_cases hy : y = x
  · subst hy
    rw [if_pos rfl]
    refine ⟨fun hnone => (Option.some_ne_none _ hnone.symm).elim, fun hmem => ?_⟩
    exact absurd (List.mem_of_getElem? hmem) hx
  · rw [if_neg hy, h y i, getElem?_concat_iff hy]

theorem Places.get?_eq_none_iff (h : Places table path) : table.get? x = none ↔ x ∉ path := by
  rw [Option.eq_none_iff_forall_ne_some, List.mem_iff_getElem?, not_exists]
  exact forall_congr' fun i => not_congr (h x i)

theorem Places.eq_empty (h : Places table []) : table = ∅ := by
  have hkeys : table.keys = [] := by
    rw [List.eq_nil_iff_forall_not_mem]
    intro y hy
    rw [← Table.contains_iff_mem_keys, Table.contains,
      h.get?_eq_none_iff.mpr List.not_mem_nil] at hy
    cases hy
  obtain ⟨entries, distinct⟩ := table
  obtain rfl : entries = [] := List.map_eq_nil_iff.mp hkeys
  rfl

end

end Stacks

/-- On a path each id but the first was entered by an edge from the one before. -/
theorem IsPath.enteredBy {edges : List Edge} {stack : List Frame} (h : IsPath edges stack)
    {i : Nat} (hi : i + 1 < stack.length) :
    ∃ e ∈ edges, (stack.map Frame.via).reverse[i + 1]? = some (some e) ∧
      (stack.map Frame.id).reverse[i]? = some e.source ∧
      (stack.map Frame.id).reverse[i + 1]? = some e.target := by
  induction stack with
  | nil => cases hi
  | cons f below ih =>
    obtain ⟨hattached, hbelow⟩ := h
    simp only [List.map_cons, List.reverse_cons]
    by_cases hlast : i + 1 = below.length
    · -- the last id hangs on the one below it
      rcases below with - | ⟨g, below⟩
      · cases hlast
      · obtain ⟨e, he, hvia, hsource, htarget⟩ := hattached
        simp only [List.length_cons, Nat.add_right_cancel_iff] at hlast
        refine ⟨e, he, ?_⟩
        simp [hlast, hvia, hsource, htarget]
    · have hlt : i + 1 < below.length := by
        rw [List.length_cons] at hi
        omega
      obtain ⟨e, he, hvia, hsource, htarget⟩ := ih hbelow hlt
      refine ⟨e, he, ?_, ?_, ?_⟩
      · rw [List.getElem?_append_left (by simpa using hlt), hvia]
      · rw [List.getElem?_append_left (by simp; omega), hsource]
      · rw [List.getElem?_append_left (by simpa using hlt), htarget]

/-- Above the first id of a path every id has an edge it was entered by. -/
theorem IsPath.map_via {edges : List Edge} {above below : List Frame} {f : Frame}
    (h : IsPath edges (above ++ f :: below)) :
    above.map Frame.via = (above.filterMap Frame.via).map some := by
  induction above with
  | nil => rfl
  | cons g above ih =>
    obtain ⟨hattached, hrest⟩ := h
    have hvia : ∃ e, g.via = some e := by
      rcases above with - | ⟨g', above⟩
      · obtain ⟨e, -, hvia, -⟩ := hattached
        exact ⟨e, hvia⟩
      · obtain ⟨e, -, hvia, -⟩ := hattached
        exact ⟨e, hvia⟩
    obtain ⟨e, hvia⟩ := hvia
    rw [List.map_cons, List.filterMap_cons, hvia, ih hrest]
    rfl

/-- A stack is cut at the frame of an id. -/
theorem exists_frame_of_mem {x : String} {stack : List Frame} (h : x ∈ stack.map Frame.id) :
    ∃ above f below, stack = above ++ f :: below ∧ f.id = x ∧
      stack.takeWhile (fun f => f.id != x) = above := by
  induction stack with
  | nil => cases h
  | cons f stack ih =>
    by_cases hf : f.id = x
    · exact ⟨[], f, stack, rfl, hf, List.takeWhile_cons_of_neg (by simp [hf])⟩
    · have hrest : x ∈ stack.map Frame.id := List.mem_of_ne_of_mem (Ne.symm hf) h
      obtain ⟨above, g, below, rfl, hg, habove⟩ := ih hrest
      refine ⟨f :: above, g, below, rfl, hg, ?_⟩
      rw [List.takeWhile_cons_of_pos (by simpa using hf), habove]

/-- Only ids on the path have pending edges. -/
theorem Sound.filter_pending {edges : List Edge} {s : Search} (h : Sound edges s) {id : String}
    (hid : id ∉ s.path) :
    (s.stack.flatMap Frame.pending).filter (fun e => e.source == id) = [] := by
  rw [List.filter_eq_nil_iff]
  intro e he hsource
  obtain ⟨f, hf, he⟩ := List.mem_flatMap.mp he
  have hframe := (h.pending f hf e he).2
  exact hid (eq_of_beq hsource ▸ hframe ▸ List.mem_map_of_mem hf)

theorem mapM_map_some (es : List Edge) : (es.map some).mapM id = some es := by
  induction es with
  | nil => rfl
  | cons e es ih => simp [ih]

namespace Stacks

variable {nodes : List Node} {edges : List Edge} {l : Stacks} {s : Search}

/-! ### The same steps on both -/

theorem Mirrors.inStep (h : Mirrors l s) (hsound : Sound edges s)
    (hapart : ∀ x ∈ s.path, x ∉ s.visited) : InStep edges l where
  length_enteredBy := by rw [h.enteredBy, h.path]; simp [Search.path]
  length_pending := by rw [h.pending, h.path]; simp [Search.path]
  onPath := h.onPath
  nodup := by rw [h.path]; exact (List.reverse_perm _).nodup_iff.mpr hsound.nodup
  apart := by
    intro x hx
    rw [h.path, List.mem_reverse] at hx
    rw [h.visited]
    exact hapart x hx
  enteredBy := by
    intro i hi
    have hlength : i + 1 < s.stack.length := by
      rw [h.path] at hi
      simpa [Search.path] using hi
    rw [h.enteredBy, h.path]
    exact hsound.isPath.enteredBy hlength

theorem Mirrors.get?_onPath_eq_none (h : Mirrors l s) {x : String} (hx : x ∉ s.path) :
    l.onPath.get? x = none := by
  rw [h.onPath.get?_eq_none_iff, h.path, List.mem_reverse]
  exact hx

/-- The edges behind a place on the path are those of the cycle that begins there. -/
theorem Mirrors.examine?_of_mem_path (h : Mirrors l s) (hsound : Sound edges s) {e : Edge}
    (htarget : e.target ∈ s.path) :
    l.examine? edges e =
      some { l with cycles := s.cycles ++ [Search.closedBy s.stack e] } := by
  obtain ⟨above, f, below, hstack, hid, htake⟩ := exists_frame_of_mem htarget
  have hpath := hsound.isPath
  rw [hstack] at hpath
  have hplace : l.onPath.get? e.target = some below.length := by
    rw [h.onPath, h.path, Search.path, hstack]
    simp [← hid]
  have hbehind : l.enteredBy.drop (below.length + 1) =
      (above.filterMap Frame.via).reverse.map some := by
    rw [h.enteredBy, hstack, List.map_append, List.reverse_append, List.map_cons,
      List.reverse_cons, List.drop_left' (by simp), hpath.map_via, List.map_reverse]
  simp only [examine?, hplace, close?, hbehind, mapM_map_some, Search.closedBy, htake, h.cycles]
  rfl

theorem Mirrors.examine?_of_mem_visited (h : Mirrors l s) {e : Edge} (hpath : e.target ∉ s.path)
    (hvisited : e.target ∈ s.visited) : l.examine? edges e = some l := by
  have hcontains : l.visited.contains e.target := by
    rw [h.visited]
    exact List.contains_iff_mem.mpr hvisited
  simp only [examine?, h.get?_onPath_eq_none hpath, hcontains, if_true]

theorem Mirrors.examine?_of_not_mem (h : Mirrors l s) {e : Edge} (hpath : e.target ∉ s.path)
    (hvisited : e.target ∉ s.visited) :
    l.examine? edges e = some (l.enter edges e.target (some e)) := by
  have hcontains : ¬ l.visited.contains e.target := by
    rw [h.visited, List.contains_iff_mem]
    exact hvisited
  simp only [examine?, h.get?_onPath_eq_none hpath, hcontains, if_false, Bool.false_eq_true]

theorem Mirrors.getLast?_pending (h : Mirrors l s) :
    l.pending.getLast? = s.stack.head?.map Frame.pending := by
  rw [h.pending, List.getLast?_reverse, List.head?_map]

/-- Between two paths there is nothing to be thrown away. -/
theorem Mirrors.start_eq_enter (h : Mirrors l s) (hstack : s.stack = []) (id : String) :
    l.start edges id = l.enter edges id none := by
  have hpath : l.path = [] := by rw [h.path, Search.path, hstack]; rfl
  have htable : l.onPath = ∅ := by
    have hplaces := h.onPath
    rw [hpath] at hplaces
    exact hplaces.eq_empty
  rw [start, enter, hpath, htable, h.enteredBy, h.pending, hstack]
  rfl

end Stacks

end GrammarDiagram.Cycle
