/-
GrammarDiagram/Proofs/Account.lean

The whole search with its stacks apart.

No step fails, and the searches with stacks and with frames do the same
(`search_in_step`): the stacks of every state are those of a state with frames.
`Account` also says where the edges of every id are: looked at, pending or waiting,
in this order.  The search ends, since every step makes the state with frames
smaller, and then no edge is pending, and none of an id that was entered is waiting.
-/
import GrammarDiagram.Proofs.Stacks

namespace GrammarDiagram.Cycle.Stacks

variable {nodes : List Node} {edges : List Edge} {l : Stacks} {s : Search}

/-! ### The account of ids and edges -/

/-- What the stacks and the history of a search have to do with its frames: the edges
of every id were looked at, are pending, or wait for the id to be entered, in this
order; and the ids entered are those on the path and those done with. -/
structure Account (edges : List Edge) (l : Stacks) (s : Search) : Prop where
  mirrors : Mirrors l s
  sound : Sound edges s
  apart : ∀ x ∈ s.path, x ∉ s.visited
  ledger : ∀ id, (l.examined ++ (s.stack.flatMap Frame.pending ++ s.unexplored)).filter
    (fun e => e.source == id) = outgoing edges id
  nodup : l.entered.Nodup
  entered : ∀ id, id ∈ l.entered ↔ id ∈ s.path ∨ id ∈ s.visited
  examined : ∀ e ∈ l.examined, e.source ∈ l.entered
  fresh : ∀ e ∈ s.unexplored, e.source ∉ l.entered

namespace Account

theorem init (nodes : List Node) (edges : List Edge) :
    Account edges { waiting := nodes } { unexplored := edges } where
  mirrors := ⟨rfl, rfl, rfl, places_empty, rfl, rfl⟩
  sound := .init edges
  apart := by simp [Search.path]
  ledger := fun _ => rfl
  nodup := List.nodup_nil
  entered := by simp [Search.path]
  examined := by simp
  fresh := by simp

/-- The edges of an id that was not entered are all waiting. -/
theorem outgoing_eq (h : Account edges l s) {id : String} (hpath : id ∉ s.path)
    (hvisited : id ∉ s.visited) :
    s.unexplored.filter (fun e => e.source == id) = outgoing edges id := by
  have hnew : id ∉ l.entered := fun hid => ((h.entered id).mp hid).elim hpath hvisited
  have hexamined : l.examined.filter (fun e => e.source == id) = [] := by
    rw [List.filter_eq_nil_iff]
    intro e he hid
    exact hnew (eq_of_beq hid ▸ h.examined e he)
  rw [← h.ledger id, List.filter_append, List.filter_append, hexamined,
    h.sound.filter_pending hpath]
  rfl

/-- An edge that is looked at goes from the pending ones to those looked at. -/
theorem take {id : String} {via : Option Edge} {e : Edge} {rest : List Edge} {below : List Frame}
    {unexplored : List Edge} {visited : List String} {cycles : List (List Edge)}
    (h : Account edges l ⟨⟨id, via, e :: rest⟩ :: below, unexplored, visited, cycles⟩) :
    Account edges (l.take e rest)
      ⟨⟨id, via, rest⟩ :: below, unexplored, visited, cycles⟩ where
  mirrors := by
    refine ⟨h.mirrors.path, h.mirrors.enteredBy, ?_, h.mirrors.onPath, h.mirrors.visited,
      h.mirrors.cycles⟩
    show l.pending.dropLast ++ [rest] = _
    rw [h.mirrors.pending]
    simp
  sound := h.sound.look.2
  apart := h.apart
  ledger := by
    intro x
    rw [← h.ledger x]
    simp [Stacks.take]
  nodup := h.nodup
  entered := h.entered
  examined := by
    rw [Stacks.take, List.forall_mem_append, List.forall_mem_singleton]
    refine ⟨h.examined, (h.entered _).mpr (.inl ?_)⟩
    rw [h.sound.look.1.2]
    exact List.mem_cons_self
  fresh := h.fresh

theorem enter (h : Account edges l s) {id : String} {via : Option Edge} (hpath : id ∉ s.path)
    (hvisited : id ∉ s.visited) (hvia : Attached edges id via s.stack) :
    Account edges (l.enter edges id via) (s.enter id via) := by
  have hnew : id ∉ l.entered := fun hid => ((h.entered id).mp hid).elim hpath hvisited
  have hout := h.outgoing_eq hpath hvisited
  refine ⟨⟨?_, ?_, ?_, ?_, h.mirrors.visited, h.mirrors.cycles⟩, h.sound.enter hpath hvia, ?_, ?_,
    ?_, ?_, ?_, ?_⟩
  · show l.path ++ [id] = _
    rw [h.mirrors.path]
    simp [Search.enter, Search.path]
  · show l.enteredBy ++ [via] = _
    rw [h.mirrors.enteredBy]
    simp [Search.enter]
  · show l.pending ++ [outgoing edges id] = _
    rw [h.mirrors.pending, ← hout]
    simp [Search.enter]
  · refine h.mirrors.onPath.push ?_
    rwa [h.mirrors.path, List.mem_reverse]
  · exact List.forall_mem_cons.mpr ⟨hvisited, h.apart⟩
  · -- what waits for the id is put in front of what is pending, and nothing else is moved
    intro x
    rw [← h.ledger x]
    show (l.examined ++ (s.unexplored.filter (fun e => e.source == id) ++
      s.stack.flatMap Frame.pending ++ s.unexplored.filter fun e => !(e.source == id))).filter _ = _
    simp only [List.filter_append, List.filter_filter, List.append_assoc]
    by_cases hx : x = id
    · subst hx
      rw [h.sound.filter_pending hpath]
      simp
    · have hnone : s.unexplored.filter (fun e => e.source == x && e.source == id) = [] := by
        simp only [List.filter_eq_nil_iff, Bool.and_eq_true, beq_iff_eq]
        rintro e - ⟨rfl, hid⟩
        exact hx hid
      have hall : s.unexplored.filter (fun e => e.source == x && !(e.source == id)) =
          s.unexplored.filter fun e => e.source == x := by
        refine List.filter_congr fun e _ => ?_
        by_cases he : e.source = x
        · simp [he, hx]
        · simp [he]
      rw [hnone, hall]
      rfl
  · exact List.nodup_append.mpr ⟨h.nodup, by simp,
      fun a ha b hb hab => hnew (List.mem_singleton.mp hb ▸ hab ▸ ha)⟩
  · intro x
    show x ∈ l.entered ++ [id] ↔ x ∈ id :: s.path ∨ x ∈ s.visited
    rw [List.mem_append, h.entered, List.mem_singleton, List.mem_cons]
    tauto
  · exact fun e he => List.mem_append_left _ (h.examined e he)
  · intro e he hmem
    obtain ⟨hold, hsource⟩ := List.mem_filter.mp he
    rcases List.mem_append.mp hmem with hentered | hid
    · exact h.fresh e hold hentered
    · rw [List.mem_singleton.mp hid] at hsource
      simp at hsource

/-- A cycle that is found changes nothing else. -/
theorem found {stack : List Frame} {unexplored : List Edge} {visited : List String}
    {cycles cycles' : List (List Edge)} (h : Account edges l ⟨stack, unexplored, visited, cycles⟩)
    (hsound : Sound edges ⟨stack, unexplored, visited, cycles'⟩) :
    Account edges { l with cycles := cycles' } ⟨stack, unexplored, visited, cycles'⟩ :=
  ⟨⟨h.mirrors.path, h.mirrors.enteredBy, h.mirrors.pending, h.mirrors.onPath, h.mirrors.visited,
    rfl⟩, hsound, h.apart, h.ledger, h.nodup, h.entered, h.examined, h.fresh⟩

/-- An id without pending edges is left. -/
theorem pop {id : String} {via : Option Edge} {below : List Frame} {unexplored : List Edge}
    {visited : List String} {cycles : List (List Edge)}
    (h : Account edges l ⟨⟨id, via, []⟩ :: below, unexplored, visited, cycles⟩) :
    l.pop? = some (l.pop id) ∧ l.path.length = (l.pop id).path.length + 1 ∧
      Account edges (l.pop id) ⟨below, unexplored, id :: visited, cycles⟩ := by
  have hpath : l.path = (below.map Frame.id).reverse ++ [id] := by
    rw [h.mirrors.path]
    simp [Search.path]
  have hentered : l.enteredBy = (below.map Frame.via).reverse ++ [via] := by
    rw [h.mirrors.enteredBy]
    simp
  have hid : id ∉ below.map Frame.id := (List.nodup_cons.mp h.sound.nodup).1
  have hplaces := h.mirrors.onPath
  rw [hpath] at hplaces
  have hcontains : l.onPath.contains id := by
    rw [Table.contains, (hplaces id _).mpr List.getElem?_concat_length]
    rfl
  refine ⟨?_, ?_, ⟨?_, ?_, ?_, ?_, ?_, h.mirrors.cycles⟩, h.sound.move .leave, ?_, h.ledger, h.nodup,
    ?_, h.examined, h.fresh⟩
  · rw [pop?, hpath, hentered, List.getLast?_concat, List.getLast?_concat]
    exact if_pos hcontains
  · simp [Stacks.pop, hpath]
  · simp [Stacks.pop, hpath, Search.path]
  · simp [Stacks.pop, hentered]
  · simp [Stacks.pop, h.mirrors.pending]
  · simpa [Stacks.pop, hpath] using hplaces.pop (by simpa using hid)
  · simp [Stacks.pop, h.mirrors.visited]
  · intro x hx
    have hne : x ≠ id := fun heq => hid (heq ▸ hx)
    exact List.not_mem_cons_of_ne_of_not_mem hne (h.apart x (List.mem_cons_of_mem _ hx))
  · intro x
    refine (h.entered x).trans ?_
    show x ∈ id :: below.map Frame.id ∨ x ∈ visited ↔
      x ∈ below.map Frame.id ∨ x ∈ id :: visited
    rw [List.mem_cons, List.mem_cons]
    tauto

/-- One step of the search with frames is one step on the stacks, and it looks at an
edge or leaves an id. -/
theorem step (h : Account edges l s) (hstack : s.stack ≠ []) :
    ∃ l', l.step? edges = some l' ∧ Account edges l' s.step ∧ l'.waiting = l.waiting ∧
      l'.examined.length + l'.entered.length + l.path.length =
        l.examined.length + l.entered.length + l'.path.length + 1 := by
  have hmove := move_step hstack
  generalize s.step = s' at hmove
  have hlast := h.mirrors.getLast?_pending
  cases hmove with
  | leave =>
    obtain ⟨hpop, hlength, haccount⟩ := h.pop
    refine ⟨_, ?_, haccount, rfl, ?_⟩
    · rw [step?, hlast]
      exact hpop
    · rw [hlength]
      rfl
  | close htarget =>
    have htaken := h.take
    refine ⟨_, ?_, htaken.found (h.sound.move (.close htarget)), rfl, ?_⟩
    · rw [step?, hlast]
      exact htaken.mirrors.examine?_of_mem_path htaken.sound htarget
    · simp only [Stacks.take, List.length_append, List.length_singleton]
      omega
  | skip hvisited =>
    have htaken := h.take
    refine ⟨_, ?_, htaken, rfl, ?_⟩
    · rw [step?, hlast]
      exact htaken.mirrors.examine?_of_mem_visited (fun hpath => h.apart _ hpath hvisited) hvisited
    · simp only [Stacks.take, List.length_append, List.length_singleton]
      omega
  | follow hpath hvisited =>
    have htaken := h.take
    obtain ⟨⟨he, hsource⟩, -⟩ := h.sound.look
    refine ⟨_, ?_, htaken.enter hpath hvisited ⟨_, he, rfl, hsource, rfl⟩, rfl, ?_⟩
    · rw [step?, hlast]
      exact htaken.mirrors.examine?_of_not_mem hpath hvisited
    · simp only [Stacks.enter, Stacks.take, List.length_append, List.length_singleton]
      omega

end Account

/-! ### The whole search -/

/-- What the search with frames comes to from a state on, when these nodes are still
waiting. -/
def finish (waiting : List Node) (s : Search) : Search :=
  waiting.foldl (fun s n => s.searchFrom n.id) s.run

theorem run_eq_self (h : s.stack = []) : s.run = s := by
  rw [Search.run, dif_pos h]

theorem run_step (h : s.stack ≠ []) : s.step.run = s.run := by
  conv_rhs => rw [Search.run, dif_neg h]

theorem Mirrors.pending_eq_nil_iff (h : Mirrors l s) : l.pending = [] ↔ s.stack = [] := by
  rw [h.pending, List.reverse_eq_nil_iff, List.map_eq_nil_iff]

namespace Account

/-- No stack depends on the nodes that are waiting. -/
theorem withWaiting (h : Account edges l s) (waiting : List Node) :
    Account edges { l with waiting := waiting } s :=
  ⟨⟨h.mirrors.path, h.mirrors.enteredBy, h.mirrors.pending, h.mirrors.onPath, h.mirrors.visited,
    h.mirrors.cycles⟩, h.sound, h.apart, h.ledger, h.nodup, h.entered, h.examined, h.fresh⟩

/-- When the path is left, the search goes to the next node, and begins a path there
unless the node is done with. -/
theorem nextNode (h : Account edges l s) (hstack : s.stack = []) {n : Node} {rest : List Node}
    (hwaiting : l.waiting = n :: rest) :
    ∃ l' s', l.step? edges = some l' ∧ Account edges l' s' ∧ l'.waiting = rest ∧
      finish rest s' = finish l.waiting s ∧ s'.weight ≤ s.weight + 1 ∧
      l'.examined.length + l'.entered.length + l.path.length =
        l.examined.length + l.entered.length + l'.path.length := by
  have hpending := h.mirrors.pending_eq_nil_iff.mpr hstack
  have hfinish : finish l.waiting s =
      rest.foldl (fun s n => s.searchFrom n.id) (s.searchFrom n.id) := by
    rw [hwaiting, finish, run_eq_self hstack, List.foldl_cons]
  have hrest := h.withWaiting rest
  by_cases hvisited : n.id ∈ s.visited
  · have hcontains : s.visited.contains n.id := List.contains_iff_mem.mpr hvisited
    refine ⟨_, s, ?_, hrest, rfl, ?_, Nat.le_succ _, rfl⟩
    · simp only [step?, hpending, hwaiting, List.getLast?_nil, h.mirrors.visited, hcontains, if_true]
    · rw [hfinish, Search.searchFrom, if_pos hcontains, finish, run_eq_self hstack]
  · have hcontains : ¬ s.visited.contains n.id := by rwa [List.contains_iff_mem]
    have hpath : n.id ∉ s.path := by
      rw [Search.path, hstack]
      exact List.not_mem_nil
    have hfirst : Attached edges n.id none s.stack := by
      rw [hstack]
      rfl
    refine ⟨_, _, ?_, hrest.enter hpath hvisited hfirst, rfl, ?_, ?_, ?_⟩
    · rw [← hrest.mirrors.start_eq_enter hstack]
      simp only [step?, hpending, hwaiting, List.getLast?_nil, h.mirrors.visited, hcontains,
        Bool.false_eq_true, if_false]
    · rw [hfinish, Search.searchFrom, if_neg hcontains, finish]
    · exact Nat.le_of_eq (Search.weight_enter s n.id none)
    · simp only [Stacks.enter, List.length_append, List.length_singleton]
      omega

/-- A step on the stacks succeeds, brings the search with frames nearer to its end and
does not change this end.  It goes to the next node, looks at an edge or leaves an
id. -/
theorem next (h : Account edges l s) (hdone : ¬ l.IsDone) :
    ∃ l' s', l.step? edges = some l' ∧ Account edges l' s' ∧
      finish l'.waiting s' = finish l.waiting s ∧
      2 * l'.waiting.length + s'.weight < 2 * l.waiting.length + s.weight ∧
      l'.examined.length + l'.entered.length + l.path.length + l.waiting.length =
        l.examined.length + l.entered.length + l'.path.length + l'.waiting.length + 1 := by
  by_cases hstack : s.stack = []
  · rcases hwaiting : l.waiting with - | ⟨n, rest⟩
    · exact absurd ⟨hwaiting, h.mirrors.pending_eq_nil_iff.mpr hstack⟩ hdone
    · obtain ⟨l', s', hstep, haccount, hl', hfinish, hweight, hcount⟩ :=
        h.nextNode hstack hwaiting
      rw [← hwaiting]
      refine ⟨l', s', hstep, haccount, hl' ▸ hfinish, ?_, ?_⟩
      all_goals
        rw [hl', hwaiting, List.length_cons]
        omega
  · obtain ⟨l', hstep, haccount, hl', hcount⟩ := h.step hstack
    have hweight := Search.weight_step_lt s hstack
    refine ⟨l', s.step, hstep, haccount, ?_, ?_, ?_⟩
    · rw [finish, finish, hl', run_step hstack]
    all_goals
      rw [hl']
      omega

end Account

/-- No step fails, and no step changes what the search comes to. -/
theorem exists_after (nodes : List Node) (edges : List Edge) (n : Nat) :
    ∃ l s, after nodes edges n = some l ∧ Account edges l s ∧
      finish l.waiting s = Search.ofGraph nodes edges := by
  induction n with
  | zero => exact ⟨_, _, rfl, .init nodes edges, by rw [finish, run_eq_self rfl]; rfl⟩
  | succ n ih =>
    obtain ⟨l, s, hafter, haccount, hfinish⟩ := ih
    by_cases hdone : l.IsDone
    · have hstill : l.step? edges = some l := by
        simp only [step?, hdone.1, hdone.2, List.getLast?_nil]
      exact ⟨l, s, by rw [after, hafter]; exact hstill, haccount, hfinish⟩
    · obtain ⟨l', s', hstep, haccount', hfinish', -⟩ := haccount.next hdone
      exact ⟨l', s', by rw [after, hafter]; exact hstep, haccount', hfinish'.trans hfinish⟩

/-- From every state the search comes to its end, after as many steps as there are
nodes to go to, edges to look at and ids to leave. -/
theorem exists_done {n : Nat} (h : Account edges l s) (hafter : after nodes edges n = some l)
    (hfinish : finish l.waiting s = Search.ofGraph nodes edges)
    (hcount : n + l.waiting.length + l.path.length =
      nodes.length + l.examined.length + l.entered.length) :
    ∃ l', after nodes edges (nodes.length + l'.examined.length + l'.entered.length) = some l' ∧
      l'.IsDone ∧ Account edges l' (Search.ofGraph nodes edges) := by
  induction hm : 2 * l.waiting.length + s.weight using Nat.strongRecOn generalizing l s n with
  | ind m ih =>
    by_cases hdone : l.IsDone
    · have hstack := h.mirrors.pending_eq_nil_iff.mp hdone.2
      have hs : s = Search.ofGraph nodes edges := by
        rw [← hfinish, hdone.1, finish, run_eq_self hstack]
        rfl
      have hpath : l.path = [] := by
        rw [h.mirrors.path, Search.path, hstack]
        rfl
      rw [hdone.1, hpath] at hcount
      exact ⟨l, hcount ▸ hafter, hdone, hs ▸ h⟩
    · obtain ⟨l', s', hstep, haccount, hfinish', hless, hcount'⟩ := h.next hdone
      refine ih _ (hm ▸ hless) haccount (n := n + 1) ?_ (hfinish'.trans hfinish) ?_ rfl
      · rw [after, hafter]
        exact hstep
      · omega

/-- In the end the edges of the ids that were entered have all been looked at, in
their order, and no other edge has. -/
theorem Account.filter_examined (h : Account edges l s) (hstack : s.stack = []) (id : String) :
    l.examined.filter (fun e => e.source == id) =
      if id ∈ l.entered then outgoing edges id else [] := by
  split
  · rename_i hid
    have hnone : s.unexplored.filter (fun e => e.source == id) = [] := by
      rw [List.filter_eq_nil_iff]
      intro e he hsource
      exact h.fresh e he (eq_of_beq hsource ▸ hid)
    rw [← h.ledger id, hstack, List.flatMap_nil, List.nil_append, List.filter_append, hnone,
      List.append_nil]
  · rename_i hid
    rw [List.filter_eq_nil_iff]
    intro e he hsource
    exact hid (eq_of_beq hsource ▸ h.examined e he)

/-- The search on the stacks never fails, and in every state its stacks are in step and
hold the frames of a state from which the search with frames comes to its own end.
It ends after one step for each node, each edge looked at and each id entered, with
the same cycles.  By then it has entered the ids that can be reached, each once, and
looked at every edge that leaves one of them, once for each time the edge is there. -/
theorem search_in_step (nodes : List Node) (edges : List Edge) :
    (∀ n, ∃ l s, after nodes edges n = some l ∧ InStep edges l ∧ Mirrors l s ∧
      finish l.waiting s = Search.ofGraph nodes edges) ∧
      ∃ l, after nodes edges (nodes.length + l.examined.length + l.entered.length) = some l ∧
        l.IsDone ∧ l.cycles = find nodes edges ∧
        l.entered.Nodup ∧ (∀ id, id ∈ l.entered ↔ Reachable nodes edges id) ∧
        ∀ id, l.examined.filter (fun e => e.source == id) =
          if id ∈ l.entered then outgoing edges id else [] := by
  constructor
  · intro n
    obtain ⟨l, s, hafter, haccount, hfinish⟩ := exists_after nodes edges n
    exact ⟨l, s, hafter, haccount.mirrors.inStep haccount.sound haccount.apart, haccount.mirrors,
      hfinish⟩
  · obtain ⟨l, s, hafter, haccount, hfinish⟩ := exists_after nodes edges 0
    cases hafter
    obtain ⟨l, hlast, hdone, haccount⟩ := exists_done (n := 0) haccount rfl hfinish (by simp)
    have hstack := haccount.mirrors.pending_eq_nil_iff.mp hdone.2
    refine ⟨l, hlast, hdone, haccount.mirrors.cycles, haccount.nodup, fun id => ?_,
      haccount.filter_examined hstack⟩
    rw [haccount.entered, Search.path, hstack, mem_visited_iff]
    simp

end GrammarDiagram.Cycle.Stacks
